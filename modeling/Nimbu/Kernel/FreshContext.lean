import Nimbu.Kernel.Create

/-!
# The registers of a fresh process

Two kernels that differ only in heap memory nobody uses run `proc_create` in step:
they allocate the same frames and serve the context from the same block. The
contexts still need not be the same, because `proc_create` assigns nine of the
nineteen fields, and `kmalloc` hands out the block as its last owner left it.
-/

namespace Nimbu

/-- The bytes of the heap nobody uses: the payload of the free blocks, and all that
lies behind the last block. -/
def HeapState.spareBytes (h : HeapState) (bs : List Block) : Set Word :=
  {a | (∃ o b i, (o, b) ∈ Block.place 0 bs ∧ b.inUse = false ∧ 12 ≤ i ∧ i < b.size ∧
      a = h.addr (o + i)) ∨
    ∃ i, h.used.toNat ≤ i ∧ i < h.size.toNat ∧ a = h.addr i}

/-- The heap is tiled by blocks, every page has a bit in the bitmap, and the bitmap
holds no byte of a block header. -/
structure Kernel.WellFormed (k : Kernel Mem) (bs : List Block) : Prop where
  /-- The heap is tiled by blocks. -/
  tiled : k.heap.Tiled k.mem.bytes bs
  /-- Every page has a bit. -/
  pages_le : k.pmm.totalPages.toNat ≤ 8 * k.pmm.bitmapSize.toNat
  /-- No header reaches the bitmap. -/
  apart : ∀ o b, (o, b) ∈ Block.place 0 bs → ∀ j < 12, k.heap.addr (o + j) ∉ k.pmm.bitmapBytes

/-- Two kernels differ only in heap memory nobody uses. The bitmap of the frame
allocator is in use, wherever it lies. -/
structure Kernel.SameInUse (k₁ k₂ : Kernel Mem) (bs : List Block) : Prop where
  /-- The records of the frame allocator are the same. -/
  pmm_eq : k₂.pmm = k₁.pmm
  /-- The records of the heap are the same. -/
  heap_eq : k₂.heap = k₁.heap
  /-- The process tables are the same. -/
  procs_eq : k₂.procs = k₁.procs
  /-- The memories are the same but for the spare bytes of the heap. -/
  bytes_eq : ∀ c, c ∉ k₁.heap.spareBytes bs ∨ c ∈ k₁.pmm.bitmapBytes →
    k₁.mem.bytes c = k₂.mem.bytes c

/-- A field of the context that the control block of a slot points to. -/
def Kernel.contextWord (k : Kernel Mem) (i : Slot) (f : ContextField) : Word :=
  k.mem.bytes.word ((k.procs.table i).context + f.offset)

/-- The fields of a context that `proc_create` assigns nothing to. -/
def ContextField.unassigned : List ContextField :=
  [.edi, .esi, .ebp, .ebx, .edx, .ecx, .eax, .intNo, .errCode, .userEsp]

/-- The memories of two kernels hold the same words where `kmalloc` serves a context
and `proc_create` assigns nothing. -/
def Kernel.SameLeftovers (k₁ k₂ : Kernel Mem) (bs : List Block) : Prop :=
  ∃ o, k₁.heap.placeFor bs contextSize = some o ∧ ∀ f ∈ ContextField.unassigned,
    k₁.mem.bytes.word (k₁.heap.addr (o + 12) + f.offset) =
      k₂.mem.bytes.word (k₁.heap.addr (o + 12) + f.offset)

section Frames

variable {s s' s₁ s₂ : PmmState} {m m' m₁ m₁' m₂ m₂' : Mem} {a a₁ a₂ b b₁ b₂ : Word}

/-- Two memories hold the same bits for the pages. -/
def PmmState.SameBits (s : PmmState) (v₁ v₂ : Bytes) : Prop :=
  ∀ i : Word, i.toNat < s.totalPages.toNat → v₁ (s.bitmap + i / 8) = v₂ (s.bitmap + i / 8)

/-- The search for a free page reads the bits of the pages only. -/
theorem findFreePageFrom_congr (hsame : s.SameBits m₁.bytes m₂.bytes) {remaining : ℕ} {i : Word}
    (hi : i.toNat + remaining = s.totalPages.toNat) :
    findFreePageFrom Mem.bus s m₁ remaining i = findFreePageFrom Mem.bus s m₂ remaining i := by
  induction remaining generalizing i with
  | zero => rfl
  | succ remaining ih =>
    have hlt := s.totalPages.isLt
    have hnext : (i + 1).toNat + remaining = s.totalPages.toNat := by bv_omega
    simp only [findFreePageFrom, bitmapTestBit, Mem.bus_load, hsame i (by omega), ih hnext]

/-- In two memories with the same bits `pmm_alloc` leaves the same record, and makes the
memories neither more nor less alike. -/
theorem pmmAlloc_agree (hsame : s.SameBits m₁.bytes m₂.bytes)
    (hcall₁ : pmmAlloc Mem.bus s m₁ = some (a₁, s₁, m₁'))
    (hcall₂ : pmmAlloc Mem.bus s m₂ = some (a₂, s₂, m₂')) :
    s₂ = s₁ ∧ ∀ c, m₁'.bytes c = m₂'.bytes c ↔ m₁.bytes c = m₂.bytes c := by
  have hfind : findFreePage Mem.bus s m₁ = findFreePage Mem.bus s m₂ :=
    findFreePageFrom_congr hsame (Nat.zero_add _)
  rcases pmmAlloc_mem hcall₁ with ⟨hnone₁, rfl, rfl⟩ | ⟨i, hfind₁, hsome, hlt, rfl, rfl⟩
  · rcases pmmAlloc_mem hcall₂ with ⟨-, rfl, rfl⟩ | ⟨j, hfind₂, hsome₂, -⟩
    · exact ⟨rfl, fun c => Iff.rfl⟩
    · rw [← hfind, hnone₁] at hfind₂
      exact absurd (Option.some.inj hfind₂).symm hsome₂
  · rcases pmmAlloc_mem hcall₂ with ⟨hnone₂, -⟩ | ⟨j, hfind₂, -, -, rfl, rfl⟩
    · rw [← hfind, hfind₁] at hnone₂
      exact absurd (Option.some.inj hnone₂) hsome
    · obtain rfl : i = j := Option.some.inj (hfind₁.symm.trans (hfind.trans hfind₂))
      refine ⟨rfl, fun c => ?_⟩
      -- Both bytes were the same before, so both are the same after.
      have hbyte := hsame i hlt
      rw [Mem.bytes_put, Mem.bytes_put, Bytes.put_apply, Bytes.put_apply, hbyte]
      by_cases hc : c = s.bitmap + i / 8
      · rw [if_pos hc, if_pos hc, hc]
        exact iff_of_true rfl hbyte
      · rw [if_neg hc, if_neg hc]

/-- `pmm_alloc` writes to the bitmap only, which stays where it is. -/
theorem pmmAlloc_outside (hpages : s.totalPages.toNat ≤ 8 * s.bitmapSize.toNat)
    (hcall : pmmAlloc Mem.bus s m = some (a, s', m')) :
    s'.bitmap = s.bitmap ∧ s'.totalPages = s.totalPages ∧ s'.bitmapSize = s.bitmapSize ∧
      ∀ c ∉ s.bitmapBytes, m'.bytes c = m.bytes c := by
  rcases pmmAlloc_mem hcall with ⟨-, rfl, rfl⟩ | ⟨i, -, -, hlt, rfl, rfl⟩
  · exact ⟨rfl, rfl, rfl, fun c _ => rfl⟩
  · refine ⟨rfl, rfl, rfl, fun c hc => Bytes.put_of_ne _ ?_⟩
    rintro rfl
    exact hc (PmmState.page_mem_bitmapBytes hpages hlt)

/-- The frame allocations of `proc_create` in two memories with the same bits. -/
theorem procCreateFrames_agree (hpages : s.totalPages.toNat ≤ 8 * s.bitmapSize.toNat)
    (hsame : s.SameBits m₁.bytes m₂.bytes)
    (hcall₁ : procCreateFrames Mem.bus s m₁ = some (a₁, b₁, s₁, m₁'))
    (hcall₂ : procCreateFrames Mem.bus s m₂ = some (a₂, b₂, s₂, m₂')) (c : Word) :
    m₁'.bytes c = m₂'.bytes c ↔ m₁.bytes c = m₂.bytes c := by
  obtain ⟨t₁, n₁, hfirst₁, hsecond₁⟩ := procCreateFrames_allocs hcall₁
  obtain ⟨t₂, n₂, hfirst₂, hsecond₂⟩ := procCreateFrames_allocs hcall₂
  obtain ⟨rfl, hagree⟩ := pmmAlloc_agree hsame hfirst₁ hfirst₂
  obtain ⟨hbitmap, htotal, -⟩ := pmmAlloc_outside hpages hfirst₁
  have hbits : t₂.SameBits n₁.bytes n₂.bytes := by
    intro i hi
    rw [htotal] at hi
    rw [hbitmap, hagree]
    exact hsame i hi
  rw [(pmmAlloc_agree hbits hsecond₁ hsecond₂).2 c, hagree]

/-- The frame allocations of `proc_create` write to the bitmap only. -/
theorem procCreateFrames_outside (hpages : s.totalPages.toNat ≤ 8 * s.bitmapSize.toNat)
    (hcall : procCreateFrames Mem.bus s m = some (a, b, s', m')) {c : Word}
    (hc : c ∉ s.bitmapBytes) : m'.bytes c = m.bytes c := by
  obtain ⟨s₁, m₁, hfirst, hsecond⟩ := procCreateFrames_allocs hcall
  obtain ⟨hbitmap, htotal, hsize, hkept₁⟩ := pmmAlloc_outside hpages hfirst
  obtain ⟨-, -, -, hkept₂⟩ := pmmAlloc_outside (by rw [htotal, hsize]; exact hpages) hsecond
  have hbytes : s₁.bitmapBytes = s.bitmapBytes := by
    simp only [PmmState.bitmapBytes, hbitmap, hsize]
  rw [hkept₂ c (by rw [hbytes]; exact hc), hkept₁ c hc]

end Frames

variable {k k' k₁ k₂ k₁' k₂' : Kernel Mem} {bs : List Block} {entryPoint priority : Word}
  {i i₁ i₂ : Slot}

/-- No byte of a header is spare. -/
theorem HeapState.Tiled.header_notMem_spareBytes {h : HeapState} {v : Bytes}
    (ht : h.Tiled v bs) {o j : ℕ} {b : Block} (hb : (o, b) ∈ Block.place 0 bs) (hj : j < 12) :
    h.addr (o + j) ∉ h.spareBytes bs := by
  have hsize := ht.size_le
  have hused := ht.used_le
  have hle := ht.block_le hb
  rintro (⟨o', b', n, hb', -, hlo, hhi, heq⟩ | ⟨n, hlo, hhi, heq⟩)
  · have hle' := ht.block_le hb'
    rw [h.addr_inj (by omega) (by omega)] at heq
    rcases Block.place_disjoint hb hb' with ⟨rfl, -⟩ | hbefore | hbefore <;> omega
  · rw [h.addr_inj (by omega) (by omega)] at heq
    omega

/-- The kernels of the other results about `proc_create` are well formed. -/
theorem Kernel.Sound.wellFormed {F : Frames} (hk : k.Sound F bs) : k.WellFormed bs where
  tiled := hk.tiled
  pages_le := by
    have htotal := hk.pmm.2.2.2.total_eq
    have hsize := hk.pmm.2.2.2.size_eq
    simp only at htotal hsize
    omega
  apart := fun _ _ hb _ hj => hk.header_notMem hb hj

/-- A kernel that differs in spare bytes only is well formed too. -/
theorem Kernel.SameInUse.wellFormed (hsame : k₁.SameInUse k₂ bs) (hk : k₁.WellFormed bs) :
    k₂.WellFormed bs where
  tiled := by
    rw [hsame.heap_eq]
    refine hk.tiled.congr fun o b hb j hj => (hsame.bytes_eq _ (Or.inl ?_)).symm
    exact hk.tiled.header_notMem_spareBytes hb hj
  pages_le := by
    rw [hsame.pmm_eq]
    exact hk.pages_le
  apart := by
    rw [hsame.pmm_eq, hsame.heap_eq]
    exact hk.apart

/-- The two kernels have the same bits for the pages. -/
theorem Kernel.SameInUse.sameBits (hsame : k₁.SameInUse k₂ bs) (hk : k₁.WellFormed bs) :
    k₁.pmm.SameBits k₁.mem.bytes k₂.mem.bytes := fun _ hi =>
  hsame.bytes_eq _ (Or.inr (PmmState.page_mem_bitmapBytes hk.pages_le hi))

/-- **The context of a created process.** It lies where the heap serves requests of its
size; a field holds what `proc_create` assigns to it, or else what the memory held there
behind the frame allocations. -/
theorem Kernel.WellFormed.context (hk : k.WellFormed bs)
    (hcall : procCreate Mem.bus Mem.bus k entryPoint priority = some ((i.val : ℤ), k')) :
    ∃ o a b m, k.heap.placeFor bs contextSize = some o ∧
      procCreateFrames Mem.bus k.pmm k.mem = some (a, b, k'.pmm, m) ∧
      ∀ f, k'.contextWord i f =
        ((initialRegisters entryPoint (kernelStackOf k.procs.nextPid)).lookup f).getD
          (m.bytes.word (k.heap.addr (o + 12) + f.offset)) := by
  obtain ⟨i', a, b, context, hi, hserved⟩ := procCreate_served hcall (by omega)
  obtain rfl : i = i' := Fin.ext (by exact_mod_cast hi)
  obtain ⟨m, m₂, hframes, hkmalloc, hinit⟩ := hserved.calls
  have ht : k.heap.Tiled m.bytes bs := hk.tiled.congr fun o b hb j hj =>
    procCreateFrames_outside hk.pages_le hframes (hk.apart o b hb j hj)
  rcases kmalloc_placed ht contextSize with ⟨-, hnone⟩ |
    ⟨o, h', m₂', bs', hplace, -, hsome, ht', hstart, hsize, -, ⟨blk, hblk, hroom⟩, -, hkept⟩
  · -- The heap served the context, so it did not refuse it.
    obtain ⟨rfl, -⟩ : 0 = context ∧ _ := by simpa using hnone.symm.trans hkmalloc
    exact absurd rfl hserved.context_ne
  · obtain ⟨rfl, -, rfl⟩ : k.heap.addr (o + 12) = context ∧ h' = k'.heap ∧ m₂' = m₂ := by
      simpa using hsome.symm.trans hkmalloc
    have hcontext : (k'.procs.table i).context = k.heap.addr (o + 12) := by
      rw [hserved.block]
      rfl
    have hreq : requestSize contextSize.toNat = 88 := rfl
    have hle := ht'.block_le hblk
    have hused := ht'.used_le
    have hend := ht'.end_le
    rw [hsize] at hused hend
    rw [hstart] at hend
    have hbound := ht.size_le
    have haddr := k.heap.toNat_addr (o := o + 12) (by omega)
    refine ⟨o, a, b, m, hplace, hframes, fun f => ?_⟩
    unfold Kernel.contextWord
    rw [hcontext, initContext_word hinit (by omega)]
    congr 1
    -- The header that `kmalloc` writes ends before the context.
    rw [Bytes.word_eq_iff]
    intro j hj
    have hoff := f.offset_le
    refine hkept _ fun n hn => ?_
    rw [show f.offset = BitVec.ofNat 32 f.offset.toNat by simp, k.heap.addr_add, k.heap.addr_add,
      Ne, k.heap.addr_inj (by omega) (by omega)]
    omega

/-- The fields that `proc_create` assigns nothing to. -/
theorem initialRegisters_lookup_eq_none_iff {kernelStack : Word} {f : ContextField} :
    (initialRegisters entryPoint kernelStack).lookup f = none ↔ f ∈ ContextField.unassigned := by
  rw [List.lookup_eq_none_iff]
  cases f <;> simp [initialRegisters, ContextField.unassigned]

/-- **A fresh context shows what the heap memory held before.** In two kernels that differ
only in heap memory nobody uses, successful calls of `proc_create` with the same arguments
produce the same context exactly when the memories already agreed on the ten fields that
`proc_create` does not assign, at the place where the heap serves the context. -/
theorem procCreate_context_iff (hk : k₁.WellFormed bs) (hsame : k₁.SameInUse k₂ bs)
    (hcall₁ : procCreate Mem.bus Mem.bus k₁ entryPoint priority = some ((i₁.val : ℤ), k₁'))
    (hcall₂ : procCreate Mem.bus Mem.bus k₂ entryPoint priority = some ((i₂.val : ℤ), k₂')) :
    (∀ f, k₁'.contextWord i₁ f = k₂'.contextWord i₂ f) ↔ k₁.SameLeftovers k₂ bs := by
  obtain ⟨o, a₁, b₁, m₁, hplace, hframes₁, hwords₁⟩ := hk.context hcall₁
  obtain ⟨o₂, a₂, b₂, m₂, hplace₂, hframes₂, hwords₂⟩ := (hsame.wellFormed hk).context hcall₂
  rw [hsame.heap_eq, hplace] at hplace₂
  obtain rfl := Option.some.inj hplace₂
  rw [hsame.pmm_eq] at hframes₂
  have hagree := procCreateFrames_agree hk.pages_le (hsame.sameBits hk) hframes₁ hframes₂
  -- The frame allocations make no word of the two memories the same, and none different.
  have hword : ∀ a, m₁.bytes.word a = m₂.bytes.word a ↔
      k₁.mem.bytes.word a = k₂.mem.bytes.word a := by
    intro a
    simp only [Bytes.word_eq_iff, hagree]
  simp only [hwords₁, hwords₂, hsame.procs_eq, hsame.heap_eq]
  unfold Kernel.SameLeftovers
  constructor
  · intro hfields
    refine ⟨o, hplace, fun f hf => (hword _).mp ?_⟩
    simpa only [initialRegisters_lookup_eq_none_iff.mpr hf, Option.getD_none] using hfields f
  · rintro ⟨o', hplace', hold⟩ f
    rw [hplace] at hplace'
    obtain rfl := Option.some.inj hplace'
    cases hlookup : (initialRegisters entryPoint (kernelStackOf k₁.procs.nextPid)).lookup f with
    | none => exact (hword _).mpr (hold f (initialRegisters_lookup_eq_none_iff.mp hlookup))
    | some w => rfl

/-- The small kernel after `kmalloc(76)`, a byte that the owner stored in the block, and
`kfree`. -/
def recycledKernel (i : ℕ) (b : Byte) : Kernel Mem :=
  { smallKernel with
    heap := { smallKernel.heap with used := 88 }
    mem := ((smallKernel.heap.putHeader smallKernel.mem 0 88).put
      (smallKernel.heap.addr (12 + i)) b).put (smallKernel.heap.addr 8) 0 }

example : (do
    let (p, h, m) ← kmalloc Mem.bus smallKernel.heap smallKernel.mem contextSize
    let m ← Mem.bus.store m (p + ContextField.eax.offset) 7
    let (ret, m) ← kfree Mem.bus m p
    return (ret, h, m)) = some (0, (recycledKernel 44 7).heap, (recycledKernel 44 7).mem) := rfl

/-- The recycled block is the only one, and it is free. -/
theorem recycledKernel_wellFormed {i : ℕ} (hi : i < 76) (b : Byte) :
    (recycledKernel i b).WellFormed [⟨88, false⟩] where
  tiled := by
    have hempty : smallKernel.heap.Tiled smallKernel.mem.bytes [] :=
      (HeapClient.init_sound smallKernel.mem (by decide) (by decide)).tiled
    have hused := hempty.append (t := 88) (by decide) (by decide)
    have hstored : ({ smallKernel.heap with used := 88 } : HeapState).Tiled
        ((smallKernel.heap.putHeader smallKernel.mem 0 88).put
          (smallKernel.heap.addr (12 + i)) b).bytes ([] ++ ⟨88, true⟩ :: []) := by
      refine hused.congr fun o c hc j hj => Bytes.put_of_ne _ ?_
      obtain ⟨rfl, -⟩ : o = 0 ∧ c = ⟨88, true⟩ := by simpa [Block.place] using hc
      change smallKernel.heap.addr (0 + j) ≠ _
      rw [Ne, smallKernel.heap.addr_inj (by omega) (by omega)]
      omega
    exact hstored.mark false (by decide)
  pages_le := show (16 : Word).toNat ≤ 8 * (2 : Word).toNat by decide
  apart := by
    intro o c hc j hj
    obtain ⟨rfl, -⟩ : o = 0 ∧ c = ⟨88, false⟩ := by simpa [Block.place] using hc
    simp only [PmmState.bitmapBytes, Set.mem_ofPred_eq, HeapState.addr, recycledKernel,
      smallKernel, Kernel.init]
    bv_omega

/-- The kernels differ in a byte of the free block. -/
theorem recycledKernel_sameInUse {i : ℕ} (hi : i < 76) (b b' : Byte) :
    (recycledKernel i b).SameInUse (recycledKernel i b') [⟨88, false⟩] where
  pmm_eq := rfl
  heap_eq := rfl
  procs_eq := rfl
  bytes_eq := by
    intro c hc
    have hne : c ≠ smallKernel.heap.addr (12 + i) := by
      rintro rfl
      rcases hc with hspare | hbitmap
      · exact hspare (Or.inl ⟨0, ⟨88, false⟩, 12 + i, by simp [Block.place], rfl, by omega,
          by simp only; omega, by rw [Nat.zero_add]; rfl⟩)
      · simp only [PmmState.bitmapBytes, Set.mem_ofPred_eq, HeapState.addr, recycledKernel,
          smallKernel, Kernel.init] at hbitmap
        bv_omega
    simp only [recycledKernel, Mem.bytes_put, Bytes.put_apply, if_neg hne]

/-- A byte that the last owner left in the word of the entry point is overwritten. -/
theorem procCreate_context_entry_point :
    ∃ k₁ k₂, procCreate Mem.bus Mem.bus (recycledKernel 56 0) 0x100000 1 = some (1, k₁) ∧
      procCreate Mem.bus Mem.bus (recycledKernel 56 7) 0x100000 1 = some (1, k₂) ∧
      ∀ f, k₁.contextWord 1 f = k₂.contextWord 1 f := by
  have hcall₁ : (procCreate Mem.bus Mem.bus (recycledKernel 56 0) 0x100000 1).map (·.1) =
      some 1 := by
    decide +kernel
  have hcall₂ : (procCreate Mem.bus Mem.bus (recycledKernel 56 7) 0x100000 1).map (·.1) =
      some 1 := by
    decide +kernel
  obtain ⟨⟨ret₁, k₁⟩, hcall₁, hret₁⟩ := Option.map_eq_some_iff.mp hcall₁
  obtain ⟨⟨ret₂, k₂⟩, hcall₂, hret₂⟩ := Option.map_eq_some_iff.mp hcall₂
  obtain rfl : ret₁ = 1 := hret₁
  obtain rfl : ret₂ = 1 := hret₂
  refine ⟨k₁, k₂, hcall₁, hcall₂, ?_⟩
  apply (procCreate_context_iff (recycledKernel_wellFormed (by decide) 0)
    (recycledKernel_sameInUse (by decide) 0 7) hcall₁ hcall₂).mpr
  exact ⟨0, by decide, by decide +kernel⟩

/-- The new process starts with the byte that the last owner of the block left in the
word of `eax`. -/
theorem procCreate_context_stale :
    ∃ k₁ k₂, (recycledKernel 44 0).WellFormed [⟨88, false⟩] ∧
      (recycledKernel 44 0).SameInUse (recycledKernel 44 7) [⟨88, false⟩] ∧
      procCreate Mem.bus Mem.bus (recycledKernel 44 0) 0x100000 1 = some (1, k₁) ∧
      procCreate Mem.bus Mem.bus (recycledKernel 44 7) 0x100000 1 = some (1, k₂) ∧
      k₁.contextWord 1 .eax = 0 ∧ k₂.contextWord 1 .eax = 7 := by
  have hcall₁ : (procCreate Mem.bus Mem.bus (recycledKernel 44 0) 0x100000 1).map
      (fun r => (r.1, r.2.contextWord 1 .eax)) = some (1, 0) := by
    decide +kernel
  have hcall₂ : (procCreate Mem.bus Mem.bus (recycledKernel 44 7) 0x100000 1).map
      (fun r => (r.1, r.2.contextWord 1 .eax)) = some (1, 7) := by
    decide +kernel
  obtain ⟨⟨ret₁, k₁⟩, hcall₁, hr₁⟩ := Option.map_eq_some_iff.mp hcall₁
  obtain ⟨⟨ret₂, k₂⟩, hcall₂, hr₂⟩ := Option.map_eq_some_iff.mp hcall₂
  simp only [Prod.mk.injEq] at hr₁ hr₂
  obtain ⟨rfl, heax₁⟩ := hr₁
  obtain ⟨rfl, heax₂⟩ := hr₂
  exact ⟨k₁, k₂, recycledKernel_wellFormed (by decide) 0, recycledKernel_sameInUse (by decide) 0 7,
    hcall₁, hcall₂, heax₁, heax₂⟩

end Nimbu
