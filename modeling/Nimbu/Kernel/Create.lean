import Nimbu.Kernel.Boot
import Nimbu.Mm.HeapClient
import Nimbu.Mm.PmmRefinement
import Nimbu.Proc.Steps

/-!
# Process creation in shared memory

The frame allocator's bitmap, the heap and the kernel stacks lie in one address
space. As long as no block header of the heap reaches the bitmap, each of the
two allocators works as it does alone, and `proc_create` is two frame
allocations, one heap allocation and stores into the new block.
-/

namespace Nimbu

/-- The offset of the bitmap from the start of the heap. -/
def bitmapOffset : ℕ := 0x100000

/-- The kernel `kmain` sets up in one linear memory, as if paging had been on from the start:
there are no page tables, and the bitmap cleared is the one that is read. -/
def kmainKernel (m : Mem) : Option (Kernel Mem) := do
  let (pmm, mem) ← pmmInit Mem.bus m kmainTotalMemory
  return Kernel.init pmm (heapInit kmainHeapStart kmainHeapSize) mem

/-- The kernel stacks of the processes created so far, one page each. -/
def Procs.stackBytes (p : Procs) : Set Word :=
  {a | ∃ pid : Word, 0 < pid.toNat ∧ pid.toNat < p.nextPid.toNat ∧
    (kernelStackOf pid).toNat ≤ a.toNat ∧ a.toNat < (kernelStackOf pid).toNat + 4096}

/-- The record, the bitmap and the heap are in order, the bitmap and the heap lie
where `kmain` puts them, and no block header reaches the bitmap. -/
structure Kernel.Sound (k : Kernel Mem) (F : Frames) (bs : List Block) : Prop where
  /-- The bitmap stands for the set of frames. -/
  pmm : PmmSimulates (fun _ => True) Mem.bytes Set.univ (k.pmm, k.mem) F
  /-- There are 128 MB of frames. -/
  total : F.total = 32768
  /-- The heap is tiled by blocks. -/
  tiled : k.heap.Tiled k.mem.bytes bs
  /-- The heap starts where `kmain` puts it. -/
  start : k.heap.start = kmainHeapStart
  /-- The heap has the size `kmain` gives it. -/
  size : k.heap.size = kmainHeapSize
  /-- Every header ends before the bitmap. -/
  below : ∀ o b, (o, b) ∈ Block.place 0 bs → o + 12 ≤ bitmapOffset
  /-- The table is as `proc_init` and the calls since left it. -/
  idle : k.procs.Idle

/-- Page 0 is allocated and two pages are free. -/
def Kernel.TwoFrames (k : Kernel Mem) : Prop :=
  k.mem.bytes.bit k.pmm.bitmap 0 = true ∧
    k.pmm.allocatedPages.toNat + 2 ≤ k.pmm.totalPages.toNat

variable {k : Kernel Mem} {F : Frames} {bs : List Block}

/-- An address of the heap as a number. -/
theorem HeapState.toNat_addr_kmain {h : HeapState} (hstart : h.start = kmainHeapStart) {o : ℕ}
    (ho : o < 0x3FF00000) : (h.addr o).toNat = 0xC0100000 + o := by
  have hbase : kmainHeapStart.toNat = 0xC0100000 := rfl
  rw [h.toNat_addr (by rw [hstart]; omega), hstart, hbase]

/-- No address of the heap is the null pointer. -/
theorem HeapState.addr_ne_zero_kmain {h : HeapState} (hstart : h.start = kmainHeapStart) {o : ℕ}
    (ho : o < 0x3FF00000) : h.addr o ≠ 0 := by
  have haddr := HeapState.toNat_addr_kmain hstart ho
  bv_omega

/-- The bytes behind an address of the heap as bytes of an entry. -/
theorem HeapState.inPayload_kmain {h : HeapState} (hstart : h.start = kmainHeapStart) {o i : ℕ}
    {n : Word} (hi : i < n.toNat) (ho : o + i < 0x3FF00000) :
    InPayload (h.addr o, n) (h.addr (o + i)) := by
  have hlo := HeapState.toNat_addr_kmain hstart (show o < 0x3FF00000 by omega)
  have hhi := HeapState.toNat_addr_kmain hstart ho
  constructor <;> simp only [hlo, hhi] <;> omega

/-- The heap is 8 MB long. -/
theorem Kernel.Sound.size_toNat (hk : k.Sound F bs) : k.heap.size.toNat = 0x800000 := by
  rw [hk.size]
  rfl

/-- In an empty heap a request is served at the start. -/
theorem Kernel.Sound.placeFor_empty (hk : k.Sound F []) {n : Word} (hpos : n ≠ 0)
    (hn : n.toNat ≤ 0x7FFFE0) : k.heap.placeFor [] n = some 0 := by
  have hsize := hk.size_toNat
  have hused : k.heap.used.toNat = 0 := hk.tiled.span_eq.symm
  have hbad : ¬ (n = 0 ∨ k.heap.size.toNat < n.toNat) := by
    rintro (hzero | hbig)
    · exact hpos hzero
    · omega
  have hroom : 0 + requestSize n.toNat ≤ 0x800000 := by
    unfold requestSize
    omega
  unfold HeapState.placeFor
  rw [if_neg hbad, hused, hsize, if_pos hroom]
  rfl

/-- The bytes of the bitmap as numbers. -/
theorem Kernel.Sound.mem_bitmapBytes_iff (hk : k.Sound F bs) {a : Word} :
    a ∈ k.pmm.bitmapBytes ↔ 0xC0200000 ≤ a.toNat ∧ a.toNat < 0xC0201000 := by
  obtain ⟨-, hbase, -, hrep⟩ := hk.pmm
  simp only at hbase hrep
  have hsize : k.pmm.bitmapSize.toNat = 4096 := by rw [hrep.size_eq, hk.total]
  unfold PmmState.bitmapBytes kernelVirtBase at *
  rw [Set.mem_ofPred_eq, hbase, hsize]
  constructor <;> intro h <;> bv_omega

/-- The stacks lie behind the bitmap. -/
theorem Procs.Idle.stackBytes_ge {p : Procs} (hidle : p.Idle) {a : Word} (ha : a ∈ p.stackBytes) :
    0xC0301000 ≤ a.toNat := by
  obtain ⟨pid, hpos, hlt, hle, -⟩ := ha
  have hbound := hidle.next_le
  have hstack : (kernelStackOf pid).toNat = 0xC0300000 + pid.toNat * 4096 := by
    unfold kernelStackOf kernelVirtBase pageSize
    bv_omega
  omega

/-- `kmain` sets up a sound kernel with an empty heap in any memory. -/
theorem kmainKernel_sound (m : Mem) :
    ∃ k, kmainKernel m = some k ∧ k.Sound (Frames.empty 32768) [] ∧ k.heap.used = 0 := by
  obtain ⟨s, m', hinit, -, hbitmap, hrep, -⟩ :=
    pmmInit_eq Mem.lawful kmainTotalMemory (Set.subset_univ _) (m := m) trivial
  refine ⟨Kernel.init s (heapInit kmainHeapStart kmainHeapSize) m', ?_, ?_, rfl⟩
  · simp only [kmainKernel, hinit, Option.bind_eq_bind, Option.bind_some, Option.pure_def]
  · have htiled : (heapInit kmainHeapStart kmainHeapSize).Tiled m'.bytes [] :=
      (HeapClient.init_sound m' (by decide) (by decide)).tiled
    exact ⟨⟨trivial, hbitmap, Set.subset_univ _, hrep⟩, rfl, htiled, rfl, rfl,
      by simp [Block.place], procInit_idle⟩

/-- No byte of a header is a byte of the bitmap. -/
theorem Kernel.Sound.header_notMem (hk : k.Sound F bs) {o j : ℕ} {b : Block}
    (hb : (o, b) ∈ Block.place 0 bs) (hj : j < 12) :
    k.heap.addr (o + j) ∉ k.pmm.bitmapBytes := by
  have hbelow := hk.below o b hb
  unfold bitmapOffset at hbelow
  rw [hk.mem_bitmapBytes_iff, HeapState.toNat_addr_kmain hk.start (by omega)]
  omega

/-- The kernel stays sound when the frame allocator changes the bitmap only. -/
theorem Kernel.Sound.of_pmm (hk : k.Sound F bs) {pmm : PmmState} {m : Mem} {F' : Frames}
    (hsim : PmmSimulates (fun _ => True) Mem.bytes Set.univ (pmm, m) F')
    (htotal : F'.total = F.total) (hkept : ∀ c ∉ k.pmm.bitmapBytes, m.bytes c = k.mem.bytes c)
    {procs : Procs} (hidle : procs.Idle) : (⟨pmm, k.heap, m, procs⟩ : Kernel Mem).Sound F' bs where
  pmm := hsim
  total := htotal.trans hk.total
  tiled := hk.tiled.congr fun _ _ hb _ hj => hkept _ (hk.header_notMem hb hj)
  start := hk.start
  size := hk.size
  below := hk.below
  idle := hidle

/-- Allocation does not change how many frames there are. -/
theorem Frames.alloc_total (F : Frames) : F.alloc.2.total = F.total := F.step_total .alloc

/-- The two frame allocations of `proc_create` are two allocations from the set
of frames, and change the bitmap only. -/
theorem Kernel.Sound.frames (hk : k.Sound F bs) :
    ∃ a b pmm m, procCreateFrames Mem.bus k.pmm k.mem = some (a, b, pmm, m) ∧
      a.toNat = F.alloc.1 ∧ b.toNat = F.alloc.2.alloc.1 ∧
      (∀ procs : Procs, procs.Idle →
        (⟨pmm, k.heap, m, procs⟩ : Kernel Mem).Sound F.alloc.2.alloc.2 bs) ∧
      pmm.bitmapBytes = k.pmm.bitmapBytes ∧
      ∀ c ∉ k.pmm.bitmapBytes, m.bytes c = k.mem.bytes c := by
  obtain ⟨a, s₁, m₁, halloc₁, ha, hsim₁, hbytes₁, hkept₁⟩ := pmmAlloc_simulates Mem.lawful hk.pmm
  obtain ⟨b, s₂, m₂, halloc₂, hb, hsim₂, hbytes₂, hkept₂⟩ := pmmAlloc_simulates Mem.lawful hsim₁
  have hkept : ∀ c ∉ k.pmm.bitmapBytes, m₂.bytes c = k.mem.bytes c := by
    intro c hc
    rw [hkept₂ c (by rwa [hbytes₁]), hkept₁ c hc]
  refine ⟨a, b, s₂, m₂, ?_, ha, hb, fun procs hidle => ?_, hbytes₂.trans hbytes₁, hkept⟩
  · simp only [procCreateFrames, halloc₁, halloc₂, Option.bind_eq_bind, Option.bind_some,
      Option.pure_def]
  · exact hk.of_pmm hsim₂ (by rw [Frames.alloc_total, Frames.alloc_total]) hkept hidle

/-- The frames of a process creation are there when page 0 is allocated and two
pages are free. -/
theorem Kernel.Sound.twoFrames_iff (hk : k.Sound F bs) {a b : Word} (ha : a.toNat = F.alloc.1)
    (hb : b.toNat = F.alloc.2.alloc.1) : k.TwoFrames ↔ a ≠ 0 ∧ b ≠ 0 := by
  have hrep : k.pmm.Represents k.mem.bytes F := hk.pmm.2.2.2
  have hpos : 0 < F.total := by
    rw [hk.total]
    decide
  have hbit : k.mem.bytes.bit k.pmm.bitmap 0 = true ↔ 0 ∈ F.held := pageZero_iff hk.pmm hpos
  have hword : ∀ w : Word, w ≠ 0 ↔ w.toNat ≠ 0 := by
    intro w
    constructor <;> intro h <;> bv_omega
  unfold TwoFrames
  rw [hbit, hrep.allocated_eq, hrep.total_eq, hword a, hword b, ha, hb]
  exact F.alloc_alloc_ne_zero_iff.symm

/-- Every field of a context lies within its 76 bytes. -/
theorem ContextField.offset_le (f : ContextField) : f.offset.toNat ≤ 72 := by
  cases f <;> decide

/-- Setting the registers of a new context returns and changes only its bytes. -/
theorem initContext_eq (m : Mem) (context entryPoint kernelStack : Word) :
    ∃ m', initContext Mem.bus m context entryPoint kernelStack = some m' ∧
      ∀ c, (∀ j < 76, c ≠ context + BitVec.ofNat 32 j) → m'.bytes c = m.bytes c := by
  unfold initContext
  generalize initialRegisters entryPoint kernelStack = regs
  induction regs generalizing m with
  | nil => exact ⟨m, rfl, fun _ _ => rfl⟩
  | cons r regs ih =>
    obtain ⟨m', hrest, hkept⟩ := ih (m.putWord (context + r.1.offset) r.2)
    refine ⟨m', ?_, fun c hc => ?_⟩
    · simpa using hrest
    · have hoff := r.1.offset_le
      have hne : ∀ j < 4, c ≠ context + r.1.offset + BitVec.ofNat 32 j := by
        intro j hj heq
        refine hc (r.1.offset.toNat + j) (by omega) ?_
        rw [heq]
        bv_omega
      rw [hkept c hc, Mem.bytes_putWord]
      exact Bytes.putWord_of_ne _ (by simpa using hne 0 (by decide)) (hne 1 (by decide))
        (hne 2 (by decide)) (hne 3 (by decide))

/-- Different fields of a context do not overlap. -/
theorem ContextField.offset_apart {f g : ContextField} (hne : f ≠ g) :
    f.offset.toNat + 4 ≤ g.offset.toNat ∨ g.offset.toNat + 4 ≤ f.offset.toNat := by
  cases f <;> cases g <;> first | exact absurd rfl hne | decide

/-- A store to one field of a context changes that field only. -/
theorem ContextField.word_putWord {v : Bytes} {context : Word}
    (hend : context.toNat + 76 ≤ 2 ^ 32) (f g : ContextField) (w : Word) :
    (v.putWord (context + g.offset) w).word (context + f.offset) =
      if f = g then w else v.word (context + f.offset) := by
  have haddr : ∀ f : ContextField, (context + f.offset).toNat = context.toNat + f.offset.toNat ∧
      (context + f.offset).toNat + 4 ≤ 2 ^ 32 := by
    intro f
    have hoff := f.offset_le
    constructor <;> bv_omega
  by_cases hfg : f = g
  · rw [if_pos hfg, hfg]
    exact Bytes.word_putWord_self _ _ _
  · have hapart := ContextField.offset_apart hfg
    have hf := haddr f
    have hg := haddr g
    rw [if_neg hfg]
    exact Bytes.word_eq_of_inside hf.2 fun c hlo hhi => Bytes.putWord_outside w hg.2 (by omega)

/-- Every field of a new context holds what `proc_create` assigns to it, or else
what the memory held there before. -/
theorem initContext_word {m m' : Mem} {context entryPoint kernelStack : Word}
    (hinit : initContext Mem.bus m context entryPoint kernelStack = some m')
    (hend : context.toNat + 76 ≤ 2 ^ 32) (f : ContextField) :
    m'.bytes.word (context + f.offset) = ((initialRegisters entryPoint kernelStack).lookup f).getD
      (m.bytes.word (context + f.offset)) := by
  have hnodup : ((initialRegisters entryPoint kernelStack).map Prod.fst).Nodup := by
    simp only [initialRegisters, List.map_cons, List.map_nil]
    decide
  unfold initContext at hinit
  generalize initialRegisters entryPoint kernelStack = regs at hinit hnodup
  induction regs generalizing m with
  | nil =>
    obtain rfl : m = m' := by simpa using hinit
    rfl
  | cons r regs ih =>
    obtain ⟨g, w⟩ := r
    rw [List.map_cons, List.nodup_cons] at hnodup
    simp only [List.foldlM_cons, Mem.bus_storeWord, Option.bind_eq_bind, Option.bind_some] at hinit
    rw [ih hinit hnodup.2, Mem.bytes_putWord, ContextField.word_putWord hend]
    by_cases hfg : f = g
    · -- No later assignment is to the same field.
      subst hfg
      have hnone : regs.lookup f = none := by
        rw [List.lookup_eq_none_iff]
        intro r hr
        rw [bne_iff_ne]
        rintro rfl
        exact hnodup.1 (List.mem_map.mpr ⟨r, hr, rfl⟩)
      rw [hnone, List.lookup_cons_self, if_pos rfl, Option.getD_none, Option.getD_some]
    · rw [List.lookup_cons, beq_false_of_ne hfg, if_neg hfg]

/-- The stack pointer that `proc_create` stores in a new context. -/
theorem initContext_esp {m m' : Mem} {context entryPoint kernelStack : Word}
    (hinit : initContext Mem.bus m context entryPoint kernelStack = some m')
    (hend : context.toNat + 76 ≤ 2 ^ 32) :
    m'.bytes.word (context + ContextField.esp.offset) = kernelStack + pageSize - 4 := by
  rw [initContext_word hinit hend]
  rfl

/-- The kernel stays sound when the heap changes nothing of the bitmap. -/
theorem Kernel.Sound.of_heap (hk : k.Sound F bs) {h : HeapState} {m : Mem} {bs' : List Block}
    (ht : h.Tiled m.bytes bs') (hstart : h.start = k.heap.start) (hsize : h.size = k.heap.size)
    (hbelow : ∀ o b, (o, b) ∈ Block.place 0 bs' → o + 12 ≤ bitmapOffset)
    (hkept : ∀ c ∈ k.pmm.bitmapBytes, m.bytes c = k.mem.bytes c) {procs : Procs}
    (hidle : procs.Idle) : (⟨k.pmm, h, m, procs⟩ : Kernel Mem).Sound F bs' where
  pmm := ⟨trivial, hk.pmm.2.1, hk.pmm.2.2.1, hk.pmm.2.2.2.congr hkept⟩
  total := hk.total
  tiled := ht
  start := hstart.trans hk.start
  size := hsize.trans hk.size
  below := hbelow
  idle := hidle

/-- `k'` is the kernel `k` after a `proc_create` that succeeded, given the bitmap
after its frame allocations and the offset of the new context's block. -/
structure Kernel.Created (k : Kernel Mem) (pmm : PmmState) (m : Mem) (bs : List Block)
    (k' : Kernel Mem) (o : ℕ) (bs' : List Block) : Prop where
  /-- No other frame was allocated. -/
  pmm_eq : k'.pmm = pmm
  /-- The context is where the heap serves requests of its size. -/
  place : k.heap.placeFor bs contextSize = some o
  /-- The heap is as one `kmalloc` leaves it, but for the bytes of the context. -/
  served : ∃ m₂, kmalloc Mem.bus k.heap m contextSize =
      some (k.heap.addr (o + 12), k'.heap, m₂) ∧
    ∀ c, (∀ j < 76, c ≠ k.heap.addr (o + 12 + j)) → k'.mem.bytes c = m₂.bytes c
  /-- The heap is tiled by blocks. -/
  tiled : k'.heap.Tiled k'.mem.bytes bs'
  /-- The heap stays where it is. -/
  start_eq : k'.heap.start = k.heap.start
  /-- The heap keeps its size. -/
  size_eq : k'.heap.size = k.heap.size
  /-- The block was free, or is new. -/
  used : (k'.heap.used = k.heap.used ∧ ∃ b, (o, b) ∈ Block.place 0 bs) ∨
    (o = k.heap.used.toNat ∧ k'.heap.used.toNat = k.heap.used.toNat + 88)
  /-- A block with room for the context is there. -/
  block : ∃ b, k'.heap.Serves bs' (k.heap.addr (o + 12), contextSize) o b
  /-- All other blocks were there before. -/
  offsets : ∀ o' b', (o', b') ∈ Block.place 0 bs' → o' = o ∨ ∃ b, (o', b) ∈ Block.place 0 bs
  /-- Only the header and the context were written. -/
  kept : ∀ c, (∀ j < 88, c ≠ k.heap.addr (o + j)) → k'.mem.bytes c = m.bytes c
  /-- The process ID is used up. -/
  next : k'.procs.nextPid = k.procs.nextPid + 1
  /-- The new slot points to the context. -/
  context : ∀ i : Slot, i.val = k.procs.nextPid.toNat →
    (k'.procs.table i).context = k.heap.addr (o + 12)
  /-- Slot 0 stays the current process. -/
  idle : k'.procs.Idle

/-- A created process leaves the kernel sound when its context ends before the
bitmap. -/
theorem Kernel.Created.sound {pmm : PmmState} {m : Mem} {k' : Kernel Mem} {o : ℕ}
    {bs' : List Block} (hc : k.Created pmm m bs k' o bs')
    (hk : (⟨pmm, k.heap, m, k.procs⟩ : Kernel Mem).Sound F bs) (ho : o + 88 ≤ bitmapOffset) :
    k'.Sound F bs' := by
  have hbelow : ∀ o' b', (o', b') ∈ Block.place 0 bs' → o' + 12 ≤ bitmapOffset := by
    intro o' b' hb'
    rcases hc.offsets o' b' hb' with rfl | ⟨b, hb⟩
    · omega
    · exact hk.below o' b hb
  have hkept : ∀ c ∈ pmm.bitmapBytes, k'.mem.bytes c = m.bytes c := by
    intro c hmem
    apply hc.kept
    rintro j hj rfl
    have hrange := hk.mem_bitmapBytes_iff.mp hmem
    unfold bitmapOffset at ho
    rw [HeapState.toNat_addr_kmain hk.start (by omega)] at hrange
    omega
  have hsound := hk.of_heap hc.tiled hc.start_eq hc.size_eq hbelow hkept hc.idle
  rw [← hc.pmm_eq] at hsound
  exact hsound

/-- `proc_create` keeps slot 0 the current process. -/
theorem procCreate_idle {entryPoint priority : Word} {ret : ℤ} {k' : Kernel Mem}
    (hidle : k.procs.Idle)
    (hcall : procCreate Mem.bus Mem.bus k entryPoint priority = some (ret, k')) :
    k'.procs.Idle := by
  have hstep : procStep Mem.bus Mem.bus k (.create entryPoint priority) =
      some (.status ret, k') := by simp [procStep, hcall]
  exact procStep_idle hidle hstep

/-- With two frames, `proc_create` fails where the heap has no place for the
context, and otherwise creates the process. -/
theorem Kernel.Sound.create_of_frames (hk : k.Sound F bs) (entryPoint priority : Word)
    {a b : Word} {pmm : PmmState} {m : Mem} (hnext : k.procs.nextPid.toNat < 256)
    (hframes : procCreateFrames Mem.bus k.pmm k.mem = some (a, b, pmm, m))
    (hnonzero : ¬ (a = 0 ∨ b = 0)) (ht : k.heap.Tiled m.bytes bs) :
    (k.heap.placeFor bs contextSize = none ∧ ∃ procs,
      procCreate Mem.bus Mem.bus k entryPoint priority = some (-1, ⟨pmm, k.heap, m, procs⟩) ∧
      procs.nextPid = k.procs.nextPid) ∨
    ∃ o k' bs', procCreate Mem.bus Mem.bus k entryPoint priority =
      some ((k.procs.nextPid.toNat : ℤ), k') ∧ k.Created pmm m bs k' o bs' := by
  have hsize := hk.size_toNat
  rcases kmalloc_placed ht contextSize with ⟨hnone, hkmalloc⟩ |
    ⟨o, h', m₂, bs', hplace, -, hkmalloc, ht', hstart', hsize', hused', ⟨blk, hblk, hroom⟩,
      hoffsets, hm₂⟩
  · left
    exact ⟨hnone, procCreate_of_no_context Mem.bus entryPoint priority hnext hframes hnonzero
      hkmalloc⟩
  · right
    have haddr : ∀ i, h'.addr i = k.heap.addr i := by
      intro i
      simp only [HeapState.addr, hstart']
    have hbound := ht'.block_le hblk
    have hle := ht'.used_le
    rw [hsize', hsize] at hle
    have hlen : contextSize.toNat = 76 := rfl
    have hserves : h'.Serves bs' (k.heap.addr (o + 12), contextSize) o blk :=
      ⟨hblk, (haddr _).symm, le_trans (le_max_right _ _) hroom⟩
    have hcontext : k.heap.addr (o + 12) ≠ 0 :=
      HeapState.addr_ne_zero_kmain hk.start (by omega)
    obtain ⟨m₃, hinit, hm₃⟩ := initContext_eq m₂ (k.heap.addr (o + 12)) entryPoint
      (kernelStackOf k.procs.nextPid)
    simp only [k.heap.addr_add] at hm₃
    obtain ⟨procs, hcall, hnextPid, hcontexts⟩ := procCreate_of_context Mem.bus entryPoint priority
      hnext hframes hnonzero hkmalloc hcontext hinit
    have htiled : h'.Tiled m₃.bytes bs' := by
      refine ht'.congr fun o' b' hb' j hj => hm₃ _ fun i hi heq => ?_
      have hpayload : InPayload (k.heap.addr (o + 12), contextSize) (k.heap.addr (o + 12 + i)) :=
        HeapState.inPayload_kmain hk.start (by omega) (by omega)
      exact hserves.payload_ne ht' hpayload hj (Or.inl ⟨b', hb'⟩) heq.symm
    have hkept : ∀ c, (∀ j < 88, c ≠ k.heap.addr (o + j)) → m₃.bytes c = m.bytes c := by
      intro c hc
      rw [hm₃ c fun j hj => by rw [Nat.add_assoc]; exact hc (12 + j) (by omega)]
      exact hm₂ c fun j hj => hc j (by omega)
    exact ⟨o, ⟨pmm, h', m₃, procs⟩, bs', hcall, ⟨rfl, hplace, ⟨m₂, hkmalloc, hm₃⟩, htiled, hstart',
      hsize', hused', ⟨blk, hserves⟩, hoffsets, hkept, hnextPid, hcontexts,
      procCreate_idle hk.idle hcall⟩⟩

/-- **What `proc_create` does in shared memory.** Without a process ID it changes
nothing. Otherwise it allocates two frames, and fails with these allocated when
one of them has address 0 or the heap has no place for the context; else the
process is created. -/
theorem Kernel.Sound.create (hk : k.Sound F bs) (entryPoint priority : Word) :
    (256 ≤ k.procs.nextPid.toNat ∧
      procCreate Mem.bus Mem.bus k entryPoint priority = some (-1, k)) ∨
    (k.procs.nextPid.toNat < 256 ∧ ∃ a b pmm m,
      procCreateFrames Mem.bus k.pmm k.mem = some (a, b, pmm, m) ∧
      a.toNat = F.alloc.1 ∧ b.toNat = F.alloc.2.alloc.1 ∧
      pmm.bitmapBytes = k.pmm.bitmapBytes ∧
      (∀ c ∉ k.pmm.bitmapBytes, m.bytes c = k.mem.bytes c) ∧
      (∀ procs : Procs, procs.Idle →
        (⟨pmm, k.heap, m, procs⟩ : Kernel Mem).Sound F.alloc.2.alloc.2 bs) ∧
      ((¬ (a ≠ 0 ∧ b ≠ 0 ∧ ∃ o, k.heap.placeFor bs contextSize = some o) ∧ ∃ procs,
          procCreate Mem.bus Mem.bus k entryPoint priority =
            some (-1, ⟨pmm, k.heap, m, procs⟩) ∧
          procs.nextPid = k.procs.nextPid ∧ procs.Idle) ∨
        (a ≠ 0 ∧ b ≠ 0 ∧ ∃ o k' bs',
          procCreate Mem.bus Mem.bus k entryPoint priority =
            some ((k.procs.nextPid.toNat : ℤ), k') ∧ k.Created pmm m bs k' o bs'))) := by
  by_cases hnext : k.procs.nextPid.toNat < 256
  · right
    obtain ⟨a, b, pmm, m, hframes, ha, hb, hsound, hbytes, hkept⟩ := hk.frames
    refine ⟨hnext, a, b, pmm, m, hframes, ha, hb, hbytes, hkept, hsound, ?_⟩
    by_cases hzero : a = 0 ∨ b = 0
    · left
      obtain ⟨procs, hcall, hsame⟩ := procCreate_of_no_frame Mem.bus entryPoint priority
        hnext hframes hzero
      refine ⟨?_, procs, hcall, hsame, procCreate_idle hk.idle hcall⟩
      rintro ⟨ha0, hb0, -⟩
      exact hzero.elim ha0 hb0
    · rcases hk.create_of_frames entryPoint priority hnext hframes hzero
        (hsound k.procs hk.idle).tiled with ⟨hnone, procs, hcall, hsame⟩ | hcreated
      · left
        refine ⟨?_, procs, hcall, hsame, procCreate_idle hk.idle hcall⟩
        rintro ⟨-, -, o, ho⟩
        rw [hnone] at ho
        cases ho
      · right
        rw [not_or] at hzero
        exact ⟨hzero.1, hzero.2, hcreated⟩
  · exact Or.inl ⟨by omega, by simp [procCreate, hnext]⟩

end Nimbu
