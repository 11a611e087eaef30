import Nimbu.Kernel.Workload
import Nimbu.Mm.Embedding

/-!
# The kernel in another memory

The calls of the kernel read and store the bitmap, the block headers of the heap and the
blocks that they are served with, and nothing else of the memory. In a memory of another
kind that has these bytes they return what they return in a flat memory.
-/

namespace Nimbu

variable {M N : Type}

/-- The kernel with its memory as another one. -/
def Kernel.map (f : M → N) (k : Kernel M) : Kernel N := ⟨k.pmm, k.heap, f k.mem, k.procs⟩

/-- A call that changes the process table only. -/
def tableCall (bus : Bus M) (k : Kernel M) (call : ProcCall) :
    Option (WorkloadReply × Kernel M) := do
  let (reply, k) ← procStep bus bus k call
  return (.table reply, k)

/-- One action of a workload, in a memory of any kind. -/
def kernelCall (bus : Bus M) (k : Kernel M) : WorkloadCall → Option (WorkloadReply × Kernel M)
  | .system (.heap (.kmalloc n)) => do
    let (p, heap, mem) ← kmalloc bus k.heap k.mem n
    return (.system (.heap (.pointer p)), { k with heap, mem })
  | .system (.heap (.kfree p)) => do
    let (ret, mem) ← kfree bus k.mem p
    return (.system (.heap (.status ret)), { k with mem })
  | .system (.heap (.write a byte)) => do
    let mem ← bus.store k.mem a byte
    return (.system (.heap .written), { k with mem })
  | .system (.create entryPoint priority) => do
    let (ret, k) ← procCreate bus bus k entryPoint priority
    return (.system (.status ret), k)
  | .exit pid => tableCall bus k (.exit pid)
  | .block resource => tableCall bus k (.block resource)
  | .unblock pid => tableCall bus k (.unblock pid)
  | .tick context => tableCall bus k (.tick context)
  | .alloc => do
    let (addr, pmm, mem) ← pmmAlloc bus k.pmm k.mem
    return (.frame addr, { k with pmm, mem })
  | .free addr => do
    let (ret, pmm, mem) ← pmmFree bus k.pmm k.mem addr
    return (.freed ret, { k with pmm, mem })

/-- A workload acts on its kernel by these calls. -/
theorem Workload.kernelCall_eq {x x' : Workload} {call : WorkloadCall} {reply : WorkloadReply}
    (hstep : x.step call = some (reply, x')) :
    kernelCall Mem.bus x.system.kernel call = some (reply, x'.system.kernel) := by
  cases call with
  | system call =>
    obtain ⟨⟨r, y⟩, hsystem, hresult⟩ := Option.bind_eq_some_iff.mp hstep
    obtain ⟨rfl, rfl⟩ := Prod.mk.inj (Option.some.inj hresult)
    cases call with
    | heap call =>
      obtain ⟨⟨r', client⟩, hclient, hresult'⟩ := Option.bind_eq_some_iff.mp hsystem
      obtain ⟨rfl, rfl⟩ := Prod.mk.inj (Option.some.inj hresult')
      cases call with
      | kmalloc n =>
        obtain ⟨⟨p, heap, mem⟩, hcall, hresult''⟩ := Option.bind_eq_some_iff.mp hclient
        obtain ⟨rfl, rfl⟩ := Prod.mk.inj (Option.some.inj hresult'')
        exact Option.bind_eq_some_iff.mpr ⟨_, hcall, rfl⟩
      | kfree p =>
        obtain ⟨⟨ret, mem⟩, hcall, hresult''⟩ := Option.bind_eq_some_iff.mp hclient
        obtain ⟨rfl, rfl⟩ := Prod.mk.inj (Option.some.inj hresult'')
        exact Option.bind_eq_some_iff.mpr ⟨_, hcall, rfl⟩
      | write a byte =>
        obtain ⟨rfl, rfl⟩ := Prod.mk.inj (Option.some.inj hclient)
        rfl
    | create entryPoint priority =>
      obtain ⟨⟨ret, k⟩, hcall, hresult'⟩ := Option.bind_eq_some_iff.mp hsystem
      obtain ⟨rfl, rfl⟩ := Prod.mk.inj (Option.some.inj hresult')
      exact Option.bind_eq_some_iff.mpr ⟨_, hcall, rfl⟩
  | alloc =>
    obtain ⟨⟨addr, pmm, mem⟩, hcall, hresult⟩ := Option.bind_eq_some_iff.mp hstep
    obtain ⟨rfl, rfl⟩ := Prod.mk.inj (Option.some.inj hresult)
    exact Option.bind_eq_some_iff.mpr ⟨_, hcall, rfl⟩
  | free addr =>
    obtain ⟨⟨ret, pmm, mem⟩, hcall, hresult⟩ := Option.bind_eq_some_iff.mp hstep
    obtain ⟨rfl, rfl⟩ := Prod.mk.inj (Option.some.inj hresult)
    exact Option.bind_eq_some_iff.mpr ⟨_, hcall, rfl⟩
  | exit pid | block resource | unblock pid | tick context =>
    obtain ⟨rfl, rfl⟩ := Prod.mk.inj (Option.some.inj hstep)
    rfl

section Create

variable {bus₁ : Bus M} {bus₂ : Bus N} {f : M → N} {k : Kernel M}

/-- `proc_create` on an embedded memory, from its parts. -/
theorem procCreate_embeds (entryPoint priority : Word)
    (hframes : procCreateFrames bus₂ k.pmm (f k.mem) =
      (procCreateFrames bus₁ k.pmm k.mem).map fun r => (r.1, r.2.1, r.2.2.1, f r.2.2.2))
    (hkmalloc : ∀ a b pmm m, k.procs.nextPid.toNat < 256 →
      procCreateFrames bus₁ k.pmm k.mem = some (a, b, pmm, m) → ¬ (a = 0 ∨ b = 0) →
      kmalloc bus₂ k.heap (f m) contextSize =
        (kmalloc bus₁ k.heap m contextSize).map fun r => (r.1, r.2.1, f r.2.2))
    (hinit : ∀ a b pmm m context heap m', k.procs.nextPid.toNat < 256 →
      procCreateFrames bus₁ k.pmm k.mem = some (a, b, pmm, m) → ¬ (a = 0 ∨ b = 0) →
      kmalloc bus₁ k.heap m contextSize = some (context, heap, m') → context ≠ 0 →
      initContext bus₂ (f m') context entryPoint (kernelStackOf k.procs.nextPid) =
        (initContext bus₁ m' context entryPoint (kernelStackOf k.procs.nextPid)).map f) :
    procCreate bus₂ bus₂ (k.map f) entryPoint priority =
      (procCreate bus₁ bus₁ k entryPoint priority).map fun r => (r.1, r.2.map f) := by
  by_cases hnext : k.procs.nextPid.toNat < 256
  · simp only [procCreate, Kernel.map, dif_pos hnext, hframes, Option.bind_eq_bind,
      Option.pure_def]
    cases hpages : procCreateFrames bus₁ k.pmm k.mem with
    | none => rfl
    | some r =>
      obtain ⟨a, b, pmm, m⟩ := r
      simp only [Option.map_some, Option.bind_some]
      by_cases hzero : a = 0 ∨ b = 0
      · simp only [if_pos hzero, Option.map_some]
      · simp only [if_neg hzero, hkmalloc a b pmm m hnext hpages hzero]
        cases hcontext : kmalloc bus₁ k.heap m contextSize with
        | none => rfl
        | some r =>
          obtain ⟨context, heap, m'⟩ := r
          simp only [Option.map_some, Option.bind_some]
          by_cases hnull : context = 0
          · simp only [if_pos hnull, Option.map_some]
          · simp only [if_neg hnull,
              hinit a b pmm m context heap m' hnext hpages hzero hcontext hnull]
            cases initContext bus₁ m' context entryPoint (kernelStackOf k.procs.nextPid) <;> rfl
  · have hnext' : ¬ (k.map f).procs.nextPid.toNat < 256 := hnext
    rw [procCreate, dif_neg hnext', procCreate, dif_neg hnext]
    rfl

variable {bus : Bus N} {g : Mem → N} {ok : Mem → Prop} {S : Set Word}

/-- The assignments to the fields of a context that lies in the memory. -/
theorem initContext_embeds (he : Mem.bus.Embeds bus g ok S)
    (hkeep : ∀ {m a} (b), ok m → a ∈ S → ok (m.put a b)) {m : Mem} (hm : ok m) {context : Word}
    (hS : ∀ j < 76, context + BitVec.ofNat 32 j ∈ S) (entryPoint kernelStack : Word) :
    initContext bus (g m) context entryPoint kernelStack =
      (initContext Mem.bus m context entryPoint kernelStack).map g := by
  unfold initContext
  generalize initialRegisters entryPoint kernelStack = regs
  induction regs generalizing m with
  | nil => rfl
  | cons r regs ih =>
    have hoff := r.1.offset_le
    have hword : ∀ j < 4, context + r.1.offset + BitVec.ofNat 32 j ∈ S := by
      intro j hj
      have haddr : context + r.1.offset + BitVec.ofNat 32 j =
          context + BitVec.ofNat 32 (r.1.offset.toNat + j) := by bv_omega
      rw [haddr]
      exact hS _ (by omega)
    obtain ⟨hstore, hm'⟩ := he.storeWord_mem hkeep hm r.2 hword
    simp only [List.foldlM_cons, hstore, Mem.bus_storeWord, Option.bind_eq_bind, Option.bind_some]
    exact ih hm'

end Create

section Conditions

/-- The first `len` bytes of the place of a request of `n` bytes, if it has one, lie in `S`. -/
def Kernel.PlacesIn (S : Set Word) (k : Kernel Mem) (n : Word) (len : ℕ) : Prop :=
  ∀ bs o, k.heap.Tiled k.mem.bytes bs → k.heap.placeFor bs n = some o →
    ∀ j < len, k.heap.addr (o + j) ∈ S

/-- The block header and the context that `proc_create` stores, if it gets so far, lie in `S`. -/
def Kernel.CreatesIn (S : Set Word) (k : Kernel Mem) : Prop :=
  k.procs.nextPid.toNat < 256 → k.TwoFrames → k.PlacesIn S contextSize 88

/-- The bytes that an action stores for a new block or into a held one lie in `S`. -/
def Workload.StoresIn (S : Set Word) (x : Workload) : WorkloadCall → Prop
  | .system (.heap (.kmalloc n)) => x.system.kernel.PlacesIn S n 12
  | .system (.heap (.write a _)) => a ∈ S
  | .system (.create _ _) => x.system.kernel.CreatesIn S
  | _ => True

/-- A memory of another kind shows a flat memory at the bytes of `S`, and does so whatever
becomes of these. -/
structure Hosts (bus : Bus N) (g : Mem → N) (ok : Mem → Prop) (S : Set Word) : Prop where
  /-- The bytes are read and stored alike. -/
  embeds : Mem.bus.Embeds bus g ok S
  /-- It depends on the other bytes only. -/
  kept : ∀ {m m' : Mem}, ok m → (∀ c ∉ S, m'.bytes c = m.bytes c) → ok m'

/-- The kernel is sound, and its block headers and its bitmap lie in `S`. -/
structure Kernel.SoundIn (S : Set Word) (k : Kernel Mem) (F : Frames) (bs : List Block) : Prop
    extends Kernel.Sound k F bs where
  /-- The headers lie there. -/
  headers : k.heap.headerBytes bs ⊆ S
  /-- The bitmap lies there. -/
  bitmap : k.pmm.bitmapBytes ⊆ S

/-- From `k` to `k'` only bytes of `S` change, and headers and bitmap lie in `S` again. -/
structure Kernel.KeepsIn (S : Set Word) (k k' : Kernel Mem) : Prop where
  /-- The other bytes are kept. -/
  bytes : ∀ c ∉ S, k'.mem.bytes c = k.mem.bytes c
  /-- The headers lie there. -/
  headers : ∀ bs, k'.heap.Tiled k'.mem.bytes bs → k'.heap.headerBytes bs ⊆ S
  /-- The bitmap lies there. -/
  bitmap : k'.pmm.bitmapBytes ⊆ S

end Conditions

section Calls

variable {bus : Bus N} {g : Mem → N} {ok : Mem → Prop} {S : Set Word} {k k' : Kernel Mem}
  {F F' : Frames} {bs bs' : List Block} {o j : ℕ} {n a : Word}

/-- A byte of `S` may be stored. -/
theorem Hosts.put (h : Hosts bus g ok S) {m : Mem} (b : Byte) (hm : ok m) (ha : a ∈ S) :
    ok (m.put a b) :=
  h.kept hm fun _ hc => Bytes.put_of_ne _ (ne_of_mem_of_not_mem ha hc).symm

/-- What hosts more bytes hosts fewer. -/
theorem Hosts.mono {T : Set Word} (h : Hosts bus g ok S) (hsub : T ⊆ S) : Hosts bus g ok T where
  embeds := ⟨fun hm ha => h.embeds.load_eq hm (hsub ha),
    fun b hm ha => h.embeds.store_eq b hm (hsub ha)⟩
  kept hm hkept := h.kept hm fun c hc => hkept c fun hmem => hc (hsub hmem)

namespace Kernel

/-- A kernel that is sound again has its headers and its bitmap there. -/
theorem KeepsIn.soundIn (hkeeps : k.KeepsIn S k') (hk' : k'.Sound F bs) : k'.SoundIn S F bs :=
  ⟨hk', hkeeps.headers bs hk'.tiled, hkeeps.bitmap⟩

namespace SoundIn

/-- The bytes of a header lie there. -/
theorem header_mem (hk : k.SoundIn S F bs) {b : Block} (hb : (o, b) ∈ Block.place 0 bs)
    (hj : j < 12) : k.heap.addr (o + j) ∈ S :=
  hk.headers ⟨o, b, j, hb, hj, rfl⟩

/-- The byte of a page lies there. -/
theorem page_mem (hk : k.SoundIn S F bs) (i : Word) (hi : i.toNat < k.pmm.totalPages.toNat) :
    k.pmm.bitmap + i / 8 ∈ S := by
  have hrep := hk.pmm.2.2.2
  have hpages := hrep.total_eq
  have hsize := hrep.size_eq
  simp only at hpages hsize
  exact hk.bitmap (PmmState.page_mem_bitmapBytes (by omega) hi)

/-- What keeps all bytes but those of the bitmap keeps all but those of `S`. -/
theorem kept_of_bitmap (hk : k.SoundIn S F bs) {m : Mem}
    (hkept : ∀ c ∉ k.pmm.bitmapBytes, m.bytes c = k.mem.bytes c) :
    ∀ c ∉ S, m.bytes c = k.mem.bytes c :=
  fun c hc => hkept c fun hmem => hc (hk.bitmap hmem)

/-- A call keeps within `S` when it changes only bytes of `S` and every header of the heap that
it leaves was one before or lies in `S`. -/
theorem keepsIn (hk : k.SoundIn S F bs) (hkept : ∀ c ∉ S, k'.mem.bytes c = k.mem.bytes c)
    (ht : k'.heap.Tiled k'.mem.bytes bs') (hstart : k'.heap.start = k.heap.start)
    (hoffsets : ∀ o' b', (o', b') ∈ Block.place 0 bs' →
      (∃ b, (o', b) ∈ Block.place 0 bs) ∨ ∀ j < 12, k.heap.addr (o' + j) ∈ S)
    (hbitmap : k'.pmm.bitmapBytes = k.pmm.bitmapBytes) : k.KeepsIn S k' := by
  refine ⟨hkept, ?_, hbitmap ▸ hk.bitmap⟩
  rintro bs₂ ht₂ a ⟨o', b', j, hb', hj, rfl⟩
  obtain rfl := ht₂.unique ht
  rw [HeapState.addr, hstart]
  rcases hoffsets o' b' hb' with ⟨b, hb⟩ | hplace
  · exact hk.header_mem hb hj
  · exact hplace j hj

/-- The frame allocator changes the bitmap only. -/
theorem keepsIn_pmm (hk : k.SoundIn S F bs) {pmm : PmmState} {m : Mem}
    (hbytes : pmm.bitmapBytes = k.pmm.bitmapBytes)
    (hkept : ∀ c ∉ k.pmm.bitmapBytes, m.bytes c = k.mem.bytes c) {procs : Procs} :
    k.KeepsIn S ⟨pmm, k.heap, m, procs⟩ := by
  refine hk.keepsIn (hk.kept_of_bitmap hkept) ?_ rfl (fun o' b' hb' => Or.inl ⟨b', hb'⟩) hbytes
  exact hk.tiled.congr fun _ _ hb _ hj => hkept _ (hk.toSound.header_notMem hb hj)

/-- `pmm_alloc` in the other memory. -/
theorem alloc_embeds (hk : k.SoundIn S F bs) (h : Hosts bus g ok S) (hm : ok k.mem) :
    pmmAlloc bus k.pmm (g k.mem) =
      (pmmAlloc Mem.bus k.pmm k.mem).map fun r => (r.1, r.2.1, g r.2.2) :=
  pmmAlloc_embeds h.embeds hm hk.page_mem

/-- `pmm_alloc` keeps within the bytes. -/
theorem alloc_keepsIn (hk : k.SoundIn S F bs) {addr : Word} {pmm : PmmState} {mem : Mem}
    (hcall : pmmAlloc Mem.bus k.pmm k.mem = some (addr, pmm, mem)) :
    k.KeepsIn S { k with pmm, mem } := by
  obtain ⟨_, pmm', mem', halloc, -, -, hbytes, hkept⟩ := pmmAlloc_simulates Mem.lawful hk.pmm
  rw [hcall] at halloc
  obtain ⟨-, rfl, rfl⟩ : addr = _ ∧ pmm = pmm' ∧ mem = mem' := by simpa using halloc
  exact hk.keepsIn_pmm hbytes hkept

/-- `pmm_free` in the other memory. -/
theorem free_embeds (hk : k.SoundIn S F bs) (h : Hosts bus g ok S) (hm : ok k.mem) (addr : Word) :
    pmmFree bus k.pmm (g k.mem) addr =
      (pmmFree Mem.bus k.pmm k.mem addr).map fun r => (r.1, r.2.1, g r.2.2) :=
  pmmFree_embeds h.embeds hm hk.page_mem addr

/-- `pmm_free` keeps within the bytes, whatever it is called with. -/
theorem free_keepsIn (hk : k.SoundIn S F bs) {addr : Word} {ret : ℤ} {pmm : PmmState} {mem : Mem}
    (hcall : pmmFree Mem.bus k.pmm k.mem addr = some (ret, pmm, mem)) :
    k.KeepsIn S { k with pmm, mem } := by
  obtain ⟨pmm', mem', hfree, -, hbytes, hkept⟩ := pmmFree_simulates Mem.lawful hk.pmm addr
  rw [hcall] at hfree
  obtain ⟨-, rfl, rfl⟩ : ret = _ ∧ pmm = pmm' ∧ mem = mem' := by simpa using hfree
  exact hk.keepsIn_pmm hbytes hkept

/-- `kmalloc` in the other memory, in a memory with the same headers. -/
theorem kmalloc_embeds (hk : k.SoundIn S F bs) (h : Hosts bus g ok S) {m : Mem} (hm : ok m)
    (ht : k.heap.Tiled m.bytes bs) (hplace : k.PlacesIn S n 12) :
    kmalloc bus k.heap (g m) n =
      (kmalloc Mem.bus k.heap m n).map fun r => (r.1, r.2.1, g r.2.2) :=
  Nimbu.kmalloc_embeds h.embeds h.put hm ht (fun _ _ hb _ hj => hk.header_mem hb hj) n
    fun o ho => hplace bs o hk.tiled ho

/-- `kmalloc` keeps within the bytes. -/
theorem kmalloc_keepsIn (hk : k.SoundIn S F bs) (hplace : k.PlacesIn S n 12) {p : Word}
    {heap : HeapState} {mem : Mem}
    (hcall : kmalloc Mem.bus k.heap k.mem n = some (p, heap, mem)) :
    k.KeepsIn S { k with heap, mem } := by
  rcases kmalloc_placed hk.tiled n with ⟨-, hnone⟩ |
    ⟨o, heap', mem', bs', hfirst, -, hplaced, ht, hstart, -, -, -, hoffsets, hkept⟩
  · rw [hcall] at hnone
    obtain ⟨-, rfl, rfl⟩ : p = 0 ∧ heap = k.heap ∧ mem = k.mem := by simpa using hnone
    exact ⟨fun _ _ => rfl, fun bs' ht' => ht'.unique hk.tiled ▸ hk.headers, hk.bitmap⟩
  · rw [hcall] at hplaced
    obtain ⟨-, rfl, rfl⟩ : p = k.heap.addr (o + 12) ∧ heap = heap' ∧ mem = mem' := by
      simpa using hplaced
    have hheader := hplace bs o hk.tiled hfirst
    refine hk.keepsIn (fun c hc => ?_) ht hstart (fun o' b' hb' => ?_) rfl
    · exact hkept c fun j hj => (ne_of_mem_of_not_mem (hheader j hj) hc).symm
    · rcases hoffsets o' b' hb' with rfl | hold
      · exact Or.inr hheader
      · exact Or.inl hold

/-- The header behind which a pointer served by the heap points lies there. -/
theorem freed_mem (hk : k.SoundIn S F bs) {e : Word × Word} {b : Block}
    (hserves : k.heap.Serves bs e o b) :
    ∀ j < 12, e.1 - allocHeaderSize + BitVec.ofNat 32 j ∈ S := by
  intro j hj
  rw [hserves.pointer, HeapState.addr_sub_headerSize, HeapState.addr_add]
  exact hk.header_mem hserves.placed hj

/-- `kfree` of a pointer served by the heap keeps within the bytes. -/
theorem kfree_keepsIn (hk : k.SoundIn S F bs) {e : Word × Word} {b : Block}
    (hserves : k.heap.Serves bs e o b) {ret : ℤ} {mem : Mem}
    (hcall : kfree Mem.bus k.mem e.1 = some (ret, mem)) : k.KeepsIn S { k with mem } := by
  have hflag := hk.header_mem hserves.placed (show 8 < 12 by decide)
  obtain ⟨pre, post, rfl, hoff⟩ := Block.mem_place_iff.mp hserves.placed
  rw [Nat.zero_add] at hoff
  have hfree := kfree_eq hk.tiled
  rw [← hoff, ← hserves.pointer, hcall] at hfree
  obtain ⟨-, rfl⟩ : ret = 0 ∧ mem = k.mem.put (k.heap.addr (o + 8)) 0 := by simpa using hfree
  have ht := hk.tiled.mark false (show (0 : Byte) = 0 ↔ false = false by decide)
  rw [← hoff] at ht
  refine hk.keepsIn (fun c hc => ?_) ht rfl (fun o' b' hb' => Or.inl ?_) rfl
  · exact Bytes.put_of_ne _ (ne_of_mem_of_not_mem hflag hc).symm
  · rw [Block.mem_place_replace (show ({ b with inUse := false } : Block).size = b.size from rfl)
      (fun c hc => by have := hk.tiled.min_size c hc; omega)] at hb'
    rcases hb' with heq | ⟨hold, -⟩
    · obtain rfl : o' = o := (congrArg Prod.fst heq).trans hoff.symm
      exact ⟨b, hserves.placed⟩
    · exact ⟨b', hold⟩

/-- A write into a block served by the heap keeps within the bytes. -/
theorem write_keepsIn (hk : k.SoundIn S F bs) {e : Word × Word} {b : Block}
    (hserves : k.heap.Serves bs e o b) (hpayload : InPayload e a) (ha : a ∈ S) (byte : Byte) :
    k.KeepsIn S { k with mem := k.mem.put a byte } := by
  refine hk.keepsIn (fun c hc => ?_) ?_ rfl (fun o' b' hb' => Or.inl ⟨b', hb'⟩) rfl
  · exact Bytes.put_of_ne _ (ne_of_mem_of_not_mem ha hc).symm
  · exact hk.tiled.congr fun _ c hc _ hj =>
      Bytes.put_of_ne _ (hserves.payload_ne hk.tiled hpayload hj (Or.inl ⟨c, hc⟩)).symm

/-- The frames of a process creation in the other memory. -/
theorem frames_embeds (hk : k.SoundIn S F bs) (h : Hosts bus g ok S) (hm : ok k.mem) :
    procCreateFrames bus k.pmm (g k.mem) =
      (procCreateFrames Mem.bus k.pmm k.mem).map fun r => (r.1, r.2.1, r.2.2.1, g r.2.2.2) := by
  obtain ⟨a, pmm, m, halloc, -, hsim, -, hkept⟩ := pmmAlloc_simulates Mem.lawful hk.pmm
  have hkeeps := hk.alloc_keepsIn halloc
  have hsound : ({ k with pmm, mem := m } : Kernel Mem).Sound F.alloc.2 bs :=
    hk.toSound.of_pmm hsim F.alloc_total hkept hk.idle
  have hsecond : pmmAlloc bus pmm (g m) =
      (pmmAlloc Mem.bus pmm m).map fun r => (r.1, r.2.1, g r.2.2) :=
    (hkeeps.soundIn hsound).alloc_embeds h (h.kept hm hkeeps.bytes)
  simp only [procCreateFrames, hk.alloc_embeds h hm, halloc, Option.map_some, Option.bind_eq_bind,
    Option.bind_some, hsecond]
  cases pmmAlloc Mem.bus pmm m <;> rfl

/-- The frame allocations of an action in the other memory. -/
theorem callFrames_embeds (hk : k.SoundIn S F bs) (h : Hosts bus g ok S) (hm : ok k.mem)
    (call : SystemCall) :
    call.frames bus (k.map g) = (call.frames Mem.bus k).map fun r => (r.1, g r.2) := by
  cases call with
  | heap call => rfl
  | create entryPoint priority =>
    by_cases hnext : k.procs.nextPid.toNat < 256
    · simp only [SystemCall.frames, Kernel.map, if_pos hnext, hk.frames_embeds h hm]
      cases procCreateFrames Mem.bus k.pmm k.mem <;> rfl
    · have hnext' : ¬ (k.map g).procs.nextPid.toNat < 256 := hnext
      rw [SystemCall.frames, if_neg hnext', SystemCall.frames, if_neg hnext]
      rfl

/-- They keep within the bytes. -/
theorem callFrames_kept (hk : k.SoundIn S F bs) {call : SystemCall} {pmm : PmmState} {m : Mem}
    (hframes : call.frames Mem.bus k = some (pmm, m)) : ∀ c ∉ S, m.bytes c = k.mem.bytes c := by
  cases call with
  | heap call =>
    obtain ⟨-, rfl⟩ := Prod.mk.inj (Option.some.inj hframes)
    exact fun _ _ => rfl
  | create entryPoint priority =>
    by_cases hnext : k.procs.nextPid.toNat < 256
    · obtain ⟨a, b, pmm', m', hcalls, -, -, -, -, hkept⟩ := hk.toSound.frames
      simp only [SystemCall.frames, if_pos hnext, hcalls, Option.bind_eq_bind, Option.bind_some,
        Option.pure_def, Option.some.injEq, Prod.mk.injEq] at hframes
      obtain ⟨-, rfl⟩ := hframes
      exact hk.kept_of_bitmap hkept
    · rw [SystemCall.frames, if_neg hnext] at hframes
      obtain ⟨-, rfl⟩ := Prod.mk.inj (Option.some.inj hframes)
      exact fun _ _ => rfl

/-- `proc_create` in the other memory. -/
theorem create_embeds (hk : k.SoundIn S F bs) (h : Hosts bus g ok S) (hm : ok k.mem)
    (hcreates : k.CreatesIn S) (entryPoint priority : Word) :
    procCreate bus bus (k.map g) entryPoint priority =
      (procCreate Mem.bus Mem.bus k entryPoint priority).map fun r => (r.1, r.2.map g) := by
  obtain ⟨a, b, pmm, m, hframes, ha, hb, hsound, -, hkept⟩ := hk.toSound.frames
  have hm₁ : ok m := h.kept hm (hk.kept_of_bitmap hkept)
  have ht : k.heap.Tiled m.bytes bs := (hsound _ hk.idle).tiled
  have hplace : k.procs.nextPid.toNat < 256 → ¬ (a = 0 ∨ b = 0) → k.PlacesIn S contextSize 88 := by
    intro hnext hzero
    exact hcreates hnext ((hk.toSound.twoFrames_iff ha hb).mpr (not_or.mp hzero))
  refine procCreate_embeds entryPoint priority (hk.frames_embeds h hm) ?_ ?_
  · intro a' b' pmm' m' hnext hframes' hzero
    rw [hframes] at hframes'
    obtain ⟨rfl, rfl, rfl, rfl⟩ : a = a' ∧ b = b' ∧ pmm = pmm' ∧ m = m' := by simpa using hframes'
    exact hk.kmalloc_embeds h hm₁ ht fun bs o ht ho j hj =>
      hplace hnext hzero bs o ht ho j (by omega)
  · intro a' b' pmm' m' context heap m₂ hnext hframes' hzero hcall hnull
    rw [hframes] at hframes'
    obtain ⟨rfl, rfl, rfl, rfl⟩ : a = a' ∧ b = b' ∧ pmm = pmm' ∧ m = m' := by simpa using hframes'
    rcases kmalloc_placed ht contextSize with ⟨-, hnone⟩ |
      ⟨o, heap', m', bs', hfirst, -, hplaced, -, -, -, -, -, -, hheader⟩
    · rw [hcall] at hnone
      exact absurd (Prod.mk.inj (Option.some.inj hnone)).1 hnull
    · rw [hcall] at hplaced
      obtain ⟨rfl, rfl, rfl⟩ : context = k.heap.addr (o + 12) ∧ heap = heap' ∧ m₂ = m' := by
        simpa using hplaced
      have hbyte := hplace hnext hzero bs o hk.tiled hfirst
      have hm₂ : ok m₂ := h.kept hm₁ fun c hc => hheader c fun j hj =>
        (ne_of_mem_of_not_mem (hbyte j (by omega)) hc).symm
      refine initContext_embeds h.embeds h.put hm₂ (fun j hj => ?_) _ _
      rw [HeapState.addr_add, Nat.add_assoc]
      exact hbyte _ (by omega)

/-- `proc_create` keeps within the bytes. -/
theorem create_keepsIn (hk : k.SoundIn S F bs) (hcreates : k.CreatesIn S)
    {entryPoint priority : Word} {ret : ℤ}
    (hcall : procCreate Mem.bus Mem.bus k entryPoint priority = some (ret, k')) :
    k.KeepsIn S k' := by
  rcases hk.toSound.create entryPoint priority with ⟨-, hrefused⟩ |
    ⟨hnext, a, b, pmm, m, hframes, ha, hb, hbytes, hkept, hsound,
      ⟨-, procs, hfailed, -⟩ | ⟨ha0, hb0, o, k₁, bs', hcreated, hc⟩⟩
  · rw [hcall] at hrefused
    obtain ⟨-, rfl⟩ := Prod.mk.inj (Option.some.inj hrefused)
    exact hk.keepsIn_pmm rfl fun _ _ => rfl
  · rw [hcall] at hfailed
    obtain ⟨-, rfl⟩ := Prod.mk.inj (Option.some.inj hfailed)
    exact hk.keepsIn_pmm hbytes hkept
  · rw [hcall] at hcreated
    obtain ⟨-, rfl⟩ := Prod.mk.inj (Option.some.inj hcreated)
    have hplace := hcreates hnext ((hk.toSound.twoFrames_iff ha hb).mpr ⟨ha0, hb0⟩)
    have hbyte := hplace bs o hk.tiled hc.place
    refine hk.keepsIn (fun c hmem => ?_) hc.tiled hc.start_eq (fun o' b' hb' => ?_)
      (hc.pmm_eq ▸ hbytes)
    · rw [hc.kept c fun j hj => (ne_of_mem_of_not_mem (hbyte j hj) hmem).symm]
      exact hk.kept_of_bitmap hkept c hmem
    · rcases hc.offsets o' b' hb' with rfl | hold
      · exact Or.inr fun j hj => hbyte j (by omega)
      · exact Or.inl hold

end SoundIn

end Kernel

namespace Workload

variable {x : Workload} {call : WorkloadCall}

/-- Every call on held blocks and frames returns in the other memory what it returns in the flat
one, when its stores lie in the bytes that are shown. -/
theorem call_embeds (hx : x.system.Low F bs) (hk : x.system.kernel.SoundIn S F bs)
    (h : Hosts bus g ok S) (hm : ok x.system.kernel.mem)
    (hheld : ∀ c, call = .system c → x.system.HeldOnly c) (hstores : x.StoresIn S call) :
    kernelCall bus (x.system.kernel.map g) call =
      (kernelCall Mem.bus x.system.kernel call).map fun r => (r.1, r.2.map g) := by
  cases call with
  | system call =>
    cases call with
    | heap call =>
      cases call with
      | kmalloc n =>
        have hcall := hk.kmalloc_embeds h hm hk.tiled hstores
        simp only [kernelCall, Kernel.map, hcall]
        cases kmalloc Mem.bus x.system.kernel.heap x.system.kernel.mem n <;> rfl
      | kfree p =>
        obtain ⟨n, hmem⟩ := hheld _ rfl
        obtain ⟨o, b, hserves, -⟩ := hx.owned.held_in_use _ hmem
        have hcall := kfree_embeds h.embeds hm (hk.freed_mem hserves)
        simp only [kernelCall, Kernel.map, hcall]
        cases kfree Mem.bus x.system.kernel.mem p <;> rfl
      | write a byte =>
        have hstore := h.embeds.store_eq byte hm hstores
        simp only [kernelCall, Kernel.map, hstore]
        rfl
    | create entryPoint priority =>
      simp only [kernelCall, hk.create_embeds h hm hstores]
      cases procCreate Mem.bus Mem.bus x.system.kernel entryPoint priority <;> rfl
  | alloc =>
    simp only [kernelCall, Kernel.map, hk.alloc_embeds h hm]
    cases pmmAlloc Mem.bus x.system.kernel.pmm x.system.kernel.mem <;> rfl
  | free addr =>
    simp only [kernelCall, Kernel.map, hk.free_embeds h hm]
    cases pmmFree Mem.bus x.system.kernel.pmm x.system.kernel.mem addr <;> rfl
  | exit pid | block resource | unblock pid | tick context => rfl

/-- Such a call keeps within the bytes. -/
theorem call_keepsIn (hx : x.system.Low F bs) (hk : x.system.kernel.SoundIn S F bs)
    (hheld : ∀ c, call = .system c → x.system.HeldOnly c) (hstores : x.StoresIn S call)
    {reply : WorkloadReply} (hcall : kernelCall Mem.bus x.system.kernel call = some (reply, k')) :
    x.system.kernel.KeepsIn S k' := by
  cases call with
  | system call =>
    cases call with
    | heap call =>
      cases call with
      | kmalloc n =>
        obtain ⟨⟨p, heap, mem⟩, hkmalloc, hresult⟩ := Option.bind_eq_some_iff.mp hcall
        obtain ⟨-, rfl⟩ := Prod.mk.inj (Option.some.inj hresult)
        exact hk.kmalloc_keepsIn hstores hkmalloc
      | kfree p =>
        obtain ⟨⟨ret, mem⟩, hkfree, hresult⟩ := Option.bind_eq_some_iff.mp hcall
        obtain ⟨-, rfl⟩ := Prod.mk.inj (Option.some.inj hresult)
        obtain ⟨n, hmem⟩ := hheld _ rfl
        obtain ⟨o, b, hserves, -⟩ := hx.owned.held_in_use _ hmem
        exact hk.kfree_keepsIn hserves hkfree
      | write a byte =>
        obtain ⟨-, rfl⟩ := Prod.mk.inj (Option.some.inj hcall)
        obtain ⟨e, hmem, hpayload⟩ := hheld _ rfl
        obtain ⟨o, b, hserves, -⟩ := hx.owned.held_in_use _ hmem
        exact hk.write_keepsIn hserves hpayload hstores byte
    | create entryPoint priority =>
      obtain ⟨⟨ret, k'⟩, hcreate, hresult⟩ := Option.bind_eq_some_iff.mp hcall
      obtain ⟨-, rfl⟩ := Prod.mk.inj (Option.some.inj hresult)
      exact hk.create_keepsIn hstores hcreate
  | alloc =>
    obtain ⟨⟨addr, pmm, mem⟩, halloc, hresult⟩ := Option.bind_eq_some_iff.mp hcall
    obtain ⟨-, rfl⟩ := Prod.mk.inj (Option.some.inj hresult)
    exact hk.alloc_keepsIn halloc
  | free addr =>
    obtain ⟨⟨ret, pmm, mem⟩, hfree, hresult⟩ := Option.bind_eq_some_iff.mp hcall
    obtain ⟨-, rfl⟩ := Prod.mk.inj (Option.some.inj hresult)
    exact hk.free_keepsIn hfree
  | exit pid | block resource | unblock pid | tick context =>
    obtain ⟨-, rfl⟩ := Prod.mk.inj (Option.some.inj hcall)
    exact hk.keepsIn_pmm rfl fun _ _ => rfl

end Workload

end Calls

end Nimbu
