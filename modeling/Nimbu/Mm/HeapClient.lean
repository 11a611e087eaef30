import Nimbu.Machine.Run
import Nimbu.Mm.HeapBlocks

/-!
# Clients of the kernel heap

A client calls `kmalloc` and `kfree` and writes into the blocks it was given.
The blocks of the heap stay in order as long as it frees only pointers that
`kmalloc` returned, at any time, and writes only into the bytes it asked for.
The client that frees only what it still holds keeps its blocks to itself.
-/

namespace Nimbu

/-- A heap in memory together with what its clients know about it. An entry
`(p, n)` stands for the pointer `p` returned by `kmalloc(n)`. -/
structure HeapClient where
  /-- The heap's record. -/
  heap : HeapState
  /-- The memory shared by the heap and its clients. -/
  mem : Mem
  /-- Entries not freed since. -/
  held : List (Word × Word)
  /-- All entries so far. -/
  returned : List (Word × Word)

/-- An action of a client. -/
inductive HeapCall where
  /-- `kmalloc(n)`. -/
  | kmalloc (n : Word)
  /-- `kfree(p)`. -/
  | kfree (p : Word)
  /-- Write one byte. -/
  | write (a : Word) (b : Byte)

/-- The result of an action. -/
inductive HeapReply where
  /-- The pointer returned by `kmalloc`. -/
  | pointer (p : Word)
  /-- The status returned by `kfree`. -/
  | status (ret : ℤ)
  /-- A write. -/
  | written

namespace HeapClient

/-- The state after `heap_init`. -/
def init (start size : Word) (m : Mem) : HeapClient := ⟨heapInit start size, m, [], []⟩

/-- One action. -/
def step (x : HeapClient) : HeapCall → Option (HeapReply × HeapClient)
  | .kmalloc n => do
    let (p, heap, mem) ← kmalloc Mem.bus x.heap x.mem n
    let entry := if p = 0 then [] else [(p, n)]
    return (.pointer p, ⟨heap, mem, entry ++ x.held, entry ++ x.returned⟩)
  | .kfree p => do
    let (ret, mem) ← kfree Mem.bus x.mem p
    return (.status ret, { x with mem, held := x.held.filter fun e => e.1 ≠ p })
  | .write a b => do
    let mem ← Mem.bus.store x.mem a b
    return (.written, { x with mem })

end HeapClient

/-- The address is one of the bytes asked for. -/
def InPayload (e : Word × Word) (a : Word) : Prop :=
  e.1.toNat ≤ a.toNat ∧ a.toNat < e.1.toNat + e.2.toNat

instance (e : Word × Word) (a : Word) : Decidable (InPayload e a) :=
  inferInstanceAs (Decidable (_ ∧ _))

namespace HeapClient

/-- Frees of pointers the client holds, and writes into blocks it holds. -/
def HeldOnly (x : HeapClient) : HeapCall → Prop
  | .kmalloc _ => True
  | .kfree p => ∃ n, (p, n) ∈ x.held
  | .write a _ => ∃ e ∈ x.held, InPayload e a

/-- Frees of any pointer `kmalloc` ever returned, freed before or not, and
writes into any block it ever returned. -/
def ReturnedOnly (x : HeapClient) : HeapCall → Prop
  | .kmalloc _ => True
  | .kfree p => p = 0 ∨ ∃ n, (p, n) ∈ x.returned
  | .write a _ => ∃ e ∈ x.returned, InPayload e a

end HeapClient

/-- The entry `e` is served by block `b` at offset `o`. -/
structure HeapState.Serves (h : HeapState) (bs : List Block) (e : Word × Word) (o : ℕ)
    (b : Block) : Prop where
  /-- The block is there. -/
  placed : (o, b) ∈ Block.place 0 bs
  /-- The pointer is just behind its header. -/
  pointer : e.1 = h.addr (o + 12)
  /-- The block has room for the request. -/
  room : 12 + e.2.toNat ≤ b.size

/-- The bytes of all block headers. -/
def HeapState.headerBytes (h : HeapState) (bs : List Block) : Set Word :=
  {a | ∃ o b k, (o, b) ∈ Block.place 0 bs ∧ k < 12 ∧ a = h.addr (o + k)}

variable {h : HeapState} {v v' : Bytes} {bs pre post : List Block} {b b' : Block} {o o' : ℕ}
  {e e' : Word × Word} {a : Word}

/-- The bytes of an entry lie in its block, behind the header. -/
theorem HeapState.Serves.payload (hs : h.Serves bs e o b) (ht : h.Tiled v bs)
    (ha : InPayload e a) : ∃ k, 12 ≤ k ∧ k < b.size ∧ a = h.addr (o + k) := by
  have hb := ht.block_le hs.placed
  have hroom := hs.room
  have hused := ht.used_le
  have hend := ht.end_le
  have hpointer : e.1.toNat = h.start.toNat + (o + 12) := by
    rw [hs.pointer, h.toNat_addr (by omega)]
  obtain ⟨hlo, hhi⟩ := ha
  refine ⟨a.toNat - h.start.toNat - o, by omega, by omega, ?_⟩
  apply BitVec.eq_of_toNat_eq
  rw [h.toNat_addr (by omega)]
  omega

/-- The bytes of an entry lie within the used part of the heap. -/
theorem HeapState.Serves.bounds (hs : h.Serves bs e o b) (ht : h.Tiled v bs) :
    h.start.toNat ≤ e.1.toNat ∧
      e.1.toNat + e.2.toNat ≤ h.start.toNat + h.used.toNat := by
  have hb := ht.block_le hs.placed
  have hroom := hs.room
  have hused := ht.used_le
  have hend := ht.end_le
  rw [hs.pointer, h.toNat_addr (by omega)]
  omega

/-- A byte of an entry is not a byte of a header, nor of the header that an
appended block would have. -/
theorem HeapState.Serves.payload_ne (hs : h.Serves bs e o b) (ht : h.Tiled v bs)
    (ha : InPayload e a) {o' k : ℕ} (hk : k < 12)
    (ho' : (∃ b', (o', b') ∈ Block.place 0 bs) ∨ o' = h.used.toNat) :
    a ≠ h.addr (o' + k) := by
  obtain ⟨j, hj, hjb, rfl⟩ := hs.payload ht ha
  have hb := ht.block_le hs.placed
  have hused := ht.used_le
  have hsize := ht.size_le
  intro heq
  rcases ho' with ⟨b', hb'⟩ | rfl
  · have hlt := ht.block_le hb'
    rw [h.addr_inj (by omega) (by omega)] at heq
    rcases Block.place_disjoint hs.placed hb' with ⟨rfl, -⟩ | h1 | h1 <;> omega
  · rw [h.addr_inj (by omega) (by omega)] at heq
    omega

/-- Entries served by different blocks have no byte in common. -/
theorem HeapState.Serves.disjoint (hs : h.Serves bs e o b) (hs' : h.Serves bs e' o' b')
    (ht : h.Tiled v bs) (hne : o ≠ o') : ¬ (InPayload e a ∧ InPayload e' a) := by
  rintro ⟨ha, ha'⟩
  obtain ⟨k, hk, hkb, rfl⟩ := hs.payload ht ha
  obtain ⟨k', hk', hkb', heq⟩ := hs'.payload ht ha'
  have hb := ht.block_le hs.placed
  have hb' := ht.block_le hs'.placed
  have hused := ht.used_le
  have hsize := ht.size_le
  rw [h.addr_inj (by omega) (by omega)] at heq
  rcases Block.place_disjoint hs.placed hs'.placed with ⟨h1, -⟩ | h1 | h1
  · exact hne h1
  · omega
  · omega

/-- Changing the flag of one block keeps every entry served. -/
theorem HeapState.Serves.mark (hs : h.Serves (pre ++ b :: post) e o b')
    (ht : h.Tiled v (pre ++ b :: post)) (u : Bool) :
    ∃ c, h.Serves (pre ++ { b with inUse := u } :: post) e o c ∧
      (o ≠ Block.span pre → c = b') := by
  obtain ⟨c, hc, hsize, hkeep⟩ := Block.place_replace_size
    (show ({ b with inUse := u } : Block).size = b.size from rfl)
    (fun c hc => by have := ht.min_size c hc; omega) hs.placed
  exact ⟨c, ⟨hc, hs.pointer, by rw [hsize]; exact hs.room⟩, hkeep⟩

/-- Appending a block keeps every entry served. -/
theorem HeapState.Serves.append (hs : h.Serves bs e o b) (c : Block) (t : Word) :
    { h with used := h.used + t }.Serves (bs ++ [c]) e o b :=
  ⟨by rw [Block.place_append]; exact List.mem_append_left _ hs.placed, hs.pointer, hs.room⟩

namespace HeapClient

variable {x : HeapClient}

/-- The heap is tiled by blocks, and every entry ever returned is served by one. -/
structure Sound (x : HeapClient) (bs : List Block) : Prop where
  /-- The memory holds the blocks. -/
  tiled : x.heap.Tiled x.mem.bytes bs
  /-- Every pointer ever returned belongs to a block with room for its request. -/
  served : ∀ e ∈ x.returned, ∃ o b, x.heap.Serves bs e o b

/-- `heap_init` starts with no block. -/
theorem init_sound {start size : Word} (m : Mem) (hbase : kernelVirtBase.toNat ≤ start.toNat)
    (hend : start.toNat + size.toNat ≤ 2 ^ 32) : (init start size m).Sound [] where
  tiled := ⟨hbase, hend, Nat.zero_le _, rfl, by simp, by simp [Block.place]⟩
  served := by simp [init]

/-- A `kmalloc` that serves a request adds one entry, and the heap stays in order where the
new blocks serve the new entry and all old ones. -/
theorem Sound.of_served (hx : x.Sound bs) {n p : Word} {m : Mem} {bs' : List Block}
    (hcall : Nimbu.kmalloc Mem.bus x.heap x.mem n = some (p, h, m)) (hp : p ≠ 0)
    (ht : h.Tiled m.bytes bs') (hnew : h.Serves bs' (p, n) o b)
    (hkept : ∀ e o c, x.heap.Serves bs e o c → ∃ c', h.Serves bs' e o c') :
    x.step (.kmalloc n) =
        some (.pointer p, ⟨h, m, (p, n) :: x.held, (p, n) :: x.returned⟩) ∧
      (⟨h, m, (p, n) :: x.held, (p, n) :: x.returned⟩ : HeapClient).Sound bs' := by
  refine ⟨?_, ht, ?_⟩
  · simp only [step, hcall, Option.bind_eq_bind, Option.bind_some, if_neg hp, Option.pure_def]
    rfl
  · intro e he
    rcases List.mem_cons.mp he with rfl | he
    · exact ⟨o, b, hnew⟩
    · obtain ⟨o', c, hs⟩ := hx.served e he
      obtain ⟨c', hs'⟩ := hkept e o' c hs
      exact ⟨o', c', hs'⟩

/-- `kmalloc` returns. When it returns 0 nothing changes; otherwise the new entry
is served by a block that was free or new. It changes no byte of any entry, and
blocks in use stay as they are. -/
theorem Sound.kmalloc (hx : x.Sound bs) (n : Word) :
    ∃ p x' bs', x.step (.kmalloc n) = some (.pointer p, x') ∧ x'.Sound bs' ∧
      x'.heap.start = x.heap.start ∧ x'.heap.size = x.heap.size ∧
      x.heap.used.toNat ≤ x'.heap.used.toNat ∧ (p = 0 → x' = x) ∧
      (p ≠ 0 → x'.held = (p, n) :: x.held ∧ ∃ o b, x'.heap.Serves bs' (p, n) o b ∧
        b.inUse = true ∧ ∀ c, (o, c) ∈ Block.place 0 bs → c.inUse = false) ∧
      (∀ e o b, x.heap.Serves bs e o b → b.inUse = true → x'.heap.Serves bs' e o b) ∧
      ∀ e o b, x.heap.Serves bs e o b → ∀ a, InPayload e a →
        x'.mem.bytes a = x.mem.bytes a := by
  have ht := hx.tiled
  have hsize := ht.size_le
  have hused := ht.used_le
  rcases kmalloc_eq ht n with ⟨-, heq⟩ | ⟨pre, b, post, rfl, -, hfits, hpos, -, heq⟩ |
    ⟨-, hpos, -, hblock, hroom, heq⟩
  · exact ⟨0, x, bs, by simp [step, heq], hx, rfl, rfl, le_rfl, fun _ => rfl,
      fun hne => absurd rfl hne, fun _ _ _ hs _ => hs, fun _ _ _ _ _ _ => rfl⟩
  · have hmem := Block.mem_place_middle pre post b
    have hb := ht.block_le hmem
    have hp := ht.addr_ne_zero (show Block.span pre + 12 < _ by omega)
    have hnew := Block.mem_place_middle pre post { b with inUse := true }
    have hserves : x.heap.Serves (pre ++ { b with inUse := true } :: post)
        (x.heap.addr (Block.span pre + 12), n) (Block.span pre) { b with inUse := true } :=
      ⟨hnew, rfl, le_trans (le_max_right _ _) hfits.2⟩
    have hfree : ∀ c, (Block.span pre, c) ∈ Block.place 0 (pre ++ b :: post) →
        c.inUse = false := by
      intro c hc
      have hc' := ht.block_le hc
      rcases Block.place_disjoint hc hmem with ⟨-, rfl⟩ | h1 | h1
      · exact hfits.1
      · omega
      · omega
    have hkept : ∀ e o c, x.heap.Serves (pre ++ b :: post) e o c →
        ∃ c', x.heap.Serves (pre ++ { b with inUse := true } :: post) e o c' := by
      intro e o c hs
      obtain ⟨c', hs', -⟩ := hs.mark ht true
      exact ⟨c', hs'⟩
    obtain ⟨hstep, hsound⟩ := hx.of_served heq hp (ht.mark true (by decide)) hserves hkept
    refine ⟨_, _, _, hstep, hsound, rfl, rfl, le_rfl, fun h0 => absurd h0 hp,
      fun _ => ⟨rfl, _, _, hserves, rfl, hfree⟩, ?_, ?_⟩
    · intro e o c hs hc
      obtain ⟨c', hs', hkeep⟩ := hs.mark ht true
      have ho : o ≠ Block.span pre := by
        rintro rfl
        rw [hfree c hs.placed] at hc
        cases hc
      rwa [hkeep ho] at hs'
    · intro e o c hs a ha
      exact Bytes.put_of_ne _ (hs.payload_ne ht ha (by decide) (Or.inl ⟨b, hmem⟩))
  · have hreq : 12 + n.toNat ≤ requestSize n.toNat := le_max_right _ _
    have hmin : 32 ≤ requestSize n.toNat := le_max_left _ _
    have hp := ht.addr_ne_zero (show x.heap.used.toNat + 12 < _ by omega)
    have hsum : (x.heap.used + blockSize n).toNat = x.heap.used.toNat + requestSize n.toNat := by
      rw [← hblock]
      bv_omega
    have hnew : (x.heap.used.toNat, ({ size := (blockSize n).toNat, inUse := true } : Block)) ∈
        Block.place 0 (bs ++ [{ size := (blockSize n).toNat, inUse := true }]) :=
      Block.mem_place_iff.mpr ⟨bs, [], rfl, by rw [Nat.zero_add, ht.span_eq]⟩
    have hserves : ({ x.heap with used := x.heap.used + blockSize n } : HeapState).Serves
        (bs ++ [{ size := (blockSize n).toNat, inUse := true }])
        (x.heap.addr (x.heap.used.toNat + 12), n) x.heap.used.toNat
        { size := (blockSize n).toNat, inUse := true } :=
      ⟨hnew, rfl, by rw [hblock]; exact hreq⟩
    obtain ⟨hstep, hsound⟩ := hx.of_served heq hp (ht.append (by omega) (by omega)) hserves
      fun _ _ c hs => ⟨c, hs.append _ _⟩
    refine ⟨_, _, _, hstep, hsound, rfl, rfl, by change _ ≤ BitVec.toNat (_ + _); omega,
      fun h0 => absurd h0 hp, fun _ => ⟨rfl, _, _, hserves, rfl, ?_⟩, ?_, ?_⟩
    · intro c hc
      have hc' := ht.block_le hc
      omega
    · intro e o c hs _
      exact hs.append _ _
    · intro e o c hs a ha
      exact HeapState.putHeader_of_ne _ fun k hk => hs.payload_ne ht ha hk (Or.inr rfl)

/-- `kfree` of a returned pointer frees its block and changes no byte of any entry. -/
theorem Sound.kfree (hx : x.Sound bs) (he : x.heap.Serves bs e o b) :
    ∃ x' bs', x.step (.kfree e.1) = some (.status 0, x') ∧ x'.Sound bs' ∧ x'.heap = x.heap ∧
      x'.held = x.held.filter (fun d => d.1 ≠ e.1) ∧
      (∀ d o' c, x.heap.Serves bs d o' c → o' ≠ o → x'.heap.Serves bs' d o' c) ∧
      ∀ d o' c, x.heap.Serves bs d o' c → ∀ a, InPayload d a →
        x'.mem.bytes a = x.mem.bytes a := by
  have ht := hx.tiled
  obtain ⟨pre, post, rfl, hoff⟩ := Block.mem_place_iff.mp he.placed
  rw [Nat.zero_add] at hoff
  subst hoff
  have heq := kfree_eq ht
  rw [← he.pointer] at heq
  let x' : HeapClient := { x with
    mem := x.mem.put (x.heap.addr (Block.span pre + 8)) 0,
    held := x.held.filter fun d => d.1 ≠ e.1 }
  have hstep : x.step (.kfree e.1) = some (.status 0, x') := by
    simp only [step, heq, Option.bind_eq_bind, Option.bind_some, Option.pure_def]
    rfl
  refine ⟨x', pre ++ { b with inUse := false } :: post, hstep,
    ⟨ht.mark false (by decide), ?_⟩, rfl, rfl, ?_, ?_⟩
  · intro d hd
    obtain ⟨o, c, hs⟩ := hx.served d hd
    obtain ⟨c', hs', -⟩ := hs.mark ht false
    exact ⟨o, c', hs'⟩
  · intro d o' c hs hne
    obtain ⟨c', hs', hkeep⟩ := hs.mark ht false
    rwa [hkeep hne] at hs'
  · intro d o' c hs a ha
    exact Bytes.put_of_ne _ (hs.payload_ne ht ha (by decide) (Or.inl ⟨b, he.placed⟩))

/-- A write into the bytes of an entry changes no header. -/
theorem Sound.write (hx : x.Sound bs) (he : x.heap.Serves bs e o b) (ha : InPayload e a)
    (byte : Byte) :
    ∃ x', x.step (.write a byte) = some (.written, x') ∧ x'.Sound bs ∧ x'.heap = x.heap ∧
      x'.held = x.held := by
  have ht := hx.tiled
  refine ⟨_, rfl, ⟨ht.congr fun o' c hc k hk => ?_, hx.served⟩, rfl, rfl⟩
  exact Bytes.put_of_ne _ (he.payload_ne ht ha hk (Or.inl ⟨c, hc⟩)).symm

/-- Every permitted action returns and keeps the blocks in order. -/
theorem Sound.step (hx : x.Sound bs) {call : HeapCall} (hcall : x.ReturnedOnly call) :
    ∃ reply x' bs', x.step call = some (reply, x') ∧ x'.Sound bs' ∧
      x'.heap.start = x.heap.start ∧ x'.heap.size = x.heap.size ∧
      x.heap.used.toNat ≤ x'.heap.used.toNat := by
  cases call with
  | kmalloc n =>
    obtain ⟨p, x', bs', hstep, hsound, hstart, hsize, hused, -⟩ := hx.kmalloc n
    exact ⟨_, x', bs', hstep, hsound, hstart, hsize, hused⟩
  | kfree p =>
    rcases hcall with rfl | ⟨n, hmem⟩
    · exact ⟨.status 0, _, bs, rfl, ⟨hx.tiled, hx.served⟩, rfl, rfl, le_rfl⟩
    · obtain ⟨o, b, he⟩ := hx.served _ hmem
      obtain ⟨x', bs', hstep, hsound, hheap, -⟩ := hx.kfree he
      exact ⟨_, x', bs', hstep, hsound, by rw [hheap], by rw [hheap], by rw [hheap]⟩
  | write a byte =>
    obtain ⟨e, hmem, ha⟩ := hcall
    obtain ⟨o, b, he⟩ := hx.served _ hmem
    obtain ⟨x', hstep, hsound, hheap, -⟩ := hx.write he ha byte
    exact ⟨_, x', bs, hstep, hsound, by rw [hheap], by rw [hheap], by rw [hheap]⟩

/-- What an action on the heap does to the blocks held. -/
theorem step_held {x x' : HeapClient} {call : HeapCall} {reply : HeapReply}
    (hstep : x.step call = some (reply, x')) :
    (∃ entry, x'.held = entry ++ x.held) ∨
      ∃ p, call = .kfree p ∧ x'.held = x.held.filter fun e => e.1 ≠ p := by
  cases call with
  | kmalloc n =>
    obtain ⟨⟨p, heap, mem⟩, -, hresult⟩ := Option.bind_eq_some_iff.mp hstep
    obtain ⟨-, rfl⟩ := Prod.mk.inj (Option.some.inj hresult)
    exact Or.inl ⟨_, rfl⟩
  | kfree p =>
    obtain ⟨⟨ret, mem⟩, -, hresult⟩ := Option.bind_eq_some_iff.mp hstep
    obtain ⟨-, rfl⟩ := Prod.mk.inj (Option.some.inj hresult)
    exact Or.inr ⟨p, rfl, rfl⟩
  | write a b =>
    have hresult : some (HeapReply.written, { x with mem := x.mem.put a b }) = some (reply, x') :=
      hstep
    obtain ⟨-, rfl⟩ := Prod.mk.inj (Option.some.inj hresult)
    exact Or.inl ⟨[], rfl⟩

end HeapClient

end Nimbu
