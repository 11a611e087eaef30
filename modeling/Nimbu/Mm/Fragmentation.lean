import Nimbu.Mm.FirstFit
import Nimbu.Mm.HeapSteps

/-!
# Fragmentation

`kfree` clears the used flag of a block and never merges two blocks, so the sizes
of the blocks stay as the first requests cut them. Once everything is freed again,
requests of every size are served exactly when no block was ever made, or when the
first one made takes the whole heap.
-/

namespace Nimbu

namespace HeapClient

variable {x x' : HeapClient} {bs : List Block} {call : HeapCall} {reply : HeapReply}

/-- What an action of a client does to the blocks `bs` and to the entries held. -/
inductive BlockStep (x : HeapClient) (bs : List Block) (x' : HeapClient) :
    HeapCall → List Block → Prop
  /-- A request that is not served. -/
  | refused (n : Word) (hheld : x'.held = x.held)
      (hwhy : n.toNat = 0 ∨ x.heap.size.toNat < requestSize n.toNat ∨ bs ≠ []) :
      BlockStep x bs x' (.kmalloc n) bs
  /-- A request served from a free block. -/
  | reused (n : Word) (pre post : List Block) (b : Block) (hbs : bs = pre ++ b :: post)
      (hheld : x'.held = (x.heap.addr (Block.span pre + 12), n) :: x.held) :
      BlockStep x bs x' (.kmalloc n) (pre ++ { b with inUse := true } :: post)
  /-- A request served behind the last block. -/
  | appended (n : Word) (hpos : 0 < n.toNat)
      (hroom : Block.span bs + requestSize n.toNat ≤ x.heap.size.toNat)
      (hheld : x'.held = (x.heap.addr (Block.span bs + 12), n) :: x.held) :
      BlockStep x bs x' (.kmalloc n) (bs ++ [⟨requestSize n.toNat, true⟩])
  /-- A block freed. -/
  | freed (pre post : List Block) (b : Block) (hbs : bs = pre ++ b :: post)
      (hheld : x'.held = x.held.filter fun e => e.1 ≠ x.heap.addr (Block.span pre + 12)) :
      BlockStep x bs x' (.kfree (x.heap.addr (Block.span pre + 12)))
        (pre ++ { b with inUse := false } :: post)
  /-- A byte written. -/
  | written (a : Word) (byte : Byte) (hheld : x'.held = x.held) :
      BlockStep x bs x' (.write a byte) bs

/-- Every action of a client that frees only what it holds is one of these. -/
theorem Owned.blockStep (hx : x.Owned bs) (hcall : x.HeldOnly call)
    (hstep : x.step call = some (reply, x')) :
    ∃ bs', x'.Owned bs' ∧ x.BlockStep bs x' call bs' ∧ x'.heap.start = x.heap.start ∧
      x'.heap.size = x.heap.size := by
  obtain ⟨bs', howned, hsteps⟩ := hx.heapStep hcall hstep
  refine ⟨bs', howned, ?_, hsteps.start_eq, hsteps.size_eq⟩
  have hspan := hx.tiled.span_eq
  cases hsteps with
  | refused n hwhy =>
    have hreq : 12 + n.toNat ≤ requestSize n.toNat := le_max_right _ _
    refine .refused n rfl ?_
    rcases hwhy with rfl | hbig | ⟨-, hfull⟩
    · exact Or.inl rfl
    · exact Or.inr (Or.inl (by omega))
    · by_cases hnil : bs = []
      · rw [hnil, Block.span_nil] at hspan
        exact Or.inr (Or.inl (by omega))
      · exact Or.inr (Or.inr hnil)
  | reused n pre post b hbs hpre hfits hpos hp => exact .reused n pre post b hbs rfl
  | appended n hnone hpos hle hblock hroom hp =>
    rw [← hspan] at hroom
    exact .appended n hpos hroom (by rw [hspan])
  | freed pre post b hbs => exact .freed pre post b hbs rfl
  | written a byte e o b he hs ha => exact .written a byte rfl

/-- Every block in use is the block of an entry held. -/
structure Accounted (x : HeapClient) (bs : List Block) : Prop extends Owned x bs where
  /-- A block in use is held. -/
  in_use_held : ∀ o b, (o, b) ∈ Block.place 0 bs → b.inUse = true →
    ∃ e ∈ x.held, e.1 = x.heap.addr (o + 12)

/-- `heap_init` starts with no block. -/
theorem accounted_init {start size : Word} (m : Mem)
    (hbase : kernelVirtBase.toNat ≤ start.toNat) (hend : start.toNat + size.toNat ≤ 2 ^ 32) :
    (init start size m).Accounted [] :=
  ⟨⟨init_sound m hbase hend, by simp [init], by simp [init]⟩, by simp [Block.place]⟩

/-- The size of the first block. -/
def firstSize (bs : List Block) : Option ℕ := bs.head?.map Block.size

/-- The size of the block that an action makes on a fresh heap of `size` bytes. -/
def blockMade (size : ℕ) : HeapCall → Option ℕ
  | .kmalloc n =>
    if 0 < n.toNat ∧ requestSize n.toNat ≤ size then some (requestSize n.toNat) else none
  | .kfree _ => none
  | .write _ _ => none

/-- The size of the block that serves the first request a fresh heap of `size` bytes
has room for. -/
def firstServed (size : ℕ) (calls : List HeapCall) : Option ℕ := calls.findSome? (blockMade size)

/-- Changing a flag keeps the size of the first block. -/
theorem firstSize_mark (pre post : List Block) (b : Block) (u : Bool) :
    firstSize (pre ++ { b with inUse := u } :: post) = firstSize (pre ++ b :: post) := by
  cases pre with
  | nil => rfl
  | cons c pre => rfl

/-- An action makes the first block if there is none, and keeps its size if there is one. -/
theorem BlockStep.firstSize_eq {bs' : List Block} (hblocks : x.BlockStep bs x' call bs') :
    firstSize bs' = (firstSize bs).or (blockMade x.heap.size.toNat call) := by
  cases hblocks with
  | refused n hheld hwhy =>
    cases bs with
    | nil =>
      have hnone : ¬ (0 < n.toNat ∧ requestSize n.toNat ≤ x.heap.size.toNat) := by
        simp only [ne_eq, not_true_eq_false, or_false] at hwhy
        omega
      simp [firstSize, blockMade, hnone]
    | cons c bs => rfl
  | reused n pre post b hbs hheld =>
    rw [firstSize_mark, ← hbs]
    cases pre with
    | nil => simp [hbs, firstSize]
    | cons c pre => simp [hbs, firstSize]
  | appended n hpos hroom hheld =>
    cases bs with
    | nil =>
      rw [Block.span_nil, Nat.zero_add] at hroom
      simp [firstSize, blockMade, hpos, hroom]
    | cons c bs => rfl
  | freed pre post b hbs hheld =>
    rw [firstSize_mark, ← hbs]
    exact (Option.or_none).symm
  | written a byte hheld => exact (Option.or_none).symm

/-- An action of a client that frees only what it holds keeps the blocks accounted for. -/
theorem Accounted.step (hx : x.Accounted bs) (hcall : x.HeldOnly call)
    (hstep : x.step call = some (reply, x')) :
    ∃ bs', x'.Accounted bs' ∧ x'.heap.size = x.heap.size ∧
      firstSize bs' = (firstSize bs).or (blockMade x.heap.size.toNat call) := by
  obtain ⟨bs', howned, hblocks, hstart, hsize⟩ := hx.toOwned.blockStep hcall hstep
  refine ⟨bs', ⟨howned, ?_⟩, hsize, hblocks.firstSize_eq⟩
  have hpos : ∀ c ∈ bs, 0 < c.size := fun c hc => by
    have := hx.tiled.min_size c hc
    omega
  have haddr : ∀ o, x'.heap.addr o = x.heap.addr o := fun o => by
    rw [HeapState.addr, HeapState.addr, hstart]
  intro o c hplaced hc
  rw [haddr]
  cases hblocks with
  | refused n hheld hwhy =>
    rw [hheld]
    exact hx.in_use_held o c hplaced hc
  | reused n pre post b hbs hheld =>
    subst hbs
    rw [hheld]
    rcases (Block.mem_place_replace (show ({ b with inUse := true } : Block).size = b.size
      from rfl) hpos).mp hplaced with hnew | ⟨hold, -⟩
    · obtain ⟨rfl, -⟩ := Prod.mk.inj hnew
      exact ⟨_, List.mem_cons_self, rfl⟩
    · obtain ⟨e, he, hpointer⟩ := hx.in_use_held o c hold hc
      exact ⟨e, List.mem_cons_of_mem _ he, hpointer⟩
  | appended n hpos hroom hheld =>
    rw [hheld]
    rw [Block.place_append, List.mem_append, Nat.zero_add] at hplaced
    rcases hplaced with hold | hnew
    · obtain ⟨e, he, hpointer⟩ := hx.in_use_held o c hold hc
      exact ⟨e, List.mem_cons_of_mem _ he, hpointer⟩
    · obtain ⟨rfl, -⟩ : o = Block.span bs ∧ _ := by simpa [Block.place] using hnew
      exact ⟨_, List.mem_cons_self, rfl⟩
  | freed pre post b hbs hheld =>
    subst hbs
    rcases (Block.mem_place_replace (show ({ b with inUse := false } : Block).size = b.size
      from rfl) hpos).mp hplaced with hnew | ⟨hold, hne⟩
    · obtain ⟨-, rfl⟩ := Prod.mk.inj hnew
      cases hc
    · obtain ⟨e, he, hpointer⟩ := hx.in_use_held o c hold hc
      have hb := hx.tiled.block_le (Block.mem_place_middle pre post b)
      have hb' := hx.tiled.block_le hold
      have hused := hx.tiled.used_le
      have hmax := hx.tiled.size_le
      refine ⟨e, ?_, hpointer⟩
      rw [hheld, List.mem_filter]
      refine ⟨he, ?_⟩
      rw [hpointer, decide_eq_true_eq, ne_eq, x.heap.addr_inj (by omega) (by omega)]
      simp only at hne
      omega
  | written a byte hheld =>
    rw [hheld]
    exact hx.in_use_held o c hplaced hc

/-- A run of a client that frees only what it holds keeps the blocks accounted for. The
first block at the end is the first one there was, or the one made for the first request
there was room for. -/
theorem Accounted.run (hx : x.Accounted bs) {calls : List HeapCall}
    (hcalls : Along HeapClient.step HeldOnly x calls) {replies : List HeapReply}
    (hrun : exec HeapClient.step x calls = some (replies, x')) :
    ∃ bs', x'.Accounted bs' ∧ x'.heap.size = x.heap.size ∧
      firstSize bs' = (firstSize bs).or (firstServed x.heap.size.toNat calls) := by
  induction calls generalizing x bs replies with
  | nil =>
    obtain ⟨-, rfl⟩ : [] = replies ∧ x = x' := by simpa using hrun
    exact ⟨bs, hx, rfl, (Option.or_none).symm⟩
  | cons call calls ih =>
    obtain ⟨reply, y, replies', hstep, hexec, -⟩ := exec_cons_iff.mp hrun
    obtain ⟨cs, hy, hsize, hfirst⟩ := hx.step hcalls.1 hstep
    obtain ⟨bs', hx', hsize', hlast⟩ := ih hy (hcalls.2 _ _ hstep) hexec
    refine ⟨bs', hx', hsize'.trans hsize, ?_⟩
    rw [hlast, hfirst, hsize, Option.or_assoc, firstServed, firstServed, List.findSome?_cons]
    cases blockMade x.heap.size.toNat call with
    | none => rfl
    | some t => rfl

/-- The largest request for a heap of 32 bytes or more takes the whole heap. -/
theorem requestSize_largest {size : ℕ} (hsize : 32 ≤ size) : requestSize (size - 12) = size := by
  unfold requestSize
  omega

/-- A heap whose first block is smaller than the heap has no room for the largest request. -/
theorem Accounted.largest_refused (hx : x.Accounted bs) {t : ℕ} (ht : firstSize bs = some t)
    (hlt : t < x.heap.size.toNat) {n : Word} (hn : requestSize n.toNat = x.heap.size.toNat) :
    kmalloc Mem.bus x.heap x.mem n = some (0, x.heap, x.mem) := by
  obtain ⟨b, hhead, rfl⟩ := Option.map_eq_some_iff.mp ht
  obtain ⟨bs, rfl⟩ := List.head?_eq_some_iff.mp hhead
  have hfirst : (0, b) ∈ Block.place 0 (b :: bs) := List.mem_cons_self
  have hb := hx.tiled.block_le hfirst
  have hused := hx.tiled.used_le
  rcases kmalloc_eq hx.tiled n with ⟨-, heq⟩ | ⟨pre, c, post, hbs, -, hfits, -⟩ |
    ⟨-, -, -, -, hroom, -⟩
  · exact heq
  · have hplaced : (Block.span pre, c) ∈ Block.place 0 (b :: bs) :=
      Block.mem_place_iff.mpr ⟨pre, post, hbs, (Nat.zero_add _).symm⟩
    have hc := hx.tiled.block_le hplaced
    have hsize := hfits.2
    rcases Block.place_disjoint hplaced hfirst with ⟨-, rfl⟩ | hle | hle
    · omega
    · omega
    · omega
  · omega

/-- **Freed memory is not usable again for every size.** After every run of a client that
frees only what it holds, at the end of which nothing is held, every request that a
fresh heap would serve is served exactly when the first request there was room for, if
any, took the whole heap. -/
theorem freed_memory_usable_iff (start size : Word) (m : Mem)
    (hbase : kernelVirtBase.toNat ≤ start.toNat) (hend : start.toNat + size.toNat ≤ 2 ^ 32)
    {calls : List HeapCall} (hcalls : Along step HeldOnly (init start size m) calls) :
    ∃ replies x, exec step (init start size m) calls = some (replies, x) ∧
      (x.held = [] →
        ((∀ n : Word, 0 < n.toNat → requestSize n.toNat ≤ size.toNat →
            ∃ p x', x.step (.kmalloc n) = some (.pointer p, x') ∧ p ≠ 0) ↔
          ∀ t, firstServed size.toNat calls = some t → t = size.toNat)) := by
  obtain ⟨replies, x, -, hrun, -, -, -⟩ := owned_of_run m hbase hend hcalls
  obtain ⟨bs, hx, hsize, hfirst⟩ := (accounted_init m hbase hend).run hcalls hrun
  have hsize' : x.heap.size = size := hsize
  have hfirst' : firstSize bs = firstServed size.toNat calls := hfirst
  have hmax := hx.tiled.size_le
  have hused := hx.tiled.used_le
  have hspan := hx.tiled.span_eq
  refine ⟨replies, x, hrun, fun hnone => ⟨?_, ?_⟩⟩
  · intro hall t hserved
    by_contra hne
    rw [← hfirst'] at hserved
    obtain ⟨b, hhead, rfl⟩ := Option.map_eq_some_iff.mp hserved
    obtain ⟨rest, rfl⟩ := List.head?_eq_some_iff.mp hhead
    have hmin := hx.tiled.min_size b List.mem_cons_self
    rw [Block.span_cons] at hspan
    rw [← hsize'] at hall hne
    have hlargest : (BitVec.ofNat 32 (x.heap.size.toNat - 12)).toNat = x.heap.size.toNat - 12 := by
      rw [BitVec.toNat_ofNat]
      exact Nat.mod_eq_of_lt (by omega)
    have hrequest := requestSize_largest (show 32 ≤ x.heap.size.toNat by omega)
    rw [← hlargest] at hrequest
    obtain ⟨p, x', hstep, hp⟩ := hall _ (by omega) hrequest.le
    have hrefused := hx.largest_refused hserved (by omega) hrequest
    simp only [step, hrefused, Option.bind_eq_bind, Option.bind_some, Option.pure_def,
      Option.some.injEq, Prod.mk.injEq, HeapReply.pointer.injEq] at hstep
    exact hp hstep.1.symm
  · intro hfull n hpos hle
    rw [← hsize'] at hle
    have hroom : (∃ b ∈ bs, b.Fits (requestSize n.toNat)) ∨
        x.heap.used.toNat + requestSize n.toNat ≤ x.heap.size.toNat := by
      cases bs with
      | nil =>
        rw [Block.span_nil] at hspan
        exact Or.inr (by omega)
      | cons b rest =>
        have hb : b.size = size.toNat := hfull _ hfirst'.symm
        have hfree : b.inUse = false := by
          by_contra hinUse
          obtain ⟨e, he, -⟩ := hx.in_use_held 0 b List.mem_cons_self (by simpa using hinUse)
          simp [hnone] at he
        exact Or.inl ⟨b, List.mem_cons_self, hfree, by rw [hb, ← hsize']; exact hle⟩
    obtain ⟨p, h', m', hcall, hp⟩ := hx.tiled.kmalloc_served hpos hle hroom
    exact ⟨p, _, by simp only [step, hcall, Option.bind_eq_bind, Option.bind_some]; rfl, hp⟩

/-- One request for the whole heap of 128 bytes, freed. -/
theorem freed_memory_usable_whole :
    ∃ replies x, exec step (init 0xC0100000 128 ⟨fun _ => 0xAA, []⟩)
        [.kmalloc 116, .kfree 0xC010000C] = some (replies, x) ∧ x.held = [] ∧
      ∀ n : Word, 0 < n.toNat → requestSize n.toNat ≤ 128 →
        ∃ p x', x.step (.kmalloc n) = some (.pointer p, x') ∧ p ≠ 0 := by
  have hcalls : Along step HeldOnly (init 0xC0100000 128 ⟨fun _ => 0xAA, []⟩)
      [.kmalloc 116, .kfree 0xC010000C] :=
    Along.cons trivial rfl (Along.cons ⟨116, List.mem_cons_self⟩ rfl trivial)
  obtain ⟨replies, x, hrun, hiff⟩ := freed_memory_usable_iff 0xC0100000 128
    ⟨fun _ => 0xAA, []⟩ (by decide) (by decide) hcalls
  obtain ⟨-, rfl⟩ := Prod.mk.inj (Option.some.inj hrun)
  refine ⟨_, _, rfl, rfl, (hiff rfl).mpr fun t ht => ?_⟩
  obtain rfl : 128 = t := Option.some.inj ht
  rfl

/-- Two blocks of 32 bytes fill a heap of 64 bytes and are both freed: a request of 52
bytes, which a fresh heap serves, is refused. -/
theorem freed_memory_not_merged :
    Along step HeldOnly (init 0xC0100000 64 ⟨fun _ => 0xAA, []⟩)
        [.kmalloc 20, .kmalloc 20, .kfree 0xC010000C, .kfree 0xC010002C] ∧
      requestSize 52 ≤ 64 ∧
      ∃ replies x x', exec step (init 0xC0100000 64 ⟨fun _ => 0xAA, []⟩)
        [.kmalloc 20, .kmalloc 20, .kfree 0xC010000C, .kfree 0xC010002C] = some (replies, x) ∧
        x.held = [] ∧ x.step (.kmalloc 52) = some (.pointer 0, x') := by
  have hcalls : Along step HeldOnly (init 0xC0100000 64 ⟨fun _ => 0xAA, []⟩)
      [.kmalloc 20, .kmalloc 20, .kfree 0xC010000C, .kfree 0xC010002C] :=
    Along.cons trivial rfl (Along.cons trivial rfl
      (Along.cons ⟨20, List.mem_cons_of_mem _ List.mem_cons_self⟩ rfl
        ⟨⟨20, List.mem_cons_self⟩, fun _ _ _ => trivial⟩))
  have hbase : kernelVirtBase.toNat ≤ (0xC0100000 : Word).toNat := by decide
  have hend : (0xC0100000 : Word).toNat + (64 : Word).toNat ≤ 2 ^ 32 := by decide
  obtain ⟨replies, x, -, hrun, -, -, -⟩ := owned_of_run ⟨fun _ => 0xAA, []⟩ hbase hend hcalls
  obtain ⟨bs, hx, hsize, hfirst⟩ := (accounted_init _ hbase hend).run hcalls hrun
  have hheld : (exec step (init 0xC0100000 64 ⟨fun _ => 0xAA, []⟩)
      [.kmalloc 20, .kmalloc 20, .kfree 0xC010000C, .kfree 0xC010002C]).map
        (fun r => r.2.held) = some [] := by
    decide +kernel
  rw [hrun] at hheld
  have hrefused := hx.largest_refused (t := 32) hfirst (by rw [hsize]; decide)
    (show requestSize (52 : Word).toNat = _ by rw [hsize]; rfl)
  refine ⟨hcalls, by decide, replies, x, x, hrun, by simpa using hheld, ?_⟩
  simp only [step, hrefused, Option.bind_eq_bind, Option.bind_some]
  rfl

end HeapClient

end Nimbu
