import Nimbu.Mm.HeapContract

/-!
# First fit

After every run of clients that free only what they hold, `kmalloc` serves a
request from the lowest free block that fits, else behind the last block, else
not at all. So a block that is freed is served again to the next request of the
same size.
-/

namespace Nimbu

variable {h h' : HeapState} {m m' : Mem} {bs : List Block} {n p : Word}

/-- `kmalloc` of `n` bytes is first fit on a heap of blocks: the lowest free block
that fits is marked and nothing else changes; without one, a block is appended
at the end of the used part; and without room for that nothing is served. -/
structure FirstFit (h : HeapState) (m : Mem) (bs : List Block) (n : Word) : Prop where
  /-- Some free block fits, and `b` is the lowest one. -/
  found : ∀ pre b post, bs = pre ++ b :: post → (∀ c ∈ pre, ¬ c.Fits (requestSize n.toNat)) →
    b.Fits (requestSize n.toNat) →
    ∃ m', kmalloc Mem.bus h m n = some (h.addr (Block.span pre + 12), h, m') ∧
      m'.bytes = m.bytes.put (h.addr (Block.span pre + 8)) 1 ∧
      h.Tiled m'.bytes (pre ++ { b with inUse := true } :: post)
  /-- No free block fits, and there is room behind the last block. -/
  appended : (∀ c ∈ bs, ¬ c.Fits (requestSize n.toNat)) →
    h.used.toNat + requestSize n.toNat ≤ h.size.toNat →
    ∃ h' m', kmalloc Mem.bus h m n = some (h.addr (h.used.toNat + 12), h', m') ∧
      h'.start = h.start ∧ h'.size = h.size ∧
      h'.used.toNat = h.used.toNat + requestSize n.toNat ∧
      h'.Tiled m'.bytes (bs ++ [⟨requestSize n.toNat, true⟩])
  /-- Neither. -/
  refused : (∀ c ∈ bs, ¬ c.Fits (requestSize n.toNat)) →
    h.size.toNat < h.used.toNat + requestSize n.toNat →
    kmalloc Mem.bus h m n = some (0, h, m)

/-- `kmalloc` is first fit for every request of at most the size of the heap. -/
theorem HeapState.Tiled.firstFit (ht : h.Tiled m.bytes bs) (hpos : 0 < n.toNat)
    (hle : n.toNat ≤ h.size.toNat) : FirstFit h m bs n := by
  have hzero : n ≠ 0 := by
    rintro rfl
    exact absurd hpos (by decide)
  have hmin : 32 ≤ requestSize n.toNat := le_max_left _ _
  have hsize := ht.size_le
  rcases kmalloc_eq ht n with ⟨hwhy, heq⟩ | ⟨pre, b, post, hbs, hpre, hb, -, -, heq⟩ |
    ⟨hnone, -, -, hblock, hroom, heq⟩
  · obtain ⟨hnone, hfull⟩ := (hwhy.resolve_left hzero).resolve_left (by omega)
    refine ⟨?_, ?_, fun _ _ => heq⟩
    · rintro pre b post rfl - hb
      exact absurd hb (hnone b (by simp))
    · intro _ hroom
      omega
  · have hmem : b ∈ bs := by
      rw [hbs]
      simp
    refine ⟨?_, fun hnone => absurd hb (hnone b hmem), fun hnone => absurd hb (hnone b hmem)⟩
    intro pre' b' post' hbs' hpre' hb'
    obtain ⟨rfl, rfl, rfl⟩ := Block.first_unique (hbs.symm.trans hbs') hpre hb hpre' hb'
    rw [hbs] at ht
    exact ⟨_, heq, rfl, ht.mark true (by decide)⟩
  · have hsum : (h.used + blockSize n).toNat = h.used.toNat + requestSize n.toNat := by
      rw [← hblock]
      bv_omega
    refine ⟨?_, fun _ _ => ⟨_, _, heq, rfl, rfl, hsum, ?_⟩, ?_⟩
    · rintro pre b post rfl - hb
      exact absurd hb (hnone b (by simp))
    · rw [← hblock]
      exact ht.append (by omega) (by omega)
    · intro _ hfull
      omega

/-- A request is served where a free block or the rest of the heap has room for it. -/
theorem HeapState.Tiled.kmalloc_served (ht : h.Tiled m.bytes bs) (hpos : 0 < n.toNat)
    (hle : requestSize n.toNat ≤ h.size.toNat)
    (hroom : (∃ b ∈ bs, b.Fits (requestSize n.toNat)) ∨
      h.used.toNat + requestSize n.toNat ≤ h.size.toNat) :
    ∃ p h' m', kmalloc Mem.bus h m n = some (p, h', m') ∧ p ≠ 0 := by
  have hreq : 12 + n.toNat ≤ requestSize n.toNat := le_max_right _ _
  have hused := ht.used_le
  rcases kmalloc_eq ht n with ⟨hwhy, -⟩ | ⟨pre, b, post, rfl, -, hb, -, -, heq⟩ |
    ⟨-, -, -, -, hroom, heq⟩
  · rcases hwhy with rfl | hbig | ⟨hnone, hfull⟩
    · exact absurd hpos (by decide)
    · omega
    · rcases hroom with ⟨b, hb, hfits⟩ | hroom
      · exact absurd hfits (hnone b hb)
      · omega
  · have hsize := ht.block_le (Block.mem_place_middle pre post b)
    exact ⟨_, _, _, heq, ht.addr_ne_zero (by omega)⟩
  · exact ⟨_, _, _, heq, ht.addr_ne_zero (by omega)⟩

namespace HeapClient

variable {x x' : HeapClient}

/-- **`kmalloc` is exactly first fit.** After every run of clients that free only
what they hold and write only into what they hold, the heap is a list of blocks
on which every request of at most the size of the heap is served by first fit. -/
theorem kmalloc_first_fit (start size : Word) (m : Mem)
    (hbase : kernelVirtBase.toNat ≤ start.toNat) (hend : start.toNat + size.toNat ≤ 2 ^ 32)
    {calls : List HeapCall} (hcalls : Along step HeldOnly (init start size m) calls) :
    ∃ replies x bs, exec step (init start size m) calls = some (replies, x) ∧
      x.heap.start = start ∧ x.heap.size = size ∧ x.heap.Tiled x.mem.bytes bs ∧
      ∀ n : Word, 0 < n.toNat → n.toNat ≤ size.toNat → FirstFit x.heap x.mem bs n := by
  obtain ⟨replies, x, bs, hrun, hx, hstart, hsize⟩ := owned_of_run m hbase hend hcalls
  refine ⟨replies, x, bs, hrun, hstart, hsize, hx.tiled, fun n hpos hle => ?_⟩
  rw [← hsize] at hle
  exact hx.tiled.firstFit hpos hle

/-- On a heap of 128 bytes whose first block of 32 is free, the next request of 20
bytes is served there. -/
theorem kmalloc_first_fit_reuse :
    ∃ replies x bs, exec step (init 0xC0100000 128 ⟨fun _ => 0xAA, []⟩)
        [.kmalloc 20, .kmalloc 20, .kfree 0xC010000C] = some (replies, x) ∧
      FirstFit x.heap x.mem bs 20 := by
  have hcalls : Along step HeldOnly (init 0xC0100000 128 ⟨fun _ => 0xAA, []⟩)
      [.kmalloc 20, .kmalloc 20, .kfree 0xC010000C] :=
    Along.cons trivial rfl (Along.cons trivial rfl
      (Along.cons ⟨20, List.mem_cons_of_mem _ List.mem_cons_self⟩ rfl trivial))
  obtain ⟨replies, x, bs, hrun, -, -, -, hfit⟩ := kmalloc_first_fit 0xC0100000 128
    ⟨fun _ => 0xAA, []⟩ (by decide) (by decide) hcalls
  exact ⟨replies, x, bs, hrun, hfit 20 (by decide) (by decide)⟩

end HeapClient

/-- The block of `p` is in use and, were it free, would be the first that fits a request
of `n` bytes. -/
structure FirstInLine (h : HeapState) (m : Mem) (n p : Word) (pre : List Block) (b : Block)
    (post : List Block) : Prop where
  /-- The heap is made of these blocks. -/
  tiled : h.Tiled m.bytes (pre ++ b :: post)
  /-- The block is the one of the pointer. -/
  pointer : p = h.addr (Block.span pre + 12)
  /-- The used flag of the block is 1. -/
  flag : m.bytes (h.addr (Block.span pre + 8)) = 1
  /-- No block before it fits. -/
  before : ∀ c ∈ pre, ¬ c.Fits (requestSize n.toNat)
  /-- It is large enough. -/
  room : requestSize n.toNat ≤ b.size
  /-- The request is not empty. -/
  pos : 0 < n.toNat
  /-- The request is not larger than the heap. -/
  le_size : n.toNat ≤ h.size.toNat

/-- What `kmalloc` has served is first in line. -/
theorem firstInLine_of_kmalloc (ht : h.Tiled m.bytes bs)
    (hcall : kmalloc Mem.bus h m n = some (p, h', m')) (hp : p ≠ 0) :
    ∃ pre b post, FirstInLine h' m' n p pre b post := by
  rcases kmalloc_eq ht n with ⟨-, heq⟩ | ⟨pre, b, post, rfl, hpre, hb, hpos, hle, heq⟩ |
    ⟨hnone, hpos, hle, hblock, hroom, heq⟩
  · rw [heq] at hcall
    obtain ⟨rfl, -⟩ := Prod.mk.inj (Option.some.inj hcall)
    exact absurd rfl hp
  · rw [heq] at hcall
    obtain ⟨rfl, rfl, rfl⟩ : _ = p ∧ h = h' ∧ _ = m' := by simpa using hcall
    refine ⟨pre, { b with inUse := true }, post, ht.mark true (by decide), rfl, ?_, hpre, hb.2,
      hpos, hle⟩
    simp [Bytes.put_apply]
  · rw [heq] at hcall
    obtain ⟨rfl, rfl, rfl⟩ : _ = p ∧ _ = h' ∧ _ = m' := by simpa using hcall
    have hmin : 32 ≤ requestSize n.toNat := le_max_left _ _
    have htiled := ht.append (show 32 ≤ (blockSize n).toNat by omega) (by omega)
    refine ⟨bs, ⟨(blockSize n).toNat, true⟩, [], htiled, ?_, ?_, hnone, hblock.ge, hpos, hle⟩
    · rw [ht.span_eq]
      rfl
    · rw [ht.span_eq]
      simp [HeapState.putHeader, HeapState.addr, Bytes.put_apply]

/-- A block that is first in line is freed and served again, and the heap is as it was. -/
theorem FirstInLine.cycle {pre post : List Block} {b : Block}
    (hline : FirstInLine h m n p pre b post) :
    ∃ m₁ m₂, kfree Mem.bus m p = some (0, m₁) ∧ kmalloc Mem.bus h m₁ n = some (p, h, m₂) ∧
      m₂.bytes = m.bytes ∧ FirstInLine h m₂ n p pre b post := by
  have hfree := kfree_eq hline.tiled
  rw [← hline.pointer] at hfree
  have htiled : h.Tiled (m.put (h.addr (Block.span pre + 8)) 0).bytes
      (pre ++ { b with inUse := false } :: post) := hline.tiled.mark false (by decide)
  obtain ⟨m₂, hcall, hbytes, -⟩ := (htiled.firstFit hline.pos hline.le_size).found pre _ post rfl
    hline.before ⟨rfl, hline.room⟩
  rw [← hline.pointer] at hcall
  have hsame : m₂.bytes = m.bytes := by
    funext c
    rw [hbytes, Mem.bytes_put, Bytes.put_apply, Bytes.put_apply]
    split
    · rename_i hc
      rw [hc, hline.flag]
    · rfl
  refine ⟨_, m₂, hfree, hcall, hsame, ?_⟩
  exact ⟨hsame ▸ hline.tiled, hline.pointer, hsame ▸ hline.flag, hline.before, hline.room,
    hline.pos, hline.le_size⟩

namespace HeapClient

variable {x x' : HeapClient}

/-- A number of rounds of `kfree(p)` and `kmalloc(n)`. -/
def cycles (p n : Word) : ℕ → List HeapCall
  | 0 => []
  | k + 1 => .kfree p :: .kmalloc n :: cycles p n k

/-- The replies to these rounds when `kmalloc` returns `p` every time. -/
def cycleReplies (p : Word) : ℕ → List HeapReply
  | 0 => []
  | k + 1 => .status 0 :: .pointer p :: cycleReplies p k

/-- Rounds of freeing and allocating a block that is first in line. -/
theorem exec_cycles {pre post : List Block} {b : Block} (k : ℕ)
    (hline : FirstInLine x.heap x.mem n p pre b post) :
    ∃ x', exec step x (cycles p n k) = some (cycleReplies p k, x') ∧ x'.heap = x.heap ∧
      x'.mem.bytes = x.mem.bytes := by
  induction k generalizing x with
  | zero => exact ⟨x, rfl, rfl, rfl⟩
  | succ k ih =>
    obtain ⟨m₁, m₂, hfree, hcall, hsame, hline'⟩ := hline.cycle
    obtain ⟨x₁, hstep₁, hheap₁, hmem₁⟩ : ∃ x₁, x.step (.kfree p) = some (.status 0, x₁) ∧
        x₁.heap = x.heap ∧ x₁.mem = m₁ := by
      simp [step, hfree]
    obtain ⟨x₂, hstep₂, hheap₂, hmem₂⟩ : ∃ x₂, x₁.step (.kmalloc n) = some (.pointer p, x₂) ∧
        x₂.heap = x.heap ∧ x₂.mem = m₂ := by
      simp [step, hheap₁, hmem₁, hcall]
    rw [← hheap₂, ← hmem₂] at hline'
    obtain ⟨x', hrest, hheap, hbytes⟩ := ih hline'
    refine ⟨x', ?_, hheap.trans hheap₂, ?_⟩
    · exact exec_cons_iff.mpr ⟨_, x₁, _, hstep₁,
        exec_cons_iff.mpr ⟨_, x₂, _, hstep₂, hrest, rfl⟩, rfl⟩
    · rw [hbytes, hmem₂, hsame]

/-- **Freeing and allocating again does not grow the heap.** After every run of clients
that free only what they hold, if `kmalloc(n)` returns a pointer `p`, then any number
of rounds of `kfree(p)` and `kmalloc(n)` return `p` every time and leave the record
and the memory of the heap as they were after the first `kmalloc(n)`. -/
theorem kmalloc_kfree_cycles (start size : Word) (m : Mem)
    (hbase : kernelVirtBase.toNat ≤ start.toNat) (hend : start.toNat + size.toNat ≤ 2 ^ 32)
    {calls : List HeapCall} (hcalls : Along step HeldOnly (init start size m) calls) :
    ∃ replies x, exec step (init start size m) calls = some (replies, x) ∧
      ∀ n p x₁, x.step (.kmalloc n) = some (.pointer p, x₁) → p ≠ 0 → ∀ k,
        ∃ x', exec step x₁ (cycles p n k) = some (cycleReplies p k, x') ∧
          x'.heap = x₁.heap ∧ x'.mem.bytes = x₁.mem.bytes := by
  obtain ⟨replies, x, bs, hrun, hx, -, -⟩ := owned_of_run m hbase hend hcalls
  refine ⟨replies, x, hrun, fun n p x₁ hstep hp k => ?_⟩
  obtain ⟨⟨q, h', m'⟩, hcall, hresult⟩ := Option.bind_eq_some_iff.mp hstep
  obtain ⟨rfl, rfl⟩ : q = p ∧ _ = x₁ := by simpa using hresult
  obtain ⟨pre, b, post, hline⟩ := firstInLine_of_kmalloc hx.tiled hcall hp
  exact exec_cycles k hline

/-- Three rounds on a heap with a free block in front. -/
theorem kmalloc_kfree_cycles_three :
    ∃ replies x x₁ x', exec step (init 0xC0100000 128 ⟨fun _ => 0xAA, []⟩)
        [.kmalloc 20, .kmalloc 20, .kfree 0xC010000C] = some (replies, x) ∧
      x.step (.kmalloc 5) = some (.pointer 0xC010000C, x₁) ∧
      exec step x₁ (cycles 0xC010000C 5 3) = some (cycleReplies 0xC010000C 3, x') ∧
      x'.heap = x₁.heap := by
  have hcalls : Along step HeldOnly (init 0xC0100000 128 ⟨fun _ => 0xAA, []⟩)
      [.kmalloc 20, .kmalloc 20, .kfree 0xC010000C] :=
    Along.cons trivial rfl (Along.cons trivial rfl
      (Along.cons ⟨20, List.mem_cons_of_mem _ List.mem_cons_self⟩ rfl trivial))
  obtain ⟨replies, x, hrun, hcycles⟩ := kmalloc_kfree_cycles 0xC0100000 128
    ⟨fun _ => 0xAA, []⟩ (by decide) (by decide) hcalls
  obtain ⟨-, rfl⟩ := Prod.mk.inj (Option.some.inj hrun)
  obtain ⟨x', hexec, hheap, -⟩ := hcycles 5 0xC010000C _ rfl (by decide) 3
  exact ⟨_, _, _, x', rfl, rfl, hexec, hheap⟩

end HeapClient

end Nimbu
