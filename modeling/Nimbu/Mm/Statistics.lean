import Nimbu.Mm.Fragmentation

/-!
# Statistics of the kernel heap

`heap_get_stats` reports the counter `used`, which grows with every block that is
appended. `kfree` does not take it back, so it counts all blocks there are, in use or
free.
-/

namespace Nimbu

/-- Bytes taken by the blocks in use. -/
def Block.inUseSpan (bs : List Block) : ℕ := Block.span (bs.filter fun b => b.inUse)

namespace HeapClient

variable {x x' : HeapClient} {bs : List Block} {call : HeapCall} {reply : HeapReply}

/-- Every block was returned by `kmalloc` at some time. -/
structure Recorded (x : HeapClient) (bs : List Block) : Prop extends Accounted x bs where
  /-- The pointer of a block. -/
  block_returned : ∀ o b, (o, b) ∈ Block.place 0 bs →
    ∃ n, (x.heap.addr (o + 12), n) ∈ x.returned

/-- An action of a client that frees only what it holds keeps the record. -/
theorem Recorded.step (hx : x.Recorded bs) (hcall : x.HeldOnly call)
    (hstep : x.step call = some (reply, x')) : ∃ bs', x'.Recorded bs' := by
  obtain ⟨bs', hx', -⟩ := hx.toAccounted.step hcall hstep
  obtain ⟨cs, hcs, hcases⟩ := hx.toOwned.heapStep hcall hstep
  obtain rfl := hx'.tiled.unique hcs.tiled
  refine ⟨bs', hx', fun o b hplaced => ?_⟩
  rw [hcases.addr_eq]
  rcases hcases.placed hx.tiled hplaced with ⟨c, hold⟩ | ⟨-, -, -, hnew⟩
  · obtain ⟨n, hn⟩ := hx.block_returned o c hold
    exact ⟨n, hcases.returned_subset hn⟩
  · exact hnew

/-- A block is in use exactly when its pointer is held. -/
theorem Recorded.inUse_iff (hx : x.Recorded bs) {o : ℕ} {b : Block}
    (hplaced : (o, b) ∈ Block.place 0 bs) :
    b.inUse = true ↔ ∃ n, (x.heap.addr (o + 12), n) ∈ x.held := by
  have ht := hx.tiled
  constructor
  · intro hb
    obtain ⟨e, he, hpointer⟩ := hx.in_use_held o b hplaced hb
    exact ⟨e.2, hpointer ▸ he⟩
  · rintro ⟨n, hheld⟩
    obtain ⟨o', b', hs, hb'⟩ := hx.held_in_use _ hheld
    have hle := ht.block_le hplaced
    have hle' := ht.block_le hs.placed
    have hused := ht.used_le
    have hmax := ht.size_le
    have hoff : o + 12 = o' + 12 := (x.heap.addr_inj (by omega) (by omega)).mp hs.pointer
    rcases Block.place_disjoint hplaced hs.placed with ⟨-, rfl⟩ | hlt | hlt
    · exact hb'
    · omega
    · omega

/-- All blocks are in use exactly when every pointer ever returned is held. -/
theorem Recorded.forall_inUse_iff (hx : x.Recorded bs) :
    (∀ b ∈ bs, b.inUse = true) ↔ ∀ e ∈ x.returned, ∃ n, (e.1, n) ∈ x.held := by
  constructor
  · intro hall e he
    obtain ⟨o, b, hs⟩ := hx.served e he
    rw [hs.pointer]
    exact (hx.inUse_iff hs.placed).mp (hall b (Block.mem_of_mem_place hs.placed))
  · intro hall b hb
    obtain ⟨o, hplaced⟩ := Block.exists_mem_place hb
    obtain ⟨n, hn⟩ := hx.block_returned o b hplaced
    exact (hx.inUse_iff hplaced).mpr (hall _ hn)

/-- **The statistics count free blocks too.** After every run of a client that frees only what
it holds, `heap_get_stats` reports the sum of the sizes of the blocks in use exactly when every
pointer that `kmalloc` ever returned is held, so that no block is free. -/
theorem heapGetStats_used_iff (start size : Word) (m : Mem)
    (hbase : kernelVirtBase.toNat ≤ start.toNat) (hend : start.toNat + size.toNat ≤ 2 ^ 32)
    {calls : List HeapCall} (hcalls : Along step HeldOnly (init start size m) calls) :
    ∃ replies x bs, exec step (init start size m) calls = some (replies, x) ∧
      x.heap.Tiled x.mem.bytes bs ∧
      ((heapGetStats x.heap).1.toNat = Block.inUseSpan bs ↔
        ∀ e ∈ x.returned, ∃ n, (e.1, n) ∈ x.held) := by
  obtain ⟨replies, x, -, hrun, -⟩ := owned_of_run m hbase hend hcalls
  have hinit : (init start size m).Recorded [] :=
    ⟨accounted_init m hbase hend, by simp [Block.place]⟩
  obtain ⟨bs, hx⟩ := exec_invariant (fun x : HeapClient => ∃ bs, x.Recorded bs)
    (fun hinv hcall hstep => by
      obtain ⟨bs, hx⟩ := hinv
      exact hx.step hcall hstep) ⟨[], hinit⟩ hcalls hrun
  refine ⟨replies, x, bs, hrun, hx.tiled, ?_⟩
  have hpos : ∀ b ∈ bs, 0 < b.size := fun b hb => by
    have := hx.tiled.min_size b hb
    omega
  rw [← hx.forall_inUse_iff, ← Block.span_filter_eq_iff hpos, heapGetStats, ← hx.tiled.span_eq]
  exact eq_comm

/-- Two blocks, one freed and taken again. -/
theorem heapGetStats_used_two_blocks :
    ∃ replies x bs, exec step (init 0xC0100000 0x800000 ⟨fun _ => 0xAA, []⟩)
        [.kmalloc 20, .kmalloc 52, .kfree 0xC010000C, .kmalloc 5] = some (replies, x) ∧
      x.heap.Tiled x.mem.bytes bs ∧ (heapGetStats x.heap).1.toNat = Block.inUseSpan bs := by
  have hcalls : Along step HeldOnly (init 0xC0100000 0x800000 ⟨fun _ => 0xAA, []⟩)
      [.kmalloc 20, .kmalloc 52, .kfree 0xC010000C, .kmalloc 5] :=
    Along.cons trivial rfl (Along.cons trivial rfl
      (Along.cons ⟨20, List.mem_cons_of_mem _ List.mem_cons_self⟩ rfl
        (Along.cons trivial rfl trivial)))
  obtain ⟨replies, x, bs, hrun, ht, hiff⟩ := heapGetStats_used_iff 0xC0100000 0x800000
    ⟨fun _ => 0xAA, []⟩ (by decide) (by decide) hcalls
  have heval : (exec step (init 0xC0100000 0x800000 ⟨fun _ => 0xAA, []⟩)
      [.kmalloc 20, .kmalloc 52, .kfree 0xC010000C, .kmalloc 5]).map
        (fun r => (r.2.returned, r.2.held)) =
      some ([(0xC010000C, 5), (0xC010002C, 52), (0xC010000C, 20)],
        [(0xC010000C, 5), (0xC010002C, 52)]) := by
    decide +kernel
  rw [hrun, Option.map_some, Option.some.injEq, Prod.mk.injEq] at heval
  refine ⟨replies, x, bs, hrun, ht, hiff.mpr ?_⟩
  rw [heval.1, heval.2]
  simp

/-- When the only block is freed, its 32 bytes are still reported as allocated. -/
theorem heapGetStats_counts_free :
    Along step HeldOnly (init 0xC0100000 0x800000 ⟨fun _ => 0xAA, []⟩)
        [.kmalloc 20, .kfree 0xC010000C] ∧
      ∃ replies x bs, exec step (init 0xC0100000 0x800000 ⟨fun _ => 0xAA, []⟩)
          [.kmalloc 20, .kfree 0xC010000C] = some (replies, x) ∧
        x.heap.Tiled x.mem.bytes bs ∧ (heapGetStats x.heap).1.toNat = 32 ∧
        Block.inUseSpan bs = 0 := by
  have hcalls : Along step HeldOnly (init 0xC0100000 0x800000 ⟨fun _ => 0xAA, []⟩)
      [.kmalloc 20, .kfree 0xC010000C] :=
    Along.cons trivial rfl (Along.cons ⟨20, List.mem_cons_self⟩ rfl trivial)
  obtain ⟨replies, x, -, hrun, -⟩ := owned_of_run ⟨fun _ => 0xAA, []⟩
    (show kernelVirtBase.toNat ≤ (0xC0100000 : Word).toNat by decide)
    (show (0xC0100000 : Word).toNat + (0x800000 : Word).toNat ≤ 2 ^ 32 by decide) hcalls
  obtain ⟨bs, hx, -⟩ := (accounted_init ⟨fun _ => 0xAA, []⟩ (by decide) (by decide)).run hcalls hrun
  refine ⟨hcalls, replies, x, bs, hrun, hx.tiled, ?_, ?_⟩
  · obtain ⟨-, rfl⟩ := Prod.mk.inj (Option.some.inj hrun)
    rfl
  · have hnone : bs.filter (fun b => b.inUse) = [] := by
      rw [List.filter_eq_nil_iff]
      intro b hb hinUse
      obtain ⟨o, hplaced⟩ := Block.exists_mem_place hb
      obtain ⟨e, he, -⟩ := hx.in_use_held o b hplaced hinUse
      obtain ⟨-, rfl⟩ := Prod.mk.inj (Option.some.inj hrun)
      exact absurd he (List.not_mem_nil)
    rw [Block.inUseSpan, hnone, Block.span_nil]

end HeapClient

end Nimbu
