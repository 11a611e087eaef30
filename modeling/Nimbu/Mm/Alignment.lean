import Nimbu.Mm.HeapSteps

/-!
# Alignment

`kmalloc` adds the header to the size of a request and does not round it. So the
block behind one whose size is not a multiple of 4 starts at an odd place, and with it
its header and the pointer that is returned.
-/

namespace Nimbu

namespace HeapClient

variable {x x' : HeapClient} {bs bs' : List Block} {call : HeapCall} {reply : HeapReply}

/-- A pointer that `kmalloc` returned, and the header before it, are at multiples of 4. -/
def AlignedReply : HeapReply → Prop
  | .pointer p => p ≠ 0 → 4 ∣ p.toNat ∧ 4 ∣ (p - allocHeaderSize).toNat
  | .status _ => True
  | .written => True

/-- A request that is served behind the last block, because no free block fits and there is
room, finds only blocks whose sizes are multiples of 4. -/
def AppendsAligned (x : HeapClient) : HeapCall → Prop
  | .kmalloc n => ∀ bs, x.heap.Tiled x.mem.bytes bs → 0 < n.toNat → n.toNat ≤ x.heap.size.toNat →
      (∀ c ∈ bs, ¬ c.Fits (requestSize n.toNat)) →
      x.heap.used.toNat + requestSize n.toNat ≤ x.heap.size.toNat → ∀ c ∈ bs, 4 ∣ c.size
  | .kfree _ => True
  | .write _ _ => True

/-- The blocks of a heap start at multiples of 4. -/
structure Aligned (x : HeapClient) (bs : List Block) : Prop extends Owned x bs where
  /-- So does the heap. -/
  start_dvd : 4 ∣ x.heap.start.toNat
  /-- The offset of every block. -/
  offset_dvd : ∀ o b, (o, b) ∈ Block.place 0 bs → 4 ∣ o

/-- The pointer behind a header is aligned when the offset of the header is. -/
theorem Aligned.reply_iff (hx : x.Aligned bs) {o : ℕ} (ho : o + 12 < x.heap.size.toNat) :
    AlignedReply (.pointer (x.heap.addr (o + 12))) ↔ 4 ∣ o := by
  have hend := hx.tiled.end_le
  have hstart := hx.start_dvd
  have hpointer : (x.heap.addr (o + 12)).toNat = x.heap.start.toNat + (o + 12) :=
    x.heap.toNat_addr (by omega)
  have hheader : (x.heap.addr (o + 12) - allocHeaderSize).toNat = x.heap.start.toNat + o := by
    rw [← x.heap.addr_add_headerSize, BitVec.add_sub_cancel, x.heap.toNat_addr (by omega)]
  rw [AlignedReply, forall_prop_of_true (hx.tiled.addr_ne_zero ho), hpointer, hheader]
  omega

/-- The reply to an action on aligned blocks is aligned exactly when the action appends
behind blocks whose sizes are multiples of 4. -/
theorem HeapStep.aligned_iff (hstep : x.HeapStep bs call reply x' bs') (hx : x.Aligned bs) :
    AlignedReply reply ↔ x.AppendsAligned call := by
  have ht := hx.tiled
  have hused := ht.used_le
  cases hstep with
  | refused n hwhy =>
    refine iff_of_true (fun hzero => absurd rfl hzero) fun cs hcs hpos hle hnone hroom => ?_
    obtain rfl := hcs.unique ht
    rcases hwhy with rfl | hbig | ⟨-, hfull⟩
    · exact absurd hpos (by decide)
    · omega
    · omega
  | reused n pre post b hbs hpre hfits hpos hp =>
    subst hbs
    have hplaced := Block.mem_place_middle pre post b
    have hb := ht.block_le hplaced
    refine iff_of_true ?_ fun cs hcs _ _ hnone _ => ?_
    · exact (hx.reply_iff (by omega)).mpr (hx.offset_dvd _ b hplaced)
    · obtain rfl := hcs.unique ht
      exact absurd hfits (hnone b (by simp))
  | appended n hnone hpos hle hblock hroom hp =>
    have hmin : 32 ≤ requestSize n.toNat := le_max_left _ _
    have hsizes := Block.dvd_add_span_iff (Nat.dvd_zero 4) hx.offset_dvd
    rw [Nat.zero_add, ht.span_eq] at hsizes
    rw [hx.reply_iff (by omega), hsizes]
    constructor
    · intro hall cs hcs _ _ _ _
      obtain rfl := hcs.unique ht
      exact hall
    · intro happends
      exact happends bs ht hpos hle hnone hroom
  | freed pre post b hbs => exact Iff.rfl
  | written a byte e o b he hs ha => exact Iff.rfl

/-- An action whose reply is aligned keeps the blocks aligned. -/
theorem Aligned.step (hx : x.Aligned bs) (hx' : x'.Owned bs')
    (hstep : x.HeapStep bs call reply x' bs') (hreply : AlignedReply reply) : x'.Aligned bs' := by
  refine ⟨hx', by rw [hstep.start_eq]; exact hx.start_dvd, fun o c hplaced => ?_⟩
  rcases hstep.placed hx.tiled hplaced with ⟨b, hold⟩ | ⟨rfl, -⟩
  · exact hx.offset_dvd o b hold
  · have hc := hx'.tiled.block_le hplaced
    have hused := hx'.tiled.used_le
    rw [hstep.size_eq] at hused
    exact (hx.reply_iff (by omega)).mp hreply

/-- **Pointers are aligned only behind sizes that are.** On a heap that starts at a multiple of
4, in every run of a client that frees only what it holds, every pointer that `kmalloc` returns
and every header is at a multiple of 4 exactly when every block that is appended finds only
blocks whose sizes are multiples of 4. -/
theorem kmalloc_aligned_iff (start size : Word) (m : Mem)
    (hbase : kernelVirtBase.toNat ≤ start.toNat) (hend : start.toNat + size.toNat ≤ 2 ^ 32)
    (hstart : 4 ∣ start.toNat) {calls : List HeapCall}
    (hcalls : Along step HeldOnly (init start size m) calls) :
    ∃ replies x, exec step (init start size m) calls = some (replies, x) ∧
      ((∀ reply ∈ replies, AlignedReply reply) ↔
        Along step AppendsAligned (init start size m) calls) := by
  obtain ⟨replies, x, bs, hrun, -⟩ := owned_of_run m hbase hend hcalls
  refine ⟨replies, x, hrun, ?_⟩
  have hinit : (init start size m).Aligned [] :=
    ⟨⟨init_sound m hbase hend, by simp [init], by simp [init]⟩, hstart, by simp [Block.place]⟩
  rw [forall_replies_iff hrun]
  refine along_iff_of_invariant (fun x => ∃ bs, x.Aligned bs) ?_ ?_ ⟨[], hinit⟩ hcalls
  · rintro x call ⟨bs, hx⟩ hheld
    obtain ⟨reply, x', -, hstep, -⟩ := hx.toOwned.step hheld
    obtain ⟨bs', -, hcases⟩ := hx.toOwned.heapStep hheld hstep
    rw [← hcases.aligned_iff hx]
    simp [hstep]
  · rintro x call reply x' ⟨bs, hx⟩ hheld happends hstep
    obtain ⟨bs', hx', hcases⟩ := hx.toOwned.heapStep hheld hstep
    exact ⟨bs', hx.step hx' hcases ((hcases.aligned_iff hx).mpr happends)⟩

/-- Two requests of 20 bytes. -/
theorem kmalloc_aligned_two_blocks :
    ∃ replies x, exec step (init 0xC0100000 0x800000 ⟨fun _ => 0xAA, []⟩)
        [.kmalloc 20, .kmalloc 20] = some (replies, x) ∧
      ∀ reply ∈ replies, AlignedReply reply := by
  have hcalls : Along step HeldOnly (init 0xC0100000 0x800000 ⟨fun _ => 0xAA, []⟩)
      [.kmalloc 20, .kmalloc 20] := Along.cons trivial rfl (Along.cons trivial rfl trivial)
  obtain ⟨replies, x, hrun, hiff⟩ := kmalloc_aligned_iff 0xC0100000 0x800000
    ⟨fun _ => 0xAA, []⟩ (by decide) (by decide) (by decide) hcalls
  refine ⟨replies, x, hrun, hiff.mpr (Along.cons ?_ rfl (Along.cons ?_ rfl trivial))⟩
  · intro bs ht _ _ _ _ c hc
    have hspan : c.size ≤ 0 := ht.size_le_used hc
    have hmin := ht.min_size c hc
    omega
  · intro bs ht _ _ _ _ c hc
    have hspan : c.size ≤ 32 := ht.size_le_used hc
    have hmin := ht.min_size c hc
    omega

/-- Behind a request of 21 bytes the next pointer is odd. -/
theorem kmalloc_not_aligned :
    Along step HeldOnly (init 0xC0100000 0x800000 ⟨fun _ => 0xAA, []⟩)
        [.kmalloc 21, .kmalloc 1] ∧
      ∃ x, exec step (init 0xC0100000 0x800000 ⟨fun _ => 0xAA, []⟩) [.kmalloc 21, .kmalloc 1] =
          some ([.pointer 0xC010000C, .pointer 0xC010002D], x) ∧
        ¬ ∀ reply ∈ [HeapReply.pointer 0xC010000C, .pointer 0xC010002D], AlignedReply reply := by
  refine ⟨Along.cons trivial rfl (Along.cons trivial rfl trivial), _, rfl, fun hall => ?_⟩
  have hlast := hall (.pointer 0xC010002D) (by simp)
  exact absurd (hlast (by decide)).1 (by decide)

end HeapClient

end Nimbu
