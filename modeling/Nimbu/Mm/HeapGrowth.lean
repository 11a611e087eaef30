import Nimbu.Machine.BlockSizes
import Nimbu.Mm.Fragmentation

/-!
# Growth of the kernel heap

`kfree` gives no bytes back to the end of the heap, so `used` never shrinks. A block of
a given size is made only while all blocks of that size are held, which bounds how far
`used` can grow by the entries held at the busiest time.
-/

namespace Nimbu

namespace HeapClient

variable {x x' : HeapClient} {bs bs' : List Block} {call : HeapCall} {reply : HeapReply}
  {k t : ℕ} {sizes : Finset ℕ}

/-- A client that requests only when it holds fewer than `k` entries, and only what takes
blocks of the sizes `sizes`. -/
def Within (k : ℕ) (sizes : Finset ℕ) (x : HeapClient) : HeapCall → Prop
  | .kmalloc n => requestSize n.toNat ∈ sizes ∧ x.held.length < k
  | .kfree _ => True
  | .write _ _ => True

/-- A client within these bounds that frees only what it holds. -/
def Frugal (k : ℕ) (sizes : Finset ℕ) (x : HeapClient) (call : HeapCall) : Prop :=
  x.HeldOnly call ∧ x.Within k sizes call

/-- There are at most as many blocks in use as entries held. -/
theorem Accounted.inUse_le (hx : x.Accounted bs) :
    bs.countP (fun b => b.inUse) ≤ x.held.length := by
  have hpos : ∀ b ∈ bs, 0 < b.size := fun b hb => by
    have := hx.tiled.min_size b hb
    omega
  have hbound : ∀ o b, (o, b) ∈ Block.place 0 bs → o + 12 < 2 ^ 32 := fun o b hplaced => by
    have hle := hx.tiled.block_le hplaced
    have hused := hx.tiled.used_le
    have hmax := hx.tiled.size_le
    omega
  have hcount := Block.countP_le_length (p := fun b => b.inUse)
    (x.held.map Prod.fst) (fun o => x.heap.addr (o + 12)) hpos ?_ ?_
  · rwa [List.length_map] at hcount
  · intro o b hplaced hb
    obtain ⟨e, he, hpointer⟩ := hx.in_use_held o b hplaced hb
    exact List.mem_map.mpr ⟨e, he, hpointer⟩
  · intro o b o' b' hplaced hplaced' heq
    have hoff := (x.heap.addr_inj (hbound o b hplaced) (hbound o' b' hplaced')).mp heq
    omega

/-- When no block of `t` bytes fits a request of that size, all blocks of `t` bytes are held. -/
theorem Accounted.sizeCount_le (hx : x.Accounted bs) (hnone : ∀ c ∈ bs, ¬ c.Fits t) :
    Block.sizeCount t bs ≤ x.held.length := by
  refine le_trans (List.countP_mono_left fun c hc hsize => ?_) hx.inUse_le
  have hfits := hnone c hc
  rw [decide_eq_true_eq] at hsize
  rw [Block.Fits, hsize] at hfits
  simpa using hfits

/-- An action of a client that frees only what it holds is one of the heap's steps between
accounted blocks. -/
theorem Accounted.heapStep (hx : x.Accounted bs) (hcall : x.HeldOnly call)
    (hstep : x.step call = some (reply, x')) :
    ∃ bs', x'.Accounted bs' ∧ x.HeapStep bs call reply x' bs' := by
  obtain ⟨bs', hx', -⟩ := hx.step hcall hstep
  obtain ⟨cs, hcs, hsteps⟩ := hx.toOwned.heapStep hcall hstep
  obtain rfl := hx'.tiled.unique hcs.tiled
  exact ⟨bs', hx', hsteps⟩

/-- At most `k` blocks of each size, and blocks of the sizes `sizes` only. -/
structure Bounded (k : ℕ) (sizes : Finset ℕ) (bs : List Block) : Prop where
  /-- Every block has one of the sizes. -/
  mem_sizes : ∀ b ∈ bs, b.size ∈ sizes
  /-- No size has more blocks than the client may hold. -/
  count_le : ∀ t ∈ sizes, Block.sizeCount t bs ≤ k

/-- Changing a flag keeps the blocks bounded. -/
theorem Bounded.mark {pre post : List Block} {b : Block}
    (hbs : Bounded k sizes (pre ++ b :: post)) (u : Bool) :
    Bounded k sizes (pre ++ { b with inUse := u } :: post) := by
  obtain ⟨hsizes, hcount⟩ := hbs
  refine ⟨?_, fun t ht => by rw [Block.sizeCount_mark]; exact hcount t ht⟩
  simpa [or_imp, forall_and] using hsizes

/-- A step of a client within its bounds keeps the blocks bounded: a block is appended
only while every other block of its size is held. -/
theorem Accounted.bounded_step (hx : x.Accounted bs) (hbs : Bounded k sizes bs)
    (hwithin : x.Within k sizes call) (hsteps : x.HeapStep bs call reply x' bs') :
    Bounded k sizes bs' := by
  cases hsteps with
  | refused n hwhy => exact hbs
  | reused n pre post b hsplit hpre hfits hpos hp => exact (hsplit ▸ hbs).mark true
  | freed pre post b hsplit => exact (hsplit ▸ hbs).mark false
  | written a byte e o b he hs ha => exact hbs
  | appended n hnone hpos hle hblock hroom hp =>
    obtain ⟨hmem, hlt⟩ := hwithin
    have hheld := hx.sizeCount_le hnone
    constructor
    · simpa [or_imp, forall_and] using ⟨hbs.mem_sizes, hmem⟩
    · intro t ht
      have hcount := hbs.count_le t ht
      by_cases heq : requestSize n.toNat = t
      · subst heq
        simp only [Block.sizeCount_append, Block.sizeCount_cons, Block.sizeCount_nil, if_true,
          Nat.zero_add]
        omega
      · simpa [heq] using hcount

/-- Every run of a client within its bounds keeps the blocks bounded. -/
theorem bounded_run {start size : Word} (m : Mem)
    (hbase : kernelVirtBase.toNat ≤ start.toNat) (hend : start.toNat + size.toNat ≤ 2 ^ 32)
    {calls : List HeapCall} (hcalls : Along step (Frugal k sizes) (init start size m) calls)
    {replies : List HeapReply} (hrun : exec step (init start size m) calls = some (replies, x)) :
    ∃ bs, x.Accounted bs ∧ Bounded k sizes bs := by
  refine exec_invariant (fun x => ∃ bs, x.Accounted bs ∧ Bounded k sizes bs) ?_
    ⟨[], accounted_init m hbase hend, by simp, by simp⟩ hcalls hrun
  rintro x call reply x' ⟨bs, hx, hbs⟩ ⟨hheld, hwithin⟩ hstep
  obtain ⟨bs', hx', hsteps⟩ := hx.heapStep hheld hstep
  exact ⟨bs', hx', hx.bounded_step hbs hwithin hsteps⟩

/-- **The heap grows no further than the busiest time.** In every run of a client that
frees only what it holds, never holds more than `k` entries and takes blocks of the sizes
`sizes` only, the bytes reported as used stay within `k` times the sum of the sizes. If
the heap has that many bytes, no request of the client is refused. -/
theorem heap_growth_bounded (start size : Word) (m : Mem)
    (hbase : kernelVirtBase.toNat ≤ start.toNat) (hend : start.toNat + size.toNat ≤ 2 ^ 32)
    (k : ℕ) (sizes : Finset ℕ) {calls : List HeapCall}
    (hcalls : Along step (Frugal k sizes) (init start size m) calls) :
    ∃ replies x, exec step (init start size m) calls = some (replies, x) ∧
      (heapGetStats x.heap).1.toNat ≤ k * ∑ t ∈ sizes, t ∧
      (k * ∑ t ∈ sizes, t ≤ size.toNat →
        ∀ n : Word, 0 < n.toNat → x.Within k sizes (.kmalloc n) →
          ∃ p x', x.step (.kmalloc n) = some (.pointer p, x') ∧ p ≠ 0) := by
  obtain ⟨replies, x, -, hrun, -, -, hsize⟩ :=
    owned_of_run m hbase hend (along_and_iff.mp hcalls).1
  obtain ⟨bs, hx, hbs⟩ := bounded_run m hbase hend hcalls hrun
  have hspan := hx.tiled.span_eq
  have hused := Block.span_le_of_sizeCount_le hbs.mem_sizes hbs.count_le
  refine ⟨replies, x, hrun, ?_, ?_⟩
  · rwa [heapGetStats, ← hspan]
  · rintro hfits n hpos ⟨hmem, hlt⟩
    rw [← hsize] at hfits
    have hle : requestSize n.toNat ≤ x.heap.size.toNat := by
      have hsum : requestSize n.toNat ≤ ∑ t ∈ sizes, t :=
        Finset.single_le_sum (f := fun t => t) (fun _ _ => Nat.zero_le _) hmem
      exact (hsum.trans (Nat.le_mul_of_pos_left _ (by omega))).trans hfits
    have hroom : (∃ b ∈ bs, b.Fits (requestSize n.toNat)) ∨
        x.heap.used.toNat + requestSize n.toNat ≤ x.heap.size.toNat := by
      by_cases hnone : ∀ c ∈ bs, ¬ c.Fits (requestSize n.toNat)
      · have hcount := hx.sizeCount_le hnone
        have hmore := Block.span_add_le_of_sizeCount_lt hbs.mem_sizes hbs.count_le hmem
          (lt_of_le_of_lt hcount hlt)
        rw [hspan] at hmore
        exact Or.inr (le_trans hmore hfits)
      · push Not at hnone
        exact Or.inl hnone
    obtain ⟨p, h', m', hcall, hp⟩ := hx.tiled.kmalloc_served hpos hle hroom
    exact ⟨p, _, by simp only [step, hcall, Option.bind_eq_bind, Option.bind_some]; rfl, hp⟩

/-- Blocks of 32 and 64 bytes, at most two held at a time, on a heap of 192 bytes. -/
theorem heap_growth_bounded_two_sizes :
    ∃ replies x, exec step (init 0xC0100000 192 ⟨fun _ => 0xAA, []⟩)
        [.kmalloc 20, .kmalloc 52, .kfree 0xC010000C, .kmalloc 52] = some (replies, x) ∧
      (heapGetStats x.heap).1.toNat ≤ 192 ∧
      ∀ n : Word, 0 < n.toNat → x.Within 2 {32, 64} (.kmalloc n) →
        ∃ p x', x.step (.kmalloc n) = some (.pointer p, x') ∧ p ≠ 0 := by
  have hcalls : Along step (Frugal 2 {32, 64}) (init 0xC0100000 192 ⟨fun _ => 0xAA, []⟩)
      [.kmalloc 20, .kmalloc 52, .kfree 0xC010000C, .kmalloc 52] :=
    Along.cons ⟨trivial, by decide, by decide⟩ rfl
      (Along.cons ⟨trivial, by decide, by decide⟩ rfl
        (Along.cons ⟨⟨20, List.mem_cons_of_mem _ List.mem_cons_self⟩, trivial⟩ rfl
          ⟨⟨trivial, by decide, by decide⟩, fun _ _ _ => trivial⟩))
  obtain ⟨replies, x, hrun, hused, hserved⟩ := heap_growth_bounded 0xC0100000 192
    ⟨fun _ => 0xAA, []⟩ (by decide) (by decide) 2 {32, 64} hcalls
  exact ⟨replies, x, hrun, hused, hserved (by decide)⟩

/-- The request that takes a block of `t` bytes. -/
theorem exists_requestSize_eq (hmin : 32 ≤ t) (hlt : t < 2 ^ 32) :
    ∃ n : Word, 0 < n.toNat ∧ n.toNat ≤ t ∧ requestSize n.toNat = t := by
  have hn : (BitVec.ofNat 32 (t - 12)).toNat = t - 12 := by
    rw [BitVec.toNat_ofNat]
    exact Nat.mod_eq_of_lt (by omega)
  refine ⟨BitVec.ofNat 32 (t - 12), ?_⟩
  rw [hn]
  exact ⟨by omega, by omega, requestSize_largest hmin⟩

/-- A client can take a block of `t` bytes more when none of the blocks there are fits,
it has an entry left and the heap has room. -/
theorem Accounted.extend (hx : x.Accounted bs) (hmem : t ∈ sizes) (hmin : 32 ≤ t)
    (hnone : ∀ c ∈ bs, ¬ c.Fits t) (hheld : x.held.length < k)
    (hroom : Block.span bs + t ≤ x.heap.size.toNat) :
    ∃ x', StepsTo HeapClient.step (Frugal k sizes) x x' ∧ x'.Accounted (bs ++ [⟨t, true⟩]) ∧
      x'.heap.size = x.heap.size ∧ x'.held.length = x.held.length + 1 := by
  have hspan := hx.tiled.span_eq
  have hmax := hx.tiled.size_le
  obtain ⟨n, hpos, hle, hrequest⟩ := exists_requestSize_eq hmin (by omega)
  have hcall : Frugal k sizes x (.kmalloc n) := ⟨trivial, by rwa [hrequest], hheld⟩
  obtain ⟨reply, x', -, hstep, -⟩ := hx.toOwned.step hcall.1
  obtain ⟨bs', hx', hsteps⟩ := hx.heapStep hcall.1 hstep
  have hsize := hsteps.size_eq
  cases hsteps with
  | refused n hwhy =>
    rcases hwhy with rfl | hbig | ⟨-, hfull⟩
    · exact absurd hpos (by decide)
    · omega
    · omega
  | reused n pre post b hsplit hpre hfits hpos hp =>
    rw [hrequest] at hfits
    exact absurd hfits (hnone b (by rw [hsplit]; simp))
  | appended n _ hpos hle hblock hfree hp =>
    rw [hrequest] at hx'
    exact ⟨_, ⟨_, _, hcall, hstep⟩, hx', hsize, List.length_cons⟩

/-- A client can take `j` blocks of `t` bytes when none of the blocks there are fits, it
has `j` entries left and the heap has room for them. -/
theorem Accounted.fill (hx : x.Accounted bs) (hmem : t ∈ sizes) (hmin : 32 ≤ t)
    (hnone : ∀ c ∈ bs, ¬ c.Fits t) (j : ℕ) (hheld : x.held.length + j ≤ k)
    (hroom : Block.span bs + j * t ≤ x.heap.size.toNat) :
    ∃ x', Relation.ReflTransGen (StepsTo HeapClient.step (Frugal k sizes)) x x' ∧
      x'.Accounted (bs ++ List.replicate j ⟨t, true⟩) ∧ x'.heap.size = x.heap.size ∧
      x'.held.length = x.held.length + j := by
  induction j with
  | zero => exact ⟨x, .refl, by simpa using hx, rfl, rfl⟩
  | succ j ih =>
    have hmul : (j + 1) * t = j * t + t := Nat.succ_mul j t
    obtain ⟨y, hreach, hy, hsize, hlen⟩ := ih (by omega) (by omega)
    have hnone' : ∀ c ∈ bs ++ List.replicate j (⟨t, true⟩ : Block), ¬ c.Fits t := by
      intro c hc
      rcases List.mem_append.mp hc with hc | hc
      · exact hnone c hc
      · rw [List.eq_of_mem_replicate hc]
        exact fun hfits => Bool.noConfusion hfits.1
    have hspan : Block.span (bs ++ List.replicate j ⟨t, true⟩) = Block.span bs + j * t := by simp
    have hentry : y.held.length < k := by omega
    obtain ⟨x', hstep, hx', hsize', hlen'⟩ := hy.extend hmem hmin hnone' hentry
      (by rw [hspan, hsize]; omega)
    refine ⟨x', hreach.tail hstep, ?_, hsize'.trans hsize, by omega⟩
    rwa [List.replicate_succ', ← List.append_assoc]

/-- A client can free everything it holds, and the blocks stay where they are. -/
theorem Accounted.release (hx : x.Accounted bs) (k : ℕ) (sizes : Finset ℕ) :
    ∃ x' bs', Relation.ReflTransGen (StepsTo HeapClient.step (Frugal k sizes)) x x' ∧
      x'.Accounted bs' ∧ x'.heap.size = x.heap.size ∧ x'.held = [] ∧
      bs'.map Block.size = bs.map Block.size := by
  induction hlen : x.held.length using Nat.strong_induction_on generalizing x bs with
  | _ len ih =>
    cases hheld : x.held with
    | nil => exact ⟨x, bs, .refl, hx, rfl, hheld, rfl⟩
    | cons e held =>
      have hmem : e ∈ x.held := hheld ▸ List.mem_cons_self
      have hcall : Frugal k sizes x (.kfree e.1) := ⟨⟨e.2, hmem⟩, trivial⟩
      obtain ⟨reply, y, -, hstep, -⟩ := hx.toOwned.step hcall.1
      obtain ⟨cs, hy, hsteps⟩ := hx.heapStep hcall.1 hstep
      have hsize := hsteps.size_eq
      have hfreed : y.held.length < x.held.length ∧ cs.map Block.size = bs.map Block.size := by
        generalize hp : e.1 = p at hsteps
        cases hsteps with
        | freed pre post b hsplit =>
          refine ⟨List.length_filter_lt_length_iff_exists.mpr ⟨e, hmem, ?_⟩, by simp [hsplit]⟩
          simpa using hp
      obtain ⟨x', bs', hreach, hx', hsize', hnil, hsizes⟩ := ih y.held.length
        (by omega) hy rfl
      exact ⟨x', bs', .head ⟨_, reply, hcall, hstep⟩ hreach, hx', hsize'.trans hsize, hnil,
        hsizes.trans hfreed.2⟩

/-- A client within its bounds can make `k` blocks of each of the sizes, one size after
the other from the smallest up. -/
theorem exists_full {start size : Word} (m : Mem)
    (hbase : kernelVirtBase.toNat ≤ start.toNat) (hend : start.toNat + size.toNat ≤ 2 ^ 32)
    (hmin : ∀ t ∈ sizes, 32 ≤ t) (hfits : k * ∑ t ∈ sizes, t ≤ size.toNat) (done : Finset ℕ)
    (hdone : done ⊆ sizes) :
    ∃ x bs, Relation.ReflTransGen (StepsTo HeapClient.step (Frugal k sizes)) (init start size m) x ∧
      x.Accounted bs ∧ x.heap.size = size ∧ x.held = [] ∧ (∀ b ∈ bs, b.size ∈ done) ∧
      Block.span bs = k * ∑ t ∈ done, t := by
  induction done using Finset.induction_on_max with
  | empty => exact ⟨_, [], .refl, accounted_init m hbase hend, rfl, rfl, by simp, by simp⟩
  | insert t done hlt ih =>
    obtain ⟨x, bs, hreach, hx, hsize, hheld, hsizes, hspan⟩ :=
      ih ((Finset.subset_insert t done).trans hdone)
    have hmem : t ∈ sizes := hdone (Finset.mem_insert_self t done)
    have hnew : t ∉ done := fun ht => (hlt t ht).false
    have hsum : k * ∑ u ∈ insert t done, u = k * t + k * ∑ u ∈ done, u := by
      rw [Finset.sum_insert hnew, Nat.mul_add]
    have hle : k * ∑ u ∈ insert t done, u ≤ k * ∑ u ∈ sizes, u :=
      Nat.mul_le_mul_left k (Finset.sum_le_sum_of_subset hdone)
    -- The blocks made so far are all smaller than `t`.
    have hnone : ∀ c ∈ bs, ¬ c.Fits t := fun c hc hfits =>
      absurd (hlt _ (hsizes c hc)) (not_lt.mpr hfits.2)
    obtain ⟨y, hfill, hy, hsize', -⟩ := hx.fill (k := k) hmem (hmin t hmem) hnone k
      (by simp [hheld]) (by rw [hspan, hsize]; omega)
    obtain ⟨x', bs', hrelease, hx', hsize'', hnil, heq⟩ := hy.release k sizes
    refine ⟨x', bs', (hreach.trans hfill).trans hrelease, hx', (hsize''.trans hsize').trans hsize,
      hnil, ?_, ?_⟩
    · intro b hb
      have hb' : b.size ∈ (bs ++ List.replicate k (⟨t, true⟩ : Block)).map Block.size :=
        heq ▸ List.mem_map_of_mem hb
      simp only [List.map_append, List.map_replicate, List.mem_append, List.mem_map] at hb'
      rcases hb' with ⟨c, hc, hsame⟩ | hb'
      · rw [← hsame]
        exact Finset.mem_insert_of_mem (hsizes c hc)
      · rw [List.eq_of_mem_replicate hb']
        exact Finset.mem_insert_self t done
    · rw [Block.span_eq_of_map_eq heq, Block.span_append, Block.span_replicate, hspan, hsum]
      exact Nat.add_comm _ _

/-- **The bound is reached.** On a heap that has room for it, the most that is ever
reported as used, over all runs of such clients, is `k` times the sum of the sizes. -/
theorem heap_growth_greatest (start size : Word) (m : Mem)
    (hbase : kernelVirtBase.toNat ≤ start.toNat) (hend : start.toNat + size.toNat ≤ 2 ^ 32)
    (k : ℕ) (sizes : Finset ℕ) (hmin : ∀ t ∈ sizes, 32 ≤ t)
    (hfits : k * ∑ t ∈ sizes, t ≤ size.toNat) :
    IsGreatest {used | ∃ calls replies x, Along step (Frugal k sizes) (init start size m) calls ∧
        exec step (init start size m) calls = some (replies, x) ∧
        used = (heapGetStats x.heap).1.toNat} (k * ∑ t ∈ sizes, t) := by
  constructor
  · obtain ⟨x, bs, hreach, hx, -, -, -, hspan⟩ :=
      exists_full m hbase hend hmin hfits sizes subset_rfl
    obtain ⟨calls, replies, hcalls, hrun⟩ := exists_run_iff.mpr hreach
    exact ⟨calls, replies, x, hcalls, hrun, by rw [heapGetStats, ← hx.tiled.span_eq, hspan]⟩
  · rintro used ⟨calls, replies, x, hcalls, hrun, rfl⟩
    obtain ⟨bs, hx, hbs⟩ := bounded_run m hbase hend hcalls hrun
    rw [heapGetStats, ← hx.tiled.span_eq]
    exact Block.span_le_of_sizeCount_le hbs.mem_sizes hbs.count_le

/-- Two entries of blocks of 32 and 64 bytes reach 192 bytes and no more. -/
theorem heap_growth_greatest_two_sizes :
    IsGreatest {used | ∃ calls replies x,
        Along step (Frugal 2 {32, 64}) (init 0xC0100000 0x800000 ⟨fun _ => 0xAA, []⟩) calls ∧
        exec step (init 0xC0100000 0x800000 ⟨fun _ => 0xAA, []⟩) calls = some (replies, x) ∧
        used = (heapGetStats x.heap).1.toNat} 192 :=
  heap_growth_greatest 0xC0100000 0x800000 ⟨fun _ => 0xAA, []⟩ (by decide) (by decide) 2 {32, 64}
    (by decide) (by decide)

end HeapClient

end Nimbu
