import Nimbu.Machine.Blocks
import Mathlib.Algebra.Order.BigOperators.Group.Finset
import Mathlib.Algebra.BigOperators.Ring.Finset
import Mathlib.Data.List.Perm.Subperm

/-!
# Blocks of each size

The bytes taken by a list of blocks, counted size by size.
-/

namespace Nimbu

namespace Block

/-- Number of blocks of `t` bytes. -/
def sizeCount (t : ℕ) (bs : List Block) : ℕ := bs.countP fun b => b.size = t

variable {off o t k : ℕ} {b : Block} {bs pre post : List Block} {sizes : Finset ℕ}

@[simp] theorem sizeCount_nil : sizeCount t [] = 0 := rfl

@[simp] theorem sizeCount_cons :
    sizeCount t (b :: bs) = sizeCount t bs + if b.size = t then 1 else 0 := by
  simp [sizeCount, List.countP_cons]

@[simp] theorem sizeCount_append :
    sizeCount t (pre ++ post) = sizeCount t pre + sizeCount t post := by
  simp [sizeCount]

/-- Changing a flag keeps the number of blocks of every size. -/
theorem sizeCount_mark (pre post : List Block) (b : Block) (u : Bool) :
    sizeCount t (pre ++ { b with inUse := u } :: post) = sizeCount t (pre ++ b :: post) := by
  simp

/-- Blocks of one size take that size each. -/
@[simp] theorem span_replicate (j : ℕ) (b : Block) : span (List.replicate j b) = j * b.size := by
  induction j with
  | zero => simp
  | succ j ih => rw [List.replicate_succ, span_cons, ih, Nat.succ_mul, Nat.add_comm]

/-- Lists of blocks of the same sizes take the same bytes. -/
theorem span_eq_of_map_eq {bs' : List Block} (heq : bs.map size = bs'.map size) :
    span bs = span bs' := by
  have hsum : ∀ cs : List Block, span cs = (cs.map size).sum := fun cs => by
    induction cs with
    | nil => rfl
    | cons c cs ih => rw [span_cons, ih, List.map_cons, List.sum_cons]
  rw [hsum, hsum, heq]

/-- The bytes taken are the sum over the sizes of the bytes taken by blocks of that size. -/
theorem span_eq_sum (hsizes : ∀ b ∈ bs, b.size ∈ sizes) :
    span bs = ∑ t ∈ sizes, t * sizeCount t bs := by
  induction bs with
  | nil => simp
  | cons b bs ih =>
    have hb := hsizes b List.mem_cons_self
    have hrest := ih fun c hc => hsizes c (List.mem_cons_of_mem _ hc)
    have hone : (∑ t ∈ sizes, t * if b.size = t then 1 else 0) = b.size := by
      simp [hb]
    simp only [span_cons, sizeCount_cons, Nat.mul_add, Finset.sum_add_distrib, hone, hrest]
    exact Nat.add_comm _ _

/-- At most `k` blocks of each size take at most `k` times the sum of the sizes. -/
theorem span_le_of_sizeCount_le (hsizes : ∀ b ∈ bs, b.size ∈ sizes)
    (hcount : ∀ t ∈ sizes, sizeCount t bs ≤ k) : span bs ≤ k * ∑ t ∈ sizes, t := by
  rw [span_eq_sum hsizes, Finset.mul_sum]
  refine Finset.sum_le_sum fun t ht => ?_
  rw [Nat.mul_comm]
  exact Nat.mul_le_mul_right t (hcount t ht)

/-- While there are fewer than `k` blocks of one size, one more of that size stays within
`k` times the sum of the sizes. -/
theorem span_add_le_of_sizeCount_lt (hsizes : ∀ b ∈ bs, b.size ∈ sizes)
    (hcount : ∀ t ∈ sizes, sizeCount t bs ≤ k) (ht : t ∈ sizes) (hlt : sizeCount t bs < k) :
    span bs + t ≤ k * ∑ t ∈ sizes, t := by
  have hsizes' : ∀ b ∈ bs ++ [⟨t, true⟩], b.size ∈ sizes := by
    simpa [or_imp, forall_and] using ⟨hsizes, ht⟩
  have hcount' : ∀ u ∈ sizes, sizeCount u (bs ++ [⟨t, true⟩]) ≤ k := by
    intro u hu
    have hle := hcount u hu
    by_cases heq : t = u
    · subst heq
      simp only [sizeCount_append, sizeCount_cons, sizeCount_nil, if_true, Nat.zero_add]
      exact hlt
    · simpa [heq] using hle
  have hmore := span_le_of_sizeCount_le hsizes' hcount'
  rwa [span_append, span_cons, span_nil, Nat.add_zero] at hmore

/-- Blocks that take at least a byte each start at different offsets. -/
theorem place_offsets_nodup (hpos : ∀ b ∈ bs, 0 < b.size) :
    ((place off bs).map Prod.fst).Nodup := by
  induction bs generalizing off with
  | nil => simp [place]
  | cons b bs ih =>
    have hb := hpos b List.mem_cons_self
    rw [place, List.map_cons, List.nodup_cons]
    refine ⟨?_, ih fun c hc => hpos c (List.mem_cons_of_mem _ hc)⟩
    rw [List.mem_map]
    rintro ⟨p, hp, heq⟩
    have hle := (place_end_le (b := p.2) (show (p.1, p.2) ∈ _ from hp)).1
    omega

/-- Counting blocks is counting them with their offsets. -/
theorem countP_place (p : Block → Bool) :
    (place off bs).countP (fun q => p q.2) = bs.countP p := by
  induction bs generalizing off with
  | nil => rfl
  | cons b bs ih => simp [place, List.countP_cons, ih]

/-- Where different blocks with a property belong to different members of a list, there
are at most as many as the list has members. -/
theorem countP_le_length {α : Type*} {p : Block → Bool} (held : List α) (owner : ℕ → α)
    (hpos : ∀ b ∈ bs, 0 < b.size)
    (howned : ∀ o b, (o, b) ∈ place 0 bs → p b = true → owner o ∈ held)
    (hinj : ∀ o b o' b', (o, b) ∈ place 0 bs → (o', b') ∈ place 0 bs → owner o = owner o' →
      o = o') :
    bs.countP p ≤ held.length := by
  let offsets := ((place 0 bs).filter fun q => p q.2).map Prod.fst
  have hmem : ∀ o ∈ offsets, ∃ b, (o, b) ∈ place 0 bs ∧ p b = true := fun o ho => by
    obtain ⟨q, hq, rfl⟩ := List.mem_map.mp ho
    obtain ⟨hplaced, hp⟩ := List.mem_filter.mp hq
    exact ⟨q.2, hplaced, hp⟩
  have hnodup : (offsets.map owner).Nodup := by
    refine List.Nodup.map_on ?_
      ((place_offsets_nodup hpos).sublist (List.filter_sublist.map Prod.fst))
    intro o ho o' ho' heq
    obtain ⟨b, hb, -⟩ := hmem o ho
    obtain ⟨b', hb', -⟩ := hmem o' ho'
    exact hinj o b o' b' hb hb' heq
  have hsubset : offsets.map owner ⊆ held := fun e he => by
    obtain ⟨o, ho, rfl⟩ := List.mem_map.mp he
    obtain ⟨b, hb, hp⟩ := hmem o ho
    exact howned o b hb hp
  calc bs.countP p = offsets.length := by
        rw [List.length_map, ← List.countP_eq_length_filter, countP_place]
    _ = (offsets.map owner).length := (List.length_map _).symm
    _ ≤ held.length := (hnodup.subperm hsubset).length_le

end Block

end Nimbu
