import Mathlib.Data.List.Basic
import Mathlib.Tactic.Common

/-!
# Consecutive blocks

A region filled from offset zero by blocks one after the other. `place` gives
each block its offset; two blocks of one list never overlap, and replacing the
flag of one block moves no other block.
-/

namespace Nimbu

/-- A block of a heap: its size in bytes, header included, and its used flag. -/
structure Block where
  /-- Size in bytes. -/
  size : ℕ
  /-- The block is handed out. -/
  inUse : Bool
  deriving DecidableEq

namespace Block

/-- A free block of at least `t` bytes. -/
def Fits (t : ℕ) (b : Block) : Prop := b.inUse = false ∧ t ≤ b.size

instance (t : ℕ) (b : Block) : Decidable (b.Fits t) := inferInstanceAs (Decidable (_ ∧ _))

/-- Bytes taken by a list of blocks. -/
def span : List Block → ℕ
  | [] => 0
  | b :: bs => b.size + span bs

/-- The blocks of a list with their offsets, the first at `off`. -/
def place (off : ℕ) : List Block → List (ℕ × Block)
  | [] => []
  | b :: bs => (off, b) :: place (off + b.size) bs

/-- The offset of the first free block of at least `t` bytes. -/
def firstFit (t off : ℕ) : List Block → Option ℕ
  | [] => none
  | b :: bs => if b.Fits t then some off else firstFit t (off + b.size) bs

variable {off o o' t : ℕ} {b b' : Block} {bs pre post : List Block}

@[simp] theorem span_nil : span [] = 0 := rfl

@[simp] theorem span_cons : span (b :: bs) = b.size + span bs := rfl

@[simp] theorem span_append : span (pre ++ post) = span pre + span post := by
  induction pre with
  | nil => simp
  | cons b pre ih => simp [ih, Nat.add_assoc]

/-- Blocks of at least `k` bytes take at least `k` bytes each. -/
theorem mul_length_le_span {k : ℕ} (hmin : ∀ b ∈ bs, k ≤ b.size) : k * bs.length ≤ span bs := by
  induction bs with
  | nil => simp
  | cons b bs ih =>
    have hb := hmin b (by simp)
    have hrest := ih fun c hc => hmin c (by simp [hc])
    rw [List.length_cons, span_cons, Nat.mul_succ]
    omega

/-- Some of the blocks take no more bytes than all of them. -/
theorem span_filter_le (p : Block → Bool) (bs : List Block) : span (bs.filter p) ≤ span bs := by
  induction bs with
  | nil => exact Nat.le_refl 0
  | cons b bs ih =>
    rw [List.filter_cons, span_cons]
    split
    · rw [span_cons]
      omega
    · omega

/-- They take as many only if they are all of them. -/
theorem span_filter_eq_iff {p : Block → Bool} (hpos : ∀ b ∈ bs, 0 < b.size) :
    span (bs.filter p) = span bs ↔ ∀ b ∈ bs, p b = true := by
  induction bs with
  | nil => simp
  | cons b bs ih =>
    have hb := hpos b List.mem_cons_self
    have hle := span_filter_le p bs
    rw [List.forall_mem_cons, ← ih fun c hc => hpos c (List.mem_cons_of_mem _ hc),
      List.filter_cons, span_cons]
    split
    · rename_i hp
      rw [span_cons]
      exact ⟨fun heq => ⟨hp, by omega⟩, fun heq => by omega⟩
    · rename_i hp
      exact iff_of_false (by omega) fun hboth => hp hboth.1

/-- Nothing is found where no block fits. -/
theorem firstFit_of_none (h : ∀ c ∈ bs, ¬ c.Fits t) : firstFit t off bs = none := by
  induction bs generalizing off with
  | nil => rfl
  | cons b bs ih =>
    rw [firstFit, if_neg (h b (by simp))]
    exact ih fun c hc => h c (by simp [hc])

/-- The block behind those that do not fit is found. -/
theorem firstFit_append (hpre : ∀ c ∈ pre, ¬ c.Fits t) (hb : b.Fits t) :
    firstFit t off (pre ++ b :: post) = some (off + span pre) := by
  induction pre generalizing off with
  | nil => simp [firstFit, hb]
  | cons c pre ih =>
    rw [List.cons_append, firstFit, if_neg (hpre c (by simp)), span_cons, ← Nat.add_assoc]
    exact ih fun d hd => hpre d (by simp [hd])

/-- Two blocks that fit, each the first one, are the same. -/
theorem first_unique {pre' post' : List Block}
    (heq : pre ++ b :: post = pre' ++ b' :: post') (hpre : ∀ c ∈ pre, ¬ c.Fits t)
    (hb : b.Fits t) (hpre' : ∀ c ∈ pre', ¬ c.Fits t) (hb' : b'.Fits t) :
    pre = pre' ∧ b = b' ∧ post = post' := by
  induction pre generalizing pre' with
  | nil =>
    cases pre' with
    | nil => simpa using heq
    | cons c pre' =>
      obtain ⟨rfl, -⟩ : b = c ∧ _ := by simpa using heq
      exact absurd hb (hpre' b (by simp))
  | cons c pre ih =>
    cases pre' with
    | nil =>
      obtain ⟨rfl, -⟩ : c = b' ∧ _ := by simpa using heq
      exact absurd hb' (hpre c (by simp))
    | cons c' pre' =>
      obtain ⟨rfl, htail⟩ : c = c' ∧ pre ++ b :: post = pre' ++ b' :: post' := by simpa using heq
      obtain ⟨rfl, hrest⟩ := ih htail (fun d hd => hpre d (by simp [hd]))
        fun d hd => hpre' d (by simp [hd])
      exact ⟨rfl, hrest⟩

/-- Offsets in the second part of a list start where the first part ends. -/
theorem place_append :
    place off (pre ++ post) = place off pre ++ place (off + span pre) post := by
  induction pre generalizing off with
  | nil => simp [place]
  | cons b pre ih => simp [place, ih, Nat.add_assoc]

/-- A block at an offset splits the list there. -/
theorem mem_place_iff :
    (o, b) ∈ place off bs ↔ ∃ pre post, bs = pre ++ b :: post ∧ o = off + span pre := by
  induction bs generalizing off with
  | nil => simp [place]
  | cons c bs ih =>
    simp only [place, List.mem_cons, Prod.mk.injEq, ih]
    constructor
    · rintro (⟨rfl, rfl⟩ | ⟨pre, post, rfl, rfl⟩)
      · exact ⟨[], bs, rfl, by simp⟩
      · exact ⟨c :: pre, post, rfl, by simp [Nat.add_assoc]⟩
    · rintro ⟨pre, post, hsplit, rfl⟩
      cases pre with
      | nil =>
        obtain ⟨rfl, rfl⟩ : c = b ∧ bs = post := by simpa using hsplit
        exact Or.inl ⟨by simp, rfl⟩
      | cons d pre =>
        obtain ⟨rfl, rfl⟩ : c = d ∧ bs = pre ++ b :: post := by simpa using hsplit
        exact Or.inr ⟨pre, post, rfl, by simp [Nat.add_assoc]⟩

/-- A block stands behind those before it. -/
theorem mem_place_middle (pre post : List Block) (b : Block) :
    (span pre, b) ∈ place 0 (pre ++ b :: post) :=
  mem_place_iff.mpr ⟨pre, post, rfl, (Nat.zero_add _).symm⟩

/-- Every block stands somewhere. -/
theorem exists_mem_place (hb : b ∈ bs) : ∃ o, (o, b) ∈ place 0 bs := by
  obtain ⟨pre, post, rfl⟩ := List.append_of_mem hb
  exact ⟨span pre, mem_place_middle pre post b⟩

/-- Where all blocks start at multiples of `k`, their end is one when all sizes are. -/
theorem dvd_add_span_iff {k : ℕ} (hoff : k ∣ off) (hplace : ∀ o b, (o, b) ∈ place off bs → k ∣ o) :
    k ∣ off + span bs ↔ ∀ b ∈ bs, k ∣ b.size := by
  induction bs generalizing off with
  | nil => simpa using hoff
  | cons b bs ih =>
    rw [span_cons, List.forall_mem_cons, ← Nat.add_assoc]
    cases bs with
    | nil => simp [Nat.dvd_add_right hoff]
    | cons c bs =>
      have hnext : k ∣ off + b.size := hplace _ c (by simp [place])
      rw [ih hnext fun o d hd => hplace o d (by rw [place]; exact List.mem_cons_of_mem _ hd)]
      exact (and_iff_right ((Nat.dvd_add_right hoff).mp hnext)).symm

/-- A placed block ends within the span of its list. -/
theorem place_end_le (h : (o, b) ∈ place off bs) : off ≤ o ∧ o + b.size ≤ off + span bs := by
  obtain ⟨pre, post, rfl, rfl⟩ := mem_place_iff.mp h
  simp only [span_append, span_cons]
  omega

/-- A placed block is a block of the list. -/
theorem mem_of_mem_place (h : (o, b) ∈ place off bs) : b ∈ bs := by
  obtain ⟨pre, post, rfl, -⟩ := mem_place_iff.mp h
  simp

/-- Two placed blocks are the same block, or one ends before the other starts. -/
theorem place_disjoint (h : (o, b) ∈ place off bs) (h' : (o', b') ∈ place off bs) :
    (o = o' ∧ b = b') ∨ o + b.size ≤ o' ∨ o' + b'.size ≤ o := by
  induction bs generalizing off with
  | nil => simp [place] at h
  | cons c bs ih =>
    simp only [place, List.mem_cons, Prod.mk.injEq] at h h'
    rcases h with ⟨rfl, rfl⟩ | h <;> rcases h' with ⟨rfl, rfl⟩ | h'
    · exact Or.inl ⟨rfl, rfl⟩
    · exact Or.inr (Or.inl (place_end_le h').1)
    · exact Or.inr (Or.inr (place_end_le h).1)
    · exact ih h h'

/-- After one block is replaced by one of the same size, every placed block is
the new one or an old one at another offset. -/
theorem mem_place_replace (hsize : b'.size = b.size)
    (hpos : ∀ c ∈ pre ++ b :: post, 0 < c.size) {p : ℕ × Block} :
    p ∈ place 0 (pre ++ b' :: post) ↔
      p = (span pre, b') ∨ (p ∈ place 0 (pre ++ b :: post) ∧ p.1 ≠ span pre) := by
  obtain ⟨o, c⟩ := p
  have hb := hpos b (by simp)
  simp only [place_append, place, List.mem_append, List.mem_cons, Nat.zero_add, hsize]
  constructor
  · rintro (h | h | h)
    · have hend := place_end_le h
      have hc := hpos c (by simp [mem_of_mem_place h])
      exact Or.inr ⟨Or.inl h, by omega⟩
    · exact Or.inl h
    · have hend := place_end_le h
      exact Or.inr ⟨Or.inr (Or.inr h), by omega⟩
  · rintro (h | ⟨h | h | h, hne⟩)
    · exact Or.inr (Or.inl h)
    · exact Or.inl h
    · exact absurd (congrArg Prod.fst h) hne
    · exact Or.inr (Or.inr h)

/-- Replacing the flag of one block keeps every block's offset and size. -/
theorem place_replace_size (hsize : b'.size = b.size)
    (hpos : ∀ c ∈ pre ++ b :: post, 0 < c.size) {c : Block}
    (h : (o, c) ∈ place 0 (pre ++ b :: post)) :
    ∃ c', (o, c') ∈ place 0 (pre ++ b' :: post) ∧ c'.size = c.size ∧
      (o ≠ span pre → c' = c) := by
  by_cases ho : o = span pre
  · have hmem := mem_place_middle pre post b
    have hc := hpos c (mem_of_mem_place h)
    have hb := hpos b (by simp)
    subst ho
    obtain ⟨-, rfl⟩ : span pre = span pre ∧ c = b := by
      rcases place_disjoint h hmem with heq | hlt | hlt
      · exact heq
      · omega
      · omega
    exact ⟨b', (mem_place_replace hsize hpos).mpr (Or.inl rfl), hsize, fun hne => absurd rfl hne⟩
  · exact ⟨c, (mem_place_replace hsize hpos).mpr (Or.inr ⟨h, ho⟩), rfl, fun _ => rfl⟩

end Block

end Nimbu
