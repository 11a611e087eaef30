import Mathlib.Data.List.Basic
import Mathlib.Data.List.Induction
import Mathlib.Tactic.Common

/-!
# Tokens

The tokens of a list are its maximal runs of elements that are not blank, each
with the position of its first element. They are found in one scan, which keeps
the runs that a blank has ended and the run that is still open.
-/

namespace Nimbu

variable {α : Type*}

/-- A scan of a list from its start. -/
structure TokenScan (α : Type*) where
  /-- The runs that a blank has ended, with the positions of their first elements. -/
  closed : List (ℕ × List α)
  /-- The run that is open, or nothing. -/
  current : List α
  /-- The number of elements scanned. -/
  pos : ℕ

namespace TokenScan

/-- The scan before the first element. -/
def start : TokenScan α := ⟨[], [], 0⟩

/-- All runs so far. -/
def finished (s : TokenScan α) : List (ℕ × List α) :=
  if s.current = [] then s.closed else s.closed ++ [(s.pos - s.current.length, s.current)]

variable (blank : α → Prop) [DecidablePred blank]

/-- Scan one element. -/
def push (s : TokenScan α) (c : α) : TokenScan α :=
  if blank c then ⟨s.finished, [], s.pos + 1⟩
  else { s with current := s.current ++ [c], pos := s.pos + 1 }

end TokenScan

variable (blank : α → Prop) [DecidablePred blank]

/-- The scan of a list. -/
def scan (line : List α) : TokenScan α := line.foldl (TokenScan.push blank) TokenScan.start

/-- The tokens of a list, with their positions. -/
def tokens (line : List α) : List (ℕ × List α) := (scan blank line).finished

/-- The elements `t` between `pre` and `post` are a maximal run without blanks. -/
structure IsRun (pre t post : List α) : Prop where
  /-- There is at least one element. -/
  nonempty : t ≠ []
  /-- None of them is blank. -/
  solid : ∀ c ∈ t, ¬ blank c
  /-- A blank or nothing stands before them. -/
  before : ∀ c ∈ pre.getLast?, blank c
  /-- A blank or nothing stands behind them. -/
  behind : ∀ c ∈ post.head?, blank c

variable {blank} {s : TokenScan α} {c : α} {line rest : List α}

/-- One more element is scanned. -/
theorem scan_append (line : List α) (c : α) :
    scan blank (line ++ [c]) = (scan blank line).push blank c := by
  rw [scan, List.foldl_append]
  rfl

/-- Every element is counted. -/
theorem TokenScan.push_pos (s : TokenScan α) (c : α) : (s.push blank c).pos = s.pos + 1 := by
  unfold TokenScan.push
  split
  · rfl
  · rfl

/-- The scan counts the elements. -/
theorem scan_pos (line : List α) : (scan blank line).pos = line.length := by
  induction line using List.reverseRecOn with
  | nil => rfl
  | append_singleton line c ih =>
    rw [scan_append, TokenScan.push_pos, ih, List.length_append, List.length_singleton]

namespace TokenScan

/-- The runs that have ended stay. -/
theorem closed_prefix_finished (s : TokenScan α) : s.closed <+: s.finished := by
  unfold finished
  split
  · exact List.prefix_refl _
  · exact List.prefix_append _ _

/-- Another element ends at most the open run. -/
theorem closed_prefix_push (s : TokenScan α) (c : α) : s.closed <+: (s.push blank c).closed := by
  unfold push
  split
  · exact s.closed_prefix_finished
  · exact List.prefix_refl _

variable (blank) in
/-- The runs that have ended are the first of all runs in the end. -/
theorem closed_prefix_foldl (s : TokenScan α) (rest : List α) :
    s.closed <+: (rest.foldl (push blank) s).finished := by
  induction rest generalizing s with
  | nil => exact s.closed_prefix_finished
  | cons c rest ih => exact (s.closed_prefix_push c).trans (ih _)

variable (blank) in
/-- The open run becomes a token at least as long. -/
theorem current_le_foldl (hcurrent : s.current ≠ []) (rest : List α) :
    ∃ x ∈ (rest.foldl (push blank) s).finished, s.current.length ≤ x.2.length := by
  induction rest generalizing s with
  | nil =>
    refine ⟨(s.pos - s.current.length, s.current), ?_, Nat.le_refl _⟩
    rw [List.foldl_nil, finished, if_neg hcurrent]
    exact List.mem_append_right _ List.mem_cons_self
  | cons c rest ih =>
    rw [List.foldl_cons]
    by_cases hc : blank c
    · refine ⟨(s.pos - s.current.length, s.current), ?_, Nat.le_refl _⟩
      refine ((s.push blank c).closed_prefix_foldl blank rest).subset ?_
      rw [push, if_pos hc, finished, if_neg hcurrent]
      exact List.mem_append_right _ List.mem_cons_self
    · have hpush : (s.push blank c).current = s.current ++ [c] := by rw [push, if_neg hc]
      obtain ⟨x, hx, hle⟩ := ih (s := s.push blank c) (by rw [hpush]; simp)
      rw [hpush, List.length_append] at hle
      exact ⟨x, hx, by omega⟩

/-- Where all tokens are shorter than a bound, so is the open run. -/
theorem current_lt_of_finished {n : ℕ} (hn : 0 < n)
    (hshort : ∀ x ∈ (rest.foldl (push blank) s).finished, x.2.length < n) :
    s.current.length < n := by
  by_cases hcurrent : s.current = []
  · rw [hcurrent]
    exact hn
  · obtain ⟨x, hx, hle⟩ := current_le_foldl blank hcurrent rest
    exact Nat.lt_of_le_of_lt hle (hshort x hx)

/-- So are the tokens of a part of the list. -/
theorem finished_lt_of_finished {n : ℕ} (hn : 0 < n)
    (hshort : ∀ x ∈ (rest.foldl (push blank) s).finished, x.2.length < n) :
    ∀ x ∈ s.finished, x.2.length < n := by
  intro x hx
  unfold finished at hx
  split at hx
  · exact hshort x ((s.closed_prefix_foldl blank rest).subset hx)
  · rcases List.mem_append.mp hx with hx | hx
    · exact hshort x ((s.closed_prefix_foldl blank rest).subset hx)
    · rw [List.mem_singleton.mp hx]
      exact current_lt_of_finished hn hshort

end TokenScan

omit [DecidablePred blank] in
/-- The end of a list without blanks, behind a blank, is determined. -/
theorem suffix_unique {pre pre' t t' : List α} (h : pre ++ t = pre' ++ t')
    (ht : ∀ c ∈ t, ¬ blank c) (hpre : ∀ c ∈ pre.getLast?, blank c) (ht' : ∀ c ∈ t', ¬ blank c)
    (hpre' : ∀ c ∈ pre'.getLast?, blank c) : pre = pre' ∧ t = t' := by
  rcases List.append_eq_append_iff.mp h with ⟨mid, rfl, rfl⟩ | ⟨mid, rfl, rfl⟩
  · rcases List.eq_nil_or_concat mid with rfl | ⟨mid, c, rfl⟩
    · simp
    · exact absurd (hpre' c (by simp)) (ht c (by simp))
  · rcases List.eq_nil_or_concat mid with rfl | ⟨mid, c, rfl⟩
    · simp
    · exact absurd (hpre c (by simp)) (ht' c (by simp))

/-- What a scan has found: the open run is the end of the list behind its last blank, and the
runs that have ended are the maximal runs before. -/
structure TokenScan.Finds (blank : α → Prop) (s : TokenScan α) (line : List α) : Prop where
  /-- The open run ends the list. -/
  current_eq : ∃ pre, line = pre ++ s.current ∧ ∀ c ∈ pre.getLast?, blank c
  /-- It has no blanks. -/
  solid : ∀ c ∈ s.current, ¬ blank c
  /-- The runs that have ended. -/
  mem_closed : ∀ i t, (i, t) ∈ s.closed ↔
    ∃ pre post, line = pre ++ t ++ post ∧ pre.length = i ∧ post ≠ [] ∧ IsRun blank pre t post

namespace TokenScan.Finds

omit [DecidablePred blank] in
/-- The tokens of a scan are the maximal runs. -/
theorem mem_finished (h : s.Finds blank line) (hpos : s.pos = line.length) (i : ℕ) (t : List α) :
    (i, t) ∈ s.finished ↔
      ∃ pre post, line = pre ++ t ++ post ∧ pre.length = i ∧ IsRun blank pre t post := by
  obtain ⟨before, hline, hbefore⟩ := h.current_eq
  have hstart : s.pos - s.current.length = before.length := by
    rw [hpos, hline, List.length_append, Nat.add_sub_cancel]
  constructor
  · intro hmem
    by_cases hclosed : (i, t) ∈ s.closed
    · obtain ⟨pre, post, hpre, hi, -, hrun⟩ := (h.mem_closed i t).mp hclosed
      exact ⟨pre, post, hpre, hi, hrun⟩
    · unfold finished at hmem
      split at hmem
      · exact absurd hmem hclosed
      · rename_i hcurrent
        rw [List.mem_append, or_iff_right hclosed, List.mem_singleton, Prod.mk.injEq,
          hstart] at hmem
        obtain ⟨rfl, rfl⟩ := hmem
        exact ⟨before, [], by rw [List.append_nil, ← hline], rfl, hcurrent, h.solid, hbefore,
          by simp⟩
  · rintro ⟨pre, post, hpre, hi, hrun⟩
    by_cases hpost : post = []
    · -- A run at the end of the list is the open one.
      rw [hpost, List.append_nil] at hpre
      obtain ⟨rfl, rfl⟩ :=
        suffix_unique (hpre.symm.trans hline) hrun.solid hrun.before h.solid hbefore
      rw [finished, if_neg hrun.nonempty, hstart, hi]
      exact List.mem_append_right _ List.mem_cons_self
    · have hclosed := (h.mem_closed i t).mpr ⟨pre, post, hpre, hi, hpost, hrun⟩
      exact s.closed_prefix_finished.subset hclosed

/-- One more element. -/
theorem push (h : s.Finds blank line) (hpos : s.pos = line.length) (c : α) :
    (s.push blank c).Finds blank (line ++ [c]) := by
  by_cases hc : blank c
  · rw [TokenScan.push, if_pos hc]
    refine ⟨⟨line ++ [c], by simp, by simpa using hc⟩, by simp, fun i t => ?_⟩
    rw [h.mem_finished hpos]
    constructor
    · rintro ⟨pre, post, rfl, hi, hrun⟩
      refine ⟨pre, post ++ [c], by simp, hi, by simp, hrun.nonempty, hrun.solid, hrun.before, ?_⟩
      rw [List.head?_append]
      cases hpost : post.head? with
      | none => simpa using hc
      | some d => simpa using hrun.behind d hpost
    · rintro ⟨pre, post, hline, hi, hpost, hrun⟩
      obtain ⟨post, d, rfl⟩ := (List.eq_nil_or_concat post).resolve_left hpost
      rw [List.concat_eq_append, ← List.append_assoc] at hline
      obtain ⟨hline, -⟩ := List.append_inj' hline rfl
      refine ⟨pre, post, hline, hi, hrun.nonempty, hrun.solid, hrun.before, fun e he => ?_⟩
      exact hrun.behind e (by rw [List.concat_eq_append, List.head?_append, he]; rfl)
  · obtain ⟨before, hline, hbefore⟩ := h.current_eq
    rw [TokenScan.push, if_neg hc]
    refine ⟨⟨before, by rw [hline, List.append_assoc], hbefore⟩, ?_, fun i t => ?_⟩
    · intro d hd
      rcases List.mem_append.mp hd with hd | hd
      · exact h.solid d hd
      · rwa [List.mem_singleton.mp hd]
    · rw [h.mem_closed]
      constructor
      · rintro ⟨pre, post, hpre, hi, hpost, hrun⟩
        refine ⟨pre, post ++ [c], by rw [hpre]; simp, hi, by simp, hrun.nonempty, hrun.solid,
          hrun.before, ?_⟩
        rw [List.head?_append_of_ne_nil _ hpost]
        exact hrun.behind
      · rintro ⟨pre, post, hpre, hi, hpost, hrun⟩
        obtain ⟨post, d, rfl⟩ := (List.eq_nil_or_concat post).resolve_left hpost
        rw [List.concat_eq_append, ← List.append_assoc] at hpre
        obtain ⟨hpre, hd⟩ := List.append_inj' hpre rfl
        have hcd : c = d := by simpa using hd
        rw [List.concat_eq_append] at hrun
        -- The element behind the run is a blank, so it is not the new one.
        have hne : post ≠ [] := by
          rintro rfl
          exact hc (hcd ▸ hrun.behind d (by simp))
        refine ⟨pre, post, hpre, hi, hne, hrun.nonempty, hrun.solid, hrun.before, ?_⟩
        have hbehind := hrun.behind
        rwa [List.head?_append_of_ne_nil _ hne] at hbehind

end TokenScan.Finds

/-- The scan finds the runs of every list. -/
theorem scan_finds (line : List α) : (scan blank line).Finds blank line := by
  induction line using List.reverseRecOn with
  | nil =>
    refine ⟨⟨[], rfl, by simp⟩, by simp [scan, TokenScan.start], fun i t => ?_⟩
    refine iff_of_false (by simp [scan, TokenScan.start]) ?_
    rintro ⟨pre, post, hline, -, -, hrun⟩
    exact hrun.nonempty (by simp at hline; exact hline.2.1)
  | append_singleton line c ih =>
    rw [scan_append]
    exact ih.push (scan_pos line) c

/-- The tokens are the maximal runs without blanks, at the positions of their first elements. -/
theorem mem_tokens_iff {i : ℕ} {t : List α} :
    (i, t) ∈ tokens blank line ↔
      ∃ pre post, line = pre ++ t ++ post ∧ pre.length = i ∧ IsRun blank pre t post :=
  (scan_finds line).mem_finished (scan_pos line) i t

/-- The runs of a scan stand one behind the other, with a blank in between. -/
def TokenScan.Ordered (s : TokenScan α) : Prop :=
  s.current.length ≤ s.pos ∧ s.closed.Pairwise (fun x y => x.1 + x.2.length < y.1) ∧
    ∀ x ∈ s.closed, x.1 + x.2.length < s.pos - s.current.length

/-- The runs of a scan that is in order, in the order of their positions. -/
theorem TokenScan.Ordered.finished (h : s.Ordered) :
    s.finished.Pairwise (fun x y => x.1 + x.2.length < y.1) ∧
      ∀ x ∈ s.finished, x.1 + x.2.length ≤ s.pos := by
  obtain ⟨hle, hpairwise, hlt⟩ := h
  unfold TokenScan.finished
  split
  · exact ⟨hpairwise, fun x hx => by have := hlt x hx; omega⟩
  · refine ⟨List.pairwise_append.mpr ⟨hpairwise, List.pairwise_singleton _ _, ?_⟩, fun x hx => ?_⟩
    · intro x hx y hy
      rw [List.mem_singleton.mp hy]
      exact hlt x hx
    · rcases List.mem_append.mp hx with hx | hx
      · have := hlt x hx
        omega
      · rw [List.mem_singleton.mp hx]
        exact Nat.le_of_eq (Nat.sub_add_cancel hle)

/-- The scan keeps the order. -/
theorem scan_ordered (line : List α) : (scan blank line).Ordered := by
  induction line using List.reverseRecOn with
  | nil => exact ⟨Nat.le_refl 0, List.Pairwise.nil, by simp [scan, TokenScan.start]⟩
  | append_singleton line c ih =>
    rw [scan_append, TokenScan.push]
    split
    · exact ⟨Nat.zero_le _, ih.finished.1, fun x hx => Nat.lt_succ_of_le (ih.finished.2 x hx)⟩
    · obtain ⟨hle, hpairwise, hlt⟩ := ih
      refine ⟨?_, hpairwise, fun x hx => ?_⟩
      · simpa using hle
      · have := hlt x hx
        simp only [List.length_append, List.length_singleton]
        omega

/-- The tokens stand one behind the other, with a blank in between. -/
theorem tokens_pairwise (line : List α) :
    (tokens blank line).Pairwise (fun x y => x.1 + x.2.length < y.1) :=
  (scan_ordered line).finished.1

/-- Blanks behind a list change none of its tokens. -/
theorem tokens_append_blanks {blanks : List α} (hblanks : ∀ c ∈ blanks, blank c) (line : List α) :
    tokens blank (line ++ blanks) = tokens blank line := by
  induction blanks using List.reverseRecOn with
  | nil => rw [List.append_nil]
  | append_singleton blanks c ih =>
    have hbefore := ih fun d hd => hblanks d (List.mem_append_left _ hd)
    have hc := hblanks c (List.mem_append_right _ List.mem_cons_self)
    rw [← List.append_assoc, tokens, scan_append, TokenScan.push, if_pos hc, ← hbefore]
    rfl

end Nimbu
