import Mathlib.Data.List.TakeWhile
import Nimbu.Shell.Lines

/-!
# The line editor

`shell_read_line` takes as many characters as it needs: up to the first Enter, or
until the edited text fills the buffer but for the byte that ends it. It returns the
edited text of what it has taken, for every stream of characters.
-/

namespace Nimbu

/-- The edited text of the characters before the first Enter. -/
def lineText (pre : List Byte) : List Byte := edit (pre.takeWhile fun ch => ¬ IsEnter ch)

/-- Characters that end a line in a buffer of `n` bytes: the last one is Enter, or their edited
text fills the buffer but for one byte. -/
def EndsLine (n : ℕ) (pre : List Byte) : Prop :=
  (∃ ch ∈ pre.getLast?, IsEnter ch) ∨ (lineText pre).length = n - 1

/-- The shortest first part of a stream that ends a line. -/
structure FirstLine (n : ℕ) (input pre rest : List Byte) : Prop where
  /-- The characters behind it are left. -/
  split : input = pre ++ rest
  /-- It ends a line. -/
  ends : EndsLine n pre
  /-- No shorter one does. -/
  shortest : ∀ first, first <+: pre → EndsLine n first → first = pre

/-- The buffer holds a text and the 0 that ends it. -/
structure LineState.HoldsString {n : ℕ} (s : LineState n) (text : List Byte) : Prop where
  /-- The number of characters. -/
  len_eq : s.len = text.length
  /-- The characters. -/
  take_eq : s.buffer.toList.take s.len = text
  /-- The 0 behind them. -/
  zero : s.buffer[s.len]? = some 0

variable {n : ℕ} {s s' : LineState n} {input pre rest text : List Byte} {ch : Byte}

section Prefixes

/-- Without Enter all characters are edited. -/
theorem lineText_of_no_enter (hinput : ∀ ch ∈ input, ¬ IsEnter ch) :
    lineText input = edit input := by
  rw [lineText, List.takeWhile_eq_self_iff.mpr (by simpa using hinput)]

/-- An Enter behind them is not part of the text. -/
theorem lineText_enter (hinput : ∀ ch ∈ input, ¬ IsEnter ch) (hch : IsEnter ch) :
    lineText (input ++ [ch]) = edit input := by
  rw [lineText, List.takeWhile_append_of_pos (by simpa using hinput),
    List.takeWhile_cons_of_neg (by simpa using hch), List.append_nil]

/-- Where no first part ends a line there is no Enter. -/
theorem no_enter_of_not_ends (hnone : ∀ pre, pre <+: input → ¬ EndsLine n pre) :
    ∀ ch ∈ input, ¬ IsEnter ch := by
  intro ch hch henter
  obtain ⟨before, behind, rfl⟩ := List.append_of_mem hch
  refine hnone (before ++ [ch]) ⟨behind, by simp⟩ (Or.inl ⟨ch, ?_, henter⟩)
  rw [List.getLast?_append]
  rfl

/-- A stream one character longer has the first line that it had before. -/
theorem FirstLine.append (h : FirstLine n input pre rest) (ch : Byte) :
    FirstLine n (input ++ [ch]) pre (rest ++ [ch]) :=
  ⟨by rw [h.split, List.append_assoc], h.ends, h.shortest⟩

/-- A character with which the line ends for the first time. -/
theorem firstLine_of_ends (hnone : ∀ pre, pre <+: input → ¬ EndsLine n pre)
    (hends : EndsLine n (input ++ [ch])) : FirstLine n (input ++ [ch]) (input ++ [ch]) [] := by
  refine ⟨(List.append_nil _).symm, hends, fun first hfirst hfirstEnds => ?_⟩
  rcases List.prefix_concat_iff.mp hfirst with hwhole | hfirst
  · exact hwhole
  · exact absurd hfirstEnds (hnone first hfirst)

end Prefixes

section Calls

/-- A full buffer is ended at once. -/
theorem shellReadLine_of_full (hfull : ¬ s.len < n - 1) (input : List Byte) :
    shellReadLine s input =
      (storeAt s.buffer s.len 0).map fun buffer => ({ s with buffer }, some input) := by
  cases input with
  | nil => rw [shellReadLine, if_neg hfull, Option.map_eq_bind]; rfl
  | cons ch input => rw [shellReadLine, if_neg hfull, Option.map_eq_bind]; rfl

/-- A call in which a round has returned leaves the other characters. -/
theorem shellReadLine_cons_returned (hlt : s.len < n - 1)
    (hround : readLineRound s ch = some (s', true)) (input : List Byte) :
    shellReadLine s (ch :: input) = some (s', some input) := by
  rw [shellReadLine, if_pos hlt, hround]
  rfl

/-- With a full buffer a call returns and leaves all characters. -/
theorem shellReadLine_append_of_full {returned : Option (List Byte)} (hfull : ¬ s.len < n - 1)
    (hread : shellReadLine s input = some (s', returned)) (more : List Byte) :
    shellReadLine s (input ++ more) =
      returned.elim (shellReadLine s' more) fun rest => some (s', some (rest ++ more)) := by
  rw [shellReadLine_of_full hfull, Option.map_eq_some_iff] at hread
  obtain ⟨buffer, hstore, hreturned⟩ := hread
  cases hreturned
  rw [shellReadLine_of_full hfull, hstore]
  rfl

/-- With more characters a call that waits goes on, and one that has returned leaves them. -/
theorem shellReadLine_append {returned : Option (List Byte)}
    (hread : shellReadLine s input = some (s', returned)) (more : List Byte) :
    shellReadLine s (input ++ more) =
      returned.elim (shellReadLine s' more) fun rest => some (s', some (rest ++ more)) := by
  induction input generalizing s with
  | nil =>
    by_cases hlt : s.len < n - 1
    · rw [shellReadLine, if_pos hlt] at hread
      cases hread
      rfl
    · exact shellReadLine_append_of_full hlt hread more
  | cons ch input ih =>
    by_cases hlt : s.len < n - 1
    · cases hround : readLineRound s ch with
      | none =>
        rw [shellReadLine, if_pos hlt, hround] at hread
        cases hread
      | some r =>
        obtain ⟨t, ended⟩ := r
        cases ended with
        | true =>
          rw [shellReadLine_cons_returned hlt hround] at hread
          cases hread
          exact shellReadLine_cons_returned hlt hround _
        | false =>
          rw [shellReadLine_cons hlt hround] at hread
          rw [List.cons_append, shellReadLine_cons hlt hround]
          exact ih hread
    · exact shellReadLine_append_of_full hlt hread more

/-- A call that waits goes on with the characters that follow. -/
theorem shellReadLine_append_of_waits (hread : shellReadLine s input = some (s', none))
    (more : List Byte) : shellReadLine s (input ++ more) = shellReadLine s' more :=
  shellReadLine_append hread more

/-- The 0 behind the text makes it a string. -/
theorem LineState.Holds.holdsString (hs : s.Holds text) (hlt : s.len < n) :
    LineState.HoldsString { s with buffer := s.buffer.set s.len 0 hlt } text := by
  refine ⟨hs.len_eq, ?_, ?_⟩
  · rw [Vector.toList_set, List.take_set_of_le le_rfl]
    exact hs.take_eq
  · exact Vector.getElem?_set_self hlt

/-- The string in the buffer ends at its first 0. -/
theorem LineState.HoldsString.length_cstring_lt (hs : s.HoldsString text) :
    (cstring s.buffer).length < n := by
  obtain ⟨hlt, hzero⟩ := Vector.getElem?_eq_some_iff.mp hs.zero
  by_contra hlong
  have hinside : s.len < (cstring s.buffer).length := by omega
  have hfirst : cstring s.buffer <+: s.buffer.toList := List.takeWhile_prefix _
  have hsame : (cstring s.buffer)[s.len] = s.buffer[s.len] := by
    rw [hfirst.getElem hinside, Vector.getElem_toList]
  have hne := List.mem_takeWhile_imp (List.getElem_mem hinside)
  rw [hsame, hzero] at hne
  simp at hne

end Calls

section Run

/-- What a call has done with the characters so far: it has returned the text of the first line
and left the rest, or no line has ended and the buffer holds the text so far. -/
def EditsLine (s : LineState n) (input : List Byte) : Prop :=
  (∃ pre rest s', FirstLine n input pre rest ∧ shellReadLine s input = some (s', some rest) ∧
    s'.HoldsString (lineText pre)) ∨
  ((∀ pre, pre <+: input → ¬ EndsLine n pre) ∧
    ∃ s', shellReadLine s input = some (s', none) ∧ s'.Holds (edit input))

/-- An empty line ends only in a buffer of one byte. -/
theorem endsLine_nil_iff : EndsLine n [] ↔ n - 1 = 0 := by
  simp [EndsLine, lineText, edit, eq_comm]

/-- A text with which no line has ended leaves room in the buffer. -/
theorem length_edit_lt (hnone : ∀ pre, pre <+: input → ¬ EndsLine n pre) :
    (edit input).length < n - 1 := by
  induction input using List.reverseRecOn with
  | nil =>
    have hempty := hnone [] List.nil_prefix
    rw [endsLine_nil_iff] at hempty
    exact Nat.pos_of_ne_zero hempty
  | append_singleton input ch ih =>
    have hbefore := ih fun pre hpre => hnone pre (hpre.trans (List.prefix_append _ _))
    have hlonger := length_editStep_le (edit input) ch
    have hopen : (lineText (input ++ [ch])).length ≠ n - 1 := fun hfull =>
      hnone _ (List.prefix_refl _) (Or.inr hfull)
    rw [lineText_of_no_enter (no_enter_of_not_ends hnone), edit_append] at hopen
    rw [edit_append]
    omega

/-- One more character. -/
theorem EditsLine.append (h : EditsLine s input) (ch : Byte) :
    EditsLine s (input ++ [ch]) := by
  rcases h with ⟨pre, rest, s', hfirst, hread, hs'⟩ | ⟨hnone, s', hread, hs'⟩
  · exact Or.inl ⟨pre, rest ++ [ch], s', hfirst.append ch, shellReadLine_append hread [ch], hs'⟩
  · have hroom := length_edit_lt hnone
    have hlt : s'.len < n - 1 := by rwa [hs'.len_eq]
    have hplain := no_enter_of_not_ends hnone
    have hgoesOn := shellReadLine_append_of_waits hread [ch]
    by_cases hch : IsEnter ch
    · -- Enter ends the line.
      have hends : EndsLine n (input ++ [ch]) := Or.inl ⟨ch, by simp, hch⟩
      have hspace : s'.len < n := by omega
      refine Or.inl ⟨_, _, { s' with buffer := s'.buffer.set s'.len 0 hspace },
        firstLine_of_ends hnone hends, ?_, ?_⟩
      · rw [hgoesOn]
        exact shellReadLine_cons_returned hlt (readLineRound_enter hspace hch) []
      · rw [lineText_enter hplain hch]
        exact hs'.holdsString hspace
    · obtain ⟨t, hround, ht⟩ := readLineRound_edit hs' (by omega) hch
      rw [← edit_append] at ht
      have htext : lineText (input ++ [ch]) = edit (input ++ [ch]) := by
        refine lineText_of_no_enter fun c hc => ?_
        rcases List.mem_append.mp hc with hc | hc
        · exact hplain c hc
        · rwa [List.mem_singleton.mp hc]
      by_cases hfull : (edit (input ++ [ch])).length = n - 1
      · -- The buffer is full without Enter.
        have hends : EndsLine n (input ++ [ch]) := Or.inr (by rw [htext, hfull])
        have htlen : t.len = n - 1 := by rw [ht.len_eq, hfull]
        have hspace : t.len < n := by omega
        refine Or.inl ⟨_, _, { t with buffer := t.buffer.set t.len 0 hspace },
          firstLine_of_ends hnone hends, ?_, ?_⟩
        · rw [hgoesOn]
          exact shellReadLine_full hlt hround htlen
        · rw [htext]
          exact ht.holdsString hspace
      · have hlonger := length_editStep_le (edit input) ch
        rw [← edit_append] at hlonger
        refine Or.inr ⟨fun pre hpre => ?_, t, ?_, ht⟩
        · rcases List.prefix_concat_iff.mp hpre with rfl | hpre
          · rintro (⟨c, hc, henter⟩ | hlen)
            · rw [List.getLast?_append] at hc
              obtain rfl : ch = c := by simpa using hc
              exact hch henter
            · exact hfull (by rwa [htext] at hlen)
          · exact hnone pre hpre
        · rw [hgoesOn]
          exact shellReadLine_waits hlt hround (by rw [ht.len_eq]; omega)

/-- A call that starts with an empty text edits a line. -/
theorem LineState.Holds.editsLine (hs : s.Holds []) (hn : 0 < n) (input : List Byte) :
    EditsLine s input := by
  have hlen : s.len = 0 := hs.len_eq
  have hlt : s.len < n := by omega
  induction input using List.reverseRecOn with
  | nil =>
    by_cases hone : n - 1 = 0
    · have hends : EndsLine n [] := endsLine_nil_iff.mpr hone
      refine Or.inl ⟨[], [], _, ⟨rfl, hends, fun first hfirst _ => List.prefix_nil.mp hfirst⟩, ?_,
        hs.holdsString hlt⟩
      rw [shellReadLine_of_full (by omega), storeAt_eq s.buffer 0 hlt]
      rfl
    · refine Or.inr ⟨fun pre hpre hends => hone ?_, s, ?_, hs⟩
      · rw [List.prefix_nil.mp hpre] at hends
        exact endsLine_nil_iff.mp hends
      · rw [shellReadLine, if_pos (by omega)]
        rfl
  | append_singleton input ch ih => exact ih.append ch

/-- **`shell_read_line` is a line editor.** For every buffer of at least one byte and every
stream of characters it takes the shortest first part that ends a line, and returns its edited
text with a 0 behind it; as long as no line has ended it waits with the text so far. It writes
within the buffer. -/
theorem shellReadLine_editsLine {n : ℕ} (hn : 0 < n) (buffer : Vector Byte n) {v : VgaState}
    (hv : v.InBounds) (input : List Byte) : EditsLine ⟨buffer, 0, v⟩ input := by
  have hs : (⟨buffer, 0, v⟩ : LineState n).Holds [] := ⟨rfl, List.take_zero, hv⟩
  exact hs.editsLine hn input

/-- The text `b` of a line with a backspace in a buffer of three bytes. -/
theorem shellReadLine_editsLine_backspace :
    EditsLine ⟨Vector.replicate 3 0xFF, 0, ⟨Vector.replicate 2000 vgaBlank, 0, 0⟩⟩
        (literal "a\x08b\nc") ∧
      ((shellReadLine ⟨Vector.replicate 3 0xFF, 0, ⟨Vector.replicate 2000 vgaBlank, 0, 0⟩⟩
        (literal "a\x08b\nc")).map fun r => (r.1.buffer.toList, r.2)) =
          some ([0x62, 0, 0xFF], some [0x63]) :=
  ⟨shellReadLine_editsLine (by decide) _
      (show (⟨Vector.replicate 2000 vgaBlank, 0, 0⟩ : VgaState).InBounds from
        ⟨by decide, by decide⟩) _, by decide +kernel⟩

end Run

end Nimbu
