import Nimbu.Shell.LineEditor

/-!
# The echo of the line

`shell_read_line` prints every character that it stores, so the screen shows its
buffer from where the cursor was. To erase a character it prints a backspace, a
blank and a backspace. `vga_putchar` has no case for the backspace: it prints three
characters, and the cursor goes forward.
-/

namespace Nimbu

variable {n : ℕ} {s₀ s : LineState n} {text : List Byte} {ch : Byte}

/-- From the position where the line started, the screen shows the buffer and then cells that
are blank or as they were at the start. The cursor is behind the buffer. -/
structure LineState.Shows (s₀ s : LineState n) : Prop where
  /-- The cursor. -/
  position_eq : s.vga.position = s₀.vga.position + s.len
  /-- The buffer. -/
  shown : ∀ i < s.len, s.buffer[i]? = some (vgaGlyph (s.vga.cell (s₀.vga.position + i)))
  /-- The cells behind it. -/
  behind : ∀ i, s₀.vga.position + s.len ≤ i → i < 2000 →
    vgaGlyph (s.vga.cell i) = 0x20 ∨ s.vga.cell i = s₀.vga.cell i

/-- At the start there is nothing to show. -/
theorem LineState.shows_self (hlen : s₀.len = 0) : s₀.Shows s₀ :=
  ⟨by rw [hlen, Nat.add_zero], fun i hi => by omega, fun _ _ _ => Or.inr rfl⟩

/-- The 0 behind the buffer is not part of it. -/
theorem LineState.Shows.terminate (hs : s₀.Shows s) (hlt : s.len < n) :
    s₀.Shows { s with buffer := s.buffer.set s.len 0 hlt } := by
  refine ⟨hs.position_eq, fun i hi => ?_, hs.behind⟩
  simp only at hi ⊢
  rw [Vector.getElem?_set, if_neg (by omega)]
  exact hs.shown i hi

/-- A character that is typed appears behind the buffer. -/
theorem LineState.Shows.char (hs : s₀.Shows s) (hlt : s.len < n) {v : VgaState}
    (hposition : v.position = s.vga.position + 1)
    (hcell : ∀ i, v.cell i = if i = s.vga.position then vgaCell ch echoColor else s.vga.cell i) :
    s₀.Shows ⟨s.buffer.set s.len ch hlt, s.len + 1, v⟩ := by
  have hcursor := hs.position_eq
  refine ⟨?_, fun i hi => ?_, fun i hi hscreen => ?_⟩
  · simp only [hposition, hcursor]
    omega
  · simp only at hi ⊢
    rw [Vector.getElem?_set, hcell]
    by_cases hlast : s.len = i
    · rw [if_pos hlast, if_pos (by omega), vgaGlyph_cell]
    · rw [if_neg hlast, if_neg (by omega)]
      exact hs.shown i (by omega)
  · simp only at hi ⊢
    rw [hcell, if_neg (by omega)]
    exact hs.behind i (by omega) hscreen

/-- A round without a backspace to obey keeps the screen and the buffer together. -/
theorem readLineRound_shows (hs : s.Holds text) (hshows : s₀.Shows s) (hroom : text.length < n)
    (hfits : s₀.vga.position + (editStep text ch).length < 2000) (hch : ¬ IsEnter ch)
    (hback : ch = 0x08 → text = []) :
    ∃ s', readLineRound s ch = some (s', false) ∧ s'.Holds (editStep text ch) ∧ s₀.Shows s' := by
  obtain ⟨s', hround, hs'⟩ := readLineRound_edit hs hroom hch
  refine ⟨s', hround, hs', ?_⟩
  have hlen := hs.len_eq
  by_cases hignored : ch = 0 ∨ ch = 0x08 ∧ s.len = 0
  · rw [readLineRound_ignored hignored, Option.some.injEq, Prod.mk.injEq] at hround
    rwa [← hround.1]
  · have hzero : ch ≠ 0 := fun h => hignored (Or.inl h)
    have herase : ch ≠ 0x08 := fun h => hignored (Or.inr ⟨h, by rw [hlen, hback h]; rfl⟩)
    have hlt : s.len < n := by omega
    rw [editStep, if_neg hzero, if_neg herase, List.length_append, List.length_singleton] at hfits
    have hcursor := hshows.position_eq
    obtain ⟨v, hput, -, hposition, hcell⟩ :=
      vgaPutchar_position hs.inBounds (fun h => hch (Or.inl h)) echoColor
    rw [readLineRound_char hlt hzero herase hch hput, Option.some.injEq, Prod.mk.injEq] at hround
    rw [if_pos (by omega)] at hposition
    rw [← hround.1]
    exact hshows.char hlt hposition (hcell (by omega))

/-- A backspace on a line that has a character moves the cursor forward. -/
theorem readLineRound_backspace_position (hs : s.Holds text) (htext : text ≠ []) :
    ∃ s', readLineRound s 0x08 = some (s', false) ∧ s'.len + 1 = s.len ∧
      s'.vga.position + 1 ≠ s.vga.position := by
  have hpos : 0 < s.len := by
    rw [hs.len_eq]
    exact List.length_pos_iff.mpr htext
  obtain ⟨v₁, h₁, hv₁, hp₁, -⟩ := vgaPutchar_position hs.inBounds
    (show (0x08 : Byte) ≠ 0x0A by decide) echoColor
  obtain ⟨v₂, h₂, hv₂, hp₂, -⟩ := vgaPutchar_position hv₁
    (show (0x20 : Byte) ≠ 0x0A by decide) echoColor
  obtain ⟨v₃, h₃, -, hp₃, -⟩ := vgaPutchar_position hv₂
    (show (0x08 : Byte) ≠ 0x0A by decide) echoColor
  refine ⟨_, readLineRound_backspace hpos h₁ h₂ h₃, Nat.succ_pred_eq_of_pos hpos, ?_⟩
  -- three cells further on, or 77 cells back when the screen scrolls
  split at hp₁ <;> split at hp₂ <;> split at hp₃ <;> simp only <;> omega

/-- One character: the call waits for the next one, or the buffer is full and it returns. -/
theorem shellReadLine_one {s' : LineState n} (hs : s.Holds text) (hroom : text.length < n - 1)
    (hround : readLineRound s ch = some (s', false)) (hs' : s'.Holds (editStep text ch)) :
    ∃ s'' rest, shellReadLine s [ch] = some (s'', rest) ∧
      ((editStep text ch).length < n - 1 → rest = none ∧ s'' = s') ∧
      (s₀.Shows s' → s₀.Shows s'') := by
  have hlen := hs.len_eq
  have hlen' := hs'.len_eq
  have hle := length_editStep_le text ch
  by_cases hnext : s'.len < n - 1
  · exact ⟨s', none, shellReadLine_waits (by omega) hround hnext, fun _ => ⟨rfl, rfl⟩, id⟩
  · exact ⟨_, _, shellReadLine_full (by omega) hround (by omega), fun _ => by omega,
      fun hshows => hshows.terminate _⟩

/-- The call with a buffer of `n` bytes reads every character: the buffer is never full before
one of them. -/
def AllRead (n : ℕ) (input : List Byte) : Prop :=
  ∀ pre ch, pre ++ [ch] <+: input → (edit pre).length < n - 1

/-- Every backspace comes when there is nothing to erase. -/
def NothingErased (input : List Byte) : Prop := ∀ pre, pre ++ [0x08] <+: input → edit pre = []

/-- The characters that a call reads leave their text in the buffer and, if nothing is erased,
on the screen. -/
theorem shellReadLine_reads (hn : 0 < n) (hlen : s₀.len = 0) (hv : s₀.vga.InBounds)
    {input : List Byte} (henter : ∀ ch ∈ input, ¬ IsEnter ch) (hread : AllRead n input)
    (hfits : ∀ pre, pre <+: input → s₀.vga.position + (edit pre).length < 2000) :
    ∃ s rest, shellReadLine s₀ input = some (s, rest) ∧
      ((edit input).length < n - 1 → rest = none ∧ s.Holds (edit input)) ∧
      (NothingErased input → s₀.Shows s) := by
  induction input using List.reverseRecOn with
  | nil =>
    have hholds : s₀.Holds [] := ⟨hlen, by rw [hlen]; rfl, hv⟩
    have hshows := LineState.shows_self hlen
    unfold shellReadLine
    by_cases hlt : s₀.len < n - 1
    · rw [if_pos hlt]
      exact ⟨s₀, none, rfl, fun _ => ⟨rfl, hholds⟩, fun _ => hshows⟩
    · rw [if_neg hlt, storeAt_eq s₀.buffer _ (by omega)]
      exact ⟨_, _, rfl, fun h => absurd (show 0 < n - 1 from h) (by omega),
        fun _ => hshows.terminate _⟩
  | append_singleton input ch ih =>
    have hmore : input <+: input ++ [ch] := List.prefix_append _ _
    obtain ⟨s, rest, hrun, hholds, hshows⟩ := ih
      (fun c hc => henter c (List.mem_append_left _ hc))
      (fun pre c hpre => hread pre c (hpre.trans hmore))
      fun pre hpre => hfits pre (hpre.trans hmore)
    have hroom := hread input ch (List.prefix_refl _)
    obtain ⟨rfl, hs⟩ := hholds hroom
    have hch := henter ch (List.mem_append_right _ List.mem_cons_self)
    have hfit := hfits _ (List.prefix_refl _)
    rw [edit_append] at hfit ⊢
    obtain ⟨s', hround, hs'⟩ := readLineRound_edit hs (by omega) hch
    obtain ⟨s'', rest, hone, hwaits, hterminate⟩ := shellReadLine_one hs hroom hround hs'
    refine ⟨s'', rest, ?_, fun hnext => ?_, fun hnothing => ?_⟩
    · rw [shellReadLine_append_of_waits hrun]
      exact hone
    · obtain ⟨hrest, rfl⟩ := hwaits hnext
      exact ⟨hrest, hs'⟩
    · apply hterminate
      have hbefore : s₀.Shows s := hshows fun pre hpre => hnothing pre (hpre.trans hmore)
      obtain ⟨t, ht, -, hshown⟩ := readLineRound_shows hs hbefore (by omega) hfit hch
        fun h => hnothing input (by rw [h])
      rw [hround, Option.some.injEq, Prod.mk.injEq] at ht
      rwa [ht.1]

/-- **The screen shows the line until the first erasure.** Whatever fits on the screen is typed
from any position, after each character that `shell_read_line` reads the screen shows its buffer,
with the cursor behind it, if and only if every backspace comes when there is nothing to erase. -/
theorem screen_shows_line_iff (hn : 0 < n) (hlen : s₀.len = 0) (hv : s₀.vga.InBounds)
    {input : List Byte} (henter : ∀ ch ∈ input, ¬ IsEnter ch) (hread : AllRead n input)
    (hfits : ∀ pre, pre <+: input → s₀.vga.position + (edit pre).length < 2000) :
    (∀ pre, pre <+: input → ∃ s rest, shellReadLine s₀ pre = some (s, rest) ∧ s₀.Shows s) ↔
      NothingErased input := by
  have hreads : ∀ pre, pre <+: input → ∃ s rest, shellReadLine s₀ pre = some (s, rest) ∧
      ((edit pre).length < n - 1 → rest = none ∧ s.Holds (edit pre)) ∧
      (NothingErased pre → s₀.Shows s) := fun pre hpre =>
    shellReadLine_reads hn hlen hv (fun ch hch => henter ch (hpre.subset hch))
      (fun pre' ch hpre' => hread pre' ch (hpre'.trans hpre))
      fun pre' hpre' => hfits pre' (hpre'.trans hpre)
  constructor
  · intro hall pre hback
    by_contra htext
    have hroom := hread pre 0x08 hback
    have hpre : pre <+: input := (List.prefix_append _ _).trans hback
    obtain ⟨s, rest, hrun, hholds, -⟩ := hreads pre hpre
    obtain ⟨rfl, hs⟩ := hholds hroom
    obtain ⟨s', hround, hlen', hmoved⟩ := readLineRound_backspace_position hs htext
    have hlen_eq := hs.len_eq
    have hone := shellReadLine_waits (by omega) hround (by omega)
    rw [← shellReadLine_append_of_waits hrun] at hone
    obtain ⟨t, _, ht, hbefore⟩ := hall pre hpre
    obtain ⟨t', _, ht', hafter⟩ := hall _ hback
    rw [hrun, Option.some.injEq, Prod.mk.injEq] at ht
    rw [hone, Option.some.injEq, Prod.mk.injEq] at ht'
    rw [← ht.1] at hbefore
    rw [← ht'.1] at hafter
    have hp := hbefore.position_eq
    have hp' := hafter.position_eq
    omega
  · intro hnothing pre hpre
    obtain ⟨s, rest, hrun, -, hshows⟩ := hreads pre hpre
    exact ⟨s, rest, hrun, hshows fun pre' hpre' => hnothing pre' (hpre'.trans hpre)⟩

/-- A call with an empty screen and a buffer of 256 bytes. -/
def emptyLine : LineState shellMaxCmdLen :=
  ⟨Vector.replicate _ 0, 0, ⟨Vector.replicate 2000 vgaBlank, 0, 0⟩⟩

/-- A backspace that erases nothing, and then `ls`. -/
theorem screen_shows_ls :
    NothingErased (0x08 :: literal "ls") ∧ ∀ pre, pre <+: 0x08 :: literal "ls" →
      ∃ s rest, shellReadLine emptyLine pre = some (s, rest) ∧ emptyLine.Shows s := by
  have hnothing : NothingErased (0x08 :: literal "ls") := by
    intro pre hpre
    have hback : ∀ l ∈ List.inits (0x08 :: literal "ls"), l.getLast? = some 0x08 →
        edit l.dropLast = [] := by decide
    have hempty := hback _ ((List.mem_inits _ _).mpr hpre) List.getLast?_concat
    rwa [List.dropLast_concat] at hempty
  refine ⟨hnothing, (screen_shows_line_iff (by decide) rfl ⟨by decide, by decide⟩ (by decide)
    (fun pre ch hpre => ?_) (fun pre hpre => ?_)).mpr hnothing⟩
  · have hmem := (List.mem_inits pre _).mpr ((List.prefix_append _ _).trans hpre)
    clear hpre
    revert pre
    decide
  · rw [← List.mem_inits] at hpre
    revert pre
    decide

/-- After `a` and a backspace the buffer is empty, but the screen still shows the `a`, and the
cursor is in the fifth cell. -/
theorem screen_keeps_erased_character :
    ∃ s, shellReadLine emptyLine [0x61, 0x08] = some (s, none) ∧ s.len = 0 ∧
      vgaGlyph (s.vga.cell 0) = 0x61 ∧ s.vga.position = 4 ∧ ¬ emptyLine.Shows s := by
  have heval : (shellReadLine emptyLine [0x61, 0x08]).map (fun r =>
      (r.2, r.1.len, vgaGlyph (r.1.vga.cell 0), r.1.vga.position)) =
        some (none, 0, 0x61, 4) := by
    decide +kernel
  obtain ⟨⟨s, rest⟩, hrun, hvalues⟩ := Option.map_eq_some_iff.mp heval
  simp only [Prod.mk.injEq] at hvalues
  obtain ⟨rfl, hlen, hglyph, hposition⟩ := hvalues
  refine ⟨s, hrun, hlen, hglyph, hposition, fun hshows => ?_⟩
  have hcursor := hshows.position_eq
  rw [hlen, hposition] at hcursor
  exact absurd hcursor (by decide)

end Nimbu
