import Mathlib.Data.List.Forall2
import Mathlib.Data.List.Induction
import Mathlib.Data.List.Infix
import Mathlib.Data.List.ReduceOption
import Nimbu.Shell.ParseArgs

/-!
# Lines and commands

What is typed falls into lines at each Enter, and each line is edited by its
backspaces. The buffer of `shell_read_line` holds the edited text of the line that
is being typed as long as that has fewer than 255 characters, and at Enter that text
is passed to `shell_execute`. With its 255th character `shell_read_line` returns
without Enter.
-/

namespace Nimbu

/-- The keys that end a line. -/
def IsEnter (ch : Byte) : Prop := ch = 0x0A ∨ ch = 0x0D

instance : DecidablePred IsEnter := fun ch => inferInstanceAs (Decidable (ch = 0x0A ∨ ch = 0x0D))

/-- The text of a line after one more character: 0 means that there is none, and a backspace
takes the last one back. -/
def editStep (text : List Byte) (ch : Byte) : List Byte :=
  if ch = 0 then text else if ch = 0x08 then text.dropLast else text ++ [ch]

/-- The edited text of a line. -/
def edit (line : List Byte) : List Byte := line.foldl editStep []

/-- What has been typed: the lines that Enter has ended, and the one that is being typed. -/
structure Typed where
  /-- The lines, without Enter. -/
  lines : List (List Byte)
  /-- The unfinished line. -/
  unfinished : List Byte

/-- Type one more character. -/
def Typed.press (t : Typed) (ch : Byte) : Typed :=
  if IsEnter ch then ⟨t.lines ++ [t.unfinished], []⟩
  else { t with unfinished := t.unfinished ++ [ch] }

/-- A stream of characters, split at each Enter. -/
def typed (input : List Byte) : Typed := input.foldl Typed.press ⟨[], []⟩

/-- The command of a line: its text, if there is any. -/
def lineCommand (line : List Byte) : List (List Byte) :=
  if edit line = [] then [] else [edit line]

/-- The commands that one line may yield: its own. A text of more than 255 characters may be
cut, but yields at most one command. -/
def Yields (line : List Byte) (cmds : List (List Byte)) : Prop :=
  cmds.length ≤ 1 ∧ ((edit line).length ≤ shellMaxCmdLen - 1 → cmds = lineCommand line)

/-- Every line yields its command, in the order of the lines, and nothing else is executed. -/
def OneCommandPerLine (lines executed : List (List Byte)) : Prop :=
  ∃ cmds, List.Forall₂ Yields lines cmds ∧ executed = cmds.flatten

section Editing

variable {line text : List Byte} {ch : Byte}

/-- The text after one more character. -/
theorem edit_append (line : List Byte) (ch : Byte) :
    edit (line ++ [ch]) = editStep (edit line) ch := by
  rw [edit, List.foldl_append]
  rfl

/-- One more character makes the text at most one longer. -/
theorem length_editStep_le (text : List Byte) (ch : Byte) :
    (editStep text ch).length ≤ text.length + 1 := by
  unfold editStep
  split
  · exact Nat.le_succ _
  · split
    · rw [List.length_dropLast]
      omega
    · rw [List.length_append, List.length_singleton]

/-- No character of a text is 0. -/
theorem ne_zero_of_mem_editStep (htext : ∀ b ∈ text, b ≠ 0) : ∀ b ∈ editStep text ch, b ≠ 0 := by
  intro b hb
  unfold editStep at hb
  split at hb
  · exact htext b hb
  · rename_i hch
    split at hb
    · exact htext b (List.dropLast_subset text hb)
    · rcases List.mem_append.mp hb with hb | hb
      · exact htext b hb
      · rw [List.mem_singleton.mp hb]
        exact hch

/-- No character of an edited text is 0. -/
theorem ne_zero_of_mem_edit (line : List Byte) : ∀ b ∈ edit line, b ≠ 0 := by
  induction line using List.reverseRecOn with
  | nil => exact fun b hb => absurd hb List.not_mem_nil
  | append_singleton line ch ih =>
    rw [edit_append]
    exact ne_zero_of_mem_editStep ih

/-- A line has at most one command. -/
theorem length_lineCommand_le (line : List Byte) : (lineCommand line).length ≤ 1 := by
  unfold lineCommand
  split
  · exact Nat.zero_le 1
  · exact le_rfl

/-- If all lines fit, exactly their commands are executed. -/
theorem oneCommandPerLine_iff {lines executed : List (List Byte)}
    (hfits : ∀ line ∈ lines, (edit line).length ≤ shellMaxCmdLen - 1) :
    OneCommandPerLine lines executed ↔ executed = lines.flatMap lineCommand := by
  induction lines generalizing executed with
  | nil => simp [OneCommandPerLine]
  | cons line lines ih =>
    have hline := hfits line List.mem_cons_self
    have hrest := fun l hl => hfits l (List.mem_cons_of_mem line hl)
    rw [List.flatMap_cons]
    constructor
    · rintro ⟨_, hyields, rfl⟩
      cases hyields with
      | cons hfirst hothers =>
        rw [List.flatten_cons, hfirst.2 hline, (ih hrest).mp ⟨_, hothers, rfl⟩]
    · rintro rfl
      obtain ⟨cmds, hothers, hflat⟩ := (ih hrest).mpr rfl
      refine ⟨lineCommand line :: cmds, ?_, by rw [List.flatten_cons, hflat]⟩
      exact List.Forall₂.cons ⟨length_lineCommand_le line, fun _ => rfl⟩ hothers

end Editing

section Buffer

variable {n : ℕ} {s : LineState n} {text : List Byte} {ch : Byte}

/-- The buffer holds the text of the line, and the cursor is on the screen. -/
structure LineState.Holds (s : LineState n) (text : List Byte) : Prop where
  /-- The number of characters. -/
  len_eq : s.len = text.length
  /-- The characters. -/
  take_eq : s.buffer.toList.take s.len = text
  /-- The cursor. -/
  inBounds : s.vga.InBounds

/-- Writing behind the first elements of an array. -/
theorem take_succ_set {α : Type} {i : ℕ} (a : Vector α n) (x : α) (hi : i < n) :
    (a.set i x hi).toList.take (i + 1) = a.toList.take i ++ [x] := by
  have hlt : i < a.toList.length := by rwa [Vector.length_toList]
  rw [Vector.toList_set, List.take_add_one, List.take_set_of_le le_rfl,
    List.getElem?_set_self hlt, Option.toList_some]

/-- No character, or a backspace on an empty line, changes nothing. -/
theorem readLineRound_ignored (hch : ch = 0 ∨ ch = 0x08 ∧ s.len = 0) :
    readLineRound s ch = some (s, false) := by
  unfold readLineRound
  rcases hch with rfl | ⟨rfl, hlen⟩
  · rfl
  · rw [if_neg (by decide), if_neg (by decide), if_pos rfl, if_neg (by omega)]
    rfl

/-- A backspace takes the last character back and prints a backspace, a blank and a
backspace. -/
theorem readLineRound_backspace {v₁ v₂ v₃ : VgaState} (hpos : 0 < s.len)
    (h₁ : vgaPutchar s.vga 0x08 echoColor = some v₁) (h₂ : vgaPutchar v₁ 0x20 echoColor = some v₂)
    (h₃ : vgaPutchar v₂ 0x08 echoColor = some v₃) :
    readLineRound s 0x08 = some ({ s with len := s.len - 1, vga := v₃ }, false) := by
  unfold readLineRound
  rw [if_neg (by decide), if_neg (by decide), if_pos rfl, if_pos hpos]
  simp only [h₁, h₂, h₃, Option.bind_eq_bind, Option.bind_some, Option.pure_def]

/-- Any other character is stored and printed. -/
theorem readLineRound_char {v : VgaState} (hlt : s.len < n) (hzero : ch ≠ 0)
    (hback : ch ≠ 0x08) (hch : ¬ IsEnter ch) (hput : vgaPutchar s.vga ch echoColor = some v) :
    readLineRound s ch = some (⟨s.buffer.set s.len ch hlt, s.len + 1, v⟩, false) := by
  unfold readLineRound
  rw [if_neg hzero, if_neg (show ¬ (ch = 0x0A ∨ ch = 0x0D) from hch), if_neg hback]
  simp only [storeAt_eq s.buffer _ hlt, hput, Option.bind_eq_bind, Option.bind_some,
    Option.pure_def]

/-- One round of `shell_read_line` edits the text, as long as there is room. -/
theorem readLineRound_edit (hs : s.Holds text) (hroom : text.length < n) (hch : ¬ IsEnter ch) :
    ∃ s', readLineRound s ch = some (s', false) ∧ s'.Holds (editStep text ch) := by
  have hlen := hs.len_eq
  have hlt : s.len < n := by rwa [hlen]
  unfold editStep
  by_cases hzero : ch = 0
  · rw [if_pos hzero]
    exact ⟨s, readLineRound_ignored (Or.inl hzero), hs⟩
  rw [if_neg hzero]
  by_cases hback : ch = 0x08
  · rw [if_pos hback]
    by_cases hempty : text = []
    · rw [hempty, List.length_nil] at hlen
      refine ⟨s, readLineRound_ignored (Or.inr ⟨hback, hlen⟩), ?_⟩
      rwa [hempty, List.dropLast_nil, ← hempty]
    · have hpos : 0 < s.len := by
        rw [hlen]
        exact List.length_pos_iff.mpr hempty
      obtain ⟨v₁, h₁, hv₁⟩ := vgaPutchar_returns hs.inBounds 0x08 echoColor
      obtain ⟨v₂, h₂, hv₂⟩ := vgaPutchar_returns hv₁ 0x20 echoColor
      obtain ⟨v₃, h₃, hv₃⟩ := vgaPutchar_returns hv₂ 0x08 echoColor
      subst hback
      refine ⟨_, readLineRound_backspace hpos h₁ h₂ h₃, ?_, ?_, hv₃⟩
      · rw [List.length_dropLast, hlen]
      · rw [← hs.take_eq, List.dropLast_take (by rw [Vector.length_toList]; omega)]
  · rw [if_neg hback]
    obtain ⟨v, hput, hv⟩ := vgaPutchar_returns hs.inBounds ch echoColor
    refine ⟨_, readLineRound_char hlt hzero hback hch hput, ?_, ?_, hv⟩
    · rw [List.length_append, List.length_singleton]
      exact congrArg (· + 1) hlen
    · rw [take_succ_set, hs.take_eq]

/-- Enter ends the line. -/
theorem readLineRound_enter (hlt : s.len < n) (hch : IsEnter ch) :
    readLineRound s ch = some ({ s with buffer := s.buffer.set s.len 0 hlt }, true) := by
  have hzero : ch ≠ 0 := by
    rintro rfl
    exact absurd hch (by decide)
  unfold readLineRound
  rw [if_neg hzero, if_pos (show ch = 0x0A ∨ ch = 0x0D from hch), storeAt_eq s.buffer _ hlt]
  rfl

/-- The string in the buffer at the end of a line is its text. -/
theorem LineState.Holds.cstring_eq (hs : s.Holds text) (hlt : s.len < n)
    (htext : ∀ b ∈ text, b ≠ 0) : cstring (s.buffer.set s.len 0 hlt) = text := by
  have hsplit := List.take_append_drop (s.len + 1) (s.buffer.set s.len 0 hlt).toList
  rw [take_succ_set, hs.take_eq] at hsplit
  rw [cstring, ← hsplit, List.append_assoc,
    List.takeWhile_append_of_pos (by simpa using htext), List.singleton_append,
    List.takeWhile_cons_of_neg (by simp), List.append_nil]

/-- `shell_read_line` has returned, with the text in its buffer. -/
structure LineState.Ended (s : LineState n) (text : List Byte) : Prop where
  /-- The result. -/
  len_eq : s.len = text.length
  /-- The string in the buffer. -/
  cstring_eq : cstring s.buffer = text
  /-- The cursor is on the screen. -/
  inBounds : s.vga.InBounds

/-- The 0 behind the text ends it. -/
theorem LineState.Holds.ended (hs : s.Holds text) (hlt : s.len < n) (htext : ∀ b ∈ text, b ≠ 0) :
    LineState.Ended { s with buffer := s.buffer.set s.len 0 hlt } text :=
  ⟨hs.len_eq, hs.cstring_eq hlt htext, hs.inBounds⟩

/-- At Enter `shell_read_line` writes a 0 and returns. -/
theorem shellReadLine_enter_eq (hlt : s.len < n - 1) (hch : IsEnter ch) :
    shellReadLine s [ch] =
      some ({ s with buffer := s.buffer.set s.len 0 (by omega) }, some []) := by
  unfold shellReadLine
  rw [if_pos hlt, readLineRound_enter (by omega) hch]
  rfl

/-- Enter makes `shell_read_line` return. -/
theorem shellReadLine_enter (hs : s.Holds text) (hroom : text.length < n - 1)
    (htext : ∀ b ∈ text, b ≠ 0) (hch : IsEnter ch) :
    ∃ s', shellReadLine s [ch] = some (s', some []) ∧ s'.Ended text := by
  have hlt : s.len < n - 1 := by rwa [hs.len_eq]
  exact ⟨_, shellReadLine_enter_eq hlt hch, hs.ended (by omega) htext⟩

/-- Any other character leads to the next round. -/
theorem shellReadLine_cons {s' : LineState n} (hlt : s.len < n - 1)
    (hround : readLineRound s ch = some (s', false)) (input : List Byte) :
    shellReadLine s (ch :: input) = shellReadLine s' input := by
  rw [shellReadLine, if_pos hlt, hround]
  rfl

/-- After a round that leaves room in the buffer it waits for the next character. -/
theorem shellReadLine_waits {s' : LineState n} (hlt : s.len < n - 1)
    (hround : readLineRound s ch = some (s', false)) (hnext : s'.len < n - 1) :
    shellReadLine s [ch] = some (s', none) := by
  rw [shellReadLine_cons hlt hround, shellReadLine, if_pos hnext]
  rfl

/-- A full buffer makes it return without Enter. -/
theorem shellReadLine_full {s' : LineState n} (hlt : s.len < n - 1)
    (hround : readLineRound s ch = some (s', false)) (hfull : s'.len = n - 1) :
    shellReadLine s [ch] =
      some ({ s' with buffer := s'.buffer.set s'.len 0 (by omega) }, some []) := by
  rw [shellReadLine_cons hlt hround, shellReadLine, if_neg (by omega),
    storeAt_eq s'.buffer _ (by omega)]
  rfl

end Buffer

section Run

variable {s : ShellState} {text : List Byte} {ch : Byte}

/-- The prompt is printed, and the shell waits for the first character of a line. -/
theorem shellStart_returns (cmdline : Vector Byte shellMaxCmdLen) {v : VgaState} (hv : v.InBounds) :
    ∃ s, shellStart cmdline v = some s ∧ s.halted = false ∧ s.line.Holds [] := by
  obtain ⟨w, hput, hw⟩ := prints_putLiteral "nimbu@localhost:~$ " vgaColorGreen v hv
  refine ⟨⟨⟨cmdline, 0, w⟩, false⟩, ?_, rfl, rfl, List.take_zero, hw⟩
  have hprompt : shellPrompt v = some w := hput
  rw [shellStart, hprompt]
  rfl

/-- So it does after each command. -/
theorem shellNextRound_returns (cmdline : Vector Byte shellMaxCmdLen) {v : VgaState}
    (hv : v.InBounds) :
    ∃ s, shellNextRound cmdline v = some s ∧ s.halted = false ∧ s.line.Holds [] := by
  obtain ⟨w, hput, hw⟩ := prints_putLiteral "\n" vgaColorWhite v hv
  obtain ⟨s, hstart, hs⟩ := shellStart_returns cmdline hw
  simp only at hput
  refine ⟨s, ?_, hs⟩
  rw [shellNextRound, hput]
  exact hstart

/-- A line that has ended is executed if it has a character, and the next one is read unless
the command halts. -/
theorem shellAfterLine_returns {line : LineState shellMaxCmdLen} (hline : line.Ended text)
    (hlen : text.length < shellMaxCmdLen) :
    ∃ s', shellAfterLine line = some (if text = [] then none else some text, s') ∧
      (s'.halted = false → s'.line.Holds []) := by
  have hlen_eq := hline.len_eq
  unfold shellAfterLine
  by_cases hempty : text = []
  · obtain ⟨s', hnext, -, hs'⟩ := shellNextRound_returns line.buffer hline.inBounds
    refine ⟨s', ?_, fun _ => hs'⟩
    rw [if_neg (by rw [hlen_eq, hempty]; exact Nat.lt_irrefl 0), hnext, if_pos hempty]
    rfl
  · have hpos : line.len > 0 := by
      rw [hlen_eq]
      exact List.length_pos_iff.mpr hempty
    obtain ⟨r, hexec, hr⟩ := shellExecute_returns hline.inBounds hlen
    rw [if_pos hpos, hline.cstring_eq, hexec, if_neg hempty]
    cases r with
    | returned ret v =>
      obtain ⟨s', hnext, -, hs'⟩ := shellNextRound_returns line.buffer (show v.InBounds from hr)
      exact ⟨s', by simp only [Option.bind_eq_bind, Option.bind_some, hnext, Option.pure_def],
        fun _ => hs'⟩
    | halted v => exact ⟨_, rfl, fun h => absurd h (by simp)⟩

/-- The shell has executed the lines that were typed and holds the unfinished one. -/
structure ShellState.Follows (s : ShellState) (t : Typed) (executed : List (List Byte)) :
    Prop where
  /-- The commands. -/
  executed_eq : executed = t.lines.flatMap lineCommand
  /-- Every line fitted into the buffer. -/
  fits : ∀ line ∈ t.lines, (edit line).length < shellMaxCmdLen - 1
  /-- So does the unfinished one. -/
  room : (edit t.unfinished).length < shellMaxCmdLen - 1
  /-- The buffer holds its text. -/
  holds : s.halted = false → s.line.Holds (edit t.unfinished)

variable {t : Typed} {executed : List (List Byte)}

/-- A shell that has read a character had not halted. -/
theorem not_halted_of_exec {s' : ShellState} {input : List Byte}
    {replies : List (Option (List Byte))} (hrun : exec shellStep s input = some (replies, s')) :
    Along shellStep (fun s _ => s.halted = false) s input := by
  have hreturns := along_of_exec hrun
  rw [along_iff_forall] at hreturns ⊢
  intro pre ch post hsplit replies₁ t hpre
  obtain ⟨reply, t', hstep⟩ := hreturns pre ch post hsplit replies₁ t hpre
  by_contra hhalted
  rw [shellStep, if_pos (by simpa using hhalted)] at hstep
  cases hstep

/-- What was typed is split one character at a time. -/
theorem typed_append (input : List Byte) (ch : Byte) :
    typed (input ++ [ch]) = (typed input).press ch := by
  rw [typed, List.foldl_append]
  rfl

/-- The shell waits for another character as long as the text of the line stays below 255
characters, and executes it at Enter. -/
theorem ShellState.Follows.step (hs : s.Follows t executed) (hruns : s.halted = false) (ch : Byte)
    (hroom : (edit (t.press ch).unfinished).length < shellMaxCmdLen - 1) :
    ∃ reply s', shellStep s ch = some (reply, s') ∧
      s'.Follows (t.press ch) (executed ++ reply.toList) := by
  have hline := hs.holds hruns
  unfold shellStep
  rw [if_neg (by rw [hruns]; exact Bool.false_ne_true)]
  unfold Typed.press at hroom ⊢
  by_cases hch : IsEnter ch
  · obtain ⟨line, hread, hended⟩ :=
      shellReadLine_enter hline hs.room (ne_zero_of_mem_edit _) hch
    obtain ⟨s', hafter, hs'⟩ := shellAfterLine_returns hended (by have := hs.room; omega)
    refine ⟨_, s', by simp only [hread, Option.bind_eq_bind, Option.bind_some]; exact hafter, ?_⟩
    rw [if_pos hch]
    refine ⟨?_, fun l hl => ?_, show (edit []).length < shellMaxCmdLen - 1 by decide, hs'⟩
    · rw [List.flatMap_append, List.flatMap_singleton, hs.executed_eq, lineCommand]
      congr 1
      split
      · rfl
      · rfl
    · rcases List.mem_append.mp hl with hl | hl
      · exact hs.fits l hl
      · rw [List.mem_singleton.mp hl]
        exact hs.room
  · rw [if_neg hch] at hroom ⊢
    rw [edit_append] at hroom
    obtain ⟨line, hround, hline'⟩ := readLineRound_edit hline (by have := hs.room; omega) hch
    have hread := shellReadLine_waits (by rw [hline.len_eq]; exact hs.room) hround
      (by rw [hline'.len_eq]; exact hroom)
    refine ⟨none, { s with line }, ?_, ?_⟩
    · simp only [hread, Option.bind_eq_bind, Option.bind_some, Option.pure_def]
    · rw [Option.toList_none, List.append_nil]
      exact ⟨hs.executed_eq, hs.fits, by rwa [edit_append], fun _ => by rwa [edit_append]⟩

/-- With the 255th character of a line the shell executes it. -/
theorem ShellState.Follows.full (hs : s.Follows t executed) (hruns : s.halted = false) {ch : Byte}
    (hch : ¬ IsEnter ch) (hfull : (edit (t.unfinished ++ [ch])).length = shellMaxCmdLen - 1) :
    ∃ s', shellStep s ch = some (some (edit (t.unfinished ++ [ch])), s') := by
  have hline := hs.holds hruns
  rw [edit_append] at hfull ⊢
  obtain ⟨line, hround, hline'⟩ := readLineRound_edit hline (by have := hs.room; omega) hch
  have hlen : line.len = shellMaxCmdLen - 1 := by rw [hline'.len_eq, hfull]
  have hread := shellReadLine_full (by rw [hline.len_eq]; exact hs.room) hround hlen
  have hended := hline'.ended (by rw [hlen]; decide)
    (ne_zero_of_mem_editStep (ne_zero_of_mem_edit _))
  obtain ⟨s', hafter, -⟩ := shellAfterLine_returns hended (by rw [hfull]; decide)
  have hne : editStep (edit t.unfinished) ch ≠ [] := by
    rw [← List.length_pos_iff, hfull]
    decide
  rw [if_neg hne] at hafter
  refine ⟨s', ?_⟩
  unfold shellStep
  rw [if_neg (by rw [hruns]; exact Bool.false_ne_true)]
  simp only [hread, Option.bind_eq_bind, Option.bind_some]
  exact hafter

/-- Text that stays below 255 characters in every line. -/
def StaysBelow (input : List Byte) : Prop :=
  ∀ pre, pre <+: input → (edit (typed pre).unfinished).length < shellMaxCmdLen - 1

/-- So does every first part of it. -/
theorem StaysBelow.of_append {pre post : List Byte} (h : StaysBelow (pre ++ post)) :
    StaysBelow pre :=
  fun _ hfirst => h _ (hfirst.trans (List.prefix_append pre post))

/-- A shell that reads only such lines follows what is typed. -/
theorem exec_follows {s₀ : ShellState} (hinit : s₀.Follows ⟨[], []⟩ []) {input : List Byte}
    (hdelivered : Along shellStep (fun s _ => s.halted = false) s₀ input)
    (hbelow : StaysBelow input) :
    ∃ replies s, exec shellStep s₀ input = some (replies, s) ∧
      s.Follows (typed input) replies.reduceOption := by
  induction input using List.reverseRecOn with
  | nil => exact ⟨[], s₀, rfl, hinit⟩
  | append_singleton input ch ih =>
    obtain ⟨replies, s, hrun, hs⟩ := ih hdelivered.of_append hbelow.of_append
    obtain ⟨-, hruns, -⟩ := (along_append_iff hrun).mp hdelivered
    have hroom := hbelow _ (List.prefix_refl _)
    rw [typed_append] at hroom
    obtain ⟨reply, s', hstep, hs'⟩ := hs.step hruns ch hroom
    refine ⟨replies ++ [reply], s', exec_concat hrun hstep, ?_⟩
    rw [typed_append, List.reduceOption_append, List.reduceOption_singleton]
    exact hs'

/-- All its lines fitted, so exactly their texts may have been executed. -/
theorem ShellState.Follows.oneCommandPerLine_iff (hs : s.Follows t executed)
    {cmds : List (List Byte)} :
    OneCommandPerLine t.lines cmds ↔ cmds = t.lines.flatMap lineCommand :=
  Nimbu.oneCommandPerLine_iff fun line hline => (hs.fits line hline).le

/-- A stream in which every line yields its command at Enter stays below 255 characters. -/
theorem staysBelow_of_oneCommandPerLine {s₀ : ShellState} (hinit : s₀.Follows ⟨[], []⟩ [])
    {input : List Byte} (hdelivered : Along shellStep (fun s _ => s.halted = false) s₀ input)
    (hone : ∀ pre, pre <+: input → ∃ replies s, exec shellStep s₀ pre = some (replies, s) ∧
      OneCommandPerLine (typed pre).lines replies.reduceOption) : StaysBelow input := by
  induction input using List.reverseRecOn with
  | nil =>
    intro pre hpre
    rw [List.prefix_nil.mp hpre]
    decide
  | append_singleton input ch ih =>
    have hbelow : StaysBelow input := ih hdelivered.of_append fun pre hpre =>
      hone pre (hpre.trans (List.prefix_append _ _))
    obtain ⟨replies, s, hrun, hs⟩ := exec_follows hinit hdelivered.of_append hbelow
    obtain ⟨-, hruns, -⟩ := (along_append_iff hrun).mp hdelivered
    intro pre hpre
    rcases List.prefix_concat_iff.mp hpre with rfl | hpre
    · by_contra hlong
      rw [typed_append, Typed.press] at hlong
      by_cases hch : IsEnter ch
      · rw [if_pos hch] at hlong
        exact hlong (show (edit []).length < shellMaxCmdLen - 1 by decide)
      · rw [if_neg hch] at hlong
        have hreached : ¬ (edit ((typed input).unfinished ++ [ch])).length < shellMaxCmdLen - 1 :=
          hlong
        have hle := length_editStep_le (edit (typed input).unfinished) ch
        rw [← edit_append] at hle
        have hroom := hs.room
        -- the line reaches 255 characters here, and is executed without Enter
        obtain ⟨s', hstep⟩ := hs.full hruns hch (by omega)
        obtain ⟨replies', s'', hrun', hcmds⟩ := hone _ (List.prefix_refl _)
        rw [exec_concat hrun hstep, Option.some.injEq, Prod.mk.injEq] at hrun'
        rw [typed_append, Typed.press, if_neg hch, hs.oneCommandPerLine_iff, ← hrun'.1,
          List.reduceOption_append, hs.executed_eq] at hcmds
        simp at hcmds
    · exact hbelow pre hpre

/-- **One typed line is one command, before its 255th character.** For every stream delivered
to a shell that has not halted, the commands executed so far are at every moment those of the
lines that Enter has ended, if and only if the edited text of no line reaches 255 characters. -/
theorem one_command_per_line_iff {v : VgaState} (hv : v.InBounds)
    (cmdline : Vector Byte shellMaxCmdLen) :
    ∃ s₀, shellStart cmdline v = some s₀ ∧ ∀ input,
      Along shellStep (fun s _ => s.halted = false) s₀ input →
        ((∀ pre, pre <+: input → ∃ replies s, exec shellStep s₀ pre = some (replies, s) ∧
            OneCommandPerLine (typed pre).lines replies.reduceOption) ↔
          StaysBelow input) := by
  obtain ⟨s₀, hstart, hruns, hline⟩ := shellStart_returns cmdline hv
  have hinit : s₀.Follows ⟨[], []⟩ [] := ⟨rfl, by simp, by decide, fun _ => hline⟩
  refine ⟨s₀, hstart, fun input hdelivered =>
    ⟨staysBelow_of_oneCommandPerLine hinit hdelivered, fun hbelow pre hpre => ?_⟩⟩
  obtain ⟨post, rfl⟩ := hpre
  obtain ⟨replies, s, hrun, hs⟩ := exec_follows hinit hdelivered.of_append hbelow.of_append
  exact ⟨replies, s, hrun, hs.oneCommandPerLine_iff.mpr hs.executed_eq⟩

/-- The line `ls` on an empty screen is one command. -/
theorem one_command_per_line_ls :
    ∃ s₀ replies s, shellStart (Vector.replicate _ 0) ⟨Vector.replicate 2000 vgaBlank, 0, 0⟩ =
        some s₀ ∧ exec shellStep s₀ (literal "ls\n") = some (replies, s) ∧
      OneCommandPerLine [literal "ls"] replies.reduceOption := by
  obtain ⟨s₀, hstart, hiff⟩ := one_command_per_line_iff
    (show (⟨Vector.replicate 2000 vgaBlank, 0, 0⟩ : VgaState).InBounds from ⟨by decide, by decide⟩)
    (Vector.replicate _ 0)
  have heval : ((shellStart (Vector.replicate _ 0) ⟨Vector.replicate 2000 vgaBlank, 0, 0⟩).bind
      fun s => exec shellStep s (literal "ls\n")).isSome = true := by
    decide +kernel
  rw [hstart, Option.bind_some, Option.isSome_iff_exists] at heval
  obtain ⟨⟨replies, s⟩, hrun⟩ := heval
  have hbelow : StaysBelow (literal "ls\n") := by
    intro pre hpre
    rw [← List.mem_inits] at hpre
    revert pre
    decide
  obtain ⟨replies', s', hrun', hone⟩ := (hiff _ (not_halted_of_exec hrun)).mpr hbelow _
    (List.prefix_refl _)
  exact ⟨s₀, replies', s', hstart, hrun', hone⟩

/-- With the 255th `x` on an empty screen the shell executes a line that Enter has not ended. -/
theorem command_before_enter :
    ∃ s₀ replies s, shellStart (Vector.replicate _ 0) ⟨Vector.replicate 2000 vgaBlank, 0, 0⟩ =
        some s₀ ∧ Along shellStep (fun s _ => s.halted = false) s₀ (List.replicate 255 0x78) ∧
      exec shellStep s₀ (List.replicate 255 0x78) = some (replies, s) ∧
      replies.reduceOption = [List.replicate 255 0x78] ∧
      ¬ OneCommandPerLine (typed (List.replicate 255 0x78)).lines replies.reduceOption := by
  have heval : ((shellStart (Vector.replicate _ 0) ⟨Vector.replicate 2000 vgaBlank, 0, 0⟩).bind
      fun s => (exec shellStep s (List.replicate 255 0x78)).map fun r => r.1.reduceOption) =
        some [List.replicate 255 0x78] := by
    decide +kernel
  obtain ⟨s₀, hstart, heval⟩ := Option.bind_eq_some_iff.mp heval
  obtain ⟨⟨replies, s⟩, hrun, hcmds⟩ := Option.map_eq_some_iff.mp heval
  have hlines : (typed (List.replicate 255 0x78)).lines = [] := by decide +kernel
  refine ⟨s₀, replies, s, hstart, not_halted_of_exec hrun, hrun, hcmds, ?_⟩
  rw [hlines, oneCommandPerLine_iff (by simp), hcmds]
  decide

end Run

end Nimbu
