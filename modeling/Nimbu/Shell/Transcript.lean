import Nimbu.Shell.Output
import Nimbu.Shell.Typing

/-!
# The transcript of a session

What `shell_run` prints is a function of the characters it has read: the prompt, the
echo of what is typed, the output of the commands. The screen at every moment shows
the end of this transcript, as a terminal of 80 columns and 25 lines does. With the
messages of `kmain` before it, this says what is on the screen from power-on to the
last key.
-/

namespace Nimbu

/-- What the rest of a session depends on. -/
structure Session where
  /-- The text of the line. -/
  line : List Byte
  /-- A command has not returned. -/
  halted : Bool

/-- The prompt. -/
def promptOutput : List Output := coloredLiterals [("nimbu@localhost:~$ ", vgaColorGreen)]

/-- The prompt on the next line. -/
def nextPromptOutput : List Output := coloredLiterals [("\n", vgaColorWhite)] ++ promptOutput

/-- A line has ended: its command is executed, if there is one, and the prompt is printed
unless the command does not return. -/
def Session.endLine (line : List Byte) : List Output × Session :=
  if line = [] then (nextPromptOutput, ⟨[], false⟩)
  else if (commandOutput line).2 then ((commandOutput line).1, ⟨[], true⟩)
  else ((commandOutput line).1 ++ nextPromptOutput, ⟨[], false⟩)

/-- A character is typed. -/
def Session.press (s : Session) (ch : Byte) : List Output × Session :=
  if ch = 0 then ([], s)
  else if IsEnter ch then Session.endLine s.line
  else if ch = 0x08 then
    if s.line = [] then ([], s)
    else ([.print 0x08 echoColor, .print 0x20 echoColor, .print 0x08 echoColor],
      { s with line := s.line.dropLast })
  else if (s.line ++ [ch]).length < shellMaxCmdLen - 1 then
    ([.print ch echoColor], { s with line := s.line ++ [ch] })
  else (.print ch echoColor :: (Session.endLine (s.line ++ [ch])).1,
    (Session.endLine (s.line ++ [ch])).2)

/-- The output so far and the session, one character further. -/
def transcriptStep (p : List Output × Session) (ch : Byte) : List Output × Session :=
  (p.1 ++ (p.2.press ch).1, (p.2.press ch).2)

/-- The output of a session in which the characters are typed, and how it goes on. -/
def transcript (input : List Byte) : List Output × Session :=
  input.foldl transcriptStep (promptOutput, ⟨[], false⟩)

section Shell

variable {s : ShellState} {t : Terminal (Byte × Byte)} {out : List Output} {text : List Byte}
  {p : List Output × Session} {ch : Byte}

/-- The screen shows the output, and the shell is where the session is. -/
structure ShellState.Plays (s : ShellState) (t : Terminal (Byte × Byte))
    (p : List Output × Session) : Prop where
  /-- The screen. -/
  shows_out : s.line.vga.Shows (p.1.foldl Output.apply t)
  /-- Whether a command has not returned. -/
  halted_eq : s.halted = p.2.halted
  /-- The line. -/
  holds : p.2.halted = false → s.line.Holds p.2.line
  /-- No character of it is 0. -/
  ne_zero : ∀ b ∈ p.2.line, b ≠ 0
  /-- It has room in the buffer. -/
  room : p.2.line.length < shellMaxCmdLen - 1

theorem displays_shellPrompt : Displays shellPrompt promptOutput := displays_putLiteral _ _

/-- The prompt is printed, and the line is empty. -/
theorem shellStart_plays (cmdline : Vector Byte shellMaxCmdLen) {v : VgaState}
    (hv : v.Shows (out.foldl Output.apply t)) :
    ∃ s, shellStart cmdline v = some s ∧ s.Plays t (out ++ promptOutput, ⟨[], false⟩) := by
  obtain ⟨w, hw, hshows⟩ := displays_shellPrompt v _ hv
  rw [← List.foldl_append] at hshows
  refine ⟨⟨⟨cmdline, 0, w⟩, false⟩, by rw [shellStart, hw]; rfl, hshows, rfl, fun _ => ?_,
    by simp, show 0 < shellMaxCmdLen - 1 by decide⟩
  exact ⟨rfl, List.take_zero, hshows.inBounds⟩

/-- So it is after each command. -/
theorem shellNextRound_plays (cmdline : Vector Byte shellMaxCmdLen) {v : VgaState}
    (hv : v.Shows (out.foldl Output.apply t)) :
    ∃ s, shellNextRound cmdline v = some s ∧
      s.Plays t (out ++ nextPromptOutput, ⟨[], false⟩) := by
  obtain ⟨w, hw, hshows⟩ := displays_putLiteral "\n" vgaColorWhite v _ hv
  rw [← List.foldl_append] at hshows
  obtain ⟨s, hstart, hs⟩ := shellStart_plays cmdline hshows
  simp only at hw
  rw [List.append_assoc] at hs
  exact ⟨s, by rw [shellNextRound, hw]; exact hstart, hs⟩

/-- A line that has ended prints the output of its command. -/
theorem shellAfterLine_plays {line : LineState shellMaxCmdLen} (hline : line.Ended text)
    (hlen : text.length < shellMaxCmdLen) (hv : line.vga.Shows (out.foldl Output.apply t)) :
    ∃ cmd s', shellAfterLine line = some (cmd, s') ∧
      s'.Plays t (out ++ (Session.endLine text).1, (Session.endLine text).2) := by
  have hlen_eq := hline.len_eq
  unfold shellAfterLine Session.endLine
  by_cases hempty : text = []
  · obtain ⟨s', hnext, hs'⟩ := shellNextRound_plays line.buffer hv
    rw [if_neg (by rw [hlen_eq, hempty]; exact Nat.lt_irrefl 0), if_pos hempty, hnext]
    exact ⟨none, s', rfl, hs'⟩
  have hpos : line.len > 0 := by
    rw [hlen_eq]
    exact List.length_pos_iff.mpr hempty
  obtain ⟨r, hexec, hshows, hhalts⟩ := shellExecute_displays hlen hv
  rw [if_pos hpos, if_neg hempty, hline.cstring_eq, hexec]
  rw [← List.foldl_append] at hshows
  cases r with
  | returned ret v =>
    obtain ⟨s', hnext, hs'⟩ :=
      shellNextRound_plays line.buffer (show v.Shows _ from hshows)
    rw [if_neg (by rw [← hhalts]; exact Bool.false_ne_true), ← List.append_assoc]
    refine ⟨some text, s', ?_, hs'⟩
    simp only [Option.bind_eq_bind, Option.bind_some, hnext, Option.pure_def]
  | halted v =>
    rw [if_pos (show (commandOutput text).2 = true from hhalts.symm)]
    exact ⟨some text, _, rfl, hshows, rfl, fun h => absurd h (by simp), by simp,
      show 0 < shellMaxCmdLen - 1 by decide⟩

/-- A round of `shell_read_line` that prints: it waits for the next character, or the buffer is
full and the line has ended. -/
theorem ShellState.Plays.round {line : LineState shellMaxCmdLen} (hs : s.Plays t p)
    (echo : List Output) (hruns : s.halted = false)
    (hround : readLineRound s.line ch = some (line, false)) (hline : line.Holds text)
    (htext : ∀ b ∈ text, b ≠ 0) (hle : text.length ≤ shellMaxCmdLen - 1)
    (hv : line.vga.Shows (echo.foldl Output.apply (p.1.foldl Output.apply t))) :
    ∃ cmd s', shellStep s ch = some (cmd, s') ∧
      s'.Plays t (if text.length < shellMaxCmdLen - 1 then (p.1 ++ echo, ⟨text, false⟩)
        else (p.1 ++ echo ++ (Session.endLine text).1, (Session.endLine text).2)) := by
  have hlt : s.line.len < shellMaxCmdLen - 1 := by
    rw [(hs.holds (hs.halted_eq ▸ hruns)).len_eq]
    exact hs.room
  rw [← List.foldl_append] at hv
  unfold shellStep
  rw [if_neg (by rw [hruns]; exact Bool.false_ne_true)]
  by_cases hroom : text.length < shellMaxCmdLen - 1
  · rw [if_pos hroom, shellReadLine_waits hlt hround (by rwa [hline.len_eq])]
    exact ⟨none, _, rfl, hv, hruns, fun _ => hline, htext, hroom⟩
  · have hlen : line.len = shellMaxCmdLen - 1 := by
      rw [hline.len_eq]
      omega
    have hended := hline.ended (by rw [hlen]; decide) htext
    obtain ⟨cmd, s', hafter, hs'⟩ :=
      shellAfterLine_plays hended (by omega) (show line.vga.Shows _ from hv)
    rw [if_neg hroom, shellReadLine_full hlt hround hlen]
    exact ⟨cmd, s', hafter, hs'⟩

/-- The shell plays the session, one character further. -/
theorem ShellState.Plays.step (hs : s.Plays t p) (hruns : s.halted = false) (ch : Byte) :
    ∃ cmd s', shellStep s ch = some (cmd, s') ∧ s'.Plays t (transcriptStep p ch) := by
  have hsession : p.2.halted = false := hs.halted_eq ▸ hruns
  have hline := hs.holds hsession
  have hroom := hs.room
  have hlen := hline.len_eq
  have hlt : s.line.len < shellMaxCmdLen - 1 := by rwa [hlen]
  -- A character that is ignored.
  have hignored : ch = 0 ∨ ch = 0x08 ∧ s.line.len = 0 →
      ∃ cmd s', shellStep s ch = some (cmd, s') ∧ s'.Plays t (p.1 ++ [], p.2) := by
    intro hch
    obtain ⟨cmd, s', hstep, hs'⟩ := hs.round [] hruns (readLineRound_ignored hch) hline
      hs.ne_zero hroom.le hs.shows_out
    rw [if_pos hroom, ← hsession] at hs'
    exact ⟨cmd, s', hstep, hs'⟩
  have htext : ∀ b ∈ editStep p.2.line ch, b ≠ 0 := ne_zero_of_mem_editStep hs.ne_zero
  unfold transcriptStep Session.press
  by_cases hzero : ch = 0
  · rw [if_pos hzero]
    exact hignored (Or.inl hzero)
  rw [if_neg hzero]
  by_cases henter : IsEnter ch
  · have hended := hline.ended (show s.line.len < shellMaxCmdLen by omega) hs.ne_zero
    obtain ⟨cmd, s', hafter, hs'⟩ :=
      shellAfterLine_plays hended (by omega) (show s.line.vga.Shows _ from hs.shows_out)
    rw [if_pos henter]
    refine ⟨cmd, s', ?_, hs'⟩
    unfold shellStep
    rw [if_neg (by rw [hruns]; exact Bool.false_ne_true), shellReadLine_enter_eq hlt henter]
    exact hafter
  rw [if_neg henter]
  by_cases hback : ch = 0x08
  · rw [if_pos hback]
    by_cases hempty : p.2.line = []
    · rw [if_pos hempty]
      exact hignored (Or.inr ⟨hback, by rw [hlen, hempty]; rfl⟩)
    · obtain ⟨v₁, h₁, hv₁⟩ := displays_vgaPutchar 0x08 echoColor _ _ hs.shows_out
      obtain ⟨v₂, h₂, hv₂⟩ := displays_vgaPutchar 0x20 echoColor _ _ hv₁
      obtain ⟨v₃, h₃, hv₃⟩ := displays_vgaPutchar 0x08 echoColor _ _ hv₂
      have hpos : 0 < s.line.len := by
        rw [hlen]
        exact List.length_pos_iff.mpr hempty
      have hround := readLineRound_backspace hpos h₁ h₂ h₃
      obtain ⟨line, hround', hline'⟩ := readLineRound_edit hline (by omega) henter
      rw [hback, hround, Option.some.injEq, Prod.mk.injEq] at hround'
      obtain ⟨rfl, -⟩ := hround'
      rw [editStep, if_neg hzero, if_pos hback] at hline' htext
      have hshorter : p.2.line.dropLast.length < shellMaxCmdLen - 1 := by
        rw [List.length_dropLast]
        omega
      obtain ⟨cmd, s', hstep, hs'⟩ := hs.round [.print 0x08 echoColor,
        .print 0x20 echoColor, .print 0x08 echoColor] hruns (hback ▸ hround) hline' htext
        hshorter.le hv₃
      rw [if_pos hshorter, ← hsession] at hs'
      rw [if_neg hempty]
      exact ⟨cmd, s', hstep, hs'⟩
  · obtain ⟨v, hput, hv⟩ := displays_vgaPutchar ch echoColor _ _ hs.shows_out
    have hround := readLineRound_char (show s.line.len < shellMaxCmdLen by omega) hzero hback henter
      hput
    obtain ⟨line, hround', hline'⟩ := readLineRound_edit hline
      (show p.2.line.length < shellMaxCmdLen by omega) henter
    rw [hround, Option.some.injEq, Prod.mk.injEq] at hround'
    obtain ⟨rfl, -⟩ := hround'
    rw [editStep, if_neg hzero, if_neg hback] at hline' htext
    have hlonger : (p.2.line ++ [ch]).length ≤ shellMaxCmdLen - 1 := by
      rw [List.length_append, List.length_singleton]
      omega
    obtain ⟨cmd, s', hstep, hs'⟩ := hs.round [.print ch echoColor] hruns hround hline' htext hlonger
      hv
    rw [if_neg hback]
    refine ⟨cmd, s', hstep, ?_⟩
    by_cases hfits : (p.2.line ++ [ch]).length < shellMaxCmdLen - 1
    · rw [if_pos hfits] at hs' ⊢
      rwa [← hsession] at hs'
    · rw [if_neg hfits] at hs' ⊢
      rwa [List.append_assoc] at hs'

/-- Every shell that gets through the characters plays the session. -/
theorem exec_plays {s₀ : ShellState} (h₀ : s₀.Plays t (promptOutput, ⟨[], false⟩))
    {input : List Byte} {replies : List (Option (List Byte))}
    (hrun : exec shellStep s₀ input = some (replies, s)) : s.Plays t (transcript input) := by
  induction input using List.reverseRecOn generalizing s replies with
  | nil =>
    obtain ⟨-, rfl⟩ := Prod.mk.inj (Option.some.inj hrun)
    exact h₀
  | append_singleton input ch ih =>
    obtain ⟨rs, s₁, _, hbefore, hlast, -⟩ := exec_append_iff.mp hrun
    obtain ⟨cmd, s₂, _, hstep, hnil, -⟩ := exec_cons_iff.mp hlast
    obtain ⟨-, rfl⟩ := Prod.mk.inj (Option.some.inj hnil)
    have hruns : s₁.halted = false := by
      by_contra hhalted
      rw [shellStep, if_pos (by simpa using hhalted)] at hstep
      cases hstep
    obtain ⟨cmd', s', hstep', hs'⟩ := (ih hbefore).step hruns ch
    rw [hstep, Option.some.injEq, Prod.mk.injEq] at hstep'
    obtain ⟨-, rfl⟩ := hstep'
    rw [transcript, List.foldl_append]
    exact hs'

end Shell

section Boot

/-- The literals of `print_banner`. -/
def bannerTexts : List (String × Byte) :=
  [("=====================================\n", vgaColorGreen),
    ("  NIMBU OS - Minimal Linux Kernel\n", vgaColorGreen), ("  Version: ", vgaColorGreen),
    ("1.0", vgaColorYellow), ("\n  Build: ", vgaColorGreen), ("2026-01-15", vgaColorYellow),
    ("\n", vgaColorGreen), ("  Architecture: ", vgaColorGreen), ("x86 (i686)", vgaColorYellow),
    ("\n=====================================\n\n", vgaColorGreen)]

/-- `print_banner`. -/
def printBanner (v : VgaState) : Option VgaState := putLiterals v bannerTexts

/-- The literals of `shell_init`. -/
def shellInitTexts : List (String × Byte) :=
  [(">>> NIMBU Shell initialized\n", vgaColorGreen),
    (">>> Type 'help' for available commands\n\n", vgaColorGreen)]

/-- `shell_init`. -/
def shellInit (v : VgaState) : Option VgaState := putLiterals v shellInitTexts

/-- The messages of `kmain` before the initialisers that print nothing. -/
def initMessages : List String :=
  ["Initializing GDT...", "Initializing IDT...", "Initializing PMM (128 MB)...",
    "Initializing VMM with paging...", "Initializing kernel heap...",
    "Initializing process management...", "Initializing scheduler (100 Hz)...",
    "Initializing keyboard driver...", "Initializing serial driver..."]

/-- The message and the report of an initialiser that prints nothing and returns 1. -/
def initTexts (message : String) : List (String × Byte) :=
  [(message, vgaColorCyan), (" OK\n", vgaColorGreen)]

/-- The messages of `kmain` behind `vga_init`. All initialisers return 1. -/
def kmainMessages (v : VgaState) : Option VgaState := do
  let v ← printBanner v
  let v ← initMessages.foldlM (fun v message => putLiterals v (initTexts message)) v
  let v ← putLiteral v "Initializing shell..." vgaColorCyan
  let v ← shellInit v
  putLiterals v [(" OK\n", vgaColorGreen),
    ("\nEnabling interrupts and starting shell...\n\n", vgaColorGreen)]

/-- The screen that `kmain` leaves to `shell_run`. -/
def kmainScreen (v : VgaState) : Option VgaState := do
  let v ← vgaClear v
  kmainMessages v

/-- What `kmain` prints. -/
def bootOutput : List Output :=
  coloredLiterals bannerTexts ++ ((initMessages.flatMap fun message =>
      coloredLiterals (initTexts message)) ++
    (coloredLiterals [("Initializing shell...", vgaColorCyan)] ++
      (coloredLiterals shellInitTexts ++ coloredLiterals [(" OK\n", vgaColorGreen),
        ("\nEnabling interrupts and starting shell...\n\n", vgaColorGreen)])))

theorem displays_kmainMessages : Displays kmainMessages bootOutput := by
  have hmessages : Displays (fun v => initMessages.foldlM
      (fun v message => putLiterals v (initTexts message)) v)
      (initMessages.flatMap fun message => coloredLiterals (initTexts message)) :=
    displays_foldlM fun message _ => displays_putLiterals (initTexts message)
  have hbanner : Displays printBanner (coloredLiterals bannerTexts) := displays_putLiterals _
  have hshell : Displays shellInit (coloredLiterals shellInitTexts) := displays_putLiterals _
  unfold bootOutput kmainMessages
  simp only [Option.bind_eq_bind]
  exact hbanner.bind (hmessages.bind ((displays_putLiteral _ _).bind
    (hshell.bind (displays_putLiterals _))))

/-- From any screen on, `kmain` leaves one that shows its messages. -/
theorem kmainScreen_shows (v : VgaState) :
    ∃ v', kmainScreen v = some v' ∧
      v'.Shows (bootOutput.foldl Output.apply Terminal.empty) := by
  obtain ⟨v₀, w, hclear, hrun, hw⟩ := vgaClear_run v []
  obtain rfl : v₀ = w := Option.some.inj hrun
  obtain ⟨v', hput, hshows⟩ := displays_kmainMessages v₀ Terminal.empty hw
  refine ⟨v', ?_, hshows⟩
  rw [kmainScreen, hclear, Option.bind_eq_bind, Option.bind_some, hput]

end Boot

/-- **The screen shows the transcript.** From power-on, whatever was on the screen, and in every
run of keyboard interrupts and steps of the shell in which no interrupt finds the ring full,
the screen is at every moment the terminal of the messages of `kmain` and of the
transcript of a first part of the text typed: of all of it once the shell has caught up. -/
theorem screen_shows_transcript (v : VgaState) (cmdline : Vector Byte shellMaxCmdLen) :
    ∃ v₀ s₀, kmainScreen v = some v₀ ∧ shellStart cmdline v₀ = some s₀ ∧
      ∀ (kbd : Kbd) (events : List ConsoleEvent),
        Along consoleStep Console.HasRoom ⟨kbdInit kbd, .idle, s₀⟩ events →
        ∃ replies x read, exec consoleStep ⟨kbdInit kbd, .idle, s₀⟩ events = some (replies, x) ∧
          read <+: typedText false (events.filterMap ConsoleEvent.scancode?) ∧
          x.shell.line.vga.Shows
            ((bootOutput ++ (transcript read).1).foldl Output.apply Terminal.empty) ∧
          (x.Drained → read = typedText false (events.filterMap ConsoleEvent.scancode?)) := by
  obtain ⟨v₀, hboot, hv₀⟩ := kmainScreen_shows v
  have hempty : v₀.Shows (([] : List Output).foldl Output.apply
      (bootOutput.foldl Output.apply Terminal.empty)) := by rwa [List.foldl_nil]
  obtain ⟨s₀, hstart, hs₀⟩ := shellStart_plays cmdline hempty
  refine ⟨v₀, s₀, hboot, hstart, fun kbd events hroom => ?_⟩
  obtain ⟨replies, x, read, pending, hrun, hx⟩ :=
    (delivers_init (ShellState.waits_of_holds_nil (hs₀.holds rfl)) kbd).exec hroom
  rw [List.nil_append] at hx
  obtain ⟨rs, hread, -⟩ := hx.read
  refine ⟨replies, x, read, hrun, ⟨pending, hx.text_eq.symm⟩, ?_, hx.of_drained⟩
  rw [List.foldl_append]
  exact (exec_plays hs₀ hread).shows_out

/-- The keys L, S and Enter after power-on. -/
theorem screen_shows_transcript_ls :
    ∃ v₀ s₀ replies x read, kmainScreen ⟨Vector.replicate 2000 0, 0, 0⟩ = some v₀ ∧
      shellStart (Vector.replicate _ 0) v₀ = some s₀ ∧
      exec consoleStep ⟨kbdInit ⟨Vector.replicate 256 0, 0, 0, 0, 0⟩, .idle, s₀⟩
        ([.interrupt 0x26, .run, .interrupt 0x1F, .interrupt 0x1C] ++ List.replicate 9 .run) =
          some (replies, x) ∧
      read <+: literal "ls\n" ∧
      x.shell.line.vga.Shows
        ((bootOutput ++ (transcript read).1).foldl Output.apply Terminal.empty) := by
  obtain ⟨v₀, s₀, hboot, hstart, hscreen⟩ :=
    screen_shows_transcript ⟨Vector.replicate 2000 0, 0, 0⟩ (Vector.replicate _ 0)
  obtain ⟨v, hboot', hv⟩ := kmainScreen_shows ⟨Vector.replicate 2000 0, 0, 0⟩
  obtain rfl := Option.some.inj (hboot.symm.trans hboot')
  obtain ⟨s, hstart', -, hline⟩ := shellStart_returns (Vector.replicate _ 0) hv.inBounds
  obtain rfl := Option.some.inj (hstart.symm.trans hstart')
  have hx := delivers_init (ShellState.waits_of_holds_nil hline)
    ⟨Vector.replicate 256 0, 0, 0, 0, 0⟩
  have htext : typedText false ((([.interrupt 0x26, .run, .interrupt 0x1F, .interrupt 0x1C] ++
      List.replicate 9 .run) : List ConsoleEvent).filterMap ConsoleEvent.scancode?) =
      literal "ls\n" := by
    decide
  have hroom : Along consoleStep Console.HasRoom
      ⟨kbdInit ⟨Vector.replicate 256 0, 0, 0, 0, 0⟩, .idle, s₀⟩
      ([.interrupt 0x26, .run, .interrupt 0x1F, .interrupt 0x1C] ++ List.replicate 9 .run) :=
    hx.hasRoom (by decide)
  obtain ⟨replies, x, read, hrun, hread, hshows, -⟩ := hscreen _ _ hroom
  exact ⟨v₀, s₀, replies, x, read, hboot, hstart, hrun, htext ▸ hread, hshows⟩

/-- Nothing is printed for Enter, so the output of a command starts right behind its name. -/
example : (transcript (literal "ls\n")).1 = coloredLiterals
    [("nimbu@localhost:~$ ", vgaColorGreen), ("ls", vgaColorWhite),
      ("Filesystem not yet implemented\n", vgaColorYellow), ("\n", vgaColorWhite),
      ("nimbu@localhost:~$ ", vgaColorGreen)] := by
  decide +kernel

end Nimbu
