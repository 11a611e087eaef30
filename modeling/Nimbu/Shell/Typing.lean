import Nimbu.Drivers.ShiftKeys
import Nimbu.Shell.Lines

/-!
# Typing while the shell runs

Keyboard interrupts put characters into the ring while the shell takes them out, and an
interrupt may come between any two steps of `kbd_getchar`. In between its calls the
shell does not touch the ring and the handler touches nothing else, so the work of the
shell on one character is one step here. As long as the ring is never full, the moments
of the interrupts do not matter: the shell sees the text that the scancodes stand for.
-/

namespace Nimbu

/-- The keyboard driver and the shell. -/
structure Console where
  /-- The record of `kbd.c`. -/
  kbd : Kbd
  /-- Where the shell's call of `kbd_getchar` stands. -/
  phase : GetcharPhase
  /-- The shell. -/
  shell : ShellState

/-- What happens next. -/
inductive ConsoleEvent where
  /-- `kbd_interrupt_handler` runs. -/
  | interrupt (scancode : Byte)
  /-- The shell goes on by one step: of `kbd_getchar`, and with its result to the next call. -/
  | run

/-- One event, and the command line passed to `shell_execute`, if any. -/
def consoleStep (x : Console) : ConsoleEvent → Option (Option (List Byte) × Console)
  | .interrupt scancode => do
    let kbd ← kbdInterruptHandler x.kbd scancode
    return (none, { x with kbd })
  | .run =>
    if x.shell.halted then some (none, x)
    else do
      let (reply, kbd, phase) ← getcharStep x.kbd x.phase
      match reply with
      | none => return (none, { x with kbd, phase })
      | some ch =>
        let (cmd, shell) ← shellStep x.shell ch
        return (cmd, ⟨kbd, phase, shell⟩)

/-- At an interrupt there is a free slot in the ring. -/
def Console.HasRoom (x : Console) : ConsoleEvent → Prop
  | .interrupt _ => kbdNext x.kbd.tail ≠ x.kbd.head
  | .run => True

/-- No call of `kbd_getchar` is under way and no character is left. -/
def Console.Drained (x : Console) : Prop := x.phase = .idle ∧ x.kbd.head = x.kbd.tail

/-- The scancodes that arrived. -/
def ConsoleEvent.scancode? : ConsoleEvent → Option Byte
  | .interrupt scancode => some scancode
  | .run => none

/-- The text a sequence of scancodes stands for, from a state of the shift keys on. -/
def typedText : Bool → List Byte → List Byte
  | _, [] => []
  | shift, scancode :: codes =>
    (typedChar shift scancode).toList ++ typedText (shiftAfter shift scancode) codes

/-- The text one scancode further. -/
theorem typedText_append (shift : Bool) (codes : List Byte) (scancode : Byte) :
    typedText shift (codes ++ [scancode]) = typedText shift codes ++
      (typedChar (codes.foldl shiftAfter shift) scancode).toList := by
  induction codes generalizing shift with
  | nil => simp [typedText]
  | cons c codes ih => simp [typedText, ih]

section Shell

variable {s s' : ShellState} {text : List Byte} {ch : Byte} {cmd : Option (List Byte)}

/-- A shell that has not halted waits for a character of a line with room in its buffer. -/
def ShellState.Waits (s : ShellState) : Prop :=
  s.halted = false → ∃ text, s.line.Holds text ∧ (∀ b ∈ text, b ≠ 0) ∧
    text.length < shellMaxCmdLen - 1

/-- The shell ignores a `kbd_getchar` that found no character. -/
theorem ShellState.Waits.ignores (hs : s.Waits) (hruns : s.halted = false) :
    shellStep s 0 = some (none, s) := by
  obtain ⟨text, hline, -, hroom⟩ := hs hruns
  rw [← hline.len_eq] at hroom
  unfold shellStep
  rw [if_neg (by rw [hruns]; exact Bool.false_ne_true),
    shellReadLine_waits hroom (readLineRound_ignored (Or.inl rfl)) hroom]
  rfl

/-- A line that has ended leads to the next one, or the shell halts. -/
theorem shellAfterLine_waits {line : LineState shellMaxCmdLen} (hline : line.Ended text)
    (hlen : text.length < shellMaxCmdLen) :
    ∃ cmd s', shellAfterLine line = some (cmd, s') ∧ s'.Waits := by
  obtain ⟨s', hafter, hs'⟩ := shellAfterLine_returns hline hlen
  exact ⟨_, s', hafter, fun hruns => ⟨[], hs' hruns, by simp, by decide⟩⟩

/-- The shell takes every character. -/
theorem ShellState.Waits.step (hs : s.Waits) (hruns : s.halted = false) (ch : Byte) :
    ∃ cmd s', shellStep s ch = some (cmd, s') ∧ s'.Waits := by
  obtain ⟨text, hline, htext, hroom⟩ := hs hruns
  have hlt : s.line.len < shellMaxCmdLen - 1 := by rwa [hline.len_eq]
  unfold shellStep
  rw [if_neg (by rw [hruns]; exact Bool.false_ne_true)]
  by_cases hch : IsEnter ch
  · obtain ⟨line, hread, hended⟩ := shellReadLine_enter hline hroom htext hch
    obtain ⟨cmd, s', hafter, hs'⟩ := shellAfterLine_waits hended (by omega)
    exact ⟨cmd, s', by simp only [hread, Option.bind_eq_bind, Option.bind_some]; exact hafter, hs'⟩
  · obtain ⟨line, hround, hline'⟩ := readLineRound_edit hline (by omega) hch
    have htext' : ∀ b ∈ editStep text ch, b ≠ 0 := ne_zero_of_mem_editStep htext
    have hgrow := length_editStep_le text ch
    by_cases hfull : (editStep text ch).length < shellMaxCmdLen - 1
    · have hread := shellReadLine_waits hlt hround (by rwa [hline'.len_eq])
      refine ⟨none, { s with line }, ?_, fun _ => ⟨_, hline', htext', hfull⟩⟩
      simp only [hread, Option.bind_eq_bind, Option.bind_some, Option.pure_def]
    · have hlen : line.len = shellMaxCmdLen - 1 := by
        rw [hline'.len_eq]
        omega
      have hread := shellReadLine_full hlt hround hlen
      have hended := hline'.ended (by rw [hlen]; decide) htext'
      obtain ⟨cmd, s', hafter, hs'⟩ := shellAfterLine_waits hended (by omega)
      exact ⟨cmd, s', by simp only [hread, Option.bind_eq_bind, Option.bind_some]; exact hafter,
        hs'⟩

end Shell

section Delivery

variable {s₀ : ShellState} {x : Console} {codes consumed pending : List Byte}
  {cmds : List (List Byte)}

/-- The shell has read the first part of the text of the scancodes, and the rest is in the
ring. -/
structure Console.Delivers (s₀ : ShellState) (x : Console) (codes consumed pending : List Byte)
    (cmds : List (List Byte)) : Prop where
  /-- Nothing of the text is lost. -/
  text_eq : typedText false codes = consumed ++ pending
  /-- The driver holds the rest. -/
  inStep : KbdInStep (x.kbd, x.phase) ⟨shiftFlag codes, consumed ++ pending, consumed⟩ pending
  /-- The shell has run on the first part. -/
  read : ∃ replies, exec shellStep s₀ consumed = some (replies, x.shell) ∧
    replies.reduceOption = cmds
  /-- It waits for more. -/
  waits : x.shell.Waits

/-- An interrupt that finds room adds the character of its scancode to the notes. -/
theorem KbdLedger.note_interrupt {l : KbdLedger}
    (hroom : l.accepted.length ≠ l.returned.length + 255) (scancode : Byte)
    (reply : Option Byte) : l.note (.interrupt scancode) reply =
      ⟨shiftAfter l.shift scancode, l.accepted ++ (typedChar l.shift scancode).toList,
        l.returned⟩ := by
  cases htyped : typedChar l.shift scancode with
  | none => simp [note, htyped]
  | some ch => simp [note, htyped, arrive, if_neg hroom]

/-- An interrupt that finds room delivers its character to the ring. -/
theorem Console.Delivers.interrupt (hx : x.Delivers s₀ codes consumed pending cmds)
    (scancode : Byte) (hroom : x.HasRoom (.interrupt scancode)) :
    ∃ x' pending', consoleStep x (.interrupt scancode) = some (none, x') ∧
      x'.Delivers s₀ (codes ++ [scancode]) consumed pending' cmds := by
  have hlen : (consumed ++ pending).length ≠ consumed.length + 255 := by
    rw [List.length_append]
    intro hfull
    exact hroom ((kbdNext_eq_head_iff hx.inStep).mpr (by omega))
  obtain ⟨reply, ⟨kbd, phase⟩, hstep, pending', hin⟩ :=
    kbdStep_inStep (.interrupt scancode) ⟨pending, hx.inStep⟩
  rw [KbdLedger.note_interrupt hlen] at hin
  have hrest := hin.accepted_eq
  simp only at hrest
  simp only [kbdStep, Option.bind_eq_bind, Option.bind_eq_some_iff, Option.pure_def,
    Option.some.injEq, Prod.mk.injEq] at hstep
  obtain ⟨kbd', hkbd, -, rfl, rfl⟩ := hstep
  refine ⟨{ x with kbd := kbd' }, pending', by simp only [consoleStep, hkbd]; rfl, ?_, ?_, hx.read,
    hx.waits⟩
  · rw [typedText_append, hx.text_eq, ← hrest]
    rfl
  · rw [shiftFlag_append, ← hrest]
    exact hin

/-- Steps of `kbd_getchar` until the ring is empty, if no interrupt comes. -/
def GetcharPhase.left (pending : List Byte) : GetcharPhase → ℕ
  | .idle => 3 * pending.length
  | .tested => 3 * pending.length - 1
  | .loaded _ => 3 * pending.length - 2

/-- A step of `kbd_getchar` finds the ring empty or brings that moment nearer. -/
theorem getcharStep_left {s s' : Kbd} {phase phase' : GetcharPhase} {l : KbdLedger}
    {pending pending' : List Byte} {reply : Option Byte} (h : KbdInStep (s, phase) l pending)
    (hstep : getcharStep s phase = some (reply, s', phase'))
    (h' : KbdInStep (s', phase') (l.note .getchar reply) pending') :
    phase'.left pending' = 0 ∨ phase'.left pending' < phase.left pending := by
  have haccepted := h.accepted_eq
  have haccepted' := h'.accepted_eq
  cases phase with
  | idle =>
    by_cases hempty : s.head = s.tail
    · simp only [getcharStep, if_pos hempty, Option.some.injEq, Prod.mk.injEq] at hstep
      obtain ⟨rfl, rfl, rfl⟩ := hstep
      left
      rw [h'.head_eq_tail_iff.mp hempty]
      rfl
    · simp only [getcharStep, if_neg hempty, Option.some.injEq, Prod.mk.injEq] at hstep
      obtain ⟨rfl, rfl, rfl⟩ := hstep
      obtain rfl : pending = pending' := List.append_cancel_left (haccepted.symm.trans haccepted')
      have hpos := List.length_pos_iff.mpr fun hnil => hempty (h.head_eq_tail_iff.mpr hnil)
      right
      simp only [GetcharPhase.left]
      omega
  | tested =>
    simp only [getcharStep, Option.bind_eq_bind, Option.bind_eq_some_iff, Option.pure_def,
      Option.some.injEq, Prod.mk.injEq] at hstep
    obtain ⟨ch, -, rfl, rfl, rfl⟩ := hstep
    obtain rfl : pending = pending' := List.append_cancel_left (haccepted.symm.trans haccepted')
    have hpos := List.length_pos_iff.mpr (h.tested rfl)
    right
    simp only [GetcharPhase.left]
    omega
  | loaded ch =>
    simp only [getcharStep, Option.some.injEq, Prod.mk.injEq] at hstep
    obtain ⟨rfl, rfl, rfl⟩ := hstep
    have hhead := h.loaded ch rfl
    have hzero : ch ≠ 0 := h.nonzero ch (List.mem_of_mem_head? hhead)
    simp only [KbdLedger.note, if_neg hzero] at haccepted'
    have hlen := congrArg List.length (haccepted.symm.trans haccepted')
    simp only [List.length_append, List.length_singleton] at hlen
    right
    simp only [GetcharPhase.left]
    omega

/-- A step of the shell reads no character, or the first one that is left, and gets nearer to
the end of the text. -/
theorem Console.Delivers.run (hx : x.Delivers s₀ codes consumed pending cmds) :
    ∃ cmd x' consumed' pending', consoleStep x .run = some (cmd, x') ∧
      x'.Delivers s₀ codes consumed' pending' (cmds ++ cmd.toList) ∧
      (x.shell.halted = true ∧ x' = x ∨
        x'.phase.left pending' = 0 ∨ x'.phase.left pending' < x.phase.left pending) := by
  by_cases hhalted : x.shell.halted = true
  · refine ⟨none, x, consumed, pending, by simp only [consoleStep, if_pos hhalted], ?_, ?_⟩
    · rwa [Option.toList_none, List.append_nil]
    · exact Or.inl ⟨hhalted, rfl⟩
  have hruns : x.shell.halted = false := by simpa using hhalted
  obtain ⟨reply, ⟨kbd, phase⟩, hstep, pending', hin⟩ := kbdStep_inStep .getchar ⟨pending, hx.inStep⟩
  replace hstep : getcharStep x.kbd x.phase = some (reply, kbd, phase) := hstep
  have hleft := getcharStep_left hx.inStep hstep hin
  have hsame : ∀ {r}, KbdInStep (kbd, phase) ⟨shiftFlag codes, consumed ++ pending, consumed⟩ r →
      r = pending := fun hin => (List.append_cancel_left hin.accepted_eq).symm
  unfold consoleStep
  rw [if_neg hhalted, hstep]
  cases reply with
  | none =>
    obtain rfl := hsame hin
    refine ⟨none, _, consumed, pending', rfl, ?_, Or.inr hleft⟩
    rw [Option.toList_none, List.append_nil]
    exact ⟨hx.text_eq, hin, hx.read, hx.waits⟩
  | some ch =>
    by_cases hzero : ch = 0
    · subst hzero
      obtain rfl := hsame hin
      refine ⟨none, ⟨kbd, phase, x.shell⟩, consumed, pending', ?_, ?_, Or.inr hleft⟩
      · simp only [Option.bind_eq_bind, Option.bind_some, hx.waits.ignores hruns, Option.pure_def]
      · rw [Option.toList_none, List.append_nil]
        exact ⟨hx.text_eq, hin, hx.read, hx.waits⟩
    · simp only [KbdLedger.note, if_neg hzero] at hin
      obtain ⟨cmd, shell, hshell, hwaits⟩ := hx.waits.step hruns ch
      obtain ⟨replies, hread, rfl⟩ := hx.read
      have hrest : consumed ++ pending = consumed ++ [ch] ++ pending' := hin.accepted_eq
      refine ⟨cmd, ⟨kbd, phase, shell⟩, consumed ++ [ch], pending', ?_, ⟨hx.text_eq.trans hrest,
        hrest ▸ hin, ⟨replies ++ [cmd], exec_concat hread hshell, ?_⟩, hwaits⟩, Or.inr hleft⟩
      · simp only [Option.bind_eq_bind, Option.bind_some, hshell, Option.pure_def]
      · cases cmd <;> simp [List.reduceOption_append]

/-- Before the first event nothing was typed. -/
theorem delivers_init (hs : s₀.Waits) (kbd : Kbd) :
    Console.Delivers s₀ ⟨kbdInit kbd, .idle, s₀⟩ [] [] [] [] :=
  ⟨rfl, kbdInit_inStep kbd, ⟨[], rfl, rfl⟩, hs⟩

/-- Every event that finds room returns and delivers. -/
theorem Console.Delivers.step (hx : x.Delivers s₀ codes consumed pending cmds)
    (event : ConsoleEvent) (hroom : x.HasRoom event) :
    ∃ cmd x' consumed' pending', consoleStep x event = some (cmd, x') ∧
      x'.Delivers s₀ (codes ++ event.scancode?.toList) consumed' pending'
        (cmds ++ cmd.toList) := by
  cases event with
  | interrupt scancode =>
    obtain ⟨x', pending', hstep, hx'⟩ := hx.interrupt scancode hroom
    exact ⟨none, x', consumed, pending', hstep, by simpa [ConsoleEvent.scancode?] using hx'⟩
  | run =>
    obtain ⟨cmd, x', consumed', pending', hstep, hx', -⟩ := hx.run
    exact ⟨cmd, x', consumed', pending', hstep, by simpa [ConsoleEvent.scancode?] using hx'⟩

/-- Every run in which no interrupt finds the ring full returns and delivers. -/
theorem Console.Delivers.exec (hx : x.Delivers s₀ codes consumed pending cmds)
    {events : List ConsoleEvent} (hroom : Along consoleStep Console.HasRoom x events) :
    ∃ replies x' consumed' pending', Nimbu.exec consoleStep x events = some (replies, x') ∧
      x'.Delivers s₀ (codes ++ events.filterMap ConsoleEvent.scancode?) consumed' pending'
        (cmds ++ replies.reduceOption) := by
  induction events generalizing x codes consumed pending cmds with
  | nil => exact ⟨[], x, consumed, pending, rfl, by simpa using hx⟩
  | cons event events ih =>
    obtain ⟨cmd, y, _, _, hstep, hy⟩ := hx.step event hroom.1
    obtain ⟨replies, x', consumed', pending', hrun, hx'⟩ := ih hy (hroom.2 cmd y hstep)
    refine ⟨cmd :: replies, x', consumed', pending',
      exec_cons_iff.mpr ⟨cmd, y, replies, hstep, hrun, rfl⟩, ?_⟩
    rwa [filterMap_cons_eq_append, reduceOption_cons_eq_append, ← List.append_assoc,
      ← List.append_assoc]

/-- What a drained console has delivered is the whole text. -/
theorem Console.Delivers.of_drained (hx : x.Delivers s₀ codes consumed pending cmds)
    (hdrained : x.Drained) : consumed = typedText false codes := by
  have hnil : pending = [] := hx.inStep.head_eq_tail_iff.mp hdrained.2
  rw [hx.text_eq, hnil, List.append_nil]

/-- No step is left only when the ring is empty and no call is under way. -/
theorem Console.Delivers.drained (hx : x.Delivers s₀ codes consumed pending cmds)
    (hleft : x.phase.left pending = 0) : x.Drained := by
  have hin := hx.inStep
  have hnil : x.phase = .idle ∧ pending = [] := by
    cases hphase : x.phase with
    | idle =>
      rw [hphase, GetcharPhase.left] at hleft
      exact ⟨rfl, List.eq_nil_of_length_eq_zero (by omega)⟩
    | tested =>
      have hpos := List.length_pos_iff.mpr (hin.tested hphase)
      rw [hphase, GetcharPhase.left] at hleft
      omega
    | loaded ch =>
      have hpos := List.length_pos_of_mem (List.mem_of_mem_head? (hin.loaded ch hphase))
      rw [hphase, GetcharPhase.left] at hleft
      omega
  exact ⟨hnil.1, hin.head_eq_tail_iff.mpr hnil.2⟩

/-- Without interrupts the shell reads the text to its end, or halts. -/
theorem Console.Delivers.drain (hx : x.Delivers s₀ codes consumed pending cmds) (n : ℕ)
    (hn : x.shell.halted = true ∨ x.phase.left pending ≤ n) :
    ∃ replies x' consumed' pending',
      Nimbu.exec consoleStep x (List.replicate n .run) = some (replies, x') ∧
      x'.Delivers s₀ codes consumed' pending' (cmds ++ replies.reduceOption) ∧
      (x'.shell.halted = true ∨ x'.Drained) := by
  induction n generalizing x consumed pending cmds with
  | zero =>
    refine ⟨[], x, consumed, pending, rfl, by simpa using hx, ?_⟩
    exact hn.imp_right fun hleft => hx.drained (by omega)
  | succ n ih =>
    obtain ⟨cmd, y, _, pending₁, hstep, hy, hnext⟩ := hx.run
    have hn' : y.shell.halted = true ∨ y.phase.left pending₁ ≤ n := by
      rcases hnext with ⟨hhalted, rfl⟩ | hzero | hless
      · exact Or.inl hhalted
      · exact Or.inr (by omega)
      · rcases hn with hhalted | hn
        · left
          simp only [consoleStep, if_pos hhalted, Option.some.injEq, Prod.mk.injEq] at hstep
          rwa [← hstep.2]
        · exact Or.inr (by omega)
    obtain ⟨replies, x', consumed', pending', hrun, hx', hend⟩ := ih hy hn'
    refine ⟨cmd :: replies, x', consumed', pending',
      exec_cons_iff.mpr ⟨cmd, y, replies, hstep, hrun, rfl⟩, ?_, hend⟩
    rwa [reduceOption_cons_eq_append, ← List.append_assoc]

/-- A text has at most one character for each scancode. -/
theorem length_typedText_le (shift : Bool) (codes : List Byte) :
    (typedText shift codes).length ≤ codes.length := by
  induction codes generalizing shift with
  | nil => exact Nat.le_refl 0
  | cons scancode codes ih =>
    have hrest := ih (shiftAfter shift scancode)
    have hone : (typedChar shift scancode).toList.length ≤ 1 := by
      cases typedChar shift scancode <;> simp
    rw [typedText, List.length_append, List.length_cons]
    omega

/-- Up to 255 scancodes always find room, whatever the shell does. -/
theorem Console.Delivers.hasRoom (hx : x.Delivers s₀ codes consumed pending cmds)
    {events : List ConsoleEvent}
    (hlen : codes.length + (events.filterMap ConsoleEvent.scancode?).length ≤ 255) :
    Along consoleStep Console.HasRoom x events := by
  induction events generalizing x codes consumed pending cmds with
  | nil => trivial
  | cons event events ih =>
    rw [filterMap_cons_eq_append, List.length_append] at hlen
    have hroom : x.HasRoom event := by
      cases event with
      | run => trivial
      | interrupt scancode =>
        intro hfull
        have hpending := (kbdNext_eq_head_iff hx.inStep).mp hfull
        have htext := length_typedText_le false codes
        rw [hx.text_eq, List.length_append] at htext
        simp only [ConsoleEvent.scancode?, Option.toList_some, List.length_singleton] at hlen
        omega
    refine ⟨hroom, fun cmd y hstep => ?_⟩
    obtain ⟨cmd', y', _, _, hstep', hy⟩ := hx.step event hroom
    obtain ⟨rfl, rfl⟩ := Prod.mk.inj (Option.some.inj (hstep.symm.trans hstep'))
    exact ih hy (by rw [List.length_append]; omega)

end Delivery

/-- A shell that holds an empty line waits. -/
theorem ShellState.waits_of_holds_nil {s : ShellState} (hs : s.line.Holds []) : s.Waits :=
  fun _ => ⟨[], hs, by simp, by decide⟩

/-- **The moments of the interrupts do not matter.** For every two orders of the same
scancodes and the steps of the shell in which no interrupt finds the ring full: once
neither has a character left, the shell has executed the same command lines, and the
screen and the line buffer are the same. -/
theorem typing_timing_independent {v : VgaState} (hv : v.InBounds)
    (cmdline : Vector Byte shellMaxCmdLen) :
    ∃ s₀, shellStart cmdline v = some s₀ ∧ ∀ (kbd kbd' : Kbd) (events events' : List ConsoleEvent),
      Along consoleStep Console.HasRoom ⟨kbdInit kbd, .idle, s₀⟩ events →
      Along consoleStep Console.HasRoom ⟨kbdInit kbd', .idle, s₀⟩ events' →
      events.filterMap ConsoleEvent.scancode? = events'.filterMap ConsoleEvent.scancode? →
      ∃ replies x replies' x',
        exec consoleStep ⟨kbdInit kbd, .idle, s₀⟩ events = some (replies, x) ∧
        exec consoleStep ⟨kbdInit kbd', .idle, s₀⟩ events' = some (replies', x') ∧
        (x.Drained → x'.Drained →
          replies.reduceOption = replies'.reduceOption ∧ x.shell = x'.shell) := by
  obtain ⟨s₀, hstart, -, hline⟩ := shellStart_returns cmdline hv
  refine ⟨s₀, hstart, fun kbd kbd' events events' hroom hroom' hsame => ?_⟩
  have hwaits := ShellState.waits_of_holds_nil hline
  obtain ⟨replies, x, consumed, pending, hrun, hx⟩ := (delivers_init hwaits kbd).exec hroom
  obtain ⟨replies', x', consumed', pending', hrun', hx'⟩ := (delivers_init hwaits kbd').exec hroom'
  refine ⟨replies, x, replies', x', hrun, hrun', fun hdrained hdrained' => ?_⟩
  -- Both shells have read the same text from the same state.
  have htext : consumed = consumed' := by
    rw [hx.of_drained hdrained, hx'.of_drained hdrained', hsame]
  obtain ⟨rs, hread, hcmds⟩ := hx.read
  obtain ⟨rs', hread', hcmds'⟩ := hx'.read
  rw [htext, hread'] at hread
  obtain ⟨rfl, hshell⟩ := Prod.mk.inj (Option.some.inj hread)
  exact ⟨hcmds.symm.trans hcmds', hshell.symm⟩

/-- The keys L, S and Enter, all before the first step of the shell, and each with time to be
read. -/
theorem typing_timing_independent_ls :
    ∃ s₀ replies x replies' x', shellStart (Vector.replicate _ 0)
        ⟨Vector.replicate 2000 vgaBlank, 0, 0⟩ = some s₀ ∧
      exec consoleStep ⟨kbdInit ⟨Vector.replicate 256 0, 0, 0, 0, 0⟩, .idle, s₀⟩
        ([.interrupt 0x26, .interrupt 0x1F, .interrupt 0x1C] ++ List.replicate 9 .run) =
          some (replies, x) ∧
      exec consoleStep ⟨kbdInit ⟨Vector.replicate 256 0, 0, 0, 0, 0⟩, .idle, s₀⟩
        [.interrupt 0x26, .run, .run, .run, .interrupt 0x1F, .run, .run, .run, .interrupt 0x1C,
          .run, .run, .run] = some (replies', x') ∧
      (x.Drained → x'.Drained →
        replies.reduceOption = replies'.reduceOption ∧ x.shell = x'.shell) := by
  have hv : (⟨Vector.replicate 2000 vgaBlank, 0, 0⟩ : VgaState).InBounds :=
    ⟨by decide, by decide⟩
  obtain ⟨s₀, hstart, htiming⟩ := typing_timing_independent hv (Vector.replicate _ 0)
  obtain ⟨s, hstart', -, hline⟩ := shellStart_returns (Vector.replicate _ 0) hv
  obtain rfl := Option.some.inj (hstart.symm.trans hstart')
  have hx := delivers_init (ShellState.waits_of_holds_nil hline)
    ⟨Vector.replicate 256 0, 0, 0, 0, 0⟩
  have hroom : Along consoleStep Console.HasRoom
      ⟨kbdInit ⟨Vector.replicate 256 0, 0, 0, 0, 0⟩, .idle, s₀⟩
      ([.interrupt 0x26, .interrupt 0x1F, .interrupt 0x1C] ++ List.replicate 9 .run) :=
    hx.hasRoom (by decide)
  have hroom' : Along consoleStep Console.HasRoom
      ⟨kbdInit ⟨Vector.replicate 256 0, 0, 0, 0, 0⟩, .idle, s₀⟩
      [.interrupt 0x26, .run, .run, .run, .interrupt 0x1F, .run, .run, .run, .interrupt 0x1C,
        .run, .run, .run] :=
    hx.hasRoom (by decide)
  obtain ⟨replies, x, replies', x', hrun, hrun', hsame⟩ := htiming _ _ _ _ hroom hroom' rfl
  exact ⟨s₀, replies, x, replies', x', hstart, hrun, hrun', hsame⟩

/-- **What is typed is executed.** If no interrupt finds the ring full, and the shell goes on
for 765 steps behind the last one, it has executed the lines of a first part of the
text that the scancodes stand for: of all of it, unless a command has halted the
machine. This holds for texts that stay below 255 characters in every line. -/
theorem typed_lines_executed {v : VgaState} (hv : v.InBounds)
    (cmdline : Vector Byte shellMaxCmdLen) :
    ∃ s₀, shellStart cmdline v = some s₀ ∧ ∀ (kbd : Kbd) (events : List ConsoleEvent) (n : ℕ),
      Along consoleStep Console.HasRoom ⟨kbdInit kbd, .idle, s₀⟩ events → 765 ≤ n →
      StaysBelow (typedText false (events.filterMap ConsoleEvent.scancode?)) →
      ∃ replies x read,
        exec consoleStep ⟨kbdInit kbd, .idle, s₀⟩ (events ++ List.replicate n .run) =
          some (replies, x) ∧
        read <+: typedText false (events.filterMap ConsoleEvent.scancode?) ∧
        replies.reduceOption = (typed read).lines.flatMap lineCommand ∧
        (x.shell.halted = false →
          read = typedText false (events.filterMap ConsoleEvent.scancode?) ∧
          x.shell.line.Holds (edit (typed read).unfinished)) := by
  obtain ⟨s₀, hstart, -, hline⟩ := shellStart_returns cmdline hv
  refine ⟨s₀, hstart, fun kbd events n hroom hn hbelow => ?_⟩
  obtain ⟨replies, y, _, pending, hrun, hy⟩ :=
    (delivers_init (ShellState.waits_of_holds_nil hline) kbd).exec hroom
  have hlen := hy.inStep.holds.length_lt
  have hleft : y.phase.left pending ≤ n := by
    cases y.phase <;> simp only [GetcharPhase.left] <;> omega
  obtain ⟨replies', x, read, rest, hrun', hx, hend⟩ := hy.drain n (Or.inr hleft)
  rw [List.nil_append, List.nil_append] at hx
  have htext := hx.text_eq
  obtain ⟨rs, hread, hcmds⟩ := hx.read
  rw [htext] at hbelow
  obtain ⟨rs', s, hread', hfollows⟩ := exec_follows
    ⟨rfl, by simp, by decide, fun _ => hline⟩ (not_halted_of_exec hread) hbelow.of_append
  obtain ⟨rfl, rfl⟩ := Prod.mk.inj (Option.some.inj (hread.symm.trans hread'))
  refine ⟨replies ++ replies', x, read, exec_append_iff.mpr ⟨_, y, _, hrun, hrun', rfl⟩,
    ⟨rest, htext.symm⟩, ?_, fun hruns => ⟨?_, hfollows.holds hruns⟩⟩
  · rw [List.reduceOption_append, ← hcmds]
    exact hfollows.executed_eq
  · exact hx.of_drained (hend.resolve_left (by rw [hruns]; exact Bool.false_ne_true))

/-- The keys L, S and Enter make the shell execute `ls`, unless that halts the machine. -/
theorem typed_lines_executed_ls :
    ∃ s₀ replies x, shellStart (Vector.replicate _ 0) ⟨Vector.replicate 2000 vgaBlank, 0, 0⟩ =
        some s₀ ∧
      exec consoleStep ⟨kbdInit ⟨Vector.replicate 256 0, 0, 0, 0, 0⟩, .idle, s₀⟩
        ([.interrupt 0x26, .run, .interrupt 0x1F, .interrupt 0x1C] ++ List.replicate 765 .run) =
          some (replies, x) ∧
      (x.shell.halted = false → replies.reduceOption = [literal "ls"]) := by
  have hv : (⟨Vector.replicate 2000 vgaBlank, 0, 0⟩ : VgaState).InBounds :=
    ⟨by decide, by decide⟩
  obtain ⟨s₀, hstart, hexecuted⟩ := typed_lines_executed hv (Vector.replicate _ 0)
  obtain ⟨s, hstart', -, hline⟩ := shellStart_returns (Vector.replicate _ 0) hv
  obtain rfl := Option.some.inj (hstart.symm.trans hstart')
  have hx := delivers_init (ShellState.waits_of_holds_nil hline)
    ⟨Vector.replicate 256 0, 0, 0, 0, 0⟩
  have htext : typedText false ([.interrupt 0x26, .run, .interrupt 0x1F, .interrupt 0x1C].filterMap
      ConsoleEvent.scancode?) = literal "ls\n" := by
    decide
  have hbelow : StaysBelow (literal "ls\n") := by
    intro pre hpre
    rw [← List.mem_inits] at hpre
    revert pre
    decide
  have hroom : Along consoleStep Console.HasRoom
      ⟨kbdInit ⟨Vector.replicate 256 0, 0, 0, 0, 0⟩, .idle, s₀⟩
      [.interrupt 0x26, .run, .interrupt 0x1F, .interrupt 0x1C] :=
    hx.hasRoom (by decide)
  obtain ⟨replies, x, read, hrun, -, hcmds, hend⟩ :=
    hexecuted _ _ 765 hroom (by decide) (htext ▸ hbelow)
  refine ⟨s₀, replies, x, hstart, hrun, fun hruns => ?_⟩
  rw [hcmds, (hend hruns).1, htext]
  decide

end Nimbu
