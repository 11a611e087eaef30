import Nimbu.Shell.Dispatch

/-!
# What the commands print

The driver keeps a screen of 80 by 25 cells and forgets what scrolls off it. What a
command does can still be said without the cells: it prints characters, or clears
the terminal, and both do not depend on what was there before. Here this is worked
out for every command line, as `shell_execute` sees it.
-/

namespace Nimbu

/-- What is done to the terminal. -/
inductive Output where
  /-- A character is printed in a colour. -/
  | print (ch color : Byte)
  /-- Everything is cleared. -/
  | clear
  deriving DecidableEq

/-- The terminal behind it. -/
def Output.apply (t : Terminal (Byte × Byte)) : Output → Terminal (Byte × Byte)
  | .print ch color => t.write 80 (fun p => p.1 = 0x0A) (ch, color)
  | .clear => Terminal.empty

/-- On every screen that shows a terminal, the output is shown. -/
def Displays (print : VgaState → Option VgaState) (out : List Output) : Prop :=
  ∀ v t, v.Shows t → ∃ v', print v = some v' ∧ v'.Shows (out.foldl Output.apply t)

/-- A string up to its 0, in a colour. -/
def colored (color : Byte) (str : List Byte) : List Output :=
  (str.takeWhile (· ≠ 0)).map fun ch => .print ch color

/-- Literals with their colours, on black. -/
def coloredLiterals (texts : List (String × Byte)) : List Output :=
  texts.flatMap fun p => colored (vgaColor p.2 vgaColorBlack) (literal p.1)

/-- The entry of `cmd_help` for a command. -/
def helpEntry (c : ShellCommand) : List (String × Byte) :=
  [("  ", vgaColorWhite), (c.name, vgaColorYellow), (" - ", vgaColorWhite),
    (c.description, vgaColorWhite), ("\n", vgaColorWhite)]

/-- The output of `cmd_echo`: for every token but the first the rest of the command line from
there on, since nothing ends the token. -/
def echoOutput (cmdline : List Byte) : List Output :=
  (colored echoColor (literal " ")).intercalate
      ((tokens Blank cmdline).tail.map fun x => colored echoColor (cmdline.drop x.1)) ++
    coloredLiterals [("\n", vgaColorWhite)]

/-- The output of a handler. -/
def Handler.output (cmdline : List Byte) : Handler → List Output
  | .help => coloredLiterals [("Available commands:\n", vgaColorCyan)] ++
      commands.flatMap fun c => coloredLiterals (helpEntry c)
  | .echo => echoOutput cmdline
  | .clear => [.clear]
  | .mem => coloredLiterals [("Memory Status:\n", vgaColorCyan),
      ("  Total RAM    : ", vgaColorWhite), ("128 MB\n", vgaColorYellow),
      ("  Used (Kernel): ", vgaColorWhite), ("~4.2 MB\n", vgaColorYellow),
      ("  Free         : ", vgaColorWhite), ("~123.8 MB\n", vgaColorYellow)]
  | .ps => coloredLiterals [("Processes:\n", vgaColorCyan), ("  PID  State\n", vgaColorWhite),
      ("  ---  -----\n", vgaColorWhite), ("    0  RUNNING\n", vgaColorYellow)]
  | .uname =>
      coloredLiterals [("NIMBU OS v1.0 | x86 | Kernel Build: 2026-01-15\n", vgaColorYellow)]
  | .reboot => coloredLiterals [("Rebooting system...\n", vgaColorRed)]
  | .ls => coloredLiterals [("Filesystem not yet implemented\n", vgaColorYellow)]
  | .info => coloredLiterals [("\n", vgaColorWhite),
      ("  \xf0\x9f\x8d\x8b NIMBU OS - Minimal Linux Kernel \xf0\x9f\x8d\x8b\n", vgaColorGreen),
      ("  Version 1.0 | ZOHO SETU Project #10\n", vgaColorYellow),
      ("  Clean, Minimal, Zesty\n", vgaColorGreen), ("\n", vgaColorWhite)]

/-- The output of `shell_execute` for a command line, and whether it does not return. -/
def commandOutput (cmdline : List Byte) : List Output × Bool :=
  if shellMaxArgs ≤ (tokens Blank cmdline).length then
    (coloredLiterals [("Error: too many arguments\n", vgaColorRed)], false)
  else match (tokens Blank cmdline)[0]? with
    | none => ([], false)
    | some x => match findCommand (cmdline.drop x.1) with
      | some c => (c.handler.output cmdline, c.handler = .reboot)
      | none => (coloredLiterals [("Command not found: ", vgaColorRed)] ++
          colored (vgaColor vgaColorRed vgaColorBlack) (cmdline.drop x.1) ++
          coloredLiterals [("\n", vgaColorRed)], false)

section Displays

variable {print next : VgaState → Option VgaState} {out out' : List Output}

/-- One output after the other. -/
theorem Displays.bind (hprint : Displays print out) (hnext : Displays next out') :
    Displays (fun v => (print v).bind next) (out ++ out') := by
  intro v t hv
  obtain ⟨w, hw, hshows⟩ := hprint v t hv
  obtain ⟨v', hv', hshows'⟩ := hnext w _ hshows
  refine ⟨v', ?_, ?_⟩
  · simp only [hw, Option.bind_some, hv']
  · rwa [List.foldl_append]

/-- No output. -/
theorem displays_nothing : Displays some [] := fun v _ hv => ⟨v, rfl, hv⟩

/-- The output of a loop. -/
theorem displays_foldlM {α : Type} {f : VgaState → α → Option VgaState} {g : α → List Output}
    {l : List α} (hstep : ∀ a ∈ l, Displays (fun v => f v a) (g a)) :
    Displays (fun v => l.foldlM f v) (l.flatMap g) := by
  induction l with
  | nil => exact displays_nothing
  | cons a l ih =>
    have hrest := ih fun b hb => hstep b (List.mem_cons_of_mem _ hb)
    simp only [List.foldlM_cons, List.flatMap_cons]
    exact (hstep a List.mem_cons_self).bind hrest

theorem displays_vgaPutchar (ch color : Byte) :
    Displays (fun v => vgaPutchar v ch color) [.print ch color] :=
  fun _ _ hv => hv.putchar ch color

theorem displays_vgaPutstr (str : List Byte) (color : Byte) :
    Displays (fun v => vgaPutstr v (some str) color) (colored color str) := by
  intro v t hv
  obtain ⟨v', hput, hv'⟩ := hv.putchars color str
  refine ⟨v', hput, ?_⟩
  rw [List.foldl_map] at hv'
  rw [colored, List.foldl_map]
  exact hv'

theorem displays_putLiterals (texts : List (String × Byte)) :
    Displays (fun v => putLiterals v texts) (coloredLiterals texts) :=
  displays_foldlM fun p _ => displays_vgaPutstr (literal p.1) (vgaColor p.2 vgaColorBlack)

theorem displays_putLiteral (s : String) (fg : Byte) :
    Displays (fun v => putLiteral v s fg) (coloredLiterals [(s, fg)]) := by
  have hone : coloredLiterals [(s, fg)] = colored (vgaColor fg vgaColorBlack) (literal s) := by
    simp [coloredLiterals]
  rw [hone]
  exact displays_vgaPutstr (literal s) (vgaColor fg vgaColorBlack)

theorem displays_vgaClear : Displays vgaClear [.clear] := by
  intro v _ _
  obtain ⟨v₀, v', hclear, hrun, hv'⟩ := vgaClear_run v []
  obtain rfl : v₀ = v' := Option.some.inj hrun
  exact ⟨v₀, hclear, hv'⟩

theorem displays_cmdHelp (cmdline : List Byte) :
    Displays cmdHelp (Handler.help.output cmdline) :=
  (displays_putLiteral _ _).bind (displays_foldlM fun c _ => displays_putLiterals (helpEntry c))

/-- Items with a separator behind each but the last. -/
theorem flatMap_range_intercalate {α : Type} (sep : List α) (items : List (List α)) :
    ((List.range items.length).flatMap fun k =>
        items[k]?.getD [] ++ if k + 1 < items.length then sep else []) = sep.intercalate items := by
  induction items with
  | nil => rfl
  | cons item items ih =>
    rw [List.length_cons, List.range_succ_eq_map, List.flatMap_cons, List.flatMap_map]
    simp only [List.getElem?_cons_succ, Nat.succ_eq_add_one, Nat.add_lt_add_iff_right] at ih ⊢
    rw [ih]
    cases items with
    | nil => simp [List.intercalate]
    | cons next items => simp [List.intercalate]

theorem displays_cmdEcho {cmdline : List Byte} {argv : Vector (Option ℤ) shellMaxArgs}
    (hargv : ∀ (i : ℕ) (x : ℕ × List Byte), (tokens Blank cmdline)[i]? = some x →
      argv[i]? = some (some (x.1 : ℤ))) :
    Displays (fun v => cmdEcho v cmdline (tokens Blank cmdline).length argv)
      (echoOutput cmdline) := by
  refine Displays.bind ?_ (displays_putLiteral _ _)
  rw [← flatMap_range_intercalate]
  simp only [List.length_map, List.length_tail]
  refine displays_foldlM fun k hk => ?_
  have hlt := List.mem_range.mp hk
  obtain ⟨x, hx⟩ : ∃ x, (tokens Blank cmdline)[k + 1]? = some x :=
    ⟨_, List.getElem?_eq_getElem (by omega)⟩
  have hle := tokens_le (List.mem_of_getElem? hx)
  have hstr : stringAt cmdline (argv[k + 1]?.bind id) = some (cmdline.drop x.1) := by
    rw [hargv _ x hx]
    exact stringAt_eq (by omega)
  have hitem : ((tokens Blank cmdline).tail.map fun x =>
      colored echoColor (cmdline.drop x.1))[k]? = some (colored echoColor (cmdline.drop x.1)) := by
    rw [List.getElem?_map, List.getElem?_tail, hx]
    rfl
  simp only [hstr, Option.bind_eq_bind, Option.bind_some, hitem, Option.getD_some]
  refine (displays_vgaPutstr _ _).bind ?_
  split
  · exact displays_vgaPutstr (literal " ") echoColor
  · exact displays_nothing

end Displays

section Commands

variable {v : VgaState} {t : Terminal (Byte × Byte)} {cmdline : List Byte}

/-- `shell_execute` does not return. -/
def Executed.halts : Executed → Bool
  | .returned _ _ => false
  | .halted _ => true

/-- A function that prints and then ends its call. -/
theorem Displays.ends {print : VgaState → Option VgaState} {out : List Output}
    (hprint : Displays print out) (hv : v.Shows t) {ends : VgaState → Executed} {halts : Bool}
    (hvga : ∀ w, (ends w).vga = w) (hhalts : ∀ w, (ends w).halts = halts) :
    ∃ r, (print v).map ends = some r ∧ r.vga.Shows (out.foldl Output.apply t) ∧
      r.halts = halts := by
  obtain ⟨w, hw, hshows⟩ := hprint v t hv
  exact ⟨ends w, by rw [hw]; rfl, by rwa [hvga], hhalts w⟩

/-- One that returns to `shell_execute`. -/
theorem Displays.returned {print : VgaState → Option VgaState} {out : List Output}
    (hprint : Displays print out) (hv : v.Shows t) (ret : ℤ) :
    ∃ r, (print v).map (Executed.returned ret) = some r ∧
      r.vga.Shows (out.foldl Output.apply t) ∧ r.halts = false :=
  hprint.ends hv (fun _ => rfl) fun _ => rfl

/-- A handler prints its output, and only `cmd_reboot` does not return. -/
theorem runHandler_displays (handler : Handler) {argv : Vector (Option ℤ) shellMaxArgs}
    (hargv : ∀ (i : ℕ) (x : ℕ × List Byte), (tokens Blank cmdline)[i]? = some x →
      argv[i]? = some (some (x.1 : ℤ))) (hv : v.Shows t) :
    ∃ r, runHandler handler v cmdline (tokens Blank cmdline).length argv = some r ∧
      r.vga.Shows ((handler.output cmdline).foldl Output.apply t) ∧
      r.halts = decide (handler = .reboot) := by
  cases handler with
  | help => exact (displays_cmdHelp cmdline).returned hv 0
  | echo => exact (displays_cmdEcho hargv).returned hv 0
  | clear => exact displays_vgaClear.returned hv 0
  | mem => exact (displays_putLiterals _).returned hv 0
  | ps => exact (displays_putLiterals _).returned hv 0
  | uname => exact (displays_putLiteral _ _).returned hv 0
  | reboot => exact (displays_putLiteral _ _).ends hv (fun _ => rfl) fun _ => rfl
  | ls => exact (displays_putLiteral _ _).returned hv 0
  | info => exact (displays_putLiterals _).returned hv 0

/-- The report of a command that was not found. -/
theorem displays_putNotFound (arg : List Byte) :
    Displays (fun v => putNotFound v arg)
      (coloredLiterals [("Command not found: ", vgaColorRed)] ++
        colored (vgaColor vgaColorRed vgaColorBlack) arg ++
        coloredLiterals [("\n", vgaColorRed)]) := by
  rw [List.append_assoc]
  exact (displays_putLiteral _ _).bind ((displays_vgaPutstr _ _).bind (displays_putLiteral _ _))

/-- `shell_execute` prints the output of the command line. -/
theorem shellExecute_displays (hlen : cmdline.length < shellMaxCmdLen) (hv : v.Shows t) :
    ∃ r, shellExecute v cmdline = some r ∧
      r.vga.Shows ((commandOutput cmdline).1.foldl Output.apply t) ∧
      r.halts = (commandOutput cmdline).2 := by
  have hshort : ∀ x ∈ tokens Blank cmdline, x.2.length < shellMaxCmdLen := fun x hx => by
    have := tokens_le hx
    omega
  obtain ⟨argv, hparse, -⟩ := shellParseArgs_eq hshort (Vector.replicate _ none)
  rw [shellExecute_eq]
  unfold commandOutput
  by_cases hmany : shellMaxArgs ≤ (tokens Blank cmdline).length
  · rw [if_pos hmany] at hparse ⊢
    have hdispatch : shellDispatch cmdline = some .tooMany := by
      have hline : cmdline ≠ [] := by
        rintro rfl
        exact absurd hmany (by decide)
      simp [shellDispatch, if_neg hline, hparse]
    rw [hdispatch]
    exact (displays_putLiteral _ _).returned hv (-1)
  rw [if_neg hmany] at hparse ⊢
  cases hfirst : (tokens Blank cmdline)[0]? with
  | none =>
    have hempty : (tokens Blank cmdline).length = 0 :=
      Nat.eq_zero_of_le_zero (List.getElem?_eq_none_iff.mp hfirst)
    have hdispatch : shellDispatch cmdline = some .nothing := by
      unfold shellDispatch
      split
      · rfl
      · simp [hparse, hempty]
    exact ⟨.returned 0 v, by rw [hdispatch]; rfl, hv, rfl⟩
  | some x =>
    have hcount : (tokens Blank cmdline).length ≤ shellMaxArgs - 1 := by omega
    obtain ⟨argv, hargv, hdispatch⟩ := shellDispatch_first hcount hshort hfirst
    rw [hdispatch, Option.bind_some]
    simp only
    cases findCommand (cmdline.drop x.1) with
    | some c => exact runHandler_displays c.handler hargv hv
    | none => exact (displays_putNotFound (cmdline.drop x.1)).returned hv (-1)

end Commands

end Nimbu
