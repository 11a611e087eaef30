import Nimbu.Drivers.Vga

/-!
# The shell

`shell.c`: `shell_run` reads a line with `shell_read_line`, which edits it in a
buffer of 256 bytes and echoes it on the screen, and passes it to
`shell_execute`, which splits it into arguments and looks its first letter up in
the table of commands. The results of `kbd_getchar` are the input. An access
outside an array, or through a pointer that was never set, has no result.
-/

namespace Nimbu

/-- `SHELL_MAX_CMD_LEN`. -/
def shellMaxCmdLen : ℕ := 256

/-- `SHELL_MAX_ARGS`. -/
def shellMaxArgs : ℕ := 16

/-- Write an element of an array. -/
def storeAt {α : Type} {n : ℕ} (a : Vector α n) (i : ℕ) (x : α) : Option (Vector α n) :=
  if h : i < n then some (a.set i x h) else none

/-- The bytes of a string literal, one for each character. -/
def literal (s : String) : List Byte := s.toList.map fun c => BitVec.ofNat 8 c.toNat

/-- `VGA_COLOR_GREEN`. -/
def vgaColorGreen : Byte := 0x2

/-- `VGA_COLOR_CYAN`. -/
def vgaColorCyan : Byte := 0x3

/-- `VGA_COLOR_RED`. -/
def vgaColorRed : Byte := 0x4

/-- `VGA_COLOR_YELLOW`. -/
def vgaColorYellow : Byte := 0xE

/-- `vga_putstr` of a string literal in a colour on black. -/
def putLiteral (v : VgaState) (s : String) (fg : Byte) : Option VgaState :=
  vgaPutstr v (some (literal s)) (vgaColor fg vgaColorBlack)

section ReadLine

variable {n : ℕ}

/-- A call of `shell_read_line` with a buffer of `n` bytes, at the test of its loop. -/
structure LineState (n : ℕ) where
  /-- The buffer. -/
  buffer : Vector Byte n
  /-- Number of characters in the buffer. -/
  len : ℕ
  /-- The screen. -/
  vga : VgaState

/-- White on black, in which the line is echoed. -/
def echoColor : Byte := vgaColor vgaColorWhite vgaColorBlack

/-- One round of the loop of `shell_read_line`, given the result of `kbd_getchar`: the state
behind it, and whether the function has returned. -/
def readLineRound (s : LineState n) (ch : Byte) : Option (LineState n × Bool) := do
  if ch = 0 then return (s, false)
  if ch = 0x0A ∨ ch = 0x0D then
    let buffer ← storeAt s.buffer s.len 0
    return ({ s with buffer }, true)
  if ch = 0x08 then
    if s.len > 0 then
      let vga ← vgaPutchar s.vga 0x08 echoColor
      let vga ← vgaPutchar vga 0x20 echoColor
      let vga ← vgaPutchar vga 0x08 echoColor
      return ({ s with len := s.len - 1, vga }, false)
    else return (s, false)
  else
    let buffer ← storeAt s.buffer s.len ch
    let vga ← vgaPutchar s.vga ch echoColor
    return (⟨buffer, s.len + 1, vga⟩, false)

/-- `shell_read_line` on the results of `kbd_getchar` so far. It has returned, with the results
it has not used, or it waits for the next one. -/
def shellReadLine (s : LineState n) : List Byte → Option (LineState n × Option (List Byte))
  | [] => do
    if s.len < n - 1 then return (s, none)
    let buffer ← storeAt s.buffer s.len 0
    return ({ s with buffer }, some [])
  | ch :: input => do
    if s.len < n - 1 then
      let (s, returned) ← readLineRound s ch
      if returned then return (s, some input)
      shellReadLine s input
    else
      let buffer ← storeAt s.buffer s.len 0
      return ({ s with buffer }, some (ch :: input))

end ReadLine

/-- The string in a buffer: the bytes before the first 0. -/
def cstring {n : ℕ} (buffer : Vector Byte n) : List Byte := buffer.toList.takeWhile (· ≠ 0)

section ParseArgs

/-- The local variables of `shell_parse_args`. A pointer into the command line is the position
it points to; a pointer that was not set is `none`. -/
structure ParseState where
  /-- The local buffer, which is written and never read. -/
  buffer : Vector Byte shellMaxCmdLen
  /-- The next index in the buffer. -/
  bufIdx : ℕ
  /-- The next index in the argument vector. -/
  argIdx : ℕ
  /-- An argument has started. -/
  inArg : Bool
  /-- The argument vector. -/
  argv : Vector (Option ℤ) shellMaxArgs

/-- One round of the loop of `shell_parse_args`, for the character at a position. -/
def parseRound (s : ParseState) (pos : ℕ) (ch : Byte) : Option ParseState := do
  if ch = 0x20 ∨ ch = 0x09 then
    if s.inArg then
      let buffer ← storeAt s.buffer s.bufIdx 0
      let bufIdx : ℕ := s.bufIdx + 1
      let argv ← storeAt s.argv s.argIdx (some ((pos : ℤ) - bufIdx + 1))
      return { buffer, bufIdx := 0, argIdx := s.argIdx + 1, inArg := false, argv }
    else return s
  else
    let argv ← if s.inArg then some s.argv else storeAt s.argv s.argIdx (some (pos : ℤ))
    let buffer ← storeAt s.buffer s.bufIdx ch
    return { s with buffer, bufIdx := s.bufIdx + 1, inArg := true, argv }

/-- The loop of `shell_parse_args` from a position on. -/
def parseLoop (s : ParseState) (pos : ℕ) : List Byte → Option ParseState
  | [] => some s
  | ch :: rest => do
    if s.argIdx < shellMaxArgs then
      let s ← parseRound s pos ch
      parseLoop s (pos + 1) rest
    else return s

/-- The end of `shell_parse_args`: the number of arguments, with the last one if it reaches the
end of the line. -/
def parseEnd (s : ParseState) : Option ℕ :=
  if s.inArg then do
    let _ ← storeAt s.buffer s.bufIdx 0
    return s.argIdx + 1
  else some s.argIdx

/-- `shell_parse_args`: its result, the number of arguments and the argument vector. -/
def shellParseArgs (cmdline : List Byte) (argv : Vector (Option ℤ) shellMaxArgs) :
    Option (ℤ × ℕ × Vector (Option ℤ) shellMaxArgs) := do
  let s ← parseLoop ⟨Vector.replicate _ 0, 0, 0, false, argv⟩ 0 cmdline
  let argIdx ← parseEnd s
  return (if argIdx ≥ shellMaxArgs then -1 else 0, argIdx, s.argv)

/-- The string behind a pointer into the command line. -/
def stringAt (cmdline : List Byte) (pointer : Option ℤ) : Option (List Byte) := do
  let pos ← pointer
  if 0 ≤ pos ∧ pos ≤ cmdline.length then return cmdline.drop pos.toNat else none

end ParseArgs

/-- The handlers of the built-in commands. -/
inductive Handler where
  | help
  | echo
  | clear
  | mem
  | ps
  | uname
  | reboot
  | ls
  | info
  deriving DecidableEq

/-- An entry of the command table. -/
structure ShellCommand where
  /-- Command name. -/
  name : String
  /-- Short description. -/
  description : String
  /-- Command handler function. -/
  handler : Handler
  deriving DecidableEq

/-- The table `commands`, without the entry that ends it. -/
def commands : List ShellCommand :=
  [⟨"help", "Display available commands", .help⟩, ⟨"echo", "Echo arguments to screen", .echo⟩,
   ⟨"clear", "Clear screen", .clear⟩, ⟨"mem", "Display memory statistics", .mem⟩,
   ⟨"ps", "List processes", .ps⟩, ⟨"uname", "Display system information", .uname⟩,
   ⟨"reboot", "Reboot system", .reboot⟩, ⟨"ls", "List filesystem (stub)", .ls⟩,
   ⟨"info", "Display system info", .info⟩]

/-- How a command ends. -/
inductive Executed where
  /-- `shell_execute` returns. -/
  | returned (ret : ℤ) (vga : VgaState)
  /-- `cmd_reboot` waits for the reset in an endless loop. -/
  | halted (vga : VgaState)

/-- The screen behind a command. -/
def Executed.vga : Executed → VgaState
  | .returned _ vga => vga
  | .halted vga => vga

/-- A sequence of literals with their colours. -/
def putLiterals (v : VgaState) (texts : List (String × Byte)) : Option VgaState :=
  texts.foldlM (fun v p => putLiteral v p.1 p.2) v

/-- `cmd_help`. -/
def cmdHelp (v : VgaState) : Option VgaState := do
  let v ← putLiteral v "Available commands:\n" vgaColorCyan
  commands.foldlM (fun v c => putLiterals v [("  ", vgaColorWhite), (c.name, vgaColorYellow),
    (" - ", vgaColorWhite), (c.description, vgaColorWhite), ("\n", vgaColorWhite)]) v

/-- `cmd_echo`. -/
def cmdEcho (v : VgaState) (cmdline : List Byte) (argc : ℕ)
    (argv : Vector (Option ℤ) shellMaxArgs) : Option VgaState := do
  let v ← (List.range (argc - 1)).foldlM (fun v k => do
    let i := k + 1
    let str ← stringAt cmdline (argv[i]?.bind id)
    let v ← vgaPutstr v (some str) echoColor
    if i < argc - 1 then putLiteral v " " vgaColorWhite else return v) v
  putLiteral v "\n" vgaColorWhite

/-- `cmd_mem`. The statistics that it asks for are not printed. -/
def cmdMem (v : VgaState) : Option VgaState :=
  putLiterals v [("Memory Status:\n", vgaColorCyan), ("  Total RAM    : ", vgaColorWhite),
    ("128 MB\n", vgaColorYellow), ("  Used (Kernel): ", vgaColorWhite),
    ("~4.2 MB\n", vgaColorYellow), ("  Free         : ", vgaColorWhite),
    ("~123.8 MB\n", vgaColorYellow)]

/-- `cmd_ps`. -/
def cmdPs (v : VgaState) : Option VgaState :=
  putLiterals v [("Processes:\n", vgaColorCyan), ("  PID  State\n", vgaColorWhite),
    ("  ---  -----\n", vgaColorWhite), ("    0  RUNNING\n", vgaColorYellow)]

/-- `cmd_uname`. -/
def cmdUname (v : VgaState) : Option VgaState :=
  putLiteral v "NIMBU OS v1.0 | x86 | Kernel Build: 2026-01-15\n" vgaColorYellow

/-- The output of `cmd_reboot`, which does not return. -/
def cmdReboot (v : VgaState) : Option VgaState :=
  putLiteral v "Rebooting system...\n" vgaColorRed

/-- `cmd_ls`. -/
def cmdLs (v : VgaState) : Option VgaState :=
  putLiteral v "Filesystem not yet implemented\n" vgaColorYellow

/-- `cmd_info`. The lemon is a character of four bytes. -/
def cmdInfo (v : VgaState) : Option VgaState :=
  putLiterals v [("\n", vgaColorWhite),
    ("  \xf0\x9f\x8d\x8b NIMBU OS - Minimal Linux Kernel \xf0\x9f\x8d\x8b\n", vgaColorGreen),
    ("  Version 1.0 | ZOHO SETU Project #10\n", vgaColorYellow),
    ("  Clean, Minimal, Zesty\n", vgaColorGreen), ("\n", vgaColorWhite)]

/-- Call a handler. -/
def runHandler (handler : Handler) (v : VgaState) (cmdline : List Byte) (argc : ℕ)
    (argv : Vector (Option ℤ) shellMaxArgs) : Option Executed :=
  match handler with
  | .help => (cmdHelp v).map (.returned 0)
  | .echo => (cmdEcho v cmdline argc argv).map (.returned 0)
  | .clear => (vgaClear v).map (.returned 0)
  | .mem => (cmdMem v).map (.returned 0)
  | .ps => (cmdPs v).map (.returned 0)
  | .uname => (cmdUname v).map (.returned 0)
  | .reboot => (cmdReboot v).map .halted
  | .ls => (cmdLs v).map (.returned 0)
  | .info => (cmdInfo v).map (.returned 0)

/-- The entry of the table whose name starts with the first character of a string. -/
def findCommand (arg : List Byte) : Option ShellCommand :=
  commands.find? fun c => (literal c.name).headD 0 = arg.headD 0

/-- `shell_execute`. -/
def shellExecute (v : VgaState) (cmdline : List Byte) : Option Executed := do
  if cmdline = [] then return .returned 0 v
  let (ret, argc, argv) ← shellParseArgs cmdline (Vector.replicate _ none)
  if ret ≠ 0 then
    let v ← putLiteral v "Error: too many arguments\n" vgaColorRed
    return .returned (-1) v
  if argc = 0 then return .returned 0 v
  let arg ← stringAt cmdline (argv[0]?.bind id)
  match findCommand arg with
  | some c => runHandler c.handler v cmdline argc argv
  | none =>
    let v ← putLiteral v "Command not found: " vgaColorRed
    let v ← vgaPutstr v (some arg) (vgaColor vgaColorRed vgaColorBlack)
    let v ← putLiteral v "\n" vgaColorRed
    return .returned (-1) v

/-- `shell_run` when it calls `kbd_getchar`, or the halt that ends it. -/
structure ShellState where
  /-- The call of `shell_read_line`. -/
  line : LineState shellMaxCmdLen
  /-- A command has not returned. -/
  halted : Bool

/-- The prompt. -/
def shellPrompt (v : VgaState) : Option VgaState := putLiteral v "nimbu@localhost:~$ " vgaColorGreen

/-- The start of `shell_run`, up to the first call of `kbd_getchar`. -/
def shellStart (cmdline : Vector Byte shellMaxCmdLen) (v : VgaState) : Option ShellState := do
  let v ← shellPrompt v
  return ⟨⟨cmdline, 0, v⟩, false⟩

/-- The end of a round of `shell_run` and the start of the next one. -/
def shellNextRound (cmdline : Vector Byte shellMaxCmdLen) (v : VgaState) : Option ShellState := do
  let v ← putLiteral v "\n" vgaColorWhite
  shellStart cmdline v

/-- `shell_run` behind a `shell_read_line` that has returned: the command line passed to
`shell_execute`, if any, and the state at the next call of `kbd_getchar`. -/
def shellAfterLine (s : LineState shellMaxCmdLen) : Option (Option (List Byte) × ShellState) := do
  if s.len > 0 then
    match ← shellExecute s.vga (cstring s.buffer) with
    | .returned _ v =>
      let next ← shellNextRound s.buffer v
      return (some (cstring s.buffer), next)
    | .halted v => return (some (cstring s.buffer), ⟨{ s with vga := v }, true⟩)
  else
    let next ← shellNextRound s.buffer s.vga
    return (none, next)

/-- `shell_run` from one result of `kbd_getchar` to the next call, with the command line passed
to `shell_execute` in between, if any. A shell that has halted calls it no more. -/
def shellStep (s : ShellState) (ch : Byte) : Option (Option (List Byte) × ShellState) :=
  if s.halted then none
  else do
    let (line, returned) ← shellReadLine s.line [ch]
    match returned with
    | none => return (none, { s with line })
    | some _ => shellAfterLine line

end Nimbu
