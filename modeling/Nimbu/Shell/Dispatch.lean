import Mathlib.Data.List.Nodup
import Nimbu.Shell.Arguments

/-!
# Dispatch

The command that `shell_execute` calls is the entry of the table whose name starts
with the first character of the line's first token. So a word that is no name of a
command runs one all the same when it starts like it.
-/

namespace Nimbu

/-- What `shell_execute` does with a line, once it has looked the command up. -/
inductive Dispatch where
  /-- There is no argument. -/
  | nothing
  /-- `shell_parse_args` has failed. -/
  | tooMany
  /-- The handler of an entry is called. -/
  | call (c : ShellCommand) (argc : ℕ) (argv : Vector (Option ℤ) shellMaxArgs)
  /-- No entry was found for the first argument. -/
  | notFound (arg : List Byte)

/-- `shell_execute` up to the call or the message. -/
def shellDispatch (cmdline : List Byte) : Option Dispatch := do
  if cmdline = [] then return .nothing
  let (ret, argc, argv) ← shellParseArgs cmdline (Vector.replicate _ none)
  if ret ≠ 0 then return .tooMany
  if argc = 0 then return .nothing
  let arg ← stringAt cmdline (argv[0]?.bind id)
  match findCommand arg with
  | some c => return .call c argc argv
  | none => return .notFound arg

/-- The message for a command that was not found. -/
def putNotFound (v : VgaState) (arg : List Byte) : Option VgaState := do
  let v ← putLiteral v "Command not found: " vgaColorRed
  let v ← vgaPutstr v (some arg) (vgaColor vgaColorRed vgaColorBlack)
  putLiteral v "\n" vgaColorRed

/-- `shell_execute` from the call or the message on. -/
def Dispatch.run (v : VgaState) (cmdline : List Byte) : Dispatch → Option Executed
  | .nothing => some (.returned 0 v)
  | .tooMany => (putLiteral v "Error: too many arguments\n" vgaColorRed).map (.returned (-1))
  | .call c argc argv => runHandler c.handler v cmdline argc argv
  | .notFound arg => (putNotFound v arg).map (.returned (-1))

/-- The first token of a line, or nothing. -/
def firstWord (cmdline : List Byte) : List Byte := ((tokens Blank cmdline).map Prod.snd).headD []

/-- `shell_execute` calls the handler of an entry. It returns 0 behind it, unless that is
`cmd_reboot`, which does not return. -/
def RunsCommand (cmdline : List Byte) (c : ShellCommand) : Prop :=
  (∃ argc argv, shellDispatch cmdline = some (.call c argc argv)) ∧
    ∀ v : VgaState, v.InBounds → ∃ v', shellExecute v cmdline =
      some (if c.handler = .reboot then .halted v' else .returned 0 v')

/-- `shell_execute` calls no handler, prints that the command was not found and returns -1. -/
def ReportsNotFound (cmdline : List Byte) : Prop :=
  ∃ arg, shellDispatch cmdline = some (.notFound arg) ∧
    ∀ v : VgaState, v.InBounds → ∃ v', putNotFound v arg = some v' ∧
      shellExecute v cmdline = some (.returned (-1) v')

/-- Commands are dispatched by their full name: the handler of an entry runs exactly when the
first token is its name, and a token that is no name is reported. -/
def DispatchesByName (cmdline : List Byte) : Prop :=
  (∀ c ∈ commands, RunsCommand cmdline c ↔ firstWord cmdline = literal c.name) ∧
    ((∀ c ∈ commands, firstWord cmdline ≠ literal c.name) → ReportsNotFound cmdline)

variable {cmdline arg : List Byte} {c : ShellCommand}

/-- The call or the message is all that the lookup decides. -/
theorem shellExecute_eq (v : VgaState) (cmdline : List Byte) :
    shellExecute v cmdline = (shellDispatch cmdline).bind (Dispatch.run v cmdline) := by
  unfold shellExecute shellDispatch
  split
  · rfl
  · cases shellParseArgs cmdline (Vector.replicate _ none) with
    | none => rfl
    | some parsed =>
      obtain ⟨ret, argc, argv⟩ := parsed
      simp only [Option.bind_eq_bind, Option.bind_some]
      split
      · cases hput : putLiteral v "Error: too many arguments\n" vgaColorRed with
        | none => simp [Dispatch.run, hput]
        | some w => simp [Dispatch.run, hput]
      · split
        · rfl
        · cases stringAt cmdline (argv[0]?.bind id) with
          | none => rfl
          | some arg =>
            simp only [Option.bind_some]
            cases findCommand arg with
            | some c => rfl
            | none =>
              simp only [Dispatch.run, putNotFound, Option.bind_eq_bind, Option.map_eq_bind,
                Option.bind_assoc, Option.pure_def, Option.bind_some]
              rfl

section Table

/-- Looking a key up in a list whose keys differ. -/
theorem find?_key_eq_some_iff {α κ : Type*} [DecidableEq κ] {key : α → κ} {l : List α}
    (hkeys : (l.map key).Nodup) {k : κ} {x : α} :
    l.find? (fun y => key y = k) = some x ↔ x ∈ l ∧ key x = k := by
  constructor
  · intro hfound
    exact ⟨List.mem_of_find?_eq_some hfound, by simpa using List.find?_some hfound⟩
  · rintro ⟨hmem, rfl⟩
    have hsome : (l.find? fun y => key y = key x).isSome :=
      List.find?_isSome.mpr ⟨x, hmem, decide_eq_true rfl⟩
    obtain ⟨y, hfound⟩ := Option.isSome_iff_exists.mp hsome
    have hkey : key y = key x := by simpa using List.find?_some hfound
    rw [hfound, List.inj_on_of_nodup_map hkeys (List.mem_of_find?_eq_some hfound) hmem hkey]

/-- The names of the table start with different letters. -/
theorem commands_initials_nodup : (commands.map fun c => (literal c.name).headD 0).Nodup := by
  decide

/-- A command is found by the first character alone. -/
theorem findCommand_eq_some_iff :
    findCommand arg = some c ↔ c ∈ commands ∧ (literal c.name).headD 0 = arg.headD 0 :=
  find?_key_eq_some_iff commands_initials_nodup

/-- None is found when no name starts with it. -/
theorem findCommand_eq_none_iff :
    findCommand arg = none ↔ ∀ c ∈ commands, (literal c.name).headD 0 ≠ arg.headD 0 := by
  simp [findCommand, List.find?_eq_none]

end Table

section Returns

variable {s s' : ParseState} {sc : TokenScan Byte}

/-- A round that returns had room for one more character in the buffer. -/
theorem ParseState.Reads.current_lt (hs : s.Reads sc) {ch : Byte} {pos : ℕ}
    (hround : parseRound s pos ch = some s') : sc.current.length < shellMaxCmdLen := by
  by_cases hcurrent : sc.current = []
  · rw [hcurrent]
    decide
  · by_contra hfull
    have hstore : ∀ b : Byte, storeAt s.buffer s.bufIdx b = none := fun b => by
      rw [storeAt, dif_neg (by rwa [hs.bufIdx_eq])]
    unfold parseRound at hround
    split at hround
    · rw [if_pos (hs.inArg_iff.mpr hcurrent), hstore] at hround
      cases hround
    · simp [hstore] at hround

/-- If `shell_parse_args` returns for a line with fewer than 16 tokens, each of them fitted into
its buffer. -/
theorem ParseState.Reads.tokens_short {rest : List Byte} (hs : s.Reads sc)
    (hclosed : ∀ x ∈ sc.closed, x.2.length < shellMaxCmdLen)
    (hcount : (rest.foldl (TokenScan.push Blank) sc).finished.length < shellMaxArgs)
    (hloop : parseLoop s sc.pos rest = some s') (hend : (parseEnd s').isSome) :
    ∀ x ∈ (rest.foldl (TokenScan.push Blank) sc).finished, x.2.length < shellMaxCmdLen := by
  induction rest generalizing s sc with
  | nil =>
    obtain rfl : s = s' := by simpa [parseLoop] using hloop
    intro x hx
    rw [List.foldl_nil, TokenScan.finished] at hx
    split at hx
    · exact hclosed x hx
    · rename_i hcurrent
      rcases List.mem_append.mp hx with hx | hx
      · exact hclosed x hx
      · -- The 0 that ends the last argument was written behind it.
        rw [List.mem_singleton.mp hx]
        by_contra hfull
        rw [parseEnd, if_pos (hs.inArg_iff.mpr hcurrent), storeAt,
          dif_neg (by rwa [hs.bufIdx_eq])] at hend
        cases hend
  | cons ch rest ih =>
    have hslot : s.argIdx < shellMaxArgs := by
      rw [hs.argIdx_eq]
      exact (sc.closed_prefix_foldl Blank (ch :: rest)).length_le.trans_lt hcount
    rw [parseLoop, if_pos hslot] at hloop
    obtain ⟨t, hround, hrest⟩ := Option.bind_eq_some_iff.mp hloop
    have hlt := hs.current_lt hround
    obtain ⟨t', hround', ht⟩ := parseRound_reads hs hslot hlt ch
    obtain rfl : t = t' := by rwa [hround, Option.some.injEq] at hround'
    have hpos : (sc.push Blank ch).pos = sc.pos + 1 := TokenScan.push_pos sc ch
    rw [← hpos] at hrest
    refine ih ht (fun x hx => ?_) hcount hrest
    -- Only the open token can have ended.
    unfold TokenScan.push at hx
    split at hx
    · unfold TokenScan.finished at hx
      split at hx
      · exact hclosed x hx
      · rcases List.mem_append.mp hx with hx | hx
        · exact hclosed x hx
        · rwa [List.mem_singleton.mp hx]
    · exact hclosed x hx

/-- `shell_parse_args` returns for a line with fewer than 16 tokens only if they fit. -/
theorem tokens_short_of_shellParseArgs {argv : Vector (Option ℤ) shellMaxArgs}
    (hcount : (tokens Blank cmdline).length ≤ shellMaxArgs - 1)
    (hparse : (shellParseArgs cmdline argv).isSome) :
    ∀ x ∈ tokens Blank cmdline, x.2.length < shellMaxCmdLen := by
  obtain ⟨r, hparse⟩ := Option.isSome_iff_exists.mp hparse
  obtain ⟨s, hloop, hrest⟩ := Option.bind_eq_some_iff.mp hparse
  obtain ⟨argc, hend, -⟩ := Option.bind_eq_some_iff.mp hrest
  exact (reads_start argv).tokens_short (by simp [TokenScan.start])
    (Nat.lt_of_le_of_lt hcount (by decide)) hloop (by rw [hend]; rfl)

end Returns

/-- Every handler but `cmd_reboot` returns to `shell_execute`, which returns 0. -/
theorem runHandler_ends {handler : Handler} {v : VgaState} {argc : ℕ}
    {argv : Vector (Option ℤ) shellMaxArgs} {r : Executed}
    (hrun : runHandler handler v cmdline argc argv = some r) :
    r = if handler = .reboot then .halted r.vga else .returned 0 r.vga := by
  unfold runHandler at hrun
  cases handler <;>
    · simp only [Option.map_eq_some_iff] at hrun
      obtain ⟨w, -, rfl⟩ := hrun
      rfl

section Words

variable (hfirst : tokens Blank cmdline ≠ [])
  (hcount : (tokens Blank cmdline).length ≤ shellMaxArgs - 1)
  (hshort : ∀ x ∈ tokens Blank cmdline, x.2.length < shellMaxCmdLen)

include hfirst hcount hshort

omit hfirst in
/-- The command is looked up by the rest of the line from the first token on. -/
theorem shellDispatch_first {x : ℕ × List Byte} (hx : (tokens Blank cmdline)[0]? = some x) :
    ∃ argv, (∀ (i : ℕ) (y : ℕ × List Byte), (tokens Blank cmdline)[i]? = some y →
        argv[i]? = some (some (y.1 : ℤ))) ∧
      shellDispatch cmdline = some (match findCommand (cmdline.drop x.1) with
        | some c => .call c (tokens Blank cmdline).length argv
        | none => .notFound (cmdline.drop x.1)) := by
  have hlt : (tokens Blank cmdline).length < shellMaxArgs := Nat.lt_of_le_of_lt hcount (by decide)
  obtain ⟨argv, hparse, hargv⟩ := shellParseArgs_eq hshort (Vector.replicate _ none)
  rw [if_neg (not_le.mpr hlt), Nat.min_eq_left hlt.le] at hparse
  obtain ⟨hpos, -⟩ := List.getElem?_eq_some_iff.mp hx
  have hle := tokens_le (List.mem_of_getElem? hx)
  refine ⟨argv, fun i y hy => ?_, ?_⟩
  · obtain ⟨hi, -⟩ := List.getElem?_eq_some_iff.mp hy
    exact hargv i y (hi.trans hlt) hy
  · have hline : cmdline ≠ [] := by
      rintro rfl
      exact absurd hpos (by decide)
    have harg : stringAt cmdline (argv[0]?.bind id) = some (cmdline.drop x.1) := by
      rw [hargv 0 x (by decide) hx]
      exact stringAt_eq (by omega)
    unfold shellDispatch
    simp only [if_neg hline, hparse, Option.bind_eq_bind, Option.bind_some, ne_eq,
      not_true_eq_false, if_false, if_neg hpos.ne', harg]
    cases findCommand (cmdline.drop x.1) with
    | some c => rfl
    | none => rfl

/-- The string that is looked up starts like the first token. -/
theorem shellDispatch_eq :
    ∃ argv arg, arg.headD 0 = (firstWord cmdline).headD 0 ∧
      (∀ i < (tokens Blank cmdline).length, PointsWithin argv i cmdline.length) ∧
      shellDispatch cmdline = some (match findCommand arg with
        | some c => .call c (tokens Blank cmdline).length argv
        | none => .notFound arg) := by
  have hpos : 0 < (tokens Blank cmdline).length := List.length_pos_iff.mpr hfirst
  obtain ⟨x, hx⟩ : ∃ x, (tokens Blank cmdline)[0]? = some x := ⟨_, List.getElem?_eq_getElem hpos⟩
  obtain ⟨argv, hargv, hdispatch⟩ := shellDispatch_first hcount hshort hx
  have hword : firstWord cmdline = x.2 := by
    rw [firstWord, List.headD_eq_head?_getD, List.head?_eq_getElem?, List.getElem?_map, hx]
    rfl
  -- The token is not empty, so the rest of the line has its first character.
  have hstarts : (cmdline.drop x.1).headD 0 = x.2.headD 0 := by
    obtain ⟨pre, post, hline, hpre, hrun⟩ := mem_tokens_iff.mp (List.mem_of_getElem? hx)
    obtain ⟨ch, rest, htoken⟩ := List.exists_cons_of_ne_nil hrun.nonempty
    rw [hline, ← hpre, List.append_assoc, List.drop_left, htoken]
    rfl
  refine ⟨argv, cmdline.drop x.1, by rw [hstarts, hword], fun i hi => ?_, hdispatch⟩
  have hwithin := tokens_le (List.getElem_mem hi)
  exact ⟨_, hargv i _ (List.getElem?_eq_getElem hi), by omega, by omega⟩

/-- The handler of an entry runs exactly when the first token starts like its name. -/
theorem runsCommand_iff :
    RunsCommand cmdline c ↔
      c ∈ commands ∧ (literal c.name).headD 0 = (firstWord cmdline).headD 0 := by
  obtain ⟨argv, arg, hhead, hargs, hdispatch⟩ := shellDispatch_eq hfirst hcount hshort
  rw [← hhead, ← findCommand_eq_some_iff]
  constructor
  · rintro ⟨⟨argc, argv', hcall⟩, -⟩
    rw [hdispatch, Option.some.injEq] at hcall
    cases hfound : findCommand arg with
    | none => simp [hfound] at hcall
    | some d =>
      rw [hfound] at hcall
      injection hcall with hsame
      rw [hsame]
  · intro hfound
    rw [hfound] at hdispatch
    refine ⟨⟨_, _, hdispatch⟩, fun v hv => ?_⟩
    obtain ⟨r, hrun, -⟩ := runHandler_returns c.handler hv hargs
    refine ⟨r.vga, ?_⟩
    rw [shellExecute_eq, hdispatch, Option.bind_some, Dispatch.run, hrun]
    exact congrArg some (runHandler_ends hrun)

/-- A command is reported as not found exactly when no name starts like the first token. -/
theorem reportsNotFound_iff :
    ReportsNotFound cmdline ↔
      ∀ c ∈ commands, (literal c.name).headD 0 ≠ (firstWord cmdline).headD 0 := by
  obtain ⟨argv, arg, hhead, -, hdispatch⟩ := shellDispatch_eq hfirst hcount hshort
  rw [← hhead, ← findCommand_eq_none_iff]
  constructor
  · rintro ⟨arg', hreport, -⟩
    rw [hdispatch, Option.some.injEq] at hreport
    cases hfound : findCommand arg with
    | none => rfl
    | some c => simp [hfound] at hreport
  · intro hnone
    rw [hnone] at hdispatch
    refine ⟨arg, hdispatch, fun v hv => ?_⟩
    obtain ⟨v₁, h₁, hv₁⟩ := prints_putLiteral "Command not found: " vgaColorRed v hv
    obtain ⟨v₂, h₂, hv₂⟩ := vgaPutstr_returns hv₁ (some arg) (vgaColor vgaColorRed vgaColorBlack)
    obtain ⟨v₃, h₃, -⟩ := prints_putLiteral "\n" vgaColorRed v₂ hv₂
    simp only at h₁ h₃
    have hput : putNotFound v arg = some v₃ := by
      simp only [putNotFound, h₁, h₂, h₃, Option.bind_eq_bind, Option.bind_some]
    refine ⟨v₃, hput, ?_⟩
    rw [shellExecute_eq, hdispatch, Option.bind_some, Dispatch.run, hput]
    rfl

end Words

/-- `shell_execute` looks nothing up unless `shell_parse_args` returns. -/
theorem shellParseArgs_isSome_of_dispatch {d : Dispatch} (hline : cmdline ≠ [])
    (hdispatch : shellDispatch cmdline = some d) :
    (shellParseArgs cmdline (Vector.replicate _ none)).isSome := by
  unfold shellDispatch at hdispatch
  rw [if_neg hline] at hdispatch
  obtain ⟨parsed, hparse, -⟩ := Option.bind_eq_some_iff.mp hdispatch
  rw [hparse]
  rfl

/-- **Commands are dispatched by name only where no word starts like one.** A line with at least
one and fewer than 16 tokens is dispatched by the full name exactly when its tokens fit the
buffer of `shell_parse_args` and its first token is the name of every command that starts
with the same character. -/
theorem dispatchesByName_iff (cmdline : List Byte) (hfirst : tokens Blank cmdline ≠ [])
    (hcount : (tokens Blank cmdline).length ≤ shellMaxArgs - 1) :
    DispatchesByName cmdline ↔
      (∀ x ∈ tokens Blank cmdline, x.2.length < shellMaxCmdLen) ∧
        ∀ c ∈ commands, (literal c.name).headD 0 = (firstWord cmdline).headD 0 →
          firstWord cmdline = literal c.name := by
  constructor
  · rintro ⟨hruns, hreports⟩
    have hdispatch : ∃ d, shellDispatch cmdline = some d := by
      by_cases hname : ∃ c ∈ commands, firstWord cmdline = literal c.name
      · obtain ⟨c, hc, hname⟩ := hname
        obtain ⟨⟨argc, argv, hcall⟩, -⟩ := (hruns c hc).mpr hname
        exact ⟨_, hcall⟩
      · obtain ⟨arg, hreport, -⟩ := hreports fun c hc hname' => hname ⟨c, hc, hname'⟩
        exact ⟨_, hreport⟩
    obtain ⟨d, hdispatch⟩ := hdispatch
    have hline : cmdline ≠ [] := by
      rintro rfl
      exact hfirst rfl
    have hshort :=
      tokens_short_of_shellParseArgs hcount (shellParseArgs_isSome_of_dispatch hline hdispatch)
    refine ⟨hshort, fun c hc hhead => (hruns c hc).mp ?_⟩
    exact (runsCommand_iff hfirst hcount hshort).mpr ⟨hc, hhead⟩
  · rintro ⟨hshort, hnames⟩
    refine ⟨fun c hc => ?_, fun hnone => ?_⟩
    · rw [runsCommand_iff hfirst hcount hshort]
      constructor
      · rintro ⟨-, hhead⟩
        exact hnames c hc hhead
      · intro hname
        rw [hname]
        exact ⟨hc, rfl⟩
    · rw [reportsNotFound_iff hfirst hcount hshort]
      exact fun c hc hhead => hnone c hc (hnames c hc hhead)

/-- The name of a command, behind a blank and before an argument. -/
theorem dispatchesByName_echo : DispatchesByName (literal " echo hi") :=
  (dispatchesByName_iff (literal " echo hi") (by decide +kernel) (by decide +kernel)).mpr
    ⟨by decide +kernel, by decide +kernel⟩

/-- The word `rm` is no command and reboots the machine. -/
theorem not_dispatchesByName_rm :
    tokens Blank (literal "rm") = [(0, literal "rm")] ∧
      RunsCommand (literal "rm") ⟨"reboot", "Reboot system", .reboot⟩ ∧
      ¬ DispatchesByName (literal "rm") := by
  have htokens : tokens Blank (literal "rm") = [(0, literal "rm")] := by decide +kernel
  have hruns : RunsCommand (literal "rm") ⟨"reboot", "Reboot system", .reboot⟩ :=
    (runsCommand_iff (by decide +kernel) (by decide +kernel) (by decide +kernel)).mpr
      (by decide +kernel)
  refine ⟨htokens, hruns, fun hbyName => ?_⟩
  have hname := (hbyName.1 _ (by decide)).mp hruns
  exact absurd hname (by decide +kernel)

end Nimbu
