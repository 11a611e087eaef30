import Nimbu.Machine.Tokens
import Nimbu.Shell.Shell

/-!
# Commands return

The loop of `shell_parse_args` follows the scan of the line for tokens, so that it
stays within its arrays on a line whose tokens have fewer than 256 characters, and
sets the argument vector to their positions. So `shell_execute` returns for every
line of fewer than 256 characters, or halts in `cmd_reboot`, and the cursor stays on
the screen.
-/

namespace Nimbu

/-- An element of an array is written. -/
theorem storeAt_eq {α : Type} {n i : ℕ} (a : Vector α n) (x : α) (hi : i < n) :
    storeAt a i x = some (a.set i x hi) := by
  rw [storeAt, dif_pos hi]

/-- A space or a tab, which separate the arguments. -/
def Blank (ch : Byte) : Prop := ch = 0x20 ∨ ch = 0x09

instance : DecidablePred Blank := fun ch => inferInstanceAs (Decidable (ch = 0x20 ∨ ch = 0x09))

/-- What `shell_parse_args` holds of the characters read: its variables count the tokens that
have ended and the length of the one that is open, and the argument vector holds the positions
of their first characters. -/
structure ParseState.Reads (s : ParseState) (sc : TokenScan Byte) : Prop where
  /-- The arguments found are the tokens that have ended. -/
  argIdx_eq : s.argIdx = sc.closed.length
  /-- An argument has started when a token is open. -/
  inArg_iff : s.inArg = true ↔ sc.current ≠ []
  /-- The buffer holds the open token. -/
  bufIdx_eq : s.bufIdx = sc.current.length
  /-- The arguments found point to their tokens. -/
  written : ∀ (i : ℕ) (x : ℕ × List Byte), sc.closed[i]? = some x →
    s.argv[i]? = some (some (x.1 : ℤ))
  /-- So does the one that has started. -/
  started : sc.current ≠ [] →
    s.argv[s.argIdx]? = some (some ((sc.pos - sc.current.length : ℕ) : ℤ))
  /-- The open token is part of the characters read. -/
  current_le : sc.current.length ≤ sc.pos

variable {s : ParseState} {sc : TokenScan Byte} {argv : Vector (Option ℤ) shellMaxArgs}

/-- No argument has started when no token is open. -/
theorem ParseState.Reads.inArg_eq_false (hs : s.Reads sc) (hcurrent : sc.current = []) :
    s.inArg = false :=
  Bool.eq_false_iff.mpr fun hin => hs.inArg_iff.mp hin hcurrent

/-- There is a slot for the argument that has started. -/
theorem ParseState.Reads.slot (hs : s.Reads sc) (hcurrent : sc.current ≠ []) :
    s.argIdx < shellMaxArgs := by
  by_contra hge
  have hstarted := hs.started hcurrent
  rw [Vector.getElem?_eq_none (not_lt.mp hge)] at hstarted
  cases hstarted

/-- The pointer computed at the end of an argument is the one stored at its start. -/
theorem ParseState.Reads.recomputed (hs : s.Reads sc) :
    (sc.pos : ℤ) - (s.bufIdx + 1 : ℕ) + 1 = ((sc.pos - sc.current.length : ℕ) : ℤ) := by
  have hle := hs.current_le
  rw [hs.bufIdx_eq]
  omega

/-- The argument vector holds the position of every token once the open one is counted. -/
theorem ParseState.Reads.finished (hs : s.Reads sc) {i : ℕ} {x : ℕ × List Byte}
    (hx : sc.finished[i]? = some x) : s.argv[i]? = some (some (x.1 : ℤ)) := by
  unfold TokenScan.finished at hx
  split at hx
  · exact hs.written i x hx
  · rename_i hcurrent
    rw [List.getElem?_append] at hx
    split at hx
    · exact hs.written i x hx
    · rename_i hge
      rw [List.getElem?_singleton] at hx
      split at hx
      · have hi : i = s.argIdx := by
          rw [hs.argIdx_eq]
          omega
        rw [hi, hs.started hcurrent, ← Option.some.inj hx]
      · cases hx

/-- So there are at most as many tokens as slots. -/
theorem ParseState.Reads.finished_le (hs : s.Reads sc) : sc.finished.length ≤ shellMaxArgs := by
  by_contra hgt
  have hwritten := hs.finished (List.getElem?_eq_getElem (not_le.mp hgt))
  rw [Vector.getElem?_eq_none (Nat.le_refl _)] at hwritten
  cases hwritten

/-- The arguments found fit in the argument vector. -/
theorem ParseState.Reads.argIdx_le (hs : s.Reads sc) : s.argIdx ≤ shellMaxArgs := by
  rw [hs.argIdx_eq]
  exact sc.closed_prefix_finished.length_le.trans hs.finished_le

/-- A loop that has read the whole line, or has filled the argument vector, has found the first
16 tokens. -/
theorem ParseState.Reads.tokens_take {mid post : List Byte} (hs : s.Reads (scan Blank mid))
    (hend : post = [] ∨ s.argIdx = shellMaxArgs) :
    tokens Blank mid = (tokens Blank (mid ++ post)).take shellMaxArgs := by
  rcases hend with rfl | hfull
  · rw [List.append_nil, List.take_of_length_le]
    exact hs.finished_le
  · have hcurrent : (scan Blank mid).current = [] := by
      by_contra hcurrent
      exact absurd hfull (hs.slot hcurrent).ne
    have hclosed : tokens Blank mid = (scan Blank mid).closed := if_pos hcurrent
    have hstart := (scan Blank mid).closed_prefix_foldl Blank post
    rw [scan, ← List.foldl_append] at hstart
    rw [hclosed, ← hfull, hs.argIdx_eq]
    exact List.prefix_iff_eq_take.mp hstart

/-- One character is handled within the arrays. -/
theorem parseRound_reads (hs : s.Reads sc) (hslot : s.argIdx < shellMaxArgs)
    (hlen : sc.current.length < shellMaxCmdLen) (ch : Byte) :
    ∃ s', parseRound s sc.pos ch = some s' ∧ s'.Reads (sc.push Blank ch) := by
  have hroom : s.bufIdx < shellMaxCmdLen := hs.bufIdx_eq ▸ hlen
  have hle := hs.current_le
  by_cases hblank : ch = 0x20 ∨ ch = 0x09
  · rw [TokenScan.push, if_pos (show Blank ch from hblank)]
    by_cases hcurrent : sc.current = []
    · have hin := hs.inArg_eq_false hcurrent
      refine ⟨s, ?_, ?_⟩
      · simp only [parseRound, if_pos hblank, hin, Bool.false_eq_true, if_false, Option.pure_def]
      · rw [TokenScan.finished, if_pos hcurrent]
        refine ⟨hs.argIdx_eq, by simp [hin], ?_, hs.written, by simp, Nat.zero_le _⟩
        rw [hs.bufIdx_eq, hcurrent]
    · have hin : s.inArg = true := hs.inArg_iff.mpr hcurrent
      refine ⟨⟨s.buffer.set s.bufIdx 0 hroom, 0, s.argIdx + 1, false,
        s.argv.set s.argIdx (some ((sc.pos : ℤ) - (s.bufIdx + 1 : ℕ) + 1)) hslot⟩, ?_, ?_⟩
      · simp only [parseRound, if_pos hblank, hin, if_true, storeAt_eq s.buffer _ hroom,
          storeAt_eq s.argv _ hslot, Option.bind_eq_bind, Option.bind_some, Option.pure_def]
      · -- The pointer is written again, with the value it has.
        have hsame : s.argv.set s.argIdx (some ((sc.pos : ℤ) - (s.bufIdx + 1 : ℕ) + 1)) hslot =
            s.argv := by
          have hstarted := hs.started hcurrent
          rw [Vector.getElem?_eq_getElem hslot, Option.some.injEq] at hstarted
          rw [hs.recomputed, ← hstarted, Vector.set_getElem_self]
        refine ⟨?_, by simp, rfl, fun i x hx => ?_, by simp, Nat.zero_le _⟩
        · rw [TokenScan.finished, if_neg hcurrent, List.length_append]
          exact congrArg (· + 1) hs.argIdx_eq
        · rw [hsame]
          exact hs.finished hx
  · rw [TokenScan.push, if_neg (show ¬ Blank ch from hblank)]
    by_cases hcurrent : sc.current = []
    · have hin := hs.inArg_eq_false hcurrent
      refine ⟨⟨s.buffer.set s.bufIdx ch hroom, s.bufIdx + 1, s.argIdx, true,
        s.argv.set s.argIdx (some (sc.pos : ℤ)) hslot⟩, ?_, ?_⟩
      · simp only [parseRound, if_neg hblank, hin, Bool.false_eq_true, if_false,
          storeAt_eq s.buffer _ hroom, storeAt_eq s.argv _ hslot, Option.bind_eq_bind,
          Option.bind_some, Option.pure_def]
      · refine ⟨hs.argIdx_eq, by simp, ?_, fun i x hx => ?_, fun _ => ?_, ?_⟩
        · rw [List.length_append]
          exact congrArg (· + 1) hs.bufIdx_eq
        · have hi : i < sc.closed.length := (List.getElem?_eq_some_iff.mp hx).1
          rw [Vector.getElem?_set, if_neg (by rw [hs.argIdx_eq]; omega)]
          exact hs.written i x hx
        · rw [Vector.getElem?_set, if_pos rfl, hcurrent]
          rfl
        · simpa using hle
    · have hin : s.inArg = true := hs.inArg_iff.mpr hcurrent
      refine ⟨⟨s.buffer.set s.bufIdx ch hroom, s.bufIdx + 1, s.argIdx, true, s.argv⟩, ?_, ?_⟩
      · simp only [parseRound, if_neg hblank, hin, if_true, storeAt_eq s.buffer _ hroom,
          Option.bind_eq_bind, Option.bind_some, Option.pure_def]
      · refine ⟨hs.argIdx_eq, by simp, ?_, hs.written, fun _ => ?_, ?_⟩
        · rw [List.length_append]
          exact congrArg (· + 1) hs.bufIdx_eq
        · rw [List.length_append, List.length_singleton, Nat.add_sub_add_right]
          exact hs.started hcurrent
        · simpa using hle

/-- The loop reads the characters up to some point, and stops before the end of the line only
when the argument vector is full. -/
theorem parseLoop_reads {rest : List Byte} (hs : s.Reads sc)
    (hshort : ∀ x ∈ (rest.foldl (TokenScan.push Blank) sc).finished,
      x.2.length < shellMaxCmdLen) :
    ∃ s' mid post, rest = mid ++ post ∧ parseLoop s sc.pos rest = some s' ∧
      s'.Reads (mid.foldl (TokenScan.push Blank) sc) ∧
      (post = [] ∨ s'.argIdx = shellMaxArgs) := by
  induction rest generalizing s sc with
  | nil => exact ⟨s, [], [], rfl, rfl, hs, .inl rfl⟩
  | cons ch rest ih =>
    by_cases hslot : s.argIdx < shellMaxArgs
    · have hlen := TokenScan.current_lt_of_finished (by decide) hshort
      obtain ⟨t, hround, ht⟩ := parseRound_reads hs hslot hlen ch
      obtain ⟨s', mid, post, hrest, hloop, hs', hend⟩ := ih ht hshort
      refine ⟨s', ch :: mid, post, by rw [hrest, List.cons_append], ?_, hs', hend⟩
      rw [TokenScan.push_pos] at hloop
      rw [parseLoop, if_pos hslot, hround, Option.bind_eq_bind, Option.bind_some, hloop]
    · refine ⟨s, [], ch :: rest, rfl, ?_, hs, .inr (le_antisymm hs.argIdx_le (not_lt.mp hslot))⟩
      rw [parseLoop, if_neg hslot]
      rfl

/-- The end counts the open token. -/
theorem parseEnd_reads (hs : s.Reads sc) (hlen : sc.current.length < shellMaxCmdLen) :
    parseEnd s = some sc.finished.length := by
  have hroom : s.bufIdx < shellMaxCmdLen := hs.bufIdx_eq ▸ hlen
  unfold parseEnd TokenScan.finished
  by_cases hcurrent : sc.current = []
  · rw [if_neg (Bool.eq_false_iff.mp (hs.inArg_eq_false hcurrent)), if_pos hcurrent, hs.argIdx_eq]
  · rw [if_pos (hs.inArg_iff.mpr hcurrent), if_neg hcurrent, storeAt_eq s.buffer _ hroom,
      List.length_append, hs.argIdx_eq]
    rfl

/-- `shell_parse_args` before its loop. -/
def parseStart (argv : Vector (Option ℤ) shellMaxArgs) : ParseState :=
  ⟨Vector.replicate _ 0, 0, 0, false, argv⟩

/-- Nothing is read. -/
theorem reads_start (argv : Vector (Option ℤ) shellMaxArgs) :
    (parseStart argv).Reads TokenScan.start :=
  ⟨rfl, by simp [TokenScan.start, parseStart], rfl, by simp [TokenScan.start],
    by simp [TokenScan.start], Nat.le_refl 0⟩

/-- `shell_parse_args` on a line whose tokens fit its buffer: it counts up to 16 tokens and sets
the argument vector to their positions. -/
theorem shellParseArgs_eq {cmdline : List Byte}
    (hshort : ∀ x ∈ tokens Blank cmdline, x.2.length < shellMaxCmdLen)
    (argv : Vector (Option ℤ) shellMaxArgs) :
    ∃ argv', shellParseArgs cmdline argv =
        some (if shellMaxArgs ≤ (tokens Blank cmdline).length then -1 else 0,
          min (tokens Blank cmdline).length shellMaxArgs, argv') ∧
      ∀ (i : ℕ) (x : ℕ × List Byte), i < shellMaxArgs → (tokens Blank cmdline)[i]? = some x →
        argv'[i]? = some (some (x.1 : ℤ)) := by
  obtain ⟨s, mid, post, hline, hloop, hs, hend⟩ := parseLoop_reads (reads_start argv) hshort
  have hlen : (mid.foldl (TokenScan.push Blank) TokenScan.start).current.length <
      shellMaxCmdLen := by
    have hparts : ∀ x ∈ (post.foldl (TokenScan.push Blank) (scan Blank mid)).finished,
        x.2.length < shellMaxCmdLen := by
      rwa [scan, ← List.foldl_append, ← hline]
    exact TokenScan.current_lt_of_finished (by decide) hparts
  have hparse : shellParseArgs cmdline argv = some
      (if shellMaxArgs ≤ (tokens Blank mid).length then -1 else 0, (tokens Blank mid).length,
        s.argv) := by
    unfold parseStart at hloop
    rw [shellParseArgs, show parseLoop _ 0 cmdline = some s from hloop, Option.bind_eq_bind,
      Option.bind_some, parseEnd_reads hs hlen]
    rfl
  have htake : tokens Blank mid = (tokens Blank (mid ++ post)).take shellMaxArgs :=
    hs.tokens_take hend
  rw [← hline] at htake
  refine ⟨s.argv, ?_, fun i x hi hx => hs.finished ?_⟩
  · rw [hparse, htake, List.length_take, Nat.min_comm]
    simp only [Nat.le_min, Nat.le_refl, and_true]
  · change (tokens Blank mid)[i]? = some x
    rw [htake, List.getElem?_take, if_pos hi, hx]

/-- The tokens of a line fit in it. -/
theorem tokens_le {cmdline : List Byte} {x : ℕ × List Byte} (hx : x ∈ tokens Blank cmdline) :
    x.1 + x.2.length ≤ cmdline.length := by
  obtain ⟨pre, post, hline, hpre, -⟩ := mem_tokens_iff.mp hx
  rw [hline, List.length_append, List.length_append, hpre]
  exact Nat.le_add_right _ _

/-- A pointer is set and points into the line or to its end. -/
def PointsWithin (argv : Vector (Option ℤ) shellMaxArgs) (i pos : ℕ) : Prop :=
  ∃ p : ℤ, argv[i]? = some (some p) ∧ 0 ≤ p ∧ p ≤ pos

/-- `shell_parse_args` returns on a line of fewer than 256 characters, and every argument it
counts points into the line. -/
theorem shellParseArgs_returns {cmdline : List Byte} (hlen : cmdline.length < shellMaxCmdLen)
    (argv : Vector (Option ℤ) shellMaxArgs) :
    ∃ ret argc argv', shellParseArgs cmdline argv = some (ret, argc, argv') ∧
      ∀ i < argc, PointsWithin argv' i cmdline.length := by
  have hshort : ∀ x ∈ tokens Blank cmdline, x.2.length < shellMaxCmdLen := fun x hx => by
    have := tokens_le hx
    omega
  obtain ⟨argv', hparse, hargv⟩ := shellParseArgs_eq hshort argv
  refine ⟨_, _, argv', hparse, fun i hi => ?_⟩
  obtain ⟨hi, hslot⟩ := Nat.lt_min.mp hi
  have hle := tokens_le (List.getElem_mem hi)
  exact ⟨_, hargv i _ hslot (List.getElem?_eq_getElem hi), by omega, by omega⟩

variable {i : ℕ}

/-- A pointer into the line is a string. -/
theorem PointsWithin.stringAt_eq {cmdline : List Byte} (h : PointsWithin argv i cmdline.length) :
    ∃ str, stringAt cmdline (argv[i]?.bind id) = some str := by
  obtain ⟨p, hp, hlo, hhi⟩ := h
  refine ⟨cmdline.drop p.toNat, ?_⟩
  rw [hp, Option.bind_some, id, stringAt]
  simp only [Option.bind_eq_bind, Option.bind_some, if_pos (And.intro hlo hhi), Option.pure_def]

section Prints

/-- Printing returns and leaves the cursor on the screen. -/
def Prints (print : VgaState → Option VgaState) : Prop :=
  ∀ v : VgaState, v.InBounds → ∃ v', print v = some v' ∧ v'.InBounds

theorem prints_putLiteral (s : String) (fg : Byte) : Prints fun v => putLiteral v s fg :=
  fun _ hv => vgaPutstr_returns hv _ _

theorem prints_putLiterals (texts : List (String × Byte)) : Prints fun v => putLiterals v texts :=
  fun _ hv => foldlM_returns VgaState.InBounds (fun p _ w hw => prints_putLiteral p.1 p.2 w hw) hv

/-- Printing one after the other. -/
theorem Prints.bind {print next : VgaState → Option VgaState} (hprint : Prints print)
    (hnext : Prints next) : Prints fun v => (print v).bind next := by
  intro v hv
  obtain ⟨w, hw, hbounds⟩ := hprint v hv
  obtain ⟨v', hv', hbounds'⟩ := hnext w hbounds
  refine ⟨v', ?_, hbounds'⟩
  simp only [hw, Option.bind_some, hv']

theorem prints_cmdHelp : Prints cmdHelp :=
  (prints_putLiteral _ _).bind fun _ hv =>
    foldlM_returns VgaState.InBounds (fun _ _ w hw => prints_putLiterals _ w hw) hv

theorem prints_vgaClear : Prints vgaClear := by
  intro v _
  obtain ⟨v', hclear, hx, hy, -⟩ := vgaClear_eq v
  exact ⟨v', hclear, by rw [hx]; decide, by rw [hy]; decide⟩

theorem prints_cmdEcho {cmdline : List Byte} {argc : ℕ}
    (hargs : ∀ i < argc, PointsWithin argv i cmdline.length) :
    Prints fun v => cmdEcho v cmdline argc argv := by
  refine Prints.bind (fun v hv => foldlM_returns VgaState.InBounds (fun k hk w hw => ?_) hv)
    (prints_putLiteral _ _)
  have hlt := List.mem_range.mp hk
  obtain ⟨str, hstr⟩ := (hargs (k + 1) (by omega)).stringAt_eq
  obtain ⟨w', hput, hw'⟩ := vgaPutstr_returns hw (some str) echoColor
  simp only [hstr, hput, Option.bind_eq_bind, Option.bind_some]
  split
  · exact prints_putLiteral _ _ w' hw'
  · exact ⟨w', rfl, hw'⟩

end Prints

/-- Every handler returns, or halts after printing, and leaves the cursor on the screen. -/
theorem runHandler_returns (handler : Handler) {v : VgaState} (hv : v.InBounds)
    {cmdline : List Byte} {argc : ℕ} (hargs : ∀ i < argc, PointsWithin argv i cmdline.length) :
    ∃ r, runHandler handler v cmdline argc argv = some r ∧ r.vga.InBounds := by
  have hends : ∀ {o : Option VgaState} (ends : VgaState → Executed), (∀ w, (ends w).vga = w) →
      (∃ w, o = some w ∧ w.InBounds) → ∃ r, o.map ends = some r ∧ r.vga.InBounds := by
    rintro o ends hvga ⟨w, rfl, hw⟩
    exact ⟨ends w, rfl, by rwa [hvga]⟩
  cases handler with
  | help => exact hends _ (fun _ => rfl) (prints_cmdHelp v hv)
  | echo => exact hends _ (fun _ => rfl) (prints_cmdEcho hargs v hv)
  | clear =>
    rw [runHandler]
    exact hends _ (fun _ => rfl) (prints_vgaClear v hv)
  | mem => exact hends _ (fun _ => rfl) (prints_putLiterals _ v hv)
  | ps => exact hends _ (fun _ => rfl) (prints_putLiterals _ v hv)
  | uname => exact hends _ (fun _ => rfl) (prints_putLiteral _ _ v hv)
  | reboot => exact hends _ (fun _ => rfl) (prints_putLiteral _ _ v hv)
  | ls => exact hends _ (fun _ => rfl) (prints_putLiteral _ _ v hv)
  | info => exact hends _ (fun _ => rfl) (prints_putLiterals _ v hv)

/-- `shell_execute` returns on every line of fewer than 256 characters, or halts, and leaves
the cursor on the screen. -/
theorem shellExecute_returns {v : VgaState} (hv : v.InBounds) {cmdline : List Byte}
    (hlen : cmdline.length < shellMaxCmdLen) :
    ∃ r, shellExecute v cmdline = some r ∧ r.vga.InBounds := by
  obtain ⟨ret, argc, argv, hparse, hargs⟩ := shellParseArgs_returns hlen (Vector.replicate _ none)
  unfold shellExecute
  split
  · exact ⟨_, rfl, hv⟩
  · simp only [hparse, Option.bind_eq_bind, Option.bind_some]
    split
    · obtain ⟨w, hput, hw⟩ := prints_putLiteral "Error: too many arguments\n" vgaColorRed v hv
      simp only at hput
      exact ⟨.returned (-1) w, by rw [hput]; rfl, hw⟩
    · split
      · exact ⟨_, rfl, hv⟩
      · rename_i hargc
        obtain ⟨arg, harg⟩ := (hargs 0 (by omega)).stringAt_eq
        simp only [harg, Option.bind_some]
        split
        · exact runHandler_returns _ hv hargs
        · obtain ⟨v₁, h₁, hv₁⟩ := prints_putLiteral "Command not found: " vgaColorRed v hv
          obtain ⟨v₂, h₂, hv₂⟩ :=
            vgaPutstr_returns hv₁ (some arg) (vgaColor vgaColorRed vgaColorBlack)
          obtain ⟨v₃, h₃, hv₃⟩ := prints_putLiteral "\n" vgaColorRed v₂ hv₂
          simp only at h₁ h₃
          exact ⟨.returned (-1) v₃, by simp only [h₁, h₂, h₃, Option.bind_some, Option.pure_def],
            hv₃⟩

end Nimbu
