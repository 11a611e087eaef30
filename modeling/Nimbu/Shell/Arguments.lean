import Nimbu.Shell.ParseArgs

/-!
# Arguments

The arguments of a command line are its tokens, the maximal runs of characters
other than space and tab. `shell_parse_args` finds the position of each of them. It
copies their characters to a local buffer and ends them there, while the pointers it
returns go into the line itself, where the string of an argument runs on to the end
of the line. And it fails already with as many arguments as there are slots.
-/

namespace Nimbu

variable {cmdline : List Byte} {argv : Vector (Option ℤ) shellMaxArgs}

section Positions

/-- The loop goes on behind a part of the line. -/
theorem parseLoop_append (s : ParseState) (pos : ℕ) (pre rest : List Byte) :
    parseLoop s pos (pre ++ rest) =
      (parseLoop s pos pre).bind fun s' => parseLoop s' (pos + pre.length) rest := by
  induction pre generalizing s pos with
  | nil => rfl
  | cons ch pre ih =>
    rw [List.cons_append, parseLoop, parseLoop]
    split
    · cases hround : parseRound s pos ch with
      | none => rfl
      | some t =>
        rw [List.length_cons, show pos + (pre.length + 1) = pos + 1 + pre.length by omega]
        exact ih t (pos + 1)
    · rename_i hfull
      cases rest with
      | nil => rfl
      | cons ch rest =>
        rw [Option.pure_def, Option.bind_some, parseLoop, if_neg hfull]
        rfl

/-- With fewer than 16 tokens the loop reads every part of the line. -/
theorem parseLoop_scan (argv : Vector (Option ℤ) shellMaxArgs)
    (hcount : (tokens Blank cmdline).length ≤ shellMaxArgs - 1)
    (hshort : ∀ x ∈ tokens Blank cmdline, x.2.length < shellMaxCmdLen) {pre rest : List Byte}
    (hline : cmdline = pre ++ rest) :
    ∃ s, parseLoop (parseStart argv) 0 pre = some s ∧ s.Reads (scan Blank pre) := by
  subst hline
  have hclosed : (scan Blank pre).closed <+: tokens Blank (pre ++ rest) := by
    have hstart := (scan Blank pre).closed_prefix_foldl Blank rest
    rwa [scan, ← List.foldl_append] at hstart
  have hpart : ∀ x ∈ tokens Blank pre, x.2.length < shellMaxCmdLen := by
    rw [tokens, scan, List.foldl_append] at hshort
    exact TokenScan.finished_lt_of_finished (by decide) hshort
  obtain ⟨s, mid, post, hpre, hloop, hs, hend⟩ := parseLoop_reads (reads_start argv) hpart
  rcases hend with rfl | hfull
  · rw [List.append_nil] at hpre
    exact ⟨s, hloop, hpre ▸ hs⟩
  · -- A full argument vector would hold 16 tokens.
    have hmid := (scan Blank mid).closed_prefix_foldl Blank (post ++ rest)
    rw [scan, ← List.foldl_append, ← List.append_assoc, ← hpre] at hmid
    have hle := hmid.length_le
    rw [show (List.foldl (TokenScan.push Blank) TokenScan.start mid).closed.length = shellMaxArgs
      from hs.argIdx_eq.symm.trans hfull] at hle
    exact absurd (hle.trans hcount) (by decide)

/-- On a line with fewer than 16 tokens, each of fewer than 256 characters, `shell_parse_args`
returns 0, counts the tokens and sets the argument vector to the positions of their first
characters. At every point of the line where an argument has started, the pointer that would be
computed at its end is the one that is stored. -/
theorem shellParseArgs_positions (cmdline : List Byte) (argv : Vector (Option ℤ) shellMaxArgs)
    (hcount : (tokens Blank cmdline).length ≤ shellMaxArgs - 1)
    (hshort : ∀ x ∈ tokens Blank cmdline, x.2.length < shellMaxCmdLen) :
    (∃ argv', shellParseArgs cmdline argv = some (0, (tokens Blank cmdline).length, argv') ∧
      ∀ (i : ℕ) (x : ℕ × List Byte), (tokens Blank cmdline)[i]? = some x →
        argv'[i]? = some (some (x.1 : ℤ))) ∧
    ∀ pre rest : List Byte, cmdline = pre ++ rest →
      ∃ s, parseLoop (parseStart argv) 0 pre = some s ∧
        parseLoop (parseStart argv) 0 cmdline = parseLoop s pre.length rest ∧
        (s.inArg = true → s.argv[s.argIdx]? =
          some (some ((pre.length : ℤ) - (s.bufIdx + 1 : ℕ) + 1))) := by
  have hlt : (tokens Blank cmdline).length < shellMaxArgs := Nat.lt_of_le_of_lt hcount (by decide)
  constructor
  · obtain ⟨argv', hparse, hargv⟩ := shellParseArgs_eq hshort argv
    rw [if_neg (not_le.mpr hlt), Nat.min_eq_left hlt.le] at hparse
    refine ⟨argv', hparse, fun i x hx => hargv i x ?_ hx⟩
    exact (List.getElem?_eq_some_iff.mp hx).1.trans hlt
  · intro pre rest hline
    obtain ⟨s, hloop, hs⟩ := parseLoop_scan argv hcount hshort hline
    refine ⟨s, hloop, ?_, fun hin => ?_⟩
    · rw [hline, parseLoop_append, hloop, Option.bind_some, Nat.zero_add]
    · rw [hs.started (hs.inArg_iff.mp hin), ← hs.recomputed, scan_pos]

/-- The two arguments of a line with blanks on all sides. -/
theorem shellParseArgs_positions_echo :
    (tokens Blank (literal " echo \t hi ")).length = 2 ∧
      ∃ argv', shellParseArgs (literal " echo \t hi ") (Vector.replicate _ none) =
          some (0, 2, argv') ∧ argv'[0]? = some (some 1) ∧ argv'[1]? = some (some 8) := by
  obtain ⟨argv', hparse, hargv⟩ := (shellParseArgs_positions (literal " echo \t hi ")
    (Vector.replicate _ none) (by decide +kernel) (by decide +kernel)).1
  have htokens : tokens Blank (literal " echo \t hi ") =
      [(1, literal "echo"), (8, literal "hi")] := by decide +kernel
  rw [htokens] at hparse hargv
  refine ⟨by rw [htokens]; rfl, argv', hparse, hargv 0 _ rfl, hargv 1 _ rfl⟩

end Positions

section Strings

/-- `shell_parse_args` splits a line into strings: it returns 0 and the number of tokens, the
strings behind the pointers are the tokens, and `cmd_echo` prints all but the first of them with
one space in between. -/
def SplitsIntoStrings (cmdline : List Byte) (argv : Vector (Option ℤ) shellMaxArgs) : Prop :=
  ∃ argv', shellParseArgs cmdline argv = some (0, (tokens Blank cmdline).length, argv') ∧
    (∀ (i : ℕ) (x : ℕ × List Byte), (tokens Blank cmdline)[i]? = some x →
      stringAt cmdline (argv'[i]?.bind id) = some x.2) ∧
    ∀ v, cmdEcho v cmdline (tokens Blank cmdline).length argv' =
      vgaPutstr v (some ([0x20].intercalate ((tokens Blank cmdline).tail.map Prod.snd) ++ [0x0A]))
        echoColor

/-- The string behind a pointer into the line runs to the end of the line. -/
theorem stringAt_eq {p : ℕ} (hp : p ≤ cmdline.length) :
    stringAt cmdline (some (p : ℤ)) = some (cmdline.drop p) := by
  have hrange : (0 : ℤ) ≤ p ∧ (p : ℤ) ≤ cmdline.length := by omega
  simp only [stringAt, Option.bind_eq_bind, Option.bind_some, if_pos hrange, Option.pure_def,
    Int.toNat_natCast]

/-- Only the last token can reach the end of the line. -/
theorem length_tokens_le_one
    (hends : ∀ x ∈ tokens Blank cmdline, x.1 + x.2.length = cmdline.length) :
    (tokens Blank cmdline).length ≤ 1 := by
  by_contra hgt
  rw [not_le] at hgt
  have hfirst := hends _ (List.getElem_mem (Nat.lt_of_succ_lt hgt))
  have hsecond := tokens_le (List.getElem_mem hgt)
  have hbehind := List.pairwise_iff_getElem.mp (tokens_pairwise cmdline) 0 1
    (Nat.lt_of_succ_lt hgt) hgt Nat.zero_lt_one
  omega

/-- A line with fewer than 16 tokens, each of fewer than 256 characters, is split into strings
exactly when no token has a blank behind it: each reaches the end of the line. -/
theorem splitsIntoStrings_iff (cmdline : List Byte) (argv : Vector (Option ℤ) shellMaxArgs)
    (hcount : (tokens Blank cmdline).length ≤ shellMaxArgs - 1)
    (hshort : ∀ x ∈ tokens Blank cmdline, x.2.length < shellMaxCmdLen) :
    SplitsIntoStrings cmdline argv ↔
      ∀ x ∈ tokens Blank cmdline, x.1 + x.2.length = cmdline.length := by
  have hlt : (tokens Blank cmdline).length < shellMaxArgs := Nat.lt_of_le_of_lt hcount (by decide)
  obtain ⟨argv', hparse, hargv⟩ := shellParseArgs_eq hshort argv
  rw [if_neg (not_le.mpr hlt), Nat.min_eq_left hlt.le] at hparse
  -- Every argument is the rest of the line from its token on.
  have hrest : ∀ (i : ℕ) (x : ℕ × List Byte), (tokens Blank cmdline)[i]? = some x →
      stringAt cmdline (argv'[i]?.bind id) = some (cmdline.drop x.1) := by
    intro i x hx
    have hle := tokens_le (List.mem_of_getElem? hx)
    rw [hargv i x ((List.getElem?_eq_some_iff.mp hx).1.trans hlt) hx]
    exact stringAt_eq (by omega)
  constructor
  · rintro ⟨argv'', hparse', hstrings, -⟩ x hx
    rw [hparse, Option.some.injEq, Prod.mk.injEq, Prod.mk.injEq] at hparse'
    obtain ⟨-, -, rfl⟩ := hparse'
    obtain ⟨i, hi⟩ := List.getElem?_of_mem hx
    have hle := tokens_le hx
    have hdrop : cmdline.drop x.1 = x.2 :=
      Option.some.inj ((hrest i x hi).symm.trans (hstrings i x hi))
    rw [← hdrop, List.length_drop]
    omega
  · intro hends
    refine ⟨argv', hparse, fun i x hx => ?_, fun v => ?_⟩
    · have hmem := List.mem_of_getElem? hx
      obtain ⟨pre, post, hline, hpre, -⟩ := mem_tokens_iff.mp hmem
      have hlen := hends x hmem
      have hpost : post = [] := by
        rw [hline, List.length_append, List.length_append, hpre] at hlen
        exact List.length_eq_zero_iff.mp (by omega)
      rw [hrest i x hx, hline, hpost, List.append_nil, ← hpre, List.drop_left]
    · -- There is nothing behind the command to print.
      have hone := length_tokens_le_one hends
      have htail : (tokens Blank cmdline).tail = [] :=
        List.length_eq_zero_iff.mp (by rw [List.length_tail]; omega)
      rw [cmdEcho, Nat.sub_eq_zero_of_le hone, htail]
      rfl

/-- A line with one token, behind a blank. -/
theorem splitsIntoStrings_ls : SplitsIntoStrings (literal " ls") (Vector.replicate _ none) :=
  (splitsIntoStrings_iff (literal " ls") (Vector.replicate _ none) (by decide +kernel)
    (by decide +kernel)).mpr (by decide +kernel)

/-- The first of two arguments is the whole line, and not the first token. -/
theorem not_splitsIntoStrings_echo :
    (tokens Blank (literal "echo a")).length ≤ shellMaxArgs - 1 ∧
      (∀ x ∈ tokens Blank (literal "echo a"), x.2.length < shellMaxCmdLen) ∧
      (shellParseArgs (literal "echo a") (Vector.replicate _ none)).bind
          (fun r => stringAt (literal "echo a") (r.2.2[0]?.bind id)) = some (literal "echo a") ∧
      ¬ SplitsIntoStrings (literal "echo a") (Vector.replicate _ none) := by
  have hwhole : (shellParseArgs (literal "echo a") (Vector.replicate _ none)).bind
      (fun r => stringAt (literal "echo a") (r.2.2[0]?.bind id)) = some (literal "echo a") := by
    decide +kernel
  refine ⟨by decide +kernel, by decide +kernel, hwhole, ?_⟩
  rintro ⟨argv', hparse, hstrings, -⟩
  rw [hparse, Option.bind_some] at hwhole
  have hfirst := hstrings 0 (0, literal "echo") (by decide +kernel)
  rw [hwhole] at hfirst
  exact absurd hfirst (by decide +kernel)

end Strings

section Limit

/-- The limit on the number of arguments: with blanks behind the line or without, the result
is 0 for up to 16 tokens and -1 for more. -/
def LimitsArguments (cmdline : List Byte) (argv : Vector (Option ℤ) shellMaxArgs) : Prop :=
  ∀ blanks : List Byte, (∀ ch ∈ blanks, Blank ch) →
    ∃ ret argc argv', shellParseArgs (cmdline ++ blanks) argv = some (ret, argc, argv') ∧
      (ret = 0 ↔ (tokens Blank cmdline).length ≤ shellMaxArgs) ∧
      (ret = -1 ↔ shellMaxArgs < (tokens Blank cmdline).length)

/-- The limit is kept exactly where the number of tokens is not the limit itself, which is
refused. -/
theorem limitsArguments_iff (cmdline : List Byte) (argv : Vector (Option ℤ) shellMaxArgs)
    (hshort : ∀ x ∈ tokens Blank cmdline, x.2.length < shellMaxCmdLen) :
    LimitsArguments cmdline argv ↔ (tokens Blank cmdline).length ≠ shellMaxArgs := by
  constructor
  · intro hlimits hfull
    obtain ⟨ret, argc, argv', hparse, hzero, -⟩ := hlimits [] (by simp)
    obtain ⟨argv'', hparse', -⟩ := shellParseArgs_eq hshort argv
    rw [List.append_nil, hparse', if_pos hfull.ge, Option.some.injEq, Prod.mk.injEq] at hparse
    rw [← hparse.1] at hzero
    exact absurd (hzero.mpr hfull.le) (by decide)
  · intro hne blanks hblanks
    have hsame := tokens_append_blanks hblanks cmdline
    obtain ⟨argv', hparse, -⟩ := shellParseArgs_eq (by rwa [hsame]) argv
    refine ⟨_, _, argv', hparse, ?_, ?_⟩
    · rw [hsame]
      split
      · exact iff_of_false (by decide) (by omega)
      · exact iff_of_true rfl (by omega)
    · rw [hsame]
      split
      · exact iff_of_true rfl (by omega)
      · exact iff_of_false (by decide) (by omega)

/-- Seventeen arguments are too many. -/
theorem limitsArguments_seventeen :
    LimitsArguments (literal "a b c d e f g h i j k l m n o p q") (Vector.replicate _ none) :=
  (limitsArguments_iff (literal "a b c d e f g h i j k l m n o p q") (Vector.replicate _ none)
    (by decide +kernel)).mpr (by decide +kernel)

/-- Sixteen arguments, for which there are slots, are refused. -/
theorem not_limitsArguments_sixteen :
    (∀ x ∈ tokens Blank (literal "a b c d e f g h i j k l m n o p"),
      x.2.length < shellMaxCmdLen) ∧
      (tokens Blank (literal "a b c d e f g h i j k l m n o p")).length = shellMaxArgs ∧
      (shellParseArgs (literal "a b c d e f g h i j k l m n o p")
        (Vector.replicate _ none)).map Prod.fst = some (-1) ∧
      ¬ LimitsArguments (literal "a b c d e f g h i j k l m n o p") (Vector.replicate _ none) := by
  have hcount : (tokens Blank (literal "a b c d e f g h i j k l m n o p")).length =
      shellMaxArgs := by decide +kernel
  have hret : (shellParseArgs (literal "a b c d e f g h i j k l m n o p")
      (Vector.replicate _ none)).map Prod.fst = some (-1) := by decide +kernel
  refine ⟨by decide +kernel, hcount, hret, fun hlimits => ?_⟩
  obtain ⟨ret, argc, argv', hparse, hzero, -⟩ := hlimits [] (by simp)
  rw [List.append_nil] at hparse
  rw [hparse, Option.map_some, Option.some.injEq] at hret
  exact absurd (hret.symm.trans (hzero.mpr hcount.le)) (by decide)

end Limit

end Nimbu
