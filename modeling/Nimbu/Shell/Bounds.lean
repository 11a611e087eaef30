import Mathlib.Data.List.TakeWhile
import Nimbu.Shell.Arguments
import Nimbu.Shell.LineEditor

/-!
# Bounds of the line

`shell_parse_args` does not check the index of its local buffer. It stays within it
because `shell_read_line` ends every line within the 256 bytes of its own buffer: the
longest argument has 255 characters, and its 0 takes the last byte.
-/

namespace Nimbu

/-- The command line in a buffer is safe: it ends within the buffer, `shell_parse_args` writes
within its arrays at every character of it, and `shell_execute` reads a first argument that was
written. A write outside an array, or a read through a pointer that was not set, has no
result. -/
structure WithinBounds (cmdline : Vector Byte shellMaxCmdLen) : Prop where
  /-- There is a 0 in the buffer. -/
  terminated : ∃ i < shellMaxCmdLen, cmdline[i]? = some 0
  /-- The line stands before it. -/
  length_lt : (cstring cmdline).length < shellMaxCmdLen
  /-- The indices at which a character is stored. -/
  indices : ∀ (argv : Vector (Option ℤ) shellMaxArgs) (pre rest : List Byte),
    cstring cmdline = pre ++ rest → ∃ s, parseLoop (parseStart argv) 0 pre = some s ∧
      s.bufIdx ≤ shellMaxCmdLen - 1 ∧ (s.inArg = true → s.argIdx < shellMaxArgs)
  /-- All writes are within the arrays. -/
  parses : ∀ argv : Vector (Option ℤ) shellMaxArgs, (shellParseArgs (cstring cmdline) argv).isSome
  /-- The first argument is set if there is one. -/
  first : ∀ ret argc argv, shellParseArgs (cstring cmdline) (Vector.replicate _ none) =
    some (ret, argc, argv) → argc ≠ 0 → ∃ p, argv[0]? = some (some p)
  /-- The command is executed. -/
  executes : ∀ v : VgaState, v.InBounds → (shellExecute v (cstring cmdline)).isSome

/-- A string that is shorter than its buffer ends with a 0. -/
theorem exists_zero_of_cstring_lt {n : ℕ} {buffer : Vector Byte n}
    (hlen : (cstring buffer).length < n) : ∃ i < n, buffer[i]? = some 0 := by
  by_contra hnone
  have hall : ∀ b ∈ buffer.toList, decide (b ≠ 0) = true := by
    intro b hb
    obtain ⟨i, hi, rfl⟩ := List.getElem_of_mem hb
    rw [Vector.length_toList] at hi
    refine decide_eq_true fun hzero => hnone ⟨i, hi, ?_⟩
    rw [Vector.getElem?_eq_getElem hi, ← hzero, Vector.getElem_toList]
  have hwhole : cstring buffer = buffer.toList := List.takeWhile_eq_self_iff.mpr hall
  rw [hwhole, Vector.length_toList] at hlen
  exact Nat.lt_irrefl _ hlen

/-- Every line that is shorter than its buffer is safe. -/
theorem withinBounds_of_length_lt {cmdline : Vector Byte shellMaxCmdLen}
    (hlen : (cstring cmdline).length < shellMaxCmdLen) : WithinBounds cmdline := by
  refine ⟨exists_zero_of_cstring_lt hlen, hlen, fun argv pre rest hline => ?_, fun argv => ?_,
    fun ret argc argv hparse hargc => ?_, fun v hv => ?_⟩
  · have hpre : pre.length < shellMaxCmdLen := by
      rw [hline, List.length_append] at hlen
      exact Nat.lt_of_le_of_lt (Nat.le_add_right _ _) hlen
    have hshort : ∀ x ∈ tokens Blank pre, x.2.length < shellMaxCmdLen := fun x hx => by
      have := tokens_le hx
      omega
    obtain ⟨s, mid, post, hmid, hloop, hs, -⟩ := parseLoop_reads (reads_start argv) hshort
    refine ⟨s, hloop, ?_, fun hin => hs.slot (hs.inArg_iff.mp hin)⟩
    -- The open token is part of the line.
    have hle := hs.current_le
    rw [← hs.bufIdx_eq, show (mid.foldl (TokenScan.push Blank) TokenScan.start).pos = mid.length
      from scan_pos mid] at hle
    rw [hmid, List.length_append] at hpre
    omega
  · obtain ⟨ret, argc, argv', hparse, -⟩ := shellParseArgs_returns hlen argv
    rw [hparse]
    rfl
  · obtain ⟨ret', argc', argv', hparse', hargs⟩ :=
      shellParseArgs_returns hlen (Vector.replicate _ none)
    rw [hparse, Option.some.injEq, Prod.mk.injEq, Prod.mk.injEq] at hparse'
    obtain ⟨-, rfl, rfl⟩ := hparse'
    obtain ⟨p, hp, -⟩ := hargs 0 (Nat.pos_of_ne_zero hargc)
    exact ⟨p, hp⟩
  · obtain ⟨r, hexec, -⟩ := shellExecute_returns hv hlen
    rw [hexec]
    rfl

/-- `shell_read_line` writes within its buffer on every input, and the text it returns ends
within it. -/
theorem shellReadLine_returns {n : ℕ} {s : LineState n} (hs : s.Holds []) (hn : 0 < n)
    (input : List Byte) :
    ∃ s' returned, shellReadLine s input = some (s', returned) ∧
      (returned.isSome → (cstring s'.buffer).length < n) := by
  rcases hs.editsLine hn input with ⟨pre, rest, s', -, hread, hstring⟩ | ⟨-, s', hread, -⟩
  · exact ⟨s', some rest, hread, fun _ => hstring.length_cstring_lt⟩
  · exact ⟨s', none, hread, by simp⟩

/-- **Line input and parsing stay within bounds.** On every stream of characters
`shell_read_line` writes within its buffer, and the line in it, once it returns, is safe. -/
theorem shellReadLine_withinBounds (cmdline : Vector Byte shellMaxCmdLen) {v : VgaState}
    (hv : v.InBounds) (input : List Byte) :
    ∃ s returned, shellReadLine ⟨cmdline, 0, v⟩ input = some (s, returned) ∧
      (returned.isSome → WithinBounds s.buffer) := by
  have hs : (⟨cmdline, 0, v⟩ : LineState shellMaxCmdLen).Holds [] := ⟨rfl, List.take_zero, hv⟩
  obtain ⟨s, returned, hread, hlen⟩ := shellReadLine_returns hs (by decide) input
  exact ⟨s, returned, hread, fun hreturned => withinBounds_of_length_lt (hlen hreturned)⟩

/-- A line of 255 characters, the longest. -/
theorem shellReadLine_withinBounds_longest :
    ∃ s, shellReadLine ⟨Vector.replicate shellMaxCmdLen 0, 0,
          ⟨Vector.replicate 2000 vgaBlank, 0, 0⟩⟩ (List.replicate 255 0x78) = some (s, some []) ∧
      WithinBounds s.buffer := by
  obtain ⟨s, returned, hread, hsafe⟩ := shellReadLine_withinBounds (Vector.replicate _ 0)
    (show (⟨Vector.replicate 2000 vgaBlank, 0, 0⟩ : VgaState).InBounds from ⟨by decide, by decide⟩)
    (List.replicate 255 0x78)
  have heval : (shellReadLine ⟨Vector.replicate shellMaxCmdLen 0, 0,
      ⟨Vector.replicate 2000 vgaBlank, 0, 0⟩⟩ (List.replicate 255 0x78)).map Prod.snd =
        some (some []) := by
    decide +kernel
  rw [hread, Option.map_some, Option.some.injEq] at heval
  subst heval
  exact ⟨s, hread, hsafe rfl⟩

end Nimbu
