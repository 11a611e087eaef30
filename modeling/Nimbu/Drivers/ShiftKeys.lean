import Mathlib.Data.List.Induction
import Mathlib.Data.List.Infix
import Nimbu.Drivers.Kbd
import Nimbu.Machine.Since

/-!
# The shift keys

There are two shift keys, and one flag for both. A key is down from its make code to
its break code, and the flag tells whether one of them is down until one is released
while the other one is held.
-/

namespace Nimbu

/-- A key is down after some scancodes: its last make code has no break code behind it. -/
def KeyDown (key : Byte) (codes : List Byte) : Prop :=
  Since (fun scancode => scancode = key) (fun scancode => scancode = key ||| 0x80) codes

/-- The left or the right shift key is down. -/
def ShiftDown (codes : List Byte) : Prop := KeyDown 0x2A codes ∨ KeyDown 0x36 codes

/-- The scancode of an event, if it is an interrupt. -/
def KbdEvent.scancode? : KbdEvent → Option Byte
  | .interrupt scancode => some scancode
  | .getchar => none

/-- The scancodes of a run, in their order. -/
def scancodes (events : List KbdEvent) : List Byte := events.filterMap KbdEvent.scancode?

/-- The make code of a letter. -/
def IsLetter (scancode : Byte) : Prop :=
  scancode.toNat < 128 ∧ scancodeEntry scancode ≥ 0x61 ∧ scancodeEntry scancode ≤ 0x7A

/-- The shift state tracks the keys: at every moment of a run after `kbd_init` the flag is set
exactly when a shift key is down, and a letter typed then goes to the buffer in the case that
belongs to it. -/
def TracksShift (s₀ : Kbd) (events : List KbdEvent) : Prop :=
  ∀ pre, pre <+: events → ∃ replies s phase,
    exec kbdStep (kbdInit s₀, .idle) pre = some (replies, s, phase) ∧
    (s.shiftPressed ≠ 0 ↔ ShiftDown (scancodes pre)) ∧
    ∀ scancode, IsLetter scancode →
      (ShiftDown (scancodes pre) → kbdInterruptHandler s scancode =
        kbdEnqueue s (scancodeEntry scancode - 0x61 + 0x41)) ∧
      (¬ ShiftDown (scancodes pre) → kbdInterruptHandler s scancode =
        kbdEnqueue s (scancodeEntry scancode))

/-- A scancode does not release one shift key while the other one is down. -/
def ReleasesAlone (codes : List Byte) (scancode : Byte) : Prop :=
  (scancode = 0xAA → ¬ KeyDown 0x36 codes) ∧ (scancode = 0xB6 → ¬ KeyDown 0x2A codes)

variable {s : Kbd} {codes : List Byte} {key scancode : Byte} {events : List KbdEvent}

section Keys

/-- A make code presses its key and a break code releases it. -/
theorem keyDown_append_iff :
    KeyDown key (codes ++ [scancode]) ↔
      scancode = key ∨ scancode ≠ key ||| 0x80 ∧ KeyDown key codes :=
  since_append_iff

/-- The flag after some scancodes. -/
def shiftFlag (codes : List Byte) : Bool := codes.foldl shiftAfter false

/-- The flag after one more scancode. -/
theorem shiftFlag_append (codes : List Byte) (scancode : Byte) :
    shiftFlag (codes ++ [scancode]) = shiftAfter (shiftFlag codes) scancode := by
  rw [shiftFlag, List.foldl_append]
  rfl

/-- A flag that tracks the keys goes on to do so exactly when no key is released while the other
one is down. -/
theorem shiftFlag_tracks_step (hflag : shiftFlag codes = true ↔ ShiftDown codes) :
    (shiftFlag (codes ++ [scancode]) = true ↔ ShiftDown (codes ++ [scancode])) ↔
      ReleasesAlone codes scancode := by
  rw [shiftFlag_append, ShiftDown, keyDown_append_iff, keyDown_append_iff, ReleasesAlone,
    show (0x2A ||| 0x80 : Byte) = 0xAA from rfl, show (0x36 ||| 0x80 : Byte) = 0xB6 from rfl]
  unfold shiftAfter
  by_cases hmake : scancode = 0x2A ∨ scancode = 0x36
  · rcases hmake with rfl | rfl
    · simp
    · simp
  · by_cases hleft : scancode = 0xAA
    · subst hleft
      simp
    · by_cases hright : scancode = 0xB6
      · subst hright
        simp
      · rw [not_or] at hmake
        simp only [hmake.1, hmake.2, hleft, hright, or_self, if_false, false_or, ne_eq,
          not_false_eq_true, true_and, false_imp_iff, and_self, iff_true]
        exact hflag

end Keys

section Run

/-- Only the interrupts count. -/
theorem scancodes_append (events : List KbdEvent) (event : KbdEvent) :
    scancodes (events ++ [event]) = scancodes events ++ event.scancode?.toList := by
  rw [scancodes, List.filterMap_append]
  cases event with
  | interrupt scancode => rfl
  | getchar => rfl

/-- The notes on a run keep the flag. -/
theorem KbdLedger.note_shift (l : KbdLedger) (event : KbdEvent) (reply : Option Byte) :
    (l.note event reply).shift = event.scancode?.toList.foldl shiftAfter l.shift := by
  cases event with
  | interrupt scancode => rfl
  | getchar =>
    cases reply with
    | none => rfl
    | some ch =>
      change (if ch = 0 then l else { l with returned := l.returned ++ [ch] }).shift = l.shift
      split
      · rfl
      · rfl

/-- Every run returns, with the flag that its scancodes give. -/
theorem exec_shiftPressed (s₀ : Kbd) (events : List KbdEvent) :
    ∃ replies s phase l pending, exec kbdStep (kbdInit s₀, .idle) events =
        some (replies, s, phase) ∧ KbdInStep (s, phase) l pending ∧
      l.shift = shiftFlag (scancodes events) := by
  induction events using List.reverseRecOn with
  | nil => exact ⟨[], _, _, _, _, rfl, kbdInit_inStep s₀, rfl⟩
  | append_singleton events event ih =>
    obtain ⟨replies, s, phase, l, pending, hrun, hs, hshift⟩ := ih
    obtain ⟨reply, ⟨s', phase'⟩, hstep, pending', hs'⟩ := kbdStep_inStep event ⟨pending, hs⟩
    refine ⟨replies ++ [reply], s', phase', _, pending', exec_concat hrun hstep, hs', ?_⟩
    rw [KbdLedger.note_shift, hshift, scancodes_append, shiftFlag, shiftFlag, List.foldl_append]

/-- A letter goes to the buffer in the case that the flag gives. -/
theorem kbdInterruptHandler_letter (s : Kbd) (hletter : IsLetter scancode) :
    kbdInterruptHandler s scancode = kbdEnqueue s
      (if s.shiftPressed ≠ 0 then scancodeEntry scancode - 0x61 + 0x41
        else scancodeEntry scancode) := by
  obtain ⟨hlow, hrange⟩ := hletter
  have hmake : ¬ scancode &&& 0x80 ≠ 0 := by
    revert scancode
    decide
  have hentry : scancodeEntry scancode ≠ 0 := by
    intro hzero
    rw [hzero] at hrange
    exact absurd hrange.1 (by decide)
  -- The shift keys and the control key have no entry in the table.
  have hspecial : kbdHandleSpecialKey s scancode = s := by
    have hshift : ¬ (scancode = 0x2A ∨ scancode = 0x36) := by
      rintro (rfl | rfl)
      · exact hentry (by decide)
      · exact hentry (by decide)
    have hctrl : ¬ scancode = 0x1D := by
      rintro rfl
      exact hentry (by decide)
    simp only [kbdHandleSpecialKey, if_neg hshift, if_neg hctrl]
  simp only [kbdInterruptHandler, if_neg hmake, hspecial, if_pos (And.intro hlow hentry),
    if_pos hrange]

/-- Whether the shift state tracks the keys is decided by the scancodes. -/
theorem tracksShift_iff_flag (s₀ : Kbd) (events : List KbdEvent) :
    TracksShift s₀ events ↔ ∀ pre, pre <+: events →
      (shiftFlag (scancodes pre) = true ↔ ShiftDown (scancodes pre)) := by
  refine forall₂_congr fun pre _ => ?_
  obtain ⟨replies, s, phase, l, pending, hrun, hs, hshift⟩ := exec_shiftPressed s₀ pre
  have hpressed : s.shiftPressed ≠ 0 ↔ shiftFlag (scancodes pre) = true := by
    rw [← hshift]
    exact hs.shift_iff
  constructor
  · rintro ⟨replies', s', phase', hrun', hdown, -⟩
    rw [hrun, Option.some.injEq, Prod.mk.injEq, Prod.mk.injEq] at hrun'
    rw [← hpressed, hrun'.2.1]
    exact hdown
  · intro hflag
    have hdown := hpressed.trans hflag
    refine ⟨replies, s, phase, hrun, hdown, fun scancode hletter => ⟨fun h => ?_, fun h => ?_⟩⟩
    · rw [kbdInterruptHandler_letter s hletter, if_pos (hdown.mpr h)]
    · rw [kbdInterruptHandler_letter s hletter, if_neg (hdown.not.mpr h)]

/-- **The shift state tracks the keys until one is released under the other.** In every run
after `kbd_init` the flag and the case of the letters follow the two shift keys at every moment
if and only if no break code of one of them arrives while the other one is down. -/
theorem tracksShift_iff (s₀ : Kbd) (events : List KbdEvent) :
    TracksShift s₀ events ↔ ∀ pre scancode, pre ++ [.interrupt scancode] <+: events →
      ReleasesAlone (scancodes pre) scancode := by
  rw [tracksShift_iff_flag]
  induction events using List.reverseRecOn with
  | nil =>
    refine iff_of_true (fun pre hpre => ?_) fun pre scancode hpre => ?_
    · rw [List.prefix_nil.mp hpre]
      exact iff_of_false Bool.false_ne_true
        (not_or.mpr ⟨not_since_nil, not_since_nil⟩)
    · exact absurd (List.prefix_nil.mp hpre) (by simp)
  | append_singleton events event ih =>
    constructor
    · intro htracks pre scancode hpre
      have hbefore := htracks pre ((List.prefix_append pre _).trans hpre)
      have hafter := htracks _ hpre
      rw [scancodes_append] at hafter
      exact (shiftFlag_tracks_step hbefore).mp hafter
    · intro halone pre hpre
      have hearlier := ih.mpr fun pre scancode h =>
        halone pre scancode (h.trans (List.prefix_append _ _))
      rcases List.prefix_concat_iff.mp hpre with rfl | hpre
      · have hbefore := hearlier events (List.prefix_refl _)
        rw [scancodes_append]
        cases event with
        | interrupt scancode =>
          exact (shiftFlag_tracks_step hbefore).mpr (halone events scancode (List.prefix_refl _))
        | getchar =>
          rw [show (KbdEvent.getchar).scancode?.toList = [] from rfl, List.append_nil]
          exact hbefore
      · exact hearlier pre hpre

/-- The left shift key is released while the right one is down, and the `a` typed then is in
lower case. -/
theorem not_tracksShift_release :
    KeyDown 0x36 [0x2A, 0x36, 0xAA] ∧
      (exec kbdStep (kbdInit ⟨Vector.replicate 256 0, 0, 0, 0, 0⟩, .idle)
        [.interrupt 0x2A, .interrupt 0x36, .interrupt 0xAA, .interrupt 0x1E]).map
          (fun r => (r.2.1.shiftPressed, r.2.1.buffer[0])) = some (0, 0x61) ∧
      ¬ TracksShift ⟨Vector.replicate 256 0, 0, 0, 0, 0⟩
        [.interrupt 0x2A, .interrupt 0x36, .interrupt 0xAA, .interrupt 0x1E] := by
  have hdown : KeyDown 0x36 [0x2A, 0x36, 0xAA] :=
    ⟨[0x2A], 0x36, [0xAA], rfl, rfl, by simp⟩
  refine ⟨hdown, by decide +kernel, fun htracks => ?_⟩
  have hflag := (tracksShift_iff_flag _ _).mp htracks
    [.interrupt 0x2A, .interrupt 0x36, .interrupt 0xAA] ⟨[.interrupt 0x1E], rfl⟩
  exact absurd (hflag.mpr (Or.inr hdown)) (by decide)

end Run

end Nimbu
