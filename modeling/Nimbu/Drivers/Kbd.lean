import Nimbu.Machine.Memory
import Nimbu.Machine.Ring
import Nimbu.Machine.Run

/-!
# The keyboard driver

`kbd.c`: the interrupt handler translates scancodes and puts the characters into
a ring of 256 slots; `kbd_getchar` takes them out. An interrupt may arrive
between any two of the three steps of `kbd_getchar`, so these are steps of their
own here. An index outside the ring has no result.
-/

namespace Nimbu

/-- The static `kbd_state` record of `kbd.c`. -/
structure Kbd where
  /-- The ring of `KBD_BUFFER_SIZE` characters. -/
  buffer : Vector Byte 256
  /-- Index of the next character to read. -/
  head : BitVec 16
  /-- Index of the next free slot. -/
  tail : BitVec 16
  /-- A shift key is held down. -/
  shiftPressed : Byte
  /-- The control key is held down. -/
  ctrlPressed : Byte

/-- `scancode_table`. -/
def scancodeTable : List Char :=
  ['\x00', '\x1b', '1', '2', '3', '4', '5', '6', '7', '8', '9', '0', '-', '=', '\x08', '\x09',
   'q', 'w', 'e', 'r', 't', 'y', 'u', 'i', 'o', 'p', '[', ']', '\x0a', '\x00', 'a', 's',
   'd', 'f', 'g', 'h', 'j', 'k', 'l', ';', '\x27', '\x60', '\x00', '\x5c', 'z', 'x', 'c', 'v',
   'b', 'n', 'm', ',', '.', '/', '\x00', '*', '\x00', ' ', '\x00', '\x00', '\x00', '\x00', '\x00',
   '\x00',
   '\x00', '\x00', '\x00', '\x00', '\x00', '\x00', '\x00', '7', '8', '9', '-', '4', '5', '6', '+',
   '1',
   '2', '3', '0', '.'] ++ List.replicate 44 '\x00'

/-- An entry of `scancode_table` as a `char`. -/
def scancodeEntry (scancode : Byte) : Byte :=
  BitVec.ofNat 8 (scancodeTable.getD scancode.toNat '\x00').toNat

example : scancodeTable.length = 128 := rfl

/-- `kbd_handle_special_key`. -/
def kbdHandleSpecialKey (s : Kbd) (scancode : Byte) : Kbd :=
  let s := if scancode = 0x2A ∨ scancode = 0x36 then { s with shiftPressed := 1 } else s
  if scancode = 0x1D then { s with ctrlPressed := 1 } else s

/-- The index behind an index, as `kbd.c` computes it. -/
def kbdNext (index : BitVec 16) : BitVec 16 := BitVec.ofNat 16 ((index.toNat + 1) % 256)

/-- The part of `kbd_interrupt_handler` that adds a character to the buffer. -/
def kbdEnqueue (s : Kbd) (ch : Byte) : Option Kbd :=
  let next := kbdNext s.tail
  if next ≠ s.head then
    if s.tail.toNat < 256 then
      some { s with buffer := s.buffer.setIfInBounds s.tail.toNat ch, tail := next }
    else none
  else some s

/-- `kbd_interrupt_handler`, given the scancode read from the port. -/
def kbdInterruptHandler (s : Kbd) (scancode : Byte) : Option Kbd :=
  if scancode &&& 0x80 ≠ 0 then
    let scancode := scancode &&& 0x7F
    let s := if scancode = 0x2A ∨ scancode = 0x36 then { s with shiftPressed := 0 } else s
    some (if scancode = 0x1D then { s with ctrlPressed := 0 } else s)
  else
    let s := kbdHandleSpecialKey s scancode
    if scancode.toNat < 128 ∧ scancodeEntry scancode ≠ 0 then
      let ch := scancodeEntry scancode
      let ch := if s.shiftPressed ≠ 0 then
          if ch ≥ 0x61 ∧ ch ≤ 0x7A then ch - 0x61 + 0x41 else ch
        else ch
      kbdEnqueue s ch
    else some s

/-- `kbd_init`. The slots keep what they held. -/
def kbdInit (s : Kbd) : Kbd := { s with head := 0, tail := 0, shiftPressed := 0, ctrlPressed := 0 }

/-- `kbd_char_available`. -/
def kbdCharAvailable (s : Kbd) : Bool := s.head ≠ s.tail

/-- Where a call of `kbd_getchar` stands. -/
inductive GetcharPhase where
  /-- No call is under way. -/
  | idle
  /-- The buffer was not empty when tested. -/
  | tested
  /-- The character was read, and the head is not updated yet. -/
  | loaded (ch : Byte)
  deriving DecidableEq

/-- The next step of `kbd_getchar`, and the value it returned if that was the last. -/
def getcharStep (s : Kbd) : GetcharPhase → Option (Option Byte × Kbd × GetcharPhase)
  | .idle => if s.head = s.tail then some (some 0, s, .idle) else some (none, s, .tested)
  | .tested => do
    let ch ← s.buffer[s.head.toNat]?
    return (none, s, .loaded ch)
  | .loaded ch => some (some ch, { s with head := kbdNext s.head }, .idle)

/-- A keyboard interrupt with its scancode, or the next step of `kbd_getchar`. -/
inductive KbdEvent where
  /-- `kbd_interrupt_handler` runs. -/
  | interrupt (scancode : Byte)
  /-- `kbd_getchar` is called, or goes on by one step. -/
  | getchar

/-- One event. -/
def kbdStep : Kbd × GetcharPhase → KbdEvent → Option (Option Byte × Kbd × GetcharPhase)
  | (s, phase), .interrupt scancode => do
    let s ← kbdInterruptHandler s scancode
    return (none, s, phase)
  | (s, phase), .getchar => getcharStep s phase

/-- `kbd_getchar` without interruption. -/
def kbdGetchar (s : Kbd) : Option (Byte × Kbd) :=
  if s.head = s.tail then some (0, s)
  else do
    let ch ← s.buffer[s.head.toNat]?
    return (ch, { s with head := kbdNext s.head })

/-- The steps of a call that is not interrupted make up `kbd_getchar`. -/
theorem kbdGetchar_run {s s' : Kbd} {ch : Byte} (hcall : kbdGetchar s = some (ch, s')) :
    ∃ n replies, exec kbdStep (s, .idle) (List.replicate n .getchar) =
      some (replies, s', .idle) ∧ replies.filterMap id = [ch] := by
  unfold kbdGetchar at hcall
  split at hcall
  · rename_i hempty
    obtain ⟨rfl, rfl⟩ : 0 = ch ∧ s = s' := by simpa using hcall
    refine ⟨1, [some 0], ?_, rfl⟩
    simp [exec, kbdStep, getcharStep, hempty]
  · rename_i hne
    simp only [Option.bind_eq_bind, Option.bind_eq_some_iff] at hcall
    obtain ⟨c, hslot, hresult⟩ := hcall
    obtain ⟨rfl, rfl⟩ : c = ch ∧ _ = s' := by simpa using hresult
    refine ⟨3, [none, none, some c], ?_, rfl⟩
    simp [exec, kbdStep, getcharStep, hne, hslot, List.replicate]

/-- The notes of an observer who sees the scancodes and the characters returned,
and knows that 255 characters fit. -/
structure KbdLedger where
  /-- A shift key is held down. -/
  shift : Bool
  /-- The characters typed so far, without those that did not fit. -/
  accepted : List Byte
  /-- The characters returned so far. -/
  returned : List Byte

/-- The character a make code stands for. -/
def typedChar (shift : Bool) (scancode : Byte) : Option Byte :=
  let ch := scancodeEntry scancode
  if scancode.toNat < 128 ∧ ch ≠ 0 then
    some (if shift ∧ 0x61 ≤ ch.toNat ∧ ch.toNat ≤ 0x7A then ch - 0x20 else ch)
  else none

/-- Pressing or releasing a shift key. -/
def shiftAfter (shift : Bool) (scancode : Byte) : Bool :=
  if scancode = 0x2A ∨ scancode = 0x36 then true
  else if scancode = 0xAA ∨ scancode = 0xB6 then false
  else shift

namespace KbdLedger

/-- Before the first scancode. -/
def init : KbdLedger := ⟨false, [], []⟩

/-- A character arrives and is dropped exactly when 255 characters are pending. -/
def arrive (l : KbdLedger) (ch : Byte) : KbdLedger :=
  if l.accepted.length = l.returned.length + 255 then l
  else { l with accepted := l.accepted ++ [ch] }

/-- What is noted down at an event. The value 0 stands for no character. -/
def note (l : KbdLedger) : KbdEvent → Option Byte → KbdLedger
  | .interrupt scancode, _ =>
    let l' := match typedChar l.shift scancode with
      | some ch => l.arrive ch
      | none => l
    { l' with shift := shiftAfter l.shift scancode }
  | .getchar, some ch => if ch = 0 then l else { l with returned := l.returned ++ [ch] }
  | .getchar, none => l

end KbdLedger

/-- The driver and the notes agree, and `pending` is in the buffer: the characters
accepted and not returned, where a character counts until the head is updated. -/
structure KbdInStep (x : Kbd × GetcharPhase) (l : KbdLedger) (pending : List Byte) : Prop where
  /-- The ring holds the pending characters. -/
  holds : RingHolds x.1.buffer x.1.head.toNat x.1.tail.toNat pending
  /-- Nothing is lost, doubled or out of order. -/
  accepted_eq : l.accepted = l.returned ++ pending
  /-- No pending character is 0. -/
  nonzero : ∀ ch ∈ pending, ch ≠ 0
  /-- The driver knows whether a shift key is held down. -/
  shift_iff : x.1.shiftPressed ≠ 0 ↔ l.shift = true
  /-- After the test something is pending. -/
  tested : x.2 = .tested → pending ≠ []
  /-- The character read is the first one pending. -/
  loaded : ∀ ch, x.2 = .loaded ch → pending.head? = some ch

variable {s : Kbd} {phase : GetcharPhase} {l : KbdLedger} {pending : List Byte}

theorem kbdNext_toNat (index : BitVec 16) : (kbdNext index).toNat = (index.toNat + 1) % 256 := by
  unfold kbdNext
  rw [BitVec.toNat_ofNat]
  omega

/-- The next index is the head exactly when 255 characters are pending. -/
theorem kbdNext_eq_head_iff (h : KbdInStep (s, phase) l pending) :
    kbdNext s.tail = s.head ↔ pending.length = 255 := by
  have hfull := h.holds.next_eq_head_iff
  simp only at hfull
  rw [← BitVec.toNat_inj, kbdNext_toNat, hfull]
  omega

/-- Adding a character to the buffer keeps the notes in step: it is dropped
exactly when 255 characters are pending. -/
theorem KbdInStep.enqueue (h : KbdInStep (s, phase) l pending) {ch : Byte} (hch : ch ≠ 0) :
    ∃ s' pending', kbdEnqueue s ch = some s' ∧ KbdInStep (s', phase) (l.arrive ch) pending' := by
  have hcount : l.accepted.length = l.returned.length + 255 ↔ pending.length = 255 := by
    rw [h.accepted_eq, List.length_append]
    omega
  have hlength := h.holds.length_lt
  by_cases hfull : pending.length = 255
  · refine ⟨s, pending, ?_, ?_⟩
    · unfold kbdEnqueue
      simp only [ne_eq, (kbdNext_eq_head_iff h).mpr hfull, not_true_eq_false, if_false]
    · rw [KbdLedger.arrive, if_pos (hcount.mpr hfull)]
      exact h
  · refine ⟨{ s with buffer := s.buffer.setIfInBounds s.tail.toNat ch, tail := kbdNext s.tail },
      pending ++ [ch], ?_, ?_⟩
    · unfold kbdEnqueue
      simp only [if_pos ((kbdNext_eq_head_iff h).not.mpr hfull), if_pos h.holds.tail_lt]
    · rw [KbdLedger.arrive, if_neg (hcount.not.mpr hfull)]
      refine ⟨?_, ?_, ?_, h.shift_iff, ?_, ?_⟩
      · simp only [kbdNext_toNat]
        exact h.holds.push (by omega)
      · simp only [h.accepted_eq, List.append_assoc]
      · intro c hc
        rcases List.mem_append.mp hc with hc | hc
        · exact h.nonzero c hc
        · rw [List.mem_singleton.mp hc]
          exact hch
      · intro _
        simp
      · intro c hphase
        have hhead := h.loaded c hphase
        rw [List.head?_append, hhead]
        rfl

/-- Changing the shift flags on both sides keeps the rest. -/
theorem KbdInStep.of_shift (h : KbdInStep (s, phase) l pending) {shiftPressed ctrlPressed : Byte}
    {shift : Bool} (hshift : shiftPressed ≠ 0 ↔ shift = true) :
    KbdInStep ({ s with shiftPressed, ctrlPressed }, phase) { l with shift } pending :=
  ⟨h.holds, h.accepted_eq, h.nonzero, hshift, h.tested, h.loaded⟩

/-- The special keys stand for no character. -/
theorem typedChar_of_shift (shift : Bool) {scancode : Byte}
    (hkey : scancode = 0x2A ∨ scancode = 0x36) : typedChar shift scancode = none := by
  cases hkey with
  | inl hleft => subst hleft; rfl
  | inr hright => subst hright; rfl

/-- A break code stands for no character. -/
theorem typedChar_of_break (shift : Bool) {scancode : Byte} (hbreak : scancode &&& 0x80 ≠ 0) :
    typedChar shift scancode = none := by
  have hhigh : ¬ scancode.toNat < 128 := by
    revert scancode
    decide
  unfold typedChar
  exact if_neg fun h => hhigh h.1

/-- A shift key is released by its break code. -/
theorem break_shift_iff {scancode : Byte} (hbreak : scancode &&& 0x80 ≠ 0) :
    scancode &&& 0x7F = 0x2A ∨ scancode &&& 0x7F = 0x36 ↔ scancode = 0xAA ∨ scancode = 0xB6 := by
  revert scancode
  decide

/-- Upper-casing a letter moves it down by 32 and does not give 0. -/
theorem upper_case {ch : Byte} (hch : ch ≠ 0) :
    (if ch ≥ 0x61 ∧ ch ≤ 0x7A then ch - 0x61 + 0x41 else ch) =
      (if 0x61 ≤ ch.toNat ∧ ch.toNat ≤ 0x7A then ch - 0x20 else ch) ∧
    (if ch ≥ 0x61 ∧ ch ≤ 0x7A then ch - 0x61 + 0x41 else ch) ≠ 0 := by
  by_cases hletter : ch ≥ 0x61 ∧ ch ≤ 0x7A
  · have hrange : 0x61 ≤ ch.toNat ∧ ch.toNat ≤ 0x7A := by bv_omega
    rw [if_pos hletter, if_pos hrange]
    constructor
    · bv_omega
    · bv_omega
  · have hrange : ¬ (0x61 ≤ ch.toNat ∧ ch.toNat ≤ 0x7A) := by
      intro hrange
      exact hletter (by bv_omega)
    rw [if_neg hletter, if_neg hrange]
    exact ⟨rfl, hch⟩

/-- What the handler adds to the buffer for a make code with a character. -/
theorem typedChar_eq (shift : Bool) {scancode : Byte} (hlow : scancode.toNat < 128)
    (hentry : scancodeEntry scancode ≠ 0) :
    ∃ ch, typedChar shift scancode = some ch ∧ ch ≠ 0 ∧
      (if shift = true then
        if scancodeEntry scancode ≥ 0x61 ∧ scancodeEntry scancode ≤ 0x7A then
          scancodeEntry scancode - 0x61 + 0x41
        else scancodeEntry scancode
      else scancodeEntry scancode) = ch := by
  have htyped : scancode.toNat < 128 ∧ scancodeEntry scancode ≠ 0 := ⟨hlow, hentry⟩
  obtain ⟨hupper, hne⟩ := upper_case hentry
  unfold typedChar
  rw [if_pos htyped]
  refine ⟨_, rfl, ?_⟩
  cases shift with
  | false => simpa using hentry
  | true =>
    simp only [if_true, true_and]
    rw [← hupper]
    exact ⟨hne, rfl⟩

/-- Noting a character down and then a shift key is the same in the other order. -/
theorem KbdLedger.arrive_shift (l : KbdLedger) (ch : Byte) (shift : Bool) :
    { l.arrive ch with shift } = KbdLedger.arrive { l with shift } ch := by
  unfold KbdLedger.arrive
  split <;> rfl

/-- The character of a make code is translated the same before and after it has
been looked at as a special key. -/
theorem typedChar_shiftAfter (shift : Bool) {scancode : Byte} (hmake : scancode &&& 0x80 = 0) :
    typedChar (shiftAfter shift scancode) scancode = typedChar shift scancode := by
  by_cases hkey : scancode = 0x2A ∨ scancode = 0x36
  · rw [typedChar_of_shift _ hkey, typedChar_of_shift _ hkey]
  · have hbreak : ¬ (scancode = 0xAA ∨ scancode = 0xB6) := by
      rintro (rfl | rfl) <;> simp at hmake
    rw [shiftAfter, if_neg hkey, if_neg hbreak]

/-- `kbd_handle_special_key` keeps the notes in step. -/
theorem KbdInStep.special_key (h : KbdInStep (s, phase) l pending) {scancode : Byte}
    (hmake : scancode &&& 0x80 = 0) :
    KbdInStep (kbdHandleSpecialKey s scancode, phase)
      { l with shift := shiftAfter l.shift scancode } pending := by
  have hbreak : ¬ (scancode = 0xAA ∨ scancode = 0xB6) := by
    rintro (rfl | rfl) <;> simp at hmake
  unfold kbdHandleSpecialKey shiftAfter
  by_cases hkey : scancode = 0x2A ∨ scancode = 0x36
  · have hctrl : ¬ scancode = 0x1D := by
      rintro rfl
      simp at hkey
    simp only [if_pos hkey, if_neg hctrl]
    exact h.of_shift (by simp)
  · simp only [if_neg hkey, if_neg hbreak]
    split
    · exact h.of_shift h.shift_iff
    · exact h

/-- A make code keeps the notes in step. -/
theorem KbdInStep.press (h : KbdInStep (s, phase) l pending) {scancode : Byte}
    (hmake : scancode &&& 0x80 = 0) :
    ∃ s' pending', kbdInterruptHandler s scancode = some s' ∧
      KbdInStep (s', phase) (l.note (.interrupt scancode) none) pending' := by
  have hkeys := h.special_key hmake
  unfold kbdInterruptHandler
  rw [if_neg (by simpa using hmake)]
  by_cases htyped : scancode.toNat < 128 ∧ scancodeEntry scancode ≠ 0
  · obtain ⟨ch, hchar, hch, hvalue⟩ :=
      typedChar_eq (shiftAfter l.shift scancode) htyped.1 htyped.2
    obtain ⟨s', pending', henqueue, hstep⟩ := hkeys.enqueue hch
    refine ⟨s', pending', ?_, ?_⟩
    · have hshift := hkeys.shift_iff
      simp only [if_pos htyped, hshift, hvalue, henqueue]
    · rw [typedChar_shiftAfter _ hmake] at hchar
      simp only [KbdLedger.note, hchar, KbdLedger.arrive_shift]
      exact hstep
  · have hchar : typedChar l.shift scancode = none := if_neg htyped
    refine ⟨kbdHandleSpecialKey s scancode, pending, ?_, ?_⟩
    · simp only [if_neg htyped]
    · simp only [KbdLedger.note, hchar]
      exact hkeys

/-- A break code keeps the notes in step. -/
theorem KbdInStep.release (h : KbdInStep (s, phase) l pending) {scancode : Byte}
    (hbreak : scancode &&& 0x80 ≠ 0) :
    ∃ s', kbdInterruptHandler s scancode = some s' ∧
      KbdInStep (s', phase) (l.note (.interrupt scancode) none) pending := by
  have hpress : ¬ (scancode = 0x2A ∨ scancode = 0x36) := by
    rintro (rfl | rfl) <;> simp at hbreak
  have hnote : l.note (.interrupt scancode) none =
      { l with shift := shiftAfter l.shift scancode } := by
    simp only [KbdLedger.note, typedChar_of_break l.shift hbreak]
  unfold kbdInterruptHandler
  rw [if_pos hbreak, hnote]
  refine ⟨_, rfl, ?_⟩
  unfold shiftAfter
  rw [if_neg hpress]
  by_cases hkey : scancode = 0xAA ∨ scancode = 0xB6
  · simp only [if_pos hkey, if_pos ((break_shift_iff hbreak).mpr hkey)]
    split
    · exact h.of_shift (by simp)
    · exact h.of_shift (by simp)
  · simp only [if_neg hkey, if_neg ((break_shift_iff hbreak).not.mpr hkey)]
    split
    · exact h.of_shift h.shift_iff
    · exact h

/-- The test of `kbd_getchar`: the buffer is empty exactly when nothing is pending. -/
theorem KbdInStep.head_eq_tail_iff (h : KbdInStep (s, phase) l pending) :
    s.head = s.tail ↔ pending = [] := by
  rw [← BitVec.toNat_inj]
  exact h.holds.head_eq_tail_iff

/-- `kbd_char_available` tells whether something is pending. -/
theorem KbdInStep.charAvailable_iff (h : KbdInStep (s, phase) l pending) :
    kbdCharAvailable s = true ↔ pending ≠ [] := by
  unfold kbdCharAvailable
  rw [decide_eq_true_eq, Ne, h.head_eq_tail_iff]

/-- `kbd_getchar` returns 0 at its emptiness test, exactly when nothing is pending. -/
theorem KbdInStep.getchar_zero_iff (h : KbdInStep (s, phase) l pending) :
    (∃ s' phase', getcharStep s phase = some (some 0, s', phase')) ↔
      phase = .idle ∧ pending = [] := by
  have hempty := h.head_eq_tail_iff
  cases phase with
  | idle =>
    unfold getcharStep
    by_cases hp : s.head = s.tail
    · simp [hp, hempty.mp hp]
    · simp [hp, hempty.not.mp hp]
  | tested =>
    simp [getcharStep, Option.bind_eq_some_iff]
  | loaded ch =>
    have hch : ch ≠ 0 := h.nonzero ch (List.mem_of_mem_head? (h.loaded ch rfl))
    simpa [getcharStep] using hch

/-- Every step of `kbd_getchar` keeps the notes in step. -/
theorem KbdInStep.getchar (h : KbdInStep (s, phase) l pending) :
    ∃ reply s' phase' pending', getcharStep s phase = some (reply, s', phase') ∧
      KbdInStep (s', phase') (l.note .getchar reply) pending' := by
  have hempty := h.head_eq_tail_iff
  cases phase with
  | idle =>
    unfold getcharStep
    by_cases hp : s.head = s.tail
    · refine ⟨some 0, s, .idle, pending, if_pos hp, ?_⟩
      simpa [KbdLedger.note] using h
    · refine ⟨none, s, .tested, pending, if_neg hp, ?_⟩
      refine ⟨h.holds, h.accepted_eq, h.nonzero, h.shift_iff, fun _ => hempty.not.mp hp, ?_⟩
      intro ch hphase
      cases hphase
  | tested =>
    cases pending with
    | nil => exact absurd rfl (h.tested rfl)
    | cons ch pending =>
      have hslot : s.buffer[s.head.toNat]? = some ch := h.holds.front
      refine ⟨none, s, .loaded ch, ch :: pending, by simp [getcharStep, hslot], ?_⟩
      refine ⟨h.holds, h.accepted_eq, h.nonzero, h.shift_iff, by simp, ?_⟩
      intro c hphase
      cases hphase
      rfl
  | loaded ch =>
    have hhead := h.loaded ch rfl
    cases pending with
    | nil => simp at hhead
    | cons c pending =>
      obtain rfl : c = ch := by simpa using hhead
      have hch : c ≠ 0 := h.nonzero c (by simp)
      refine ⟨some c, { s with head := kbdNext s.head }, .idle, pending, rfl, ?_⟩
      simp only [KbdLedger.note, if_neg hch]
      refine ⟨?_, ?_, fun d hd => h.nonzero d (by simp [hd]), h.shift_iff, by simp, by simp⟩
      · simp only [kbdNext_toNat]
        exact h.holds.pop
      · simp only [h.accepted_eq, List.append_assoc, List.singleton_append]

/-- Every event returns and keeps the notes in step. -/
theorem kbdStep_inStep {x : Kbd × GetcharPhase} (event : KbdEvent)
    (h : ∃ pending, KbdInStep x l pending) :
    ∃ reply x', kbdStep x event = some (reply, x') ∧
      ∃ pending, KbdInStep x' (l.note event reply) pending := by
  obtain ⟨s, phase⟩ := x
  obtain ⟨pending, h⟩ := h
  cases event with
  | interrupt scancode =>
    by_cases hbreak : scancode &&& 0x80 = 0
    · obtain ⟨s', pending', hhandler, hstep⟩ := h.press hbreak
      exact ⟨none, (s', phase), by simp [kbdStep, hhandler], pending', hstep⟩
    · obtain ⟨s', hhandler, hstep⟩ := h.release hbreak
      exact ⟨none, (s', phase), by simp [kbdStep, hhandler], pending, hstep⟩
  | getchar =>
    obtain ⟨reply, s', phase', pending', hcall, hstep⟩ := h.getchar
    exact ⟨reply, (s', phase'), hcall, pending', hstep⟩

/-- After `kbd_init` nothing is pending. -/
theorem kbdInit_inStep (s : Kbd) : KbdInStep (kbdInit s, .idle) .init [] where
  holds := RingHolds.empty _ (by simp [kbdInit])
  accepted_eq := rfl
  nonzero := by simp
  shift_iff := by simp [kbdInit, KbdLedger.init]
  tested := by simp
  loaded := by simp

/-- The keyboard buffer is a lossless bounded queue, whatever the interrupts and the
steps of `kbd_getchar` after `kbd_init`: every event returns; the indices stay in
the ring; the characters returned, followed by those pending in the ring, are
those accepted, where a character is refused exactly when 255 are pending; and the
next step of `kbd_getchar` returns 0 exactly when it is the emptiness test and
nothing is pending. -/
theorem kbd_fifo (s₀ : Kbd) (events : List KbdEvent) :
    ∃ replies s phase pending,
      exec kbdStep (kbdInit s₀, .idle) events = some (replies, s, phase) ∧
      s.head.toNat < 256 ∧ s.tail.toNat < 256 ∧
      (ledger KbdLedger.note .init events replies).accepted =
        (ledger KbdLedger.note .init events replies).returned ++ pending ∧
      pending.length ≤ 255 ∧
      RingHolds s.buffer s.head.toNat s.tail.toNat pending ∧
      ((∃ s' phase', getcharStep s phase = some (some 0, s', phase')) ↔
        phase = .idle ∧ pending = []) := by
  obtain ⟨replies, ⟨s, phase⟩, hrun, pending, h⟩ :=
    exec_ledger (fun x l => ∃ pending, KbdInStep x l pending)
      (fun event h => kbdStep_inStep event h) ⟨[], kbdInit_inStep s₀⟩ events
  have hlength : pending.length < 256 := h.holds.length_lt
  exact ⟨replies, s, phase, pending, hrun, h.holds.head_lt, h.holds.tail_lt, h.accepted_eq,
    by omega, h.holds, h.getchar_zero_iff⟩

end Nimbu
