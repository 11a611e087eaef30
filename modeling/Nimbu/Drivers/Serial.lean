import Mathlib.Data.List.Induction
import Mathlib.Data.List.Infix
import Mathlib.Data.Stream.Init
import Nimbu.Machine.Memory

/-!
# The serial port

`serial.c`: `serial_send_byte` polls the line status register of the UART until the
transmitter is ready, at most 100000 times, and then writes the byte;
`serial_send_str` sends the bytes of a string one after the other. The readings of
the register are an arbitrary stream, and the accesses to the ports are recorded.
-/

namespace Nimbu

/-- An access to a port of the UART. -/
inductive UartEvent where
  /-- A reading of the line status register `UART_LSR`. -/
  | status (lsr : Byte)
  /-- A write to `UART_DATA`. -/
  | data (byte : Byte)
  deriving DecidableEq

/-- The UART and what has been done with it. -/
structure Uart where
  /-- The readings of the line status register to come. -/
  readings : Stream' Byte
  /-- The accesses so far. -/
  log : List UartEvent

/-- Read the line status register. -/
def Uart.inLsr (u : Uart) : Uart := ⟨u.readings.tail, u.log ++ [.status u.readings.head]⟩

/-- Write to the data port. -/
def Uart.outData (u : Uart) (byte : Byte) : Uart := { u with log := u.log ++ [.data byte] }

/-- The bit `LSR_THRE` is set: the transmitter takes a byte. -/
def LineReady (lsr : Byte) : Prop := lsr &&& 0x20 ≠ 0

instance : DecidablePred LineReady := fun lsr => inferInstanceAs (Decidable (lsr &&& 0x20 ≠ 0))

/-- The number of polls after which `serial_send_byte` gives up. -/
def serialPollLimit : ℕ := 100000

/-- The loop of `serial_send_byte`: the state behind it and the value of `timeout`. -/
def serialPoll (u : Uart) (timeout : ℕ) : Uart × ℕ :=
  if h : ¬ LineReady u.readings.head ∧ timeout + 1 < serialPollLimit then
    serialPoll u.inLsr (timeout + 1)
  else (u.inLsr, timeout + 1)
termination_by serialPollLimit - timeout
decreasing_by omega

/-- `serial_send_byte`. -/
def serialSendByte (u : Uart) (byte : Byte) : ℤ × Uart :=
  let (u, timeout) := serialPoll u 0
  if timeout ≥ serialPollLimit then (-1, u) else (0, u.outData byte)

/-- The loop of `serial_send_str` over the bytes of a string. -/
def serialSendChars (u : Uart) : List Byte → ℤ × Uart
  | [] => (0, u)
  | ch :: str =>
    if ch = 0 then (0, u)
    else
      let (ret, u) := serialSendByte u ch
      if ret ≠ 0 then (-1, u) else serialSendChars u str

/-- `serial_send_str`. There is no string behind a null pointer. -/
def serialSendStr (u : Uart) (str : Option (List Byte)) : ℤ × Uart :=
  match str with
  | none => (-1, u)
  | some str => serialSendChars u str

section Polling

variable {u : Uart} {byte : Byte}

/-- The UART after a number of readings. -/
def Uart.polled (u : Uart) (k : ℕ) : Uart :=
  ⟨u.readings.drop k, u.log ++ (u.readings.take k).map .status⟩

/-- One reading first. -/
theorem Uart.polled_inLsr (u : Uart) (k : ℕ) : u.inLsr.polled k = u.polled (k + 1) := by
  simp [polled, inLsr, Stream'.take_succ]

/-- One reading last. -/
theorem Uart.log_polled (u : Uart) {k : ℕ} (hpos : 0 < k) :
    (u.polled k).log = (u.polled (k - 1)).log ++ [.status (u.readings.get (k - 1))] := by
  obtain ⟨k, rfl⟩ := Nat.exists_eq_succ_of_ne_zero hpos.ne'
  rw [polled, polled, Nat.succ_sub_one, Stream'.take_succ', List.map_append, ← List.append_assoc]
  rfl

/-- The loop takes a number of readings within the limit. All but the last are not ready, and so
may the last one be only at the limit. -/
theorem serialPoll_spec (u : Uart) {timeout : ℕ} (htimeout : timeout < serialPollLimit) :
    ∃ k, 0 < k ∧ timeout + k ≤ serialPollLimit ∧
      serialPoll u timeout = (u.polled k, timeout + k) ∧
      (∀ i, i + 1 < k → ¬ LineReady (u.readings.get i)) ∧
      (timeout + k < serialPollLimit → LineReady (u.readings.get (k - 1))) := by
  induction u, timeout using serialPoll.induct with
  | case1 u timeout h ih =>
    obtain ⟨k, hpos, hle, hpoll, hbusy, hready⟩ := ih h.2
    refine ⟨k + 1, Nat.succ_pos k, by omega, ?_, fun i hi => ?_, fun hlt => ?_⟩
    · rw [serialPoll, dif_pos h, hpoll, Uart.polled_inLsr]
      congr 1
      omega
    · cases i with
      | zero => exact h.1
      | succ i => exact hbusy i (by omega)
    · have hlast := hready (by omega)
      rw [Nat.add_sub_cancel]
      rwa [show k = k - 1 + 1 by omega]
  | case2 u timeout h =>
    refine ⟨1, Nat.one_pos, by omega, ?_, fun i hi => by omega, fun hlt => ?_⟩
    · rw [serialPoll, dif_neg h]
      rfl
    · by_contra hbusy
      exact h ⟨hbusy, hlt⟩

/-- `serial_send_byte` either writes the byte behind the first ready reading, before the limit,
or gives up at the limit, where all readings before the last one were not ready. -/
theorem serialSendByte_spec (u : Uart) (byte : Byte) :
    ∃ k, 0 < k ∧ k ≤ serialPollLimit ∧ (∀ i, i + 1 < k → ¬ LineReady (u.readings.get i)) ∧
      (k < serialPollLimit ∧ LineReady (u.readings.get (k - 1)) ∧
          serialSendByte u byte = (0, (u.polled k).outData byte) ∨
        k = serialPollLimit ∧ serialSendByte u byte = (-1, u.polled k)) := by
  obtain ⟨k, hpos, hle, hpoll, hbusy, hready⟩ :=
    serialPoll_spec u (show 0 < serialPollLimit by decide)
  rw [Nat.zero_add] at hle hpoll hready
  refine ⟨k, hpos, hle, hbusy, ?_⟩
  by_cases hlt : k < serialPollLimit
  · refine Or.inl ⟨hlt, hready hlt, ?_⟩
    simp only [serialSendByte, hpoll, if_neg (not_le.mpr hlt)]
  · refine Or.inr ⟨by omega, ?_⟩
    simp only [serialSendByte, hpoll, if_pos (not_lt.mp hlt)]

end Polling

section Timeout

variable {readings : Stream' Byte} {byte lsr : Byte}

/-- `serial_send_byte` reports a timeout exactly when no reading that it has taken was ready;
otherwise it writes the byte right behind the first reading that was. -/
def ReportsTimeout (readings : Stream' Byte) (byte : Byte) : Prop :=
  ((serialSendByte ⟨readings, []⟩ byte).1 = -1 ↔
    ∀ lsr, .status lsr ∈ (serialSendByte ⟨readings, []⟩ byte).2.log → ¬ LineReady lsr) ∧
  ((∃ lsr, .status lsr ∈ (serialSendByte ⟨readings, []⟩ byte).2.log ∧ LineReady lsr) →
    ∃ (waits : List Byte) (lsr : Byte), (∀ w ∈ waits, ¬ LineReady w) ∧ LineReady lsr ∧
      (serialSendByte ⟨readings, []⟩ byte).2.log =
        waits.map .status ++ [.status lsr, .data byte])

/-- The readings taken from a stream. -/
theorem mem_take_iff {α : Type*} {s : Stream' α} {a : α} {k : ℕ} :
    a ∈ s.take k ↔ ∃ i < k, s.get i = a := by
  induction k with
  | zero => simp
  | succ k ih =>
    rw [Stream'.take_succ', List.mem_append, List.mem_singleton, ih]
    constructor
    · rintro (⟨i, hi, rfl⟩ | rfl)
      · exact ⟨i, by omega, rfl⟩
      · exact ⟨k, by omega, rfl⟩
    · rintro ⟨i, hi, rfl⟩
      rcases Nat.lt_succ_iff_lt_or_eq.mp hi with hlt | rfl
      · exact Or.inl ⟨i, hlt, rfl⟩
      · exact Or.inr rfl

/-- The readings recorded. -/
theorem status_mem_polled_iff {k : ℕ} :
    UartEvent.status lsr ∈ (Uart.polled ⟨readings, []⟩ k).log ↔
      ∃ i < k, readings.get i = lsr := by
  rw [Uart.polled, List.nil_append, ← mem_take_iff]
  simp

/-- The log of a byte that was written. -/
theorem log_outData (readings : Stream' Byte) (byte : Byte) {k : ℕ} (hpos : 0 < k) :
    ((Uart.polled ⟨readings, []⟩ k).outData byte).log =
      (readings.take (k - 1)).map .status ++
        [.status (readings.get (k - 1)), .data byte] := by
  rw [Uart.outData, Uart.log_polled _ hpos, Uart.polled, List.nil_append, List.append_assoc]
  rfl

/-- **A timeout is reported, except for the last poll.** For every sequence of readings
`serial_send_byte` reports a timeout exactly when the transmitter was not ready, unless the
reading that makes it ready is the 100000th. -/
theorem reportsTimeout_iff (readings : Stream' Byte) (byte : Byte) :
    ReportsTimeout readings byte ↔
      ¬ ((∀ i < serialPollLimit - 1, ¬ LineReady (readings.get i)) ∧
        LineReady (readings.get (serialPollLimit - 1))) := by
  obtain ⟨k, hpos, hle, hbusy, ⟨hlt, hready, hsend⟩ | ⟨rfl, hsend⟩⟩ :=
    serialSendByte_spec ⟨readings, []⟩ byte
  · -- The byte is written, and the reading that was ready came before the limit.
    refine iff_of_true ?_ fun hlast => hlast.1 (k - 1) (by omega) hready
    have hlog := log_outData readings byte hpos
    unfold ReportsTimeout
    rw [hsend]
    have hreturned : ¬ (0 : ℤ) = -1 := by decide
    refine ⟨iff_of_false hreturned fun hnone => ?_, fun _ => ?_⟩
    · refine hnone _ ?_ hready
      rw [hlog]
      simp
    · refine ⟨_, _, fun w hw => ?_, hready, hlog⟩
      obtain ⟨i, hi, rfl⟩ := mem_take_iff.mp hw
      exact hbusy i (by omega)
  · unfold ReportsTimeout
    rw [hsend]
    simp only [status_mem_polled_iff, true_iff]
    constructor
    · rintro ⟨hnone, -⟩ ⟨-, hlast⟩
      exact hnone _ ⟨_, by omega, rfl⟩ hlast
    · intro hcondition
      have hlast : ¬ LineReady (readings.get (serialPollLimit - 1)) := fun hlast =>
        hcondition ⟨fun i hi => hbusy i (by omega), hlast⟩
      have hall : ∀ lsr, (∃ i < serialPollLimit, readings.get i = lsr) → ¬ LineReady lsr := by
        rintro _ ⟨i, hi, rfl⟩
        by_cases hlt : i + 1 < serialPollLimit
        · exact hbusy i hlt
        · rwa [show i = serialPollLimit - 1 by omega]
      refine ⟨hall, fun hready => ?_⟩
      obtain ⟨lsr, hmem, hlsr⟩ := hready
      exact absurd hlsr (hall lsr hmem)

/-- A transmitter that is ready at the last poll, and not before. -/
def readyAtLast : Stream' Byte := fun i => if i = serialPollLimit - 1 then 0x20 else 0

/-- The 100000th reading is ready, and a timeout is reported. -/
theorem not_reportsTimeout_last_poll :
    (serialSendByte ⟨readyAtLast, []⟩ 0x41).1 = -1 ∧
      .status 0x20 ∈ (serialSendByte ⟨readyAtLast, []⟩ 0x41).2.log ∧ LineReady 0x20 ∧
      ¬ ReportsTimeout readyAtLast 0x41 := by
  have hready : LineReady 0x20 := by decide
  have hlast : readyAtLast.get (serialPollLimit - 1) = 0x20 := by
    rw [Stream'.get, readyAtLast, if_pos rfl]
  obtain ⟨k, hpos, -, -, ⟨hlt, hearly, -⟩ | ⟨rfl, hsend⟩⟩ :=
    serialSendByte_spec ⟨readyAtLast, []⟩ 0x41
  · have hbusy : readyAtLast.get (k - 1) = 0 := by
      rw [Stream'.get, readyAtLast, if_neg (by omega)]
    rw [show (⟨readyAtLast, []⟩ : Uart).readings = readyAtLast from rfl, hbusy] at hearly
    exact absurd hearly (by decide)
  · have hmem : .status 0x20 ∈ (serialSendByte ⟨readyAtLast, []⟩ 0x41).2.log := by
      rw [hsend]
      exact status_mem_polled_iff.mpr ⟨_, by omega, hlast⟩
    have hret : (serialSendByte ⟨readyAtLast, []⟩ 0x41).1 = -1 := by rw [hsend]
    exact ⟨hret, hmem, hready, fun hreports => hreports.1.mp hret _ hmem hready⟩

end Timeout

section Strings

variable {u : Uart} {log : List UartEvent} {str sent : List Byte} {byte lsr : Byte}

/-- The byte that an access writes. -/
def UartEvent.written? : UartEvent → Option Byte
  | .status _ => none
  | .data byte => some byte

/-- The bytes written to the data port, in their order. -/
def written (log : List UartEvent) : List Byte := log.filterMap UartEvent.written?

/-- Right before every byte that is written there is a reading that was ready. -/
def ReadyBeforeWrites (log : List UartEvent) : Prop :=
  ∀ pre byte post, log = pre ++ .data byte :: post →
    ∃ lsr, pre.getLast? = some (.status lsr) ∧ LineReady lsr

/-- What `serial_send_str` has done with a string: a prefix of it was written, each byte to a
transmitter that was ready; the result is 0 when that is all of it, and -1 when it has stopped at
a byte that timed out, the first one to do so. -/
structure SendsPrefix (readings : Stream' Byte) (str : List Byte) (ret : ℤ) (u : Uart) : Prop where
  /-- Bytes of the string, in order. -/
  written_prefix : written u.log <+: str
  /-- A ready reading before each of them. -/
  ready : ReadyBeforeWrites u.log
  /-- The two results. -/
  ret_eq : ret = 0 ∨ ret = -1
  /-- Everything was written. -/
  whole : ret = 0 ↔ written u.log = str
  /-- A byte timed out, and neither it nor a later one was written. -/
  stopped : ret = -1 ↔ ∃ byte rest u₁, str = written u.log ++ byte :: rest ∧
    serialSendStr ⟨readings, []⟩ (some (written u.log)) = (0, u₁) ∧
    serialSendByte u₁ byte = (-1, u)

/-- One more access. -/
theorem readyBeforeWrites_append_iff {event : UartEvent} :
    ReadyBeforeWrites (log ++ [event]) ↔ ReadyBeforeWrites log ∧
      ∀ byte, event = .data byte → ∃ lsr, log.getLast? = some (.status lsr) ∧ LineReady lsr := by
  constructor
  · intro hlog
    refine ⟨fun pre byte post hsplit => ?_, fun byte hevent => ?_⟩
    · exact hlog pre byte (post ++ [event]) (by rw [hsplit]; simp)
    · exact hlog log byte [] (by rw [hevent])
  · rintro ⟨hlog, hlast⟩ pre byte post hsplit
    rcases List.eq_nil_or_concat post with rfl | ⟨post, last, rfl⟩
    · obtain ⟨rfl, hevent⟩ := List.append_inj' hsplit rfl
      exact hlast byte (List.singleton_inj.mp hevent)
    · rw [List.concat_eq_append, ← List.cons_append, ← List.append_assoc] at hsplit
      exact hlog pre byte post (List.append_inj' hsplit rfl).1

/-- Readings write nothing. -/
theorem readyBeforeWrites_polled (hlog : ReadyBeforeWrites u.log) (k : ℕ) :
    ReadyBeforeWrites (u.polled k).log := by
  induction k with
  | zero => simpa [Uart.polled] using hlog
  | succ k ih =>
    rw [Uart.log_polled u (Nat.succ_pos k)]
    exact readyBeforeWrites_append_iff.mpr ⟨ih, fun byte hevent => by cases hevent⟩

/-- Readings write nothing. -/
theorem written_polled (u : Uart) (k : ℕ) : written (u.polled k).log = written u.log := by
  have hnone : ((u.readings.take k).map UartEvent.status).filterMap UartEvent.written? = [] := by
    rw [List.filterMap_map, List.filterMap_eq_nil_iff]
    exact fun _ _ => rfl
  rw [Uart.polled, written, List.filterMap_append, hnone, List.append_nil]
  rfl

/-- A byte that is sent is written behind what was written before; one that times out is not. -/
theorem serialSendByte_written (hlog : ReadyBeforeWrites u.log) (byte : Byte) :
    ∃ ret u', serialSendByte u byte = (ret, u') ∧ ReadyBeforeWrites u'.log ∧
      (ret = 0 ∧ written u'.log = written u.log ++ [byte] ∨
        ret = -1 ∧ written u'.log = written u.log) := by
  obtain ⟨k, hpos, -, -, ⟨-, hready, hsend⟩ | ⟨-, hsend⟩⟩ := serialSendByte_spec u byte
  · refine ⟨_, _, hsend, readyBeforeWrites_append_iff.mpr
      ⟨readyBeforeWrites_polled hlog k, fun _ _ => ⟨_, ?_, hready⟩⟩, Or.inl ⟨rfl, ?_⟩⟩
    · rw [Uart.log_polled u hpos]
      exact List.getLast?_concat
    · rw [Uart.outData, written, List.filterMap_append, ← written_polled u k]
      rfl
  · exact ⟨_, _, hsend, readyBeforeWrites_polled hlog k, Or.inr ⟨rfl, written_polled u k⟩⟩

/-- The loop of `serial_send_str` sends the bytes one after the other until one times out. -/
theorem serialSendChars_spec (hlog : ReadyBeforeWrites u.log) (hstr : ∀ b ∈ str, b ≠ 0) :
    ∃ ret sent u', serialSendChars u str = (ret, u') ∧ sent <+: str ∧
      ReadyBeforeWrites u'.log ∧ written u'.log = written u.log ++ sent ∧
      (ret = 0 ∧ sent = str ∨ ret = -1 ∧ ∃ byte rest u₁, str = sent ++ byte :: rest ∧
        serialSendChars u sent = (0, u₁) ∧ serialSendByte u₁ byte = (-1, u')) := by
  induction str generalizing u with
  | nil => exact ⟨0, [], u, rfl, List.prefix_refl _, hlog, by simp, Or.inl ⟨rfl, rfl⟩⟩
  | cons ch str ih =>
    have hch : ch ≠ 0 := hstr ch List.mem_cons_self
    obtain ⟨_, u₁, hsend, hlog₁, ⟨rfl, hwritten⟩ | ⟨rfl, hwritten⟩⟩ :=
      serialSendByte_written hlog ch
    · -- The byte is sent, and the loop goes on from there.
      have hgoesOn : ∀ rest, serialSendChars u (ch :: rest) = serialSendChars u₁ rest := by
        intro rest
        simp only [serialSendChars, if_neg hch, hsend, ne_eq, not_true_eq_false, if_false]
      obtain ⟨ret, sent, u', hrest, hprefix, hlog', hwritten', hends⟩ :=
        ih hlog₁ fun b hb => hstr b (List.mem_cons_of_mem ch hb)
      refine ⟨ret, ch :: sent, u', by rw [hgoesOn, hrest], List.prefix_cons_inj ch |>.mpr hprefix,
        hlog', by rw [hwritten', hwritten, List.append_assoc, List.singleton_append], ?_⟩
      rcases hends with ⟨hret, rfl⟩ | ⟨hret, byte, rest, u₂, rfl, hfirst, hlast⟩
      · exact Or.inl ⟨hret, rfl⟩
      · exact Or.inr ⟨hret, byte, rest, u₂, rfl, by rw [hgoesOn, hfirst], hlast⟩
    · refine ⟨-1, [], u₁, ?_, List.nil_prefix, hlog₁, by rw [hwritten, List.append_nil],
        Or.inr ⟨rfl, ch, str, u, rfl, rfl, hsend⟩⟩
      simp only [serialSendChars, if_neg hch, hsend]
      exact if_pos (by decide)

/-- **Serial output is an exact prefix.** For every string and every sequence of readings
`serial_send_str` writes a prefix of the string, each byte right behind a ready reading, and its
result says whether that is all of it or a byte timed out. Every loop of polls ends within 100000
readings. -/
theorem serialSendStr_sendsPrefix (readings : Stream' Byte) (str : List Byte)
    (hstr : ∀ b ∈ str, b ≠ 0) :
    (∃ ret u, serialSendStr ⟨readings, []⟩ (some str) = (ret, u) ∧
      SendsPrefix readings str ret u) ∧
    ∀ u : Uart, ∃ k ≤ serialPollLimit, serialPoll u 0 = (u.polled k, k) := by
  constructor
  · have hempty : ReadyBeforeWrites [] := fun pre byte post hsplit => absurd hsplit (by simp)
    obtain ⟨ret, sent, u, hrun, hprefix, hlog, hwritten, hends⟩ :=
      serialSendChars_spec (u := ⟨readings, []⟩) hempty hstr
    have hsent : written u.log = sent := hwritten
    subst hsent
    refine ⟨ret, u, hrun, hprefix, hlog, ?_, ?_, ?_⟩
    · rcases hends with ⟨hret, -⟩ | ⟨hret, -⟩
      · exact Or.inl hret
      · exact Or.inr hret
    · rcases hends with ⟨hret, hall⟩ | ⟨hret, byte, rest, u₁, hstop, -⟩
      · exact iff_of_true hret hall
      · refine iff_of_false (by rw [hret]; decide) fun hall => ?_
        rw [hall] at hstop
        simp at hstop
    · rcases hends with ⟨hret, hall⟩ | ⟨hret, hstop⟩
      · refine iff_of_false (by rw [hret]; decide) ?_
        rintro ⟨byte, rest, u₁, hstop, -⟩
        rw [hall] at hstop
        simp at hstop
      · exact iff_of_true hret hstop
  · intro u
    obtain ⟨k, -, hle, hpoll, -⟩ := serialPoll_spec u (show 0 < serialPollLimit by decide)
    rw [Nat.zero_add] at hle hpoll
    exact ⟨k, hle, hpoll⟩

/-- The string `OK` on a transmitter that is always ready. -/
theorem serialSendStr_sendsPrefix_ok :
    ∃ u, serialSendStr ⟨Stream'.const 0x20, []⟩ (some [0x4F, 0x4B]) = (0, u) ∧
      u.log = [.status 0x20, .data 0x4F, .status 0x20, .data 0x4B] ∧
      SendsPrefix (Stream'.const 0x20) [0x4F, 0x4B] 0 u := by
  obtain ⟨⟨ret, u, hrun, hsends⟩, -⟩ :=
    serialSendStr_sendsPrefix (Stream'.const 0x20) [0x4F, 0x4B] (by simp)
  have hready : LineReady 0x20 := by decide
  have hbyte : ∀ (log : List UartEvent) (byte : Byte),
      serialSendByte ⟨Stream'.const 0x20, log⟩ byte =
        (0, ⟨Stream'.const 0x20, log ++ [.status 0x20] ++ [.data byte]⟩) := by
    intro log byte
    rw [serialSendByte, serialPoll, dif_neg fun h => h.1 hready]
    rfl
  have heval : serialSendStr ⟨Stream'.const 0x20, []⟩ (some [0x4F, 0x4B]) =
      (0, ⟨Stream'.const 0x20, [.status 0x20, .data 0x4F, .status 0x20, .data 0x4B]⟩) := by
    simp only [serialSendStr, serialSendChars, hbyte]
    rfl
  rw [heval, Prod.mk.injEq] at hrun
  obtain ⟨rfl, rfl⟩ := hrun
  exact ⟨_, heval, rfl, hsends⟩

end Strings

end Nimbu
