import Mathlib.Data.List.Chain
import Mathlib.Data.List.TakeWhile
import Nimbu.Drivers.Serial
import Nimbu.Machine.Run

/-!
# The serial line

The driver of `serial.c` sees the UART through readings of its registers. Here the UART
has its queues: bytes arrive on the line and leave on it at any moment, also between a
reading of the status register and the access that it permits. After `serial_init`
nothing is lost on the way out, nor on the way in while the receive queue has space.
The rate of the line is not the one that `serial_init` means to set.
-/

namespace Nimbu

section Driver

/-- An access to the ports of the UART. -/
inductive PortEvent where
  /-- A reading of `UART_LSR`. -/
  | status (lsr : Byte)
  /-- A write to `UART_DATA`. -/
  | write (byte : Byte)
  /-- A reading of `UART_DATA`. -/
  | read (byte : Byte)

/-- The accesses of the sending functions. -/
def UartEvent.toPort : UartEvent → PortEvent
  | .status lsr => .status lsr
  | .data byte => .write byte

/-- The byte that an access writes. -/
def PortEvent.write? : PortEvent → Option Byte
  | .write byte => some byte
  | _ => none

/-- The byte that an access reads. -/
def PortEvent.read? : PortEvent → Option Byte
  | .read byte => some byte
  | _ => none

/-- The ports and what has been done with them. -/
structure SerialPort where
  /-- The readings of `UART_LSR` to come. -/
  readings : Stream' Byte
  /-- The readings of `UART_DATA` to come. -/
  received : Stream' Byte
  /-- The accesses so far. -/
  log : List PortEvent

/-- Read the line status register. -/
def SerialPort.inLsr (p : SerialPort) : SerialPort :=
  { p with readings := p.readings.tail, log := p.log ++ [.status p.readings.head] }

/-- Read the data port. -/
def SerialPort.inData (p : SerialPort) : SerialPort :=
  { p with received := p.received.tail, log := p.log ++ [.read p.received.head] }

/-- The bit `LSR_DR` is set: there is a byte to read. -/
def DataReady (lsr : Byte) : Prop := lsr &&& 0x01 ≠ 0

instance : DecidablePred DataReady := fun lsr => inferInstanceAs (Decidable (lsr &&& 0x01 ≠ 0))

/-- `serial_recv_byte`, if it returns within a number of polls. -/
def serialRecvByte (p : SerialPort) : ℕ → Option (Byte × SerialPort)
  | 0 => none
  | polls + 1 =>
    if ¬ DataReady p.readings.head then serialRecvByte p.inLsr polls
    else some (p.received.head, p.inLsr.inData)

/-- `serial_data_available`. -/
def serialDataAvailable (p : SerialPort) : ℤ × SerialPort :=
  (if DataReady p.readings.head then 1 else 0, p.inLsr)

/-- The ports behind a function that sends. -/
def SerialPort.sent (p : SerialPort) (u : Uart) : SerialPort :=
  { p with readings := u.readings, log := p.log ++ u.log.map UartEvent.toPort }

/-- A call of the driver. -/
inductive SerialCall where
  /-- `serial_send_byte`. -/
  | sendByte (byte : Byte)
  /-- `serial_send_str`. -/
  | sendStr (str : Option (List Byte))
  /-- `serial_recv_byte`, which returns within a number of polls. -/
  | recvByte (polls : ℕ)
  /-- `serial_data_available`. -/
  | dataAvailable

/-- The result of a call. -/
inductive SerialReply where
  /-- A number. -/
  | ret (n : ℤ)
  /-- A byte that was received. -/
  | byte (b : Byte)
  deriving DecidableEq

/-- One call. -/
def serialStep (p : SerialPort) : SerialCall → Option (SerialReply × SerialPort)
  | .sendByte byte =>
    let (ret, u) := serialSendByte ⟨p.readings, []⟩ byte
    some (.ret ret, p.sent u)
  | .sendStr str =>
    let (ret, u) := serialSendStr ⟨p.readings, []⟩ str
    some (.ret ret, p.sent u)
  | .recvByte polls => do
    let (byte, p) ← serialRecvByte p polls
    return (.byte byte, p)
  | .dataAvailable =>
    let (ret, p) := serialDataAvailable p
    some (.ret ret, p)

/-- The byte that a call returned. -/
def SerialReply.byte? : SerialReply → Option Byte
  | .ret _ => none
  | .byte b => some b

/-- The part of the bytes of a call that was sent, as its result tells. -/
def Accepts : SerialCall × SerialReply → List Byte → Prop
  | (.sendByte byte, reply), part => part = if reply = .ret 0 then [byte] else []
  | (.sendStr (some str), reply), part => part <+: str.takeWhile (· ≠ 0) ∧
      (reply = .ret 0 ↔ part = str.takeWhile (· ≠ 0))
  | _, part => part = []

/-- An access may follow another one: every byte is written right behind a reading that was
ready, and every byte is read right behind one that announces it. -/
def Permits (a : PortEvent) : PortEvent → Prop
  | .status _ => True
  | .write _ => ∃ lsr, a = .status lsr ∧ LineReady lsr
  | .read _ => ∃ lsr, a = .status lsr ∧ DataReady lsr

/-- The accesses permit each other, and the first one reads the status. -/
structure Talks (log : List PortEvent) : Prop where
  /-- From one to the next. -/
  chain : log.IsChain Permits
  /-- The first one. -/
  first : ∀ e ∈ log.head?, ∃ lsr, e = .status lsr

variable {log log' : List PortEvent} {e : PortEvent} {p p' : SerialPort} {byte : Byte}

theorem talks_nil : Talks [] := ⟨List.IsChain.nil, by simp⟩

/-- One piece of driver code after another. -/
theorem Talks.append (h : Talks log) (h' : Talks log') : Talks (log ++ log') := by
  constructor
  · refine List.isChain_append.mpr ⟨h.chain, h'.chain, fun a _ b hb => ?_⟩
    obtain ⟨lsr, rfl⟩ := h'.first b hb
    trivial
  · intro e he
    cases log with
    | nil => exact h'.first e he
    | cons a log => exact h.first e he

/-- The first piece of a conversation. -/
theorem Talks.of_append (h : Talks (log ++ log')) : Talks log := by
  refine ⟨(List.isChain_append.mp h.chain).1, fun e he => h.first e ?_⟩
  rw [List.head?_append, Option.mem_def.mp he]
  rfl

/-- The last access of a conversation. -/
theorem Talks.of_concat (h : Talks (log ++ [e])) :
    Talks log ∧ ((∃ lsr, e = .status lsr) ∨ ∃ a, log.getLast? = some a ∧ Permits a e) := by
  obtain ⟨-, -, hlast⟩ := List.isChain_append.mp h.chain
  cases hlog : log.getLast? with
  | none =>
    obtain rfl : log = [] := List.getLast?_eq_none_iff.mp hlog
    exact ⟨talks_nil, Or.inl (h.first e rfl)⟩
  | some a => exact ⟨h.of_append, Or.inr ⟨a, rfl, hlast a hlog e rfl⟩⟩

/-- The sending functions talk. -/
theorem ReadyBeforeWrites.talks {events : List UartEvent} (h : ReadyBeforeWrites events) :
    Talks (events.map UartEvent.toPort) := by
  constructor
  · rw [List.isChain_map, List.isChain_iff_forall_rel_of_append_cons_cons]
    intro a b pre post hsplit
    cases b with
    | status lsr => trivial
    | data byte =>
      obtain ⟨lsr, hlast, hready⟩ := h (pre ++ [a]) byte post (by rw [hsplit]; simp)
      rw [List.getLast?_concat, Option.some.injEq] at hlast
      exact ⟨lsr, congrArg UartEvent.toPort hlast, hready⟩
  · intro e he
    cases events with
    | nil => simp at he
    | cons a events =>
      cases a with
      | status lsr => exact ⟨lsr, by simpa [UartEvent.toPort] using he.symm⟩
      | data byte =>
        obtain ⟨lsr, hlast, -⟩ := h [] byte events rfl
        simp at hlast

/-- They write what they are said to write, and read no byte. -/
theorem written_toPort (events : List UartEvent) :
    (events.map UartEvent.toPort).filterMap PortEvent.write? = written events ∧
      (events.map UartEvent.toPort).filterMap PortEvent.read? = [] := by
  rw [List.filterMap_map, List.filterMap_map, written]
  constructor
  · congr 1
    funext event
    cases event <;> rfl
  · rw [List.filterMap_eq_nil_iff]
    intro event _
    cases event <;> rfl

/-- `serial_recv_byte` polls until there is a byte, and reads it. -/
theorem serialRecvByte_spec {polls : ℕ} (h : serialRecvByte p polls = some (byte, p')) :
    ∃ log, p'.log = p.log ++ log ∧ Talks log ∧ log.filterMap PortEvent.read? = [byte] ∧
      log.filterMap PortEvent.write? = [] := by
  induction polls generalizing p with
  | zero => cases h
  | succ polls ih =>
    unfold serialRecvByte at h
    by_cases hready : DataReady p.readings.head
    · rw [if_neg (not_not.mpr hready), Option.some.injEq, Prod.mk.injEq] at h
      obtain ⟨rfl, rfl⟩ := h
      refine ⟨[.status p.readings.head, .read p.received.head], ?_, ⟨?_, ?_⟩, rfl, rfl⟩
      · simp [SerialPort.inLsr, SerialPort.inData]
      · exact List.isChain_pair.mpr ⟨_, rfl, hready⟩
      · exact fun e he => ⟨_, by simpa using he.symm⟩
    · rw [if_pos hready] at h
      obtain ⟨log, hlog, htalks, hread, hwrite⟩ := ih h
      have hone : Talks [.status p.readings.head] :=
        ⟨List.isChain_singleton _, fun e he => ⟨_, by simpa using he.symm⟩⟩
      refine ⟨.status p.readings.head :: log, ?_, hone.append htalks, hread, hwrite⟩
      rw [hlog]
      simp [SerialPort.inLsr]

/-- The loop of `serial_send_str` stops at the first 0. -/
theorem serialSendChars_takeWhile (u : Uart) (str : List Byte) :
    serialSendChars u str = serialSendChars u (str.takeWhile (· ≠ 0)) := by
  induction str generalizing u with
  | nil => rfl
  | cons ch str ih =>
    by_cases hch : ch = 0
    · rw [List.takeWhile_cons_of_neg (by simpa using hch)]
      simp only [serialSendChars, if_pos hch]
    · rw [List.takeWhile_cons_of_pos (by simpa using hch), serialSendChars, serialSendChars,
        if_neg hch, if_neg hch]
      simp only [ih]

/-- What a call has done at the ports. -/
structure Performs (call : SerialCall) (reply : SerialReply) (log : List PortEvent) : Prop where
  /-- It talks. -/
  talks : Talks log
  /-- What it has written, its result tells. -/
  accepts : Accepts (call, reply) (log.filterMap PortEvent.write?)
  /-- What it has read, it returns. -/
  reads : log.filterMap PortEvent.read? = reply.byte?.toList

/-- Every call talks. -/
theorem serialStep_performs {call : SerialCall} {reply : SerialReply}
    (h : serialStep p call = some (reply, p')) :
    ∃ log, p'.log = p.log ++ log ∧ Performs call reply log := by
  have hempty : ReadyBeforeWrites [] := fun pre byte post hsplit => absurd hsplit (by simp)
  cases call with
  | sendByte byte =>
    obtain ⟨ret, u, hsend, hready, hends⟩ :=
      serialSendByte_written (u := ⟨p.readings, []⟩) hempty byte
    simp only [serialStep, hsend, Option.some.injEq, Prod.mk.injEq] at h
    obtain ⟨rfl, rfl⟩ := h
    obtain ⟨hwrites, hreads⟩ := written_toPort u.log
    refine ⟨_, rfl, hready.talks, ?_, hreads⟩
    rw [hwrites]
    rcases hends with ⟨rfl, hsent⟩ | ⟨rfl, hnone⟩
    · exact hsent.trans (if_pos rfl).symm
    · exact hnone.trans (if_neg (by decide)).symm
  | sendStr str =>
    cases str with
    | none =>
      simp only [serialStep, serialSendStr, Option.some.injEq, Prod.mk.injEq] at h
      obtain ⟨rfl, rfl⟩ := h
      exact ⟨[], rfl, talks_nil, rfl, rfl⟩
    | some str =>
      have hstr : ∀ b ∈ str.takeWhile (· ≠ 0), b ≠ 0 := fun b hb => by
        simpa using List.mem_takeWhile_imp hb
      obtain ⟨ret, sent, u, hsend, hfirst, hready, hwritten, hends⟩ :=
        serialSendChars_spec (u := ⟨p.readings, []⟩) hempty hstr
      rw [← serialSendChars_takeWhile] at hsend
      simp only [serialStep, serialSendStr, hsend, Option.some.injEq, Prod.mk.injEq] at h
      obtain ⟨rfl, rfl⟩ := h
      obtain ⟨hwrites, hreads⟩ := written_toPort u.log
      have hsent : written u.log = sent := hwritten
      refine ⟨_, rfl, hready.talks, ?_, hreads⟩
      rw [hwrites, hsent]
      refine ⟨hfirst, ?_⟩
      rcases hends with ⟨rfl, hall⟩ | ⟨rfl, byte, rest, _, hstop, -⟩
      · exact iff_of_true rfl hall
      · refine iff_of_false (by decide) fun hall => ?_
        rw [← hall] at hstop
        simp at hstop
  | recvByte polls =>
    simp only [serialStep, Option.bind_eq_bind, Option.bind_eq_some_iff, Prod.exists,
      Option.pure_def, Option.some.injEq, Prod.mk.injEq] at h
    obtain ⟨byte, p'', hrecv, rfl, rfl⟩ := h
    obtain ⟨log, hlog, htalks, hread, hwrite⟩ := serialRecvByte_spec hrecv
    exact ⟨log, hlog, htalks, hwrite, hread⟩
  | dataAvailable =>
    simp only [serialStep, serialDataAvailable, Option.some.injEq, Prod.mk.injEq] at h
    obtain ⟨rfl, rfl⟩ := h
    exact ⟨[.status p.readings.head], rfl,
      ⟨List.isChain_singleton _, fun e he => ⟨_, by simpa using he.symm⟩⟩, rfl, rfl⟩

/-- So does every sequence of calls. -/
theorem exec_serialStep {calls : List SerialCall} {replies : List SerialReply}
    (h : exec serialStep p calls = some (replies, p')) :
    ∃ log parts, p'.log = p.log ++ log ∧ Talks log ∧
      List.Forall₂ Accepts (calls.zip replies) parts ∧
      log.filterMap PortEvent.write? = parts.flatten ∧
      log.filterMap PortEvent.read? = replies.filterMap SerialReply.byte? := by
  induction calls generalizing p replies with
  | nil =>
    obtain ⟨rfl, rfl⟩ := Prod.mk.inj (Option.some.inj h)
    exact ⟨[], [], by simp, talks_nil, List.Forall₂.nil, rfl, rfl⟩
  | cons call calls ih =>
    obtain ⟨reply, p₁, replies', hstep, hrest, rfl⟩ := exec_cons_iff.mp h
    obtain ⟨log, hlog, hone⟩ := serialStep_performs hstep
    obtain ⟨log', parts, hlog', htalks, haccepts, hwrites, hreads⟩ := ih hrest
    refine ⟨log ++ log', log.filterMap PortEvent.write? :: parts, ?_, hone.talks.append htalks,
      List.Forall₂.cons hone.accepts haccepts, ?_, ?_⟩
    · rw [hlog', hlog, List.append_assoc]
    · rw [List.filterMap_append, hwrites, List.flatten_cons]
    · rw [List.filterMap_append, hreads, hone.reads]
      cases hbyte : reply.byte? <;> simp [hbyte]

end Driver

section Device

/-- The UART: its registers, and the queues in both directions. -/
structure Uart16550 where
  /-- The interrupt enable register. -/
  ier : Byte
  /-- The line control register. -/
  lcr : Byte
  /-- The modem control register. -/
  mcr : Byte
  /-- The low byte of the divisor. -/
  dll : Byte
  /-- The high byte of the divisor. -/
  dlm : Byte
  /-- The queues are in use. -/
  fifo : Bool
  /-- Bytes that were received. -/
  rx : List Byte
  /-- Bytes that are to be transmitted. -/
  tx : List Byte

namespace Uart16550

/-- The divisor latch is accessible, in the place of two other registers. -/
def dlab (d : Uart16550) : Bool := d.lcr.getLsbD 7

/-- The clock of the UART by the rate of the line. -/
def divisor (d : Uart16550) : ℕ := d.dlm.toNat * 256 + d.dll.toNat

/-- The length of the queues. -/
def depth (d : Uart16550) : ℕ := if d.fifo then 16 else 1

/-- A write to a register, by its offset from `COM1_PORT`. A byte for a full queue is lost. -/
def out (d : Uart16550) (offset : ℕ) (byte : Byte) : Uart16550 :=
  match offset with
  | 0 =>
    if d.dlab then { d with dll := byte }
    else if d.tx.length < d.depth then { d with tx := d.tx ++ [byte] } else d
  | 1 => if d.dlab then { d with dlm := byte } else { d with ier := byte }
  | 2 =>
    let fifo := byte.getLsbD 0
    { d with
      fifo
      rx := if fifo ≠ d.fifo ∨ (fifo ∧ byte.getLsbD 1) then [] else d.rx
      tx := if fifo ≠ d.fifo ∨ (fifo ∧ byte.getLsbD 2) then [] else d.tx }
  | 3 => { d with lcr := byte }
  | 4 => { d with mcr := byte }
  | _ => d

/-- A reading of the line status register, as far as the driver looks at it. -/
def Shows (d : Uart16550) (lsr : Byte) : Prop :=
  (DataReady lsr ↔ d.rx ≠ []) ∧ (LineReady lsr ↔ d.tx = [])

instance (d : Uart16550) (lsr : Byte) : Decidable (d.Shows lsr) :=
  inferInstanceAs (Decidable (_ ∧ _))

end Uart16550

/-- `serial_init`: `UART_IER`, `UART_LCR`, `UART_DATA`, `UART_IER`, `UART_LCR`, `UART_FCR`,
`UART_MCR`, `UART_IER`. -/
def serialInit (d : Uart16550) : Uart16550 :=
  [(1, (0x00 : Byte)), (3, 0x80), (0, 0x01), (1, 0x01), (3, 0x03), (2, 0xC7), (4, 0x0B),
    (1, 0x01)].foldl (fun d p => d.out p.1 p.2) d

/-- What happens to the UART. -/
inductive SerialEvent where
  /-- A byte arrives on the line. -/
  | arrive (byte : Byte)
  /-- The transmitter puts the next byte on the line, if there is one. -/
  | shift
  /-- The driver accesses a port. -/
  | port (e : PortEvent)

/-- One event, and the byte that is put on the line, if any. There is no step for an access that
has another result. -/
def serialDevice (d : Uart16550) : SerialEvent → Option (Option Byte × Uart16550)
  | .arrive byte =>
    some (none, if d.rx.length < d.depth then { d with rx := d.rx ++ [byte] } else d)
  | .shift => match d.tx with
    | [] => some (none, d)
    | byte :: tx => some (some byte, { d with tx })
  | .port (.status lsr) => if d.Shows lsr then some (none, d) else none
  | .port (.write byte) => some (none, d.out 0 byte)
  | .port (.read byte) =>
    if d.dlab then if byte = d.dll then some (none, d) else none
    else match d.rx with
      | [] => some (none, d)
      | first :: rx => if byte = first then some (none, { d with rx }) else none

/-- A byte that arrives finds space. -/
def Uart16550.HasSpace (d : Uart16550) : SerialEvent → Prop
  | .arrive _ => d.rx.length < d.depth
  | _ => True

/-- The access of an event. -/
def SerialEvent.port? : SerialEvent → Option PortEvent
  | .port e => some e
  | _ => none

/-- The byte that arrives. -/
def SerialEvent.arrived? : SerialEvent → Option Byte
  | .arrive byte => some byte
  | _ => none

/-- The registers behind `serial_init`. -/
theorem serialInit_eq (d : Uart16550) :
    serialInit d = ⟨0x01, 0x03, 0x0B, 0x01, 0x01, true, [], []⟩ := by
  have hrest : ∀ d : Uart16550, [(3, (0x80 : Byte)), (0, 0x01), (1, 0x01), (3, 0x03), (2, 0xC7),
      (4, 0x0B), (1, 0x01)].foldl (fun d p => d.out p.1 p.2) d =
        ⟨0x01, 0x03, 0x0B, 0x01, 0x01, true, [], []⟩ := by
    intro d
    simp [Uart16550.out, Uart16550.dlab]
  rw [serialInit, List.foldl_cons]
  exact hrest _

/-- The UART behind `serial_init`, the accesses of the driver, the bytes that have been queued
and those that were put on the line. -/
structure SerialInStep (d : Uart16550) (log : List PortEvent) (queued line : List Byte) :
    Prop where
  /-- The divisor latch is not accessible. -/
  lcr_eq : d.lcr = 0x03
  /-- The divisor. -/
  divisor_eq : d.divisor = 257
  /-- The queues are in use. -/
  fifo_eq : d.fifo = true
  /-- The bytes written have been put on the line or are to be. -/
  sent_eq : line ++ d.tx = log.filterMap PortEvent.write?
  /-- The bytes queued have been read or are to be. -/
  received_eq : log.filterMap PortEvent.read? ++ d.rx = queued
  /-- What the last access has read of the status still holds as far as it permits anything. -/
  permitted : ∀ lsr, log.getLast? = some (.status lsr) →
    (LineReady lsr → d.tx = []) ∧ (DataReady lsr → d.rx ≠ [])

variable {d d' : Uart16550} {event : SerialEvent} {log : List PortEvent}
  {queued line : List Byte} {out : Option Byte}

/-- Behind `serial_init` nothing has happened. -/
theorem serialInit_inStep (d : Uart16550) : SerialInStep (serialInit d) [] [] [] := by
  rw [serialInit_eq]
  exact ⟨rfl, rfl, rfl, rfl, rfl, fun lsr hlast => absurd hlast (by simp)⟩

namespace SerialInStep

/-- The divisor latch is not accessible. -/
theorem dlab_eq (h : SerialInStep d log queued line) : d.dlab = false := by
  rw [Uart16550.dlab, h.lcr_eq]
  rfl

/-- The queues have room for 16 bytes. -/
theorem depth_eq (h : SerialInStep d log queued line) : d.depth = 16 := by
  rw [Uart16550.depth, h.fifo_eq]
  rfl

/-- A byte that arrives is queued. What was ready stays ready. -/
theorem arrive (h : SerialInStep d log queued line) (byte : Byte) :
    SerialInStep { d with rx := d.rx ++ [byte] } log (queued ++ [byte]) line := by
  refine ⟨h.lcr_eq, h.divisor_eq, h.fifo_eq, h.sent_eq, ?_, fun lsr hlast => ?_⟩
  · rw [← List.append_assoc, h.received_eq]
  · exact ⟨(h.permitted lsr hlast).1, fun _ => by simp⟩

/-- A byte leaves the queue. A transmitter that was ready stays ready. -/
theorem shift {byte : Byte} {tx : List Byte} (h : SerialInStep d log queued line)
    (htx : d.tx = byte :: tx) :
    SerialInStep { d with tx } log queued (line ++ [byte]) := by
  have hsent := h.sent_eq
  rw [htx] at hsent
  refine ⟨h.lcr_eq, h.divisor_eq, h.fifo_eq, by simpa using hsent, h.received_eq,
    fun lsr hlast => ⟨fun hready => ?_, (h.permitted lsr hlast).2⟩⟩
  rw [(h.permitted lsr hlast).1 hready] at htx
  cases htx

/-- A reading of the status. -/
theorem status {lsr : Byte} (h : SerialInStep d log queued line) (hshows : d.Shows lsr) :
    SerialInStep d (log ++ [.status lsr]) queued line := by
  refine ⟨h.lcr_eq, h.divisor_eq, h.fifo_eq, ?_, ?_, fun lsr' hlast => ?_⟩
  · rw [List.filterMap_append, h.sent_eq]
    simp [PortEvent.write?]
  · rw [List.filterMap_append, ← h.received_eq]
    simp [PortEvent.read?]
  · rw [List.getLast?_concat, Option.some.injEq, PortEvent.status.injEq] at hlast
    subst hlast
    exact ⟨hshows.2.mp, hshows.1.mp⟩

/-- A byte is written to an empty queue. -/
theorem write (h : SerialInStep d log queued line) (htx : d.tx = []) (byte : Byte) :
    SerialInStep (d.out 0 byte) (log ++ [.write byte]) queued line := by
  have hout : d.out 0 byte = { d with tx := [byte] } := by
    simp [Uart16550.out, h.dlab_eq, h.depth_eq, htx]
  have hsent := h.sent_eq
  rw [htx, List.append_nil] at hsent
  rw [hout]
  refine ⟨h.lcr_eq, h.divisor_eq, h.fifo_eq, ?_, ?_, fun lsr hlast => ?_⟩
  · rw [List.filterMap_append, hsent]
    rfl
  · rw [List.filterMap_append, ← h.received_eq]
    simp [PortEvent.read?]
  · rw [List.getLast?_concat] at hlast
    cases hlast

/-- The first byte of the queue is read. -/
theorem read {byte : Byte} {rx : List Byte} (h : SerialInStep d log queued line)
    (hrx : d.rx = byte :: rx) :
    SerialInStep { d with rx } (log ++ [.read byte]) queued line := by
  have hreceived := h.received_eq
  rw [hrx] at hreceived
  refine ⟨h.lcr_eq, h.divisor_eq, h.fifo_eq, ?_, ?_, fun lsr hlast => ?_⟩
  · rw [List.filterMap_append, h.sent_eq]
    simp [PortEvent.write?]
  · rw [List.filterMap_append, ← hreceived]
    simp [PortEvent.read?]
  · rw [List.getLast?_concat] at hlast
    cases hlast

/-- Every event keeps the UART in step, if it is one that the driver permits. A byte that arrives
is queued if there is space. -/
theorem step (h : SerialInStep d log queued line) (htalks : Talks (log ++ event.port?.toList))
    (hstep : serialDevice d event = some (out, d')) :
    ∃ bytes, bytes.Sublist event.arrived?.toList ∧
      (d.HasSpace event → bytes = event.arrived?.toList) ∧
      SerialInStep d' (log ++ event.port?.toList) (queued ++ bytes) (line ++ out.toList) := by
  cases event with
  | arrive byte =>
    simp only [serialDevice] at hstep
    split at hstep
    · obtain ⟨rfl, rfl⟩ := Prod.mk.inj (Option.some.inj hstep)
      refine ⟨[byte], List.Sublist.refl _, fun _ => rfl, ?_⟩
      simpa [SerialEvent.port?] using h.arrive byte
    · rename_i hfull
      obtain ⟨rfl, rfl⟩ := Prod.mk.inj (Option.some.inj hstep)
      refine ⟨[], List.nil_sublist _, fun hspace => absurd hspace hfull, ?_⟩
      simpa [SerialEvent.port?] using h
  | shift =>
    refine ⟨[], List.nil_sublist _, fun _ => rfl, ?_⟩
    cases htx : d.tx with
    | nil =>
      simp only [serialDevice, htx, Option.some.injEq, Prod.mk.injEq] at hstep
      obtain ⟨rfl, rfl⟩ := hstep
      simpa [SerialEvent.port?] using h
    | cons byte tx =>
      simp only [serialDevice, htx, Option.some.injEq, Prod.mk.injEq] at hstep
      obtain ⟨rfl, rfl⟩ := hstep
      simpa [SerialEvent.port?] using h.shift htx
  | port e =>
    refine ⟨[], List.nil_sublist _, fun _ => rfl, ?_⟩
    obtain ⟨-, hpermitted⟩ := Talks.of_concat (show Talks (log ++ [e]) from htalks)
    simp only [SerialEvent.port?, Option.toList_some, List.append_nil]
    cases e with
    | status lsr =>
      simp only [serialDevice] at hstep
      split at hstep
      · rename_i hshows
        obtain ⟨rfl, rfl⟩ := Prod.mk.inj (Option.some.inj hstep)
        simpa using h.status hshows
      · cases hstep
    | write byte =>
      obtain ⟨rfl, rfl⟩ := Prod.mk.inj (Option.some.inj hstep)
      obtain ⟨lsr, hstatus⟩ | ⟨a, hlast, lsr, rfl, hready⟩ := hpermitted
      · cases hstatus
      · simpa using h.write ((h.permitted lsr hlast).1 hready) byte
    | read byte =>
      obtain ⟨lsr, hstatus⟩ | ⟨a, hlast, lsr, rfl, hready⟩ := hpermitted
      · cases hstatus
      · obtain ⟨first, rx, hrx⟩ :=
          List.exists_cons_of_ne_nil ((h.permitted lsr hlast).2 hready)
        simp only [serialDevice, h.dlab_eq, Bool.false_eq_true, if_false, hrx] at hstep
        split at hstep
        · rename_i hfirst
          obtain ⟨rfl, rfl⟩ := Prod.mk.inj (Option.some.inj hstep)
          simpa using h.read (hfirst ▸ hrx)
        · cases hstep

/-- So does every sequence of events. -/
theorem run (h : SerialInStep d log queued line) {events : List SerialEvent}
    {outs : List (Option Byte)}
    (htalks : Talks (log ++ events.filterMap SerialEvent.port?))
    (hrun : exec serialDevice d events = some (outs, d')) :
    ∃ bytes, bytes.Sublist (events.filterMap SerialEvent.arrived?) ∧
      (Along serialDevice Uart16550.HasSpace d events →
        bytes = events.filterMap SerialEvent.arrived?) ∧
      SerialInStep d' (log ++ events.filterMap SerialEvent.port?) (queued ++ bytes)
        (line ++ outs.reduceOption) := by
  induction events generalizing d log queued line outs with
  | nil =>
    obtain ⟨rfl, rfl⟩ := Prod.mk.inj (Option.some.inj hrun)
    exact ⟨[], List.nil_sublist _, fun _ => rfl, by simpa using h⟩
  | cons event events ih =>
    obtain ⟨out, t, outs', hstep, hrest, rfl⟩ := exec_cons_iff.mp hrun
    rw [filterMap_cons_eq_append, ← List.append_assoc] at htalks
    obtain ⟨first, hfirst, hspace, hnext⟩ := h.step (Talks.of_append htalks) hstep
    obtain ⟨bytes, hbytes, hspace', hlast⟩ := ih hnext htalks hrest
    rw [filterMap_cons_eq_append, filterMap_cons_eq_append, reduceOption_cons_eq_append,
      ← List.append_assoc, ← List.append_assoc]
    refine ⟨first ++ bytes, hfirst.append hbytes, fun halong => ?_, ?_⟩
    · rw [hspace halong.1, hspace' (halong.2 out t hstep)]
    · rw [← List.append_assoc]
      exact hlast

end SerialInStep

/-- **Nothing is lost on the serial line, at a rate that was not meant.** After `serial_init`,
whatever the UART was before, for every sequence of calls of the driver and every order of its
accesses with what happens on the line: the bytes on the line and in the transmit queue are
those that the calls report as sent, and the bytes that the calls return and those in the
receive queue are among the ones that have arrived, in order, and all of them while every
byte that arrives finds space in the queue. The divisor is 257, where 115200 baud
takes 1. -/
theorem serial_line_exact (d₀ : Uart16550) (readings received : Stream' Byte)
    (calls : List SerialCall) {replies : List SerialReply} {p : SerialPort}
    (hcalls : exec serialStep ⟨readings, received, []⟩ calls = some (replies, p))
    {events : List SerialEvent} (hevents : events.filterMap SerialEvent.port? = p.log)
    {outs : List (Option Byte)} {d : Uart16550}
    (hrun : exec serialDevice (serialInit d₀) events = some (outs, d)) :
    (∃ parts, List.Forall₂ Accepts (calls.zip replies) parts ∧
      outs.reduceOption ++ d.tx = parts.flatten) ∧
    (replies.filterMap SerialReply.byte? ++ d.rx).Sublist
      (events.filterMap SerialEvent.arrived?) ∧
    (Along serialDevice Uart16550.HasSpace (serialInit d₀) events →
      replies.filterMap SerialReply.byte? ++ d.rx = events.filterMap SerialEvent.arrived?) ∧
    d.divisor = 257 := by
  obtain ⟨log, parts, hlog, htalks, haccepts, hwrites, hreads⟩ := exec_serialStep hcalls
  rw [List.nil_append] at hlog
  rw [← hlog, ← hevents] at htalks hwrites hreads
  obtain ⟨bytes, hbytes, hspace, hd⟩ :=
    (serialInit_inStep d₀).run (by rwa [List.nil_append]) hrun
  rw [List.nil_append, List.nil_append, List.nil_append] at hd
  rw [← hreads, hd.received_eq]
  exact ⟨⟨parts, haccepts, hd.sent_eq.trans hwrites⟩, hbytes, hspace, hd.divisor_eq⟩

/-- The readings of the status in the example. -/
def echoReadings : Stream' Byte := fun i => [0x20, 0x00, 0x21].getD i 0x20

/-- What happens in the example: a byte is sent, and the answer arrives behind a first poll. -/
def echoEvents : List SerialEvent :=
  [.port (.status 0x20), .port (.write 0x41), .port (.status 0x00), .shift, .arrive 0x42,
    .port (.status 0x21), .port (.read 0x42)]

/-- A byte and its answer. -/
theorem serial_line_exact_echo :
    ∃ p d, exec serialStep ⟨echoReadings, Stream'.const 0x42, []⟩ [.sendByte 0x41, .recvByte 2] =
        some ([.ret 0, .byte 0x42], p) ∧
      exec serialDevice (serialInit ⟨0, 0, 0, 12, 0, false, [0xFF], []⟩) echoEvents =
        some ([none, none, none, some 0x41, none, none, none], d) ∧
      (∃ parts, List.Forall₂ Accepts [(.sendByte 0x41, .ret 0), (.recvByte 2, .byte 0x42)] parts ∧
        [0x41] ++ d.tx = parts.flatten) ∧
      [0x42] ++ d.rx = [0x42] ∧ d.divisor = 257 := by
  have hready : LineReady (echoReadings.head) := by decide
  have hsend : serialSendByte ⟨echoReadings, []⟩ 0x41 =
      (0, ⟨echoReadings.tail, [.status 0x20, .data 0x41]⟩) := by
    rw [serialSendByte, serialPoll, dif_neg fun h => h.1 hready]
    rfl
  have hrecv : serialStep ⟨echoReadings.tail, Stream'.const 0x42, [.status 0x20, .write 0x41]⟩
      (.recvByte 2) = some (.byte 0x42, ⟨echoReadings.tail.tail.tail, (Stream'.const 0x42).tail,
        echoEvents.filterMap SerialEvent.port?⟩) := rfl
  have hfirst : serialStep ⟨echoReadings, Stream'.const 0x42, []⟩ (.sendByte 0x41) =
      some (.ret 0, ⟨echoReadings.tail, Stream'.const 0x42, [.status 0x20, .write 0x41]⟩) := by
    rw [serialStep, hsend]
    rfl
  have hcalls := exec_concat (exec_concat exec_nil hfirst) hrecv
  have hrun : exec serialDevice (serialInit ⟨0, 0, 0, 12, 0, false, [0xFF], []⟩) echoEvents =
      some ([none, none, none, some 0x41, none, none, none],
        ⟨0x01, 0x03, 0x0B, 0x01, 0x01, true, [], []⟩) := by
    rw [serialInit_eq]
    rfl
  have hspace : Along serialDevice Uart16550.HasSpace
      (serialInit ⟨0, 0, 0, 12, 0, false, [0xFF], []⟩) echoEvents := by
    rw [serialInit_eq]
    refine .cons trivial rfl (.cons trivial rfl (.cons trivial rfl (.cons trivial rfl
      (.cons ?_ rfl (.cons trivial rfl (.cons trivial rfl trivial))))))
    exact show (0 : ℕ) < 16 by decide
  obtain ⟨hsent, -, hreceived, hdivisor⟩ :=
    serial_line_exact _ _ _ [.sendByte 0x41, .recvByte 2] hcalls rfl hrun
  exact ⟨_, _, hcalls, hrun, hsent, hreceived hspace, hdivisor⟩

end Device

end Nimbu
