import Nimbu.Arch.Pic
import Nimbu.Drivers.Kbd
import Nimbu.Proc.Steps

/-!
# Acknowledging interrupts

An interrupt that the processor takes stays in service at the interrupt controller, and
keeps back all lines from its own on, until its handler writes the end-of-interrupt
command. Of the two handlers that the kernel registers, that of the keyboard always
does; `scheduler_tick` returns before it when there is no current process. Handlers
run with interrupts disabled, so an interrupt is one step here. The stubs that call
them are not part of the source; what the source says of vectors 32 and 33 is taken as
the handlers of lines 0 and 1.
-/

namespace Nimbu

/-- The registers of the master controller in operation. -/
structure Lines where
  /-- Lines that request an interrupt. -/
  requested : Byte
  /-- Lines whose interrupt is being handled. -/
  inService : Byte
  /-- Lines that are masked. -/
  mask : Byte

namespace Lines

/-- The line whose interrupt is delivered: the first one that requests it, if it is not masked
and neither it nor a line before it is in service. -/
def next (l : Lines) : Option ℕ :=
  ((List.range 8).find? fun k => l.requested.getLsbD k && !l.mask.getLsbD k).filter fun k =>
    (List.range (k + 1)).all fun j => !l.inService.getLsbD j

/-- A device requests an interrupt. -/
def request (l : Lines) (irq : Byte) : Lines := { l with requested := l.requested ||| irqBit irq }

/-- The processor takes the interrupt of a line. -/
def take (l : Lines) (irq : Byte) : Lines :=
  { l with
    requested := l.requested &&& ~~~irqBit irq
    inService := l.inService ||| irqBit irq }

/-- The command 0x20 at port 0x20: the first line in service is not any more. -/
def endOfInterrupt (l : Lines) : Lines :=
  match (List.range 8).find? fun k => l.inService.getLsbD k with
  | none => l
  | some k => { l with inService := l.inService &&& ~~~irqBit (BitVec.ofNat 8 k) }

end Lines

/-- The controllers that `kmain` leaves: `idt_init` masks all lines, `scheduler_init` enables that
of the timer and `kbd_init` that of the keyboard. -/
def kmainPics (pics : Pics) : Pics := irqEnable (irqEnable (picInit pics) 0) 1

/-- Whatever the controllers were, no other line is enabled. -/
theorem kmainPics_eq (pics : Pics) : kmainPics pics = ⟨⟨0xFC, .ready⟩, ⟨0xFF, .ready⟩⟩ := by
  rw [kmainPics, picInit_eq]
  decide

variable {M : Type} {pmmBus heapBus : Bus M}

/-- The kernel and the interrupt controller. -/
structure Interruptible (M : Type) where
  /-- The controller. -/
  lines : Lines
  /-- The kernel. -/
  kernel : Kernel M
  /-- The record of `kbd.c`. -/
  kbd : Kbd

/-- What happens next. -/
inductive InterruptEvent where
  /-- A device of the master requests an interrupt. -/
  | request (irq : Byte)
  /-- The processor takes an interrupt, if one is delivered: with the context that its stub has
  saved, and the scancode that the keyboard holds. -/
  | interrupt (context : Word) (scancode : Byte)
  /-- `proc_init`. -/
  | init
  /-- A call of `process.c`. -/
  | call (call : ProcCall)

/-- `scheduler_tick` as the handler of line 0, with the command at its end. -/
def timerHandler (s : Interruptible M) (context : Word) : Interruptible M :=
  let procs := (schedulerTick s.kernel.procs context).2
  let s' := { s with kernel := { s.kernel with procs } }
  match procGetCurrent s.kernel.procs with
  | none => s'
  | some _ => { s' with lines := s.lines.endOfInterrupt }

/-- `kbd_interrupt_handler` as the handler of line 1, with the command at its end. -/
def keyboardHandler (s : Interruptible M) (scancode : Byte) : Option (Interruptible M) := do
  let kbd ← kbdInterruptHandler s.kbd scancode
  return { s with kbd, lines := s.lines.endOfInterrupt }

/-- One event, and the line whose interrupt is taken, if any. The default handler of all other
lines does not return, and nothing but the timer calls `scheduler_tick`. -/
def interruptStep (pmmBus heapBus : Bus M) (s : Interruptible M) :
    InterruptEvent → Option (Option ℕ × Interruptible M)
  | .request irq => some (none, { s with lines := s.lines.request irq })
  | .interrupt context scancode => match s.lines.next with
    | none => some (none, s)
    | some 0 => some (some 0, timerHandler { s with lines := s.lines.take 0 } context)
    | some 1 => do
      let s' ← keyboardHandler { s with lines := s.lines.take 1 } scancode
      return (some 1, s')
    | some _ => none
  | .init => some (none, { s with kernel := { s.kernel with procs := procInit s.kernel.procs } })
  | .call (.tick _) => none
  | .call call => do
    let (_, kernel) ← procStep pmmBus heapBus s.kernel call
    return (none, { s with kernel })

/-- An event is the timer's interrupt. -/
def Interruptible.TakesTimer (s : Interruptible M) : InterruptEvent → Prop
  | .interrupt _ _ => s.lines.next = some 0
  | _ => False

/-- There is a current process when the timer's interrupt is taken. -/
def Interruptible.TimerFindsProcess (s : Interruptible M) (event : InterruptEvent) : Prop :=
  s.TakesTimer event → s.kernel.procs.currentProcess ≠ none

section Lines

variable {l : Lines}

/-- With lines 0 and 1 enabled and nothing in service the first request is delivered. -/
theorem Lines.next_of_idle (hmask : l.mask = 0xFC) (hservice : l.inService = 0) :
    l.next = if l.requested.getLsbD 0 then some 0
      else if l.requested.getLsbD 1 then some 1 else none := by
  obtain ⟨requested, inService, mask⟩ := l
  obtain rfl : mask = 0xFC := hmask
  obtain rfl : inService = 0 := hservice
  revert requested
  decide

/-- With the timer in service nothing is delivered. -/
theorem Lines.next_of_stuck (hmask : l.mask = 0xFC) (hservice : l.inService = 1) :
    l.next = none := by
  obtain ⟨requested, inService, mask⟩ := l
  obtain rfl : mask = 0xFC := hmask
  obtain rfl : inService = 1 := hservice
  revert requested
  decide

end Lines

section Steps

variable {s s' : Interruptible M} {event : InterruptEvent} {taken : Option ℕ}
  {events : List InterruptEvent} {replies : List (Option ℕ)}

/-- No call of `process.c` but `proc_init` changes the current process. -/
theorem procStep_currentProcess {k k' : Kernel M} {call : ProcCall} {reply : ProcReply}
    (hcall : ∀ context, call ≠ .tick context)
    (hstep : procStep pmmBus heapBus k call = some (reply, k')) :
    k'.procs.currentProcess = k.procs.currentProcess := by
  cases call with
  | create entryPoint priority =>
    obtain ⟨⟨ret, k₁⟩, hcreate, hresult⟩ := Option.bind_eq_some_iff.mp hstep
    obtain ⟨-, rfl⟩ : ProcReply.status ret = reply ∧ k₁ = k' := by simpa using hresult
    rcases procCreate_procs hcreate with ⟨-, -, rfl⟩ | ⟨_, -, -, -, hkept, -⟩
    · rfl
    · exact hkept
  | exit pid =>
    obtain ⟨-, rfl⟩ : ProcReply.status (procExit k.procs pid).1 = reply ∧ _ = k' := by
      simpa [procStep] using hstep
    rcases procExit_cases k.procs pid with ⟨-, heq⟩ | ⟨_, -, heq⟩ <;> simp [heq]
  | block resource =>
    obtain ⟨-, rfl⟩ : ProcReply.status (procBlock k.procs resource).1 = reply ∧ _ = k' := by
      simpa [procStep] using hstep
    unfold procBlock
    split <;> simp
  | unblock pid =>
    obtain ⟨-, rfl⟩ : ProcReply.status (procUnblock k.procs pid).1 = reply ∧ _ = k' := by
      simpa [procStep] using hstep
    rcases procUnblock_cases k.procs pid with heq | ⟨_, -, -, heq⟩ <;> simp [heq]
  | tick context => exact absurd rfl (hcall context)

/-- Neither does a tick. -/
theorem schedulerTick_currentProcess (p : Procs) (context : Word) :
    (schedulerTick p context).2.currentProcess = p.currentProcess := by
  have hswitch : ∀ q : Procs, (contextSwitch q context).2.2.currentProcess = q.currentProcess := by
    intro q
    simp only [contextSwitch, Procs.currentProcess_modify]
    split <;> simp only [Procs.currentProcess_modify]
  have hcount : ∀ (q : Procs) (i : Slot), (countDown q i).currentProcess = q.currentProcess :=
    fun q i => (countDown_kept q i i).2.2.1
  unfold schedulerTick
  simp only
  split
  · rfl
  · split
    · exact (hswitch _).trans (hcount _ _)
    · exact hcount _ _

/-- A call of `process.c` takes no interrupt and leaves the controller alone. -/
theorem interruptStep_call {call : ProcCall}
    (hstep : interruptStep pmmBus heapBus s (.call call) = some (taken, s')) :
    taken = none ∧ (∀ context, call ≠ .tick context) ∧ ∃ reply kernel,
      procStep pmmBus heapBus s.kernel call = some (reply, kernel) ∧ s' = { s with kernel } := by
  cases call with
  | tick context => cases hstep
  | _ =>
    simp only [interruptStep, Option.bind_eq_bind, Option.bind_eq_some_iff, Prod.exists,
      Option.pure_def, Option.some.injEq, Prod.mk.injEq] at hstep
    obtain ⟨reply, kernel, hcall, rfl, rfl⟩ := hstep
    exact ⟨rfl, by simp, reply, kernel, hcall, rfl⟩

/-- The registers of the controller that matter: which lines are enabled and in service. -/
structure Lines.Serves (l : Lines) (inService : Byte) : Prop where
  /-- Lines 0 and 1 are enabled. -/
  mask_eq : l.mask = 0xFC
  /-- The lines in service. -/
  inService_eq : l.inService = inService

/-- The command at the end of a handler takes its own line out of service. -/
theorem Lines.Serves.ended {l : Lines} (hl : l.Serves 0) {irq : Byte} (hirq : irq = 0 ∨ irq = 1) :
    (l.take irq).endOfInterrupt.Serves 0 := by
  have htaken : (l.take irq).inService = irqBit irq := by
    rw [Lines.take, hl.inService_eq]
    exact BitVec.zero_or
  constructor
  · unfold Lines.endOfInterrupt
    split <;> exact hl.mask_eq
  · unfold Lines.endOfInterrupt
    rw [htaken]
    rcases hirq with rfl | rfl <;> rfl

/-- The timer leaves its line in service exactly when there is no current process. -/
theorem timerHandler_serves (hs : s.lines.Serves 0) (context : Word) :
    (timerHandler { s with lines := s.lines.take 0 } context).lines.Serves
        (if s.kernel.procs.currentProcess = none then 1 else 0) ∧
      (timerHandler { s with lines := s.lines.take 0 } context).kernel.procs.currentProcess =
        s.kernel.procs.currentProcess := by
  have hkept := schedulerTick_currentProcess s.kernel.procs context
  cases hcurrent : s.kernel.procs.currentProcess with
  | none =>
    have htaken : (s.lines.take 0).inService = 1 := by
      rw [Lines.take, hs.inService_eq]
      rfl
    simp only [timerHandler, procGetCurrent, hcurrent]
    exact ⟨⟨hs.mask_eq, htaken⟩, hkept.trans hcurrent⟩
  | some i =>
    simp only [timerHandler, procGetCurrent, hcurrent]
    exact ⟨hs.ended (Or.inl rfl), hkept.trans hcurrent⟩

/-- While nothing is in service, an event leaves the timer in service exactly when it is a tick
without a current process. A current process stays. -/
theorem interruptStep_serves (hs : s.lines.Serves 0)
    (hstep : interruptStep pmmBus heapBus s event = some (taken, s')) :
    (s.TimerFindsProcess event ∧ s'.lines.Serves 0 ∨
      ¬ s.TimerFindsProcess event ∧ s'.lines.Serves 1) ∧
    (s.kernel.procs.currentProcess ≠ none → s'.kernel.procs.currentProcess ≠ none) := by
  cases event with
  | request irq =>
    obtain ⟨-, rfl⟩ := Prod.mk.inj (Option.some.inj hstep)
    exact ⟨Or.inl ⟨False.elim, hs.mask_eq, hs.inService_eq⟩, id⟩
  | init =>
    obtain ⟨-, rfl⟩ := Prod.mk.inj (Option.some.inj hstep)
    exact ⟨Or.inl ⟨False.elim, hs⟩, fun _ => by simp [procInit]⟩
  | call call =>
    obtain ⟨-, hother, reply, kernel, hcall, rfl⟩ := interruptStep_call hstep
    refine ⟨Or.inl ⟨False.elim, hs⟩, fun hcurrent => ?_⟩
    rwa [procStep_currentProcess hother hcall]
  | interrupt context scancode =>
    unfold interruptStep at hstep
    have hnext := Lines.next_of_idle hs.mask_eq hs.inService_eq
    by_cases htimer : s.lines.requested.getLsbD 0 = true
    · rw [if_pos htimer] at hnext
      simp only [hnext, Option.some.injEq, Prod.mk.injEq] at hstep
      obtain ⟨-, rfl⟩ := hstep
      obtain ⟨hserves, hkept⟩ := timerHandler_serves hs context
      refine ⟨?_, fun hcurrent => by rwa [hkept]⟩
      by_cases hcurrent : s.kernel.procs.currentProcess = none
      · rw [if_pos hcurrent] at hserves
        exact Or.inr ⟨fun hfinds => hfinds hnext hcurrent, hserves⟩
      · rw [if_neg hcurrent] at hserves
        exact Or.inl ⟨fun _ => hcurrent, hserves⟩
    · have hfinds : s.TimerFindsProcess (.interrupt context scancode) := by
        intro htakes
        rw [Interruptible.TakesTimer, hnext, if_neg htimer] at htakes
        split at htakes <;> cases htakes
      rw [if_neg htimer] at hnext
      by_cases hkeyboard : s.lines.requested.getLsbD 1 = true
      · rw [if_pos hkeyboard] at hnext
        simp only [hnext] at hstep
        obtain ⟨s₁, hhandler, hresult⟩ := Option.bind_eq_some_iff.mp hstep
        obtain ⟨-, rfl⟩ := Prod.mk.inj (Option.some.inj hresult)
        obtain ⟨kbd, -, hs₁⟩ := Option.bind_eq_some_iff.mp hhandler
        obtain rfl := Option.some.inj hs₁
        exact ⟨Or.inl ⟨hfinds, hs.ended (Or.inr rfl)⟩, id⟩
      · rw [if_neg hkeyboard] at hnext
        simp only [hnext, Option.some.injEq, Prod.mk.injEq] at hstep
        obtain ⟨-, rfl⟩ := hstep
        exact ⟨Or.inl ⟨hfinds, hs⟩, id⟩

/-- With the timer in service no interrupt is taken any more. -/
theorem interruptStep_stuck (hs : s.lines.Serves 1)
    (hstep : interruptStep pmmBus heapBus s event = some (taken, s')) :
    taken = none ∧ s'.lines.Serves 1 := by
  cases event with
  | request irq =>
    obtain ⟨rfl, rfl⟩ := Prod.mk.inj (Option.some.inj hstep)
    exact ⟨rfl, hs.mask_eq, hs.inService_eq⟩
  | init =>
    obtain ⟨rfl, rfl⟩ := Prod.mk.inj (Option.some.inj hstep)
    exact ⟨rfl, hs⟩
  | call call =>
    obtain ⟨rfl, -, _, _, -, rfl⟩ := interruptStep_call hstep
    exact ⟨rfl, hs⟩
  | interrupt context scancode =>
    simp only [interruptStep, Lines.next_of_stuck hs.mask_eq hs.inService_eq, Option.some.injEq,
      Prod.mk.injEq] at hstep
    obtain ⟨rfl, rfl⟩ := hstep
    exact ⟨rfl, hs⟩

/-- The timer stays in service for ever, and no interrupt is taken. -/
theorem exec_stuck (hs : s.lines.Serves 1)
    (hrun : exec (interruptStep pmmBus heapBus) s events = some (replies, s')) :
    s'.lines.Serves 1 ∧ ∀ taken ∈ replies, taken = none := by
  induction events generalizing s replies with
  | nil =>
    obtain ⟨rfl, rfl⟩ := Prod.mk.inj (Option.some.inj hrun)
    exact ⟨hs, by simp⟩
  | cons event events ih =>
    obtain ⟨taken, t, replies', hstep, hrest, rfl⟩ := exec_cons_iff.mp hrun
    obtain ⟨hnone, ht⟩ := interruptStep_stuck hs hstep
    obtain ⟨hs', hreplies⟩ := ih ht hrest
    exact ⟨hs', List.forall_mem_cons.mpr ⟨hnone, hreplies⟩⟩

/-- The lines in service behind a run. -/
theorem exec_serves (hs : s.lines.Serves 0)
    (hrun : exec (interruptStep pmmBus heapBus) s events = some (replies, s')) :
    (Along (interruptStep pmmBus heapBus) Interruptible.TimerFindsProcess s events ∧
      s'.lines.Serves 0 ∨
    ¬ Along (interruptStep pmmBus heapBus) Interruptible.TimerFindsProcess s events ∧
      s'.lines.Serves 1) ∧
    (s.kernel.procs.currentProcess ≠ none →
      Along (interruptStep pmmBus heapBus) Interruptible.TimerFindsProcess s events) := by
  induction events generalizing s replies with
  | nil =>
    obtain ⟨rfl, rfl⟩ := Prod.mk.inj (Option.some.inj hrun)
    exact ⟨Or.inl ⟨trivial, hs⟩, fun _ => trivial⟩
  | cons event events ih =>
    obtain ⟨taken, t, replies', hstep, hrest, rfl⟩ := exec_cons_iff.mp hrun
    obtain ⟨⟨hfinds, ht⟩ | ⟨hfinds, ht⟩, hcurrent⟩ := interruptStep_serves hs hstep
    · obtain ⟨hcases, halways⟩ := ih ht hrest
      refine ⟨hcases.imp (fun h => ⟨Along.cons hfinds hstep h.1, h.2⟩) fun h =>
        ⟨fun halong => h.1 (halong.2 taken t hstep), h.2⟩, fun hinit => ?_⟩
      exact Along.cons hfinds hstep (halways (hcurrent hinit))
    · refine ⟨Or.inr ⟨fun halong => hfinds halong.1, (exec_stuck ht hrest).1⟩, fun hinit => ?_⟩
      exact absurd (fun _ => hinit) hfinds

/-- **Interrupts are acknowledged once there is a current process.** For every order of requests,
interrupts taken and calls, with the lines enabled that `kmain` enables: nothing is in service
exactly when every tick so far has found a current process, as every tick behind `proc_init`
does. Then the next request is delivered; otherwise no interrupt is ever taken again. -/
theorem interrupts_acknowledged_iff (pics : Pics) {s s' : Interruptible M}
    (hservice : s.lines.inService = 0) (hmask : s.lines.mask = (kmainPics pics).master.mask)
    {events : List InterruptEvent} {replies : List (Option ℕ)}
    (hrun : exec (interruptStep pmmBus heapBus) s events = some (replies, s')) :
    (s'.lines.inService = 0 ↔
      Along (interruptStep pmmBus heapBus) Interruptible.TimerFindsProcess s events) ∧
    (s.kernel.procs.currentProcess ≠ none → s'.lines.inService = 0) ∧
    (s'.lines.inService = 0 → s'.lines.next = if s'.lines.requested.getLsbD 0 then some 0
      else if s'.lines.requested.getLsbD 1 then some 1 else none) ∧
    (s'.lines.inService ≠ 0 → ∀ more replies' s'',
      exec (interruptStep pmmBus heapBus) s' more = some (replies', s'') →
        ∀ taken ∈ replies', taken = none) := by
  rw [kmainPics_eq] at hmask
  obtain ⟨⟨halong, hs'⟩ | ⟨halong, hs'⟩, halways⟩ := exec_serves ⟨hmask, hservice⟩ hrun
  · refine ⟨iff_of_true hs'.inService_eq halong, fun _ => hs'.inService_eq,
      Lines.next_of_idle hs'.mask_eq, fun hstuck => absurd hs'.inService_eq hstuck⟩
  · have hstuck : s'.lines.inService ≠ 0 := by
      rw [hs'.inService_eq]
      decide
    exact ⟨iff_of_false hstuck halong, fun hinit => absurd (halways hinit) halong,
      fun hnone => absurd hnone hstuck, fun _ more replies' s'' hmore => (exec_stuck hs' hmore).2⟩

/-- The kernel before `proc_init`, with nothing in service. -/
def beforeProcInit : Interruptible Mem where
  lines := ⟨0, 0, (kmainPics ⟨⟨0, .ready⟩, ⟨0, .ready⟩⟩).master.mask⟩
  kernel := ⟨⟨0, 0, 0, 0⟩, ⟨0, 0, 0⟩, ⟨fun _ => 0, []⟩, Procs.static⟩
  kbd := ⟨Vector.replicate 256 0, 0, 0, 0, 0⟩

/-- A tick before `proc_init`: the key that is pressed behind it is not noticed. -/
theorem interrupts_acknowledged_early_tick :
    ∃ s', exec (interruptStep Mem.bus Mem.bus) beforeProcInit
        [.request 0, .interrupt 0 0, .init, .request 1, .interrupt 0 0x1E] =
          some ([none, some 0, none, none, none], s') ∧
      ¬ Along (interruptStep Mem.bus Mem.bus) Interruptible.TimerFindsProcess beforeProcInit
        [.request 0, .interrupt 0 0, .init, .request 1, .interrupt 0 0x1E] := by
  have heval : (exec (interruptStep Mem.bus Mem.bus) beforeProcInit
      [.request 0, .interrupt 0 0, .init, .request 1, .interrupt 0 0x1E]).map
        (fun r => (r.1, r.2.lines.inService)) = some ([none, some 0, none, none, none], 1) := by
    decide +kernel
  obtain ⟨⟨replies, s'⟩, hrun, hresult⟩ := Option.map_eq_some_iff.mp heval
  obtain ⟨rfl, hservice⟩ := Prod.mk.inj hresult
  have hiff := (interrupts_acknowledged_iff ⟨⟨0, .ready⟩, ⟨0, .ready⟩⟩ rfl rfl hrun).1
  refine ⟨s', hrun, fun halong => ?_⟩
  have hzero := hiff.mpr halong
  rw [show s'.lines.inService = 1 from hservice] at hzero
  exact absurd hzero (by decide)

/-- Behind `proc_init` the timer and the key are both served. -/
example : (exec (interruptStep Mem.bus Mem.bus) beforeProcInit
    [.init, .request 1, .request 0, .interrupt 0 0, .interrupt 0 0x1E]).map Prod.fst =
      some [none, none, none, some 0, some 1] := by
  decide +kernel

end Steps

end Nimbu
