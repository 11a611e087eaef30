import Nimbu.Machine.Run
import Nimbu.Proc.Process

/-!
# The scheduler

`scheduler.c`: a tick of the timer counts down the slice of the current process
and switches to another process when the slice has run out or the current
process is not running. The table is that of `process.c`. The end-of-interrupt
command to the interrupt controller has no effect on it and is left out.
-/

namespace Nimbu

/-- The first READY slot of the table. -/
def findReady (p : Procs) : Option Slot :=
  (List.finRange 256).find? fun i => (p.table i).state = .ready

/-- `context_switch`: the slot dispatched, the context to restore and the new
table. -/
def contextSwitch (p : Procs) (context : Word) : Slot × Word × Procs :=
  let next := (findReady p).getD 0
  let p := match procGetCurrent p with
    | none => p
    | some i => p.modify i fun pcb => { pcb with state := .ready, context }
  let p := p.modify next fun pcb =>
    { pcb with state := .running, timeSliceRemaining := schedulerTimeSlice,
               totalRuntime := pcb.totalRuntime + 1 }
  let saved := (p.table next).context
  (next, if saved ≠ 0 then saved else context, p)

/-- The first part of `scheduler_tick`: decrement the time slice, unless it is 0. -/
def countDown (p : Procs) (i : Slot) : Procs :=
  if (p.table i).timeSliceRemaining > 0 then
    p.modify i fun pcb => { pcb with timeSliceRemaining := pcb.timeSliceRemaining - 1 }
  else p

/-- `scheduler_tick`, together with the slot it dispatched, if any. -/
def schedulerTick (p : Procs) (context : Word) : Option Slot × Procs :=
  let p := { p with schedulerTicks := p.schedulerTicks + 1 }
  match procGetCurrent p with
  | none => (none, p)
  | some i =>
    let p := countDown p i
    if (p.table i).timeSliceRemaining = 0 ∨ (p.table i).state ≠ .running then
      let (next, _, p) := contextSwitch p context
      (some next, p)
    else (none, p)

/-- `scheduler_get_ticks`. -/
def schedulerGetTicks (p : Procs) : Word := p.schedulerTicks

end Nimbu
