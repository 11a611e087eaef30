import Nimbu.Proc.Steps

/-!
# The running process

`current_process` is set by `proc_init` and never again, so the process that the
table calls RUNNING is the current one only as long as no tick dispatches
another slot. This file finds the ticks after which exactly the current process
is RUNNING.
-/

namespace Nimbu

variable {M : Type} {pmmBus heapBus : Bus M}

namespace Procs

/-- Exactly one slot is RUNNING, and it is the slot of the current process. -/
def OneRunning (p : Procs) : Prop :=
  ∃ i, procGetCurrent p = some i ∧ ∀ j, p.state j = .running ↔ j = i

/-- No slot but slot 0 is RUNNING. -/
def OthersWait (p : Procs) : Prop := ∀ i ≠ 0, p.state i ≠ .running

/-- The tick does not switch, or it dispatches slot 0: either slot 0 is READY
itself, or no slot is. -/
def TicksInPlace (p : Procs) : Prop :=
  p.Stays ∨ p.state 0 = .ready ∨ ∀ i, p.state i ≠ .ready

end Procs

/-- The states right after a tick. -/
def LeavesOneRunning (k : Kernel M) : ProcCall → Prop
  | .tick context => (schedulerTick k.procs context).2.OneRunning
  | _ => True

/-- The condition on the table before a tick. -/
def TickInPlace (k : Kernel M) : ProcCall → Prop
  | .tick _ => k.procs.TicksInPlace
  | _ => True

/-- While no other slot is RUNNING, a tick leaves exactly the current process
RUNNING when it stays in place. -/
theorem schedulerTick_oneRunning_iff {p : Procs} (hcurrent : p.currentProcess = some 0)
    (hwait : p.OthersWait) (context : Word) :
    (schedulerTick p context).2.OneRunning ↔ p.TicksInPlace := by
  obtain ⟨-, hcurrent', -, hcases⟩ := schedulerTick_cases hcurrent context
  have hone : (schedulerTick p context).2.OneRunning ↔
      ∀ j, (schedulerTick p context).2.state j = .running ↔ j = 0 := by
    unfold Procs.OneRunning procGetCurrent
    rw [hcurrent']
    constructor
    · rintro ⟨i, hi, hj⟩
      obtain rfl : 0 = i := Option.some.inj hi
      exact hj
    · intro hj
      exact ⟨0, rfl, hj⟩
  rw [hone]
  unfold Procs.TicksInPlace
  rcases hcases with ⟨hstays, -, hstate⟩ | ⟨hswitch, -, hstate⟩
  · refine iff_of_true (fun j => ?_) (Or.inl hstays)
    rw [hstate j]
    constructor
    · intro hj
      by_contra hne
      exact hwait j hne hj
    · rintro rfl
      exact hstays.1
  · rw [or_iff_right hswitch, ← findReady_getD_zero_iff]
    constructor
    · intro h
      exact (h _).mp (by rw [hstate, if_pos rfl])
    · intro h j
      rw [hstate j, h]
      by_cases hj : j = 0
      · simp [hj]
      · simp [hj, hwait j hj]

/-- Calls keep the other slots from RUNNING, ticks that stay in place included. -/
theorem procStep_othersWait {k k' : Kernel M} {call : ProcCall} {reply : ProcReply}
    (hidle : k.procs.Idle) (hwait : k.procs.OthersWait) (hplace : TickInPlace k call)
    (hstep : procStep pmmBus heapBus k call = some (reply, k')) : k'.procs.OthersWait := by
  refine procStep_others (Or.inl rfl) hidle hwait ?_ hstep
  rintro context rfl j hj hj'
  obtain ⟨i, hi, hrunning⟩ := (schedulerTick_oneRunning_iff hidle.current hwait context).mpr hplace
  obtain ⟨-, hcurrent', -⟩ := schedulerTick_cases hidle.current context
  obtain rfl : 0 = i := Option.some.inj (hcurrent'.symm.trans hi)
  exact hj ((hrunning j).mp hj')

/-- **Exactly one process runs.** In a run from `proc_init`, exactly the current
process is RUNNING after every tick, exactly when every tick of the run stays in
place: slot 0 is RUNNING with more than one tick left, or slot 0 is READY, or no
slot is READY. -/
theorem one_running_after_ticks_iff (pmmBus heapBus : Bus M) (pmm : PmmState) (heap : HeapState)
    (mem : M) (calls : List ProcCall) :
    Along (procStep pmmBus heapBus) LeavesOneRunning (Kernel.init pmm heap mem) calls ↔
      Along (procStep pmmBus heapBus) TickInPlace (Kernel.init pmm heap mem) calls := by
  refine along_iff_of_invariant (fun k => k.procs.Idle ∧ k.procs.OthersWait) ?_ ?_ ?_
    (along_of_invariant (fun _ => True) (fun _ _ => trivial) (fun _ _ => trivial) trivial calls)
  · intro k call hinv _
    cases call with
    | tick context => exact schedulerTick_oneRunning_iff hinv.1.current hinv.2 context
    | create entryPoint priority => exact Iff.rfl
    | exit pid => exact Iff.rfl
    | block resource => exact Iff.rfl
    | unblock pid => exact Iff.rfl
  · intro k call reply k' hinv _ hplace hstep
    exact ⟨procStep_idle hinv.1 hstep, procStep_othersWait hinv.1 hinv.2 hplace hstep⟩
  · refine ⟨procInit_idle, fun i hi => ?_⟩
    rw [Kernel.init, state_procInit, if_neg hi]
    simp

/-- The first tick after `proc_init` dispatches slot 1, which no one created,
while slot 0 stays the current process. -/
theorem one_running_fails_at_first_tick :
    ¬ Along (procStep Mem.bus Mem.bus) LeavesOneRunning
      (Kernel.init ⟨0, 0, 0, 0⟩ ⟨0, 0, 0⟩ ⟨fun _ => 0, []⟩) [.tick 0] := by
  rintro ⟨⟨i, hi, hrunning⟩, -⟩
  have hone : (schedulerTick (procInit Procs.static) 0).2.state 1 = .running := by decide
  have hzero : procGetCurrent (schedulerTick (procInit Procs.static) 0).2 = some 0 := by decide
  obtain rfl : 0 = i := Option.some.inj (hzero.symm.trans hi)
  exact absurd ((hrunning 1).mp hone) (by decide)

end Nimbu
