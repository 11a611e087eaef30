import Nimbu.Proc.Steps

/-!
# Time slices

The slice of the current process is counted down at every tick, and that of the slot
dispatched is set to ten ticks. Since the current process is always slot 0, ten ticks
without a switch would take ten ticks off its slice, which has at most ten and makes
the scheduler switch with its last one.
-/

namespace Nimbu

variable {M : Type} {pmmBus heapBus : Bus M}

/-- The call is a tick of the timer. -/
def ProcCall.isTick : ProcCall → Bool
  | .tick _ => true
  | _ => false

/-- The number of ticks among the calls. -/
def tickCount (calls : List ProcCall) : ℕ := calls.countP ProcCall.isTick

/-- The ticks of a list are those of its first call and of the rest. -/
theorem tickCount_cons (call : ProcCall) (calls : List ProcCall) :
    tickCount (call :: calls) = tickCount [call] + tickCount calls := by
  rw [tickCount, ← List.singleton_append, List.countP_append]
  rfl

/-- A call is at most one tick. -/
theorem tickCount_singleton (call : ProcCall) :
    tickCount [call] = if call.isTick = true then 1 else 0 := by
  rw [tickCount, List.countP_singleton]

/-- The ticks left of the slice of a slot. -/
def Procs.slice (p : Procs) (i : Slot) : ℕ := (p.table i).timeSliceRemaining.toNat

/-- Every slice is left as it is, set to a full slice, or reduced by a tick that it has. -/
def CountsDown (pmmBus heapBus : Bus M) (k : Kernel M) (call : ProcCall) : Prop :=
  ∀ reply k', procStep pmmBus heapBus k call = some (reply, k') → ∀ i,
    k'.procs.slice i = k.procs.slice i ∨ k'.procs.slice i = schedulerTimeSlice.toNat ∨
      (0 < k.procs.slice i ∧ k'.procs.slice i + 1 = k.procs.slice i)

variable {k k' : Kernel M} {call : ProcCall} {calls : List ProcCall} {reply : ProcReply}
  {replies : List ProcReply}

/-- Every call counts down. -/
theorem countsDown_of_idle (hidle : k.procs.Idle) (call : ProcCall) :
    CountsDown pmmBus heapBus k call := by
  intro reply k' hstep i
  unfold Procs.slice
  cases call with
  | tick context =>
    rw [(procStep_tick hstep).2]
    have htable := (schedulerTick_table hidle.current context i).1
    split at htable
    · exact Or.inr (Or.inl htable)
    · split at htable
      · rename_i hi
        subst hi
        omega
      · exact Or.inl htable
  | _ =>
    rcases (procStep_clock hidle (by simp) hstep).2.2 i with hsame | ⟨-, hfull, -⟩
    · exact Or.inl (congrArg BitVec.toNat hsame.1)
    · exact Or.inr (Or.inl (congrArg BitVec.toNat hfull))

/-- No slice is longer than a full one. -/
def Procs.SlicesBounded (p : Procs) : Prop := ∀ i, p.slice i ≤ schedulerTimeSlice.toNat

/-- Every call keeps the slices bounded. -/
theorem procStep_slicesBounded (hidle : k.procs.Idle) (hbounded : k.procs.SlicesBounded)
    (hstep : procStep pmmBus heapBus k call = some (reply, k')) : k'.procs.SlicesBounded := by
  intro i
  have hi := hbounded i
  rcases countsDown_of_idle hidle call reply k' hstep i with hsame | hfull | ⟨-, hless⟩
  · rw [hsame]
    exact hi
  · rw [hfull]
  · omega

end Nimbu
