import Mathlib.Algebra.GroupWithZero.Nat
import Nimbu.Proc.Created
import Nimbu.Proc.TimeSlices

/-!
# CPU time

`context_switch` adds a tick to the runtime of the slot it dispatches; a tick that does
not switch is added to none. The current process is slot 0 at every tick, so its
runtime is the number of ticks only when every tick dispatches it.
-/

namespace Nimbu

variable {M : Type} {pmmBus heapBus : Bus M}

/-- The number of ticks of a run at whose start `proc_get_current` points to a slot. -/
def ticksCharged (pmmBus heapBus : Bus M) (i : Slot) : Kernel M → List ProcCall → ℕ
  | _, [] => 0
  | k, call :: calls =>
    (if call.isTick = true ∧ procGetCurrent k.procs = some i then 1 else 0) +
      match procStep pmmBus heapBus k call with
      | none => 0
      | some (_, k') => ticksCharged pmmBus heapBus i k' calls

/-- The slots that are processes: slot 0 and those created. -/
def processes (created : List ℤ) : List Slot :=
  (List.finRange 256).filter fun i => i = 0 ∨ (i.val : ℤ) ∈ created

/-- The CPU time of the processes is accounted for at the end of a run: each was given the
ticks at whose start it was the current one, and together they were given all ticks. -/
structure CpuTimeAccounted (pmmBus heapBus : Bus M) (k₀ : Kernel M) (calls : List ProcCall)
    (replies : List ProcReply) (k : Kernel M) : Prop where
  /-- The runtime of a process. -/
  charged : ∀ i ∈ processes (createdPids calls replies),
    (k.procs.table i).totalRuntime.toNat = ticksCharged pmmBus heapBus i k₀ calls
  /-- The runtime of all of them. -/
  total : ((processes (createdPids calls replies)).map fun i =>
    (k.procs.table i).totalRuntime.toNat).sum = (schedulerGetTicks k.procs).toNat

/-- A tick dispatches slot 0: it is READY, or it does not stay and no slot is READY. -/
def DispatchesIdle (k : Kernel M) : ProcCall → Prop
  | .tick _ => k.procs.state 0 = .ready ∨
      (¬ k.procs.Stays ∧ ∀ i, k.procs.state i ≠ .ready)
  | _ => True

/-- A tick that dispatched nothing or another slot than slot 0 is not among the replies. -/
def DispatchedIdle (reply : ProcReply) : Prop := ∀ dispatched, reply = .ticked dispatched →
  dispatched = some 0

variable {k k' : Kernel M} {call : ProcCall} {calls : List ProcCall} {reply : ProcReply}
  {replies : List ProcReply}

/-- The condition before a tick says what it dispatches. -/
theorem dispatchedIdle_iff (hidle : k.procs.Idle)
    (hstep : procStep pmmBus heapBus k call = some (reply, k')) :
    DispatchedIdle reply ↔ DispatchesIdle k call := by
  cases call with
  | tick context =>
    obtain ⟨rfl, -⟩ := procStep_tick hstep
    have hsome : DispatchedIdle (.ticked (schedulerTick k.procs context).1) ↔
        (schedulerTick k.procs context).1 = some 0 := by
      simp [DispatchedIdle]
    rw [hsome, DispatchesIdle]
    obtain ⟨-, -, -, ⟨hstays, hslot, -⟩ | ⟨hswitch, hslot, -⟩⟩ :=
      schedulerTick_cases hidle.current context
    · rw [hslot]
      refine iff_of_false (by simp) ?_
      rintro (hready | ⟨hswitch, -⟩)
      · rw [hstays.1] at hready
        cases hready
      · exact hswitch hstays
    · rw [hslot, Option.some.injEq, findReady_getD_zero_iff, and_iff_right hswitch]
  | _ =>
    obtain ⟨⟨ret, rfl⟩, -⟩ := procStep_clock hidle (by simp) hstep
    exact iff_of_true (by simp [DispatchedIdle]) trivial

/-- The current process is slot 0 at every tick. -/
theorem ticksCharged_eq (hidle : k.procs.Idle)
    (hrun : exec (procStep pmmBus heapBus) k calls = some (replies, k')) (i : Slot) :
    ticksCharged pmmBus heapBus i k calls = if i = 0 then tickCount calls else 0 := by
  induction calls generalizing k replies with
  | nil =>
    rw [ticksCharged]
    split <;> rfl
  | cons call calls ih =>
    obtain ⟨reply, k₁, rest, hstep, hrest, -⟩ := exec_cons_iff.mp hrun
    have hcurrent : procGetCurrent k.procs = some 0 := hidle.current
    rw [ticksCharged, hstep, hcurrent]
    simp only [ih (procStep_idle hidle hstep) hrest, tickCount, List.countP_cons,
      Option.some.injEq]
    by_cases hi : i = 0
    · subst hi
      simp only [and_true, if_true]
      omega
    · simp only [if_neg hi, if_neg fun h : call.isTick = true ∧ 0 = i => hi h.2.symm]

/-- What one call does to the counters: a tick is counted, and it is added to the runtime of
slot 0 exactly when it dispatched slot 0. -/
theorem counters_of_step (hidle : k.procs.Idle)
    (hstep : procStep pmmBus heapBus k call = some (reply, k')) :
    k'.procs.schedulerTicks = k.procs.schedulerTicks + BitVec.ofNat 32 (tickCount [call]) ∧
      ∃ dispatches, dispatches ≤ tickCount [call] ∧
        (k'.procs.table 0).totalRuntime =
          (k.procs.table 0).totalRuntime + BitVec.ofNat 32 dispatches ∧
        (dispatches = tickCount [call] ↔ DispatchedIdle reply) := by
  rw [tickCount_singleton]
  cases call with
  | tick context =>
    obtain ⟨rfl, hprocs⟩ := procStep_tick hstep
    rw [hprocs, schedulerTick_ticks hidle.current, (schedulerTick_table hidle.current context 0).2,
      if_pos (show (ProcCall.tick context).isTick = true from rfl)]
    refine ⟨rfl, ?_⟩
    by_cases hzero : (schedulerTick k.procs context).1 = some 0
    · rw [if_pos hzero]
      exact ⟨1, Nat.le_refl 1, rfl, iff_of_true rfl (by simp [DispatchedIdle, hzero])⟩
    · rw [if_neg hzero]
      exact ⟨0, Nat.zero_le 1, (BitVec.add_zero _).symm,
        iff_of_false Nat.zero_ne_one (by simp [DispatchedIdle, hzero])⟩
  | _ =>
    obtain ⟨⟨ret, rfl⟩, hticks, hclock⟩ := procStep_clock hidle (by simp) hstep
    have hsame := (hclock 0).resolve_right fun h => h.1 rfl
    rw [if_neg (by simp [ProcCall.isTick]), hticks, hsame.2]
    exact ⟨(BitVec.add_zero _).symm, 0, Nat.le_refl 0, (BitVec.add_zero _).symm,
      iff_of_true rfl (by simp [DispatchedIdle])⟩

/-- What a run does to the counters. -/
theorem counters_of_run (hidle : k.procs.Idle)
    (hrun : exec (procStep pmmBus heapBus) k calls = some (replies, k')) :
    k'.procs.schedulerTicks = k.procs.schedulerTicks + BitVec.ofNat 32 (tickCount calls) ∧
      ∃ dispatches, dispatches ≤ tickCount calls ∧
        (k'.procs.table 0).totalRuntime =
          (k.procs.table 0).totalRuntime + BitVec.ofNat 32 dispatches ∧
        (dispatches = tickCount calls ↔ ∀ reply ∈ replies, DispatchedIdle reply) := by
  induction calls generalizing k replies with
  | nil =>
    obtain ⟨rfl, rfl⟩ : [] = replies ∧ k = k' := by simpa using hrun
    exact ⟨(BitVec.add_zero _).symm, 0, Nat.le_refl 0, (BitVec.add_zero _).symm,
      iff_of_true rfl (by simp)⟩
  | cons call calls ih =>
    obtain ⟨reply, k₁, rest, hstep, hrest, rfl⟩ := exec_cons_iff.mp hrun
    obtain ⟨hticks, d, hle, hruntime, hall⟩ := counters_of_step hidle hstep
    obtain ⟨hticks', d', hle', hruntime', hall'⟩ := ih (procStep_idle hidle hstep) hrest
    rw [tickCount_cons, List.forall_mem_cons, ← hall, ← hall']
    refine ⟨?_, d + d', Nat.add_le_add hle hle', ?_, by omega⟩
    · rw [hticks', hticks, BitVec.add_assoc, BitVec.ofNat_add]
    · rw [hruntime', hruntime, BitVec.add_assoc, BitVec.ofNat_add]

/-- While every tick dispatches slot 0, no other slot gets a runtime. -/
theorem runtime_of_others (hidle : k.procs.Idle)
    (hzero : ∀ i ≠ 0, (k.procs.table i).totalRuntime = 0) (hcall : DispatchesIdle k call)
    (hstep : procStep pmmBus heapBus k call = some (reply, k')) :
    ∀ i ≠ 0, (k'.procs.table i).totalRuntime = 0 := by
  have hreply := (dispatchedIdle_iff hidle hstep).mpr hcall
  intro i hi
  cases call with
  | tick context =>
    obtain ⟨rfl, hprocs⟩ := procStep_tick hstep
    have hother : (schedulerTick k.procs context).1 ≠ some i := by
      rw [hreply _ rfl]
      simpa using hi.symm
    rw [hprocs, (schedulerTick_table hidle.current context i).2, if_neg hother]
    exact hzero i hi
  | _ =>
    rcases (procStep_clock hidle (by simp) hstep).2.2 i with hsame | ⟨-, -, hnew⟩
    · rw [hsame.2]
      exact hzero i hi
    · exact hnew

/-- The sum over the processes is the value of slot 0 where all others are 0. -/
theorem sum_processes {created : List ℤ} {f : Slot → ℕ} (hf : ∀ i ≠ 0, f i = 0) :
    ((processes created).map f).sum = f 0 := by
  have hlist : processes created =
      0 :: ((List.finRange 255).map Fin.succ).filter fun i => i = 0 ∨ (i.val : ℤ) ∈ created := by
    unfold processes
    rw [show List.finRange 256 = 0 :: (List.finRange 255).map Fin.succ from List.finRange_succ,
      List.filter_cons_of_pos (by simp)]
  rw [hlist, List.map_cons, List.sum_cons, List.sum_eq_zero_iff_forall_eq_nat.mpr, Nat.add_zero]
  intro n hn
  obtain ⟨i, hi, rfl⟩ := List.mem_map.mp hn
  obtain ⟨j, -, rfl⟩ := List.mem_map.mp (List.mem_of_mem_filter hi)
  exact hf _ (Fin.succ_ne_zero j)

/-- **CPU time is accounted for only while slot 0 is dispatched.** In a run from `proc_init`
whose ticks are counted without wrapping, each process has the ticks at whose start it was the
current one, and together they have all ticks, exactly when every tick dispatches slot 0. -/
theorem cpu_time_accounted_iff (pmmBus heapBus : Bus M) (pmm : PmmState) (heap : HeapState)
    (mem : M)
    (hrun : exec (procStep pmmBus heapBus) (Kernel.init pmm heap mem) calls = some (replies, k))
    (hticks : tickCount calls < 2 ^ 32) :
    CpuTimeAccounted pmmBus heapBus (Kernel.init pmm heap mem) calls replies k ↔
      Along (procStep pmmBus heapBus) DispatchesIdle (Kernel.init pmm heap mem) calls := by
  have hcharged := ticksCharged_eq procInit_idle hrun
  obtain ⟨hcount, dispatches, hle, hruntime, hall⟩ := counters_of_run procInit_idle hrun
  have hinit : ∀ i, ((Kernel.init pmm heap mem).procs.table i).totalRuntime = 0#32 := by
    intro i
    unfold Kernel.init procInit
    simp only [Procs.table_modify]
    split <;> rfl
  have hcount' : (schedulerGetTicks k.procs).toNat = tickCount calls := by
    rw [schedulerGetTicks, hcount, show (Kernel.init pmm heap mem).procs.schedulerTicks = 0#32
      from rfl, BitVec.zero_add, BitVec.toNat_ofNat, Nat.mod_eq_of_lt hticks]
  have hruntime' : (k.procs.table 0).totalRuntime.toNat = dispatches := by
    rw [hruntime, hinit, BitVec.zero_add, BitVec.toNat_ofNat,
      Nat.mod_eq_of_lt (Nat.lt_of_le_of_lt hle hticks)]
  have halong : (∀ reply ∈ replies, DispatchedIdle reply) ↔
      Along (procStep pmmBus heapBus) DispatchesIdle (Kernel.init pmm heap mem) calls := by
    rw [forall_replies_iff hrun]
    refine along_iff_of_invariant (fun k : Kernel M => k.procs.Idle) ?_
      (fun hidle _ _ hstep => procStep_idle hidle hstep) procInit_idle (along_of_exec hrun)
    rintro k call hidle ⟨reply, k', hstep⟩
    rw [← dispatchedIdle_iff hidle hstep]
    simp [hstep]
  rw [← halong, ← hall]
  constructor
  · intro haccounted
    have hzero := haccounted.charged 0 (by simp [processes])
    rw [hcharged, if_pos rfl, hruntime'] at hzero
    exact hzero
  · intro hdispatches
    obtain ⟨-, hothers⟩ := exec_invariant
      (fun k : Kernel M => k.procs.Idle ∧ ∀ i ≠ 0, (k.procs.table i).totalRuntime = 0)
      (fun hinv hcall hstep => ⟨procStep_idle hinv.1 hstep,
        runtime_of_others hinv.1 hinv.2 hcall hstep⟩)
      ⟨procInit_idle, fun i _ => hinit i⟩ (halong.mp (hall.mp hdispatches)) hrun
    refine ⟨fun i _ => ?_, ?_⟩
    · rw [hcharged]
      split
      · rename_i hi
        rw [hi, hruntime', hdispatches]
      · rename_i hi
        rw [hothers i hi]
        rfl
    · rw [sum_processes fun i hi => by rw [hothers i hi]; rfl, hruntime', hdispatches, hcount']

/-- After slot 0 has been blocked and unblocked, a tick dispatches it. -/
theorem cpu_time_accounted_one_tick :
    ∃ replies k, exec (procStep Mem.bus Mem.bus)
        (Kernel.init ⟨0, 0, 0, 0⟩ ⟨0, 0, 0⟩ ⟨fun _ => 0, []⟩) [.block 7, .unblock 0, .tick 0] =
          some (replies, k) ∧
      CpuTimeAccounted Mem.bus Mem.bus (Kernel.init ⟨0, 0, 0, 0⟩ ⟨0, 0, 0⟩ ⟨fun _ => 0, []⟩)
        [.block 7, .unblock 0, .tick 0] replies k := by
  refine ⟨_, _, rfl, (cpu_time_accounted_iff Mem.bus Mem.bus ⟨0, 0, 0, 0⟩ ⟨0, 0, 0⟩
    ⟨fun _ => 0, []⟩ rfl (by decide)).mpr ?_⟩
  exact Along.cons trivial rfl (Along.cons trivial rfl
    (Along.cons (Or.inl (by decide +kernel)) rfl trivial))

/-- The first tick after `proc_init` is given to slot 1, while slot 0 is the current process. -/
theorem cpu_time_not_accounted :
    ∃ replies k, exec (procStep Mem.bus Mem.bus)
        (Kernel.init ⟨0, 0, 0, 0⟩ ⟨0, 0, 0⟩ ⟨fun _ => 0, []⟩) [.tick 0] = some (replies, k) ∧
      ¬ CpuTimeAccounted Mem.bus Mem.bus (Kernel.init ⟨0, 0, 0, 0⟩ ⟨0, 0, 0⟩ ⟨fun _ => 0, []⟩)
        [.tick 0] replies k ∧
      (k.procs.table 0).totalRuntime = 0 ∧ (k.procs.table 1).totalRuntime = 1 ∧
      schedulerGetTicks k.procs = 1 := by
  refine ⟨_, _, rfl, fun haccounted => ?_, by decide +kernel, by decide +kernel, by decide +kernel⟩
  have hzero := haccounted.charged 0 (by simp [processes])
  exact absurd hzero (by decide +kernel)

end Nimbu
