import Nimbu.Proc.Steps

/-!
# Slots that were never created

A free slot of the table has no state of its own: `proc_init` makes it READY, and
no lookup or scan asks whether `proc_create` has ever returned its index. This
file says in which states of which runs no free slot is taken for a process.
-/

namespace Nimbu

variable {M : Type} {pmmBus heapBus : Bus M}

/-- The process ID that a call of `proc_create` returned. -/
def createdPid : ProcCall × ProcReply → Option ℤ
  | (.create _ _, .status ret) => if ret = -1 then none else some ret
  | _ => none

/-- The process IDs that the calls of `proc_create` in a run returned. -/
def createdPids (calls : List ProcCall) (replies : List ProcReply) : List ℤ :=
  (calls.zip replies).filterMap createdPid

/-- What `scheduler_get_stats` would store if it passed over a slot. -/
def statsWithout (p : Procs) (i : Slot) : ℕ × ℕ × ℕ :=
  let count st := (List.finRange 256).countP fun j => j ≠ i ∧ (p.table j).state = st
  (count .ready, count .running, count .blocked)

/-- The slot is not taken for a process. -/
structure NotAProcess (p : Procs) (i : Slot) : Prop where
  /-- `context_switch` does not select it. -/
  unselected : ∀ context, (contextSwitch p context).1 ≠ i
  /-- `scheduler_get_stats` does not count it. -/
  uncounted : schedulerGetStats p = statsWithout p i
  /-- `proc_get` returns NULL for it. -/
  get : procGet p (BitVec.ofNat 32 i.val) = none
  /-- `proc_exit` refuses it. -/
  exit : (procExit p (BitVec.ofNat 32 i.val)).1 = -1
  /-- `proc_unblock` refuses it. -/
  unblock : (procUnblock p (BitVec.ofNat 32 i.val)).1 = -1

/-- No slot is taken for a process but slot 0 and those created. -/
def OnlyCreated (created : List ℤ) (p : Procs) : Prop :=
  ∀ i : Slot, i ≠ 0 → (i.val : ℤ) ∉ created → NotAProcess p i

/-- Along the run only created processes exist. -/
def OnlyCreatedAlong (pmmBus heapBus : Bus M) (k : Kernel M) (calls : List ProcCall) : Prop :=
  ∀ pre post, calls = pre ++ post → ∀ replies k',
    exec (procStep pmmBus heapBus) k pre = some (replies, k') →
      OnlyCreated (createdPids pre replies) k'.procs

/-- `proc_get` finds every slot of the table. -/
theorem procGet_slot (p : Procs) (i : Slot) :
    procGet p (BitVec.ofNat 32 i.val) = some i := by
  have hi := i.isLt
  have hpid : (BitVec.ofNat 32 i.val).toNat = i.val := by
    rw [BitVec.toNat_ofNat]
    omega
  unfold procGet
  simp only [hpid, hi, dif_pos]

/-- One call adds the slot it created to those below the next process ID. -/
theorem createdPid_iff {k k' : Kernel M} {call : ProcCall} {reply : ProcReply}
    (hidle : k.procs.Idle) (hstep : procStep pmmBus heapBus k call = some (reply, k'))
    (i : Slot) :
    k.procs.nextPid.toNat ≤ k'.procs.nextPid.toNat ∧
      (createdPid (call, reply) = some (i.val : ℤ) ↔
        k.procs.nextPid.toNat ≤ i.val ∧ i.val < k'.procs.nextPid.toNat) := by
  have hnone : k'.procs.nextPid = k.procs.nextPid → createdPid (call, reply) = none →
      k.procs.nextPid.toNat ≤ k'.procs.nextPid.toNat ∧
        (createdPid (call, reply) = some (i.val : ℤ) ↔
          k.procs.nextPid.toNat ≤ i.val ∧ i.val < k'.procs.nextPid.toNat) := by
    intro hnext hpid
    rw [hnext, hpid]
    refine ⟨le_rfl, ?_⟩
    simp
  rcases procStep_cases hidle hstep with ⟨heq, rfl, -⟩ |
    ⟨entryPoint, priority, ret, j, rfl, rfl, hj, -, -, -, hnext⟩ | ⟨_, j, rfl, -, -, heq⟩ |
    ⟨_, rfl, -, heq⟩ | ⟨_, j, rfl, -, -, -, heq⟩ | ⟨context, rfl, -, heq⟩
  · apply hnone (by rw [heq])
    cases call <;> rfl
  · rcases hnext with ⟨rfl, hnext⟩ | ⟨rfl, hnext⟩
    · exact hnone hnext rfl
    · have hlt := j.isLt
      have hnext' : k'.procs.nextPid.toNat = j.val + 1 := by
        rw [hnext]
        bv_omega
      have hpid : createdPid (.create entryPoint priority, .status (j.val : ℤ)) =
          some (j.val : ℤ) := by
        unfold createdPid
        exact if_neg (by omega)
      rw [hpid, hnext', ← hj]
      refine ⟨by omega, ?_⟩
      rw [Option.some.injEq]
      omega
  · exact hnone (by rw [heq]; rfl) rfl
  · exact hnone (by rw [heq]; rfl) rfl
  · exact hnone (by rw [heq]; rfl) rfl
  · obtain ⟨-, -, hnext, -⟩ := schedulerTick_cases hidle.current context
    exact hnone (by rw [heq, hnext]) rfl

/-- The slots created during a run are those between the next process IDs before
and after it. -/
theorem mem_createdPids_iff {k k' : Kernel M} {calls : List ProcCall} {replies : List ProcReply}
    (hidle : k.procs.Idle) (hrun : exec (procStep pmmBus heapBus) k calls = some (replies, k'))
    (i : Slot) :
    k.procs.nextPid.toNat ≤ k'.procs.nextPid.toNat ∧
      ((i.val : ℤ) ∈ createdPids calls replies ↔
        k.procs.nextPid.toNat ≤ i.val ∧ i.val < k'.procs.nextPid.toNat) := by
  induction calls generalizing k replies with
  | nil =>
    obtain ⟨rfl, rfl⟩ : [] = replies ∧ k = k' := by simpa using hrun
    refine ⟨le_rfl, ?_⟩
    simp [createdPids]
  | cons call calls ih =>
    obtain ⟨reply, k₁, rest, hstep, hrest, rfl⟩ := exec_cons_iff.mp hrun
    obtain ⟨hle, hcall⟩ := createdPid_iff hidle hstep i
    obtain ⟨hle', hcalls⟩ := ih (procStep_idle hidle hstep) hrest
    have hsplit : (i.val : ℤ) ∈ createdPids (call :: calls) (reply :: rest) ↔
        createdPid (call, reply) = some (i.val : ℤ) ∨ (i.val : ℤ) ∈ createdPids calls rest := by
      unfold createdPids
      rw [List.zip_cons_cons, List.filterMap_cons]
      split
      · rename_i hnone
        simp [hnone]
      · rename_i pid hsome
        rw [List.mem_cons, hsome, Option.some.injEq, eq_comm]
    rw [hsplit, hcall, hcalls]
    omega

/-- After a run from `proc_init` only created processes exist exactly when all
process IDs have been given out. -/
theorem onlyCreated_iff_full {pmm : PmmState} {heap : HeapState} {mem : M}
    {calls : List ProcCall} {replies : List ProcReply} {k : Kernel M}
    (hrun : exec (procStep pmmBus heapBus) (Kernel.init pmm heap mem) calls = some (replies, k)) :
    OnlyCreated (createdPids calls replies) k.procs ↔ k.procs.nextPid.toNat = 256 := by
  have hidle := exec_idle hrun
  have hcreated := fun i => (mem_createdPids_iff procInit_idle hrun i).2
  have hfirst : (Kernel.init pmm heap mem).procs.nextPid.toNat = 1 := rfl
  rw [hfirst] at hcreated
  constructor
  · intro honly
    by_contra hfree
    have hle := hidle.next_le
    have hpos := hidle.next_pos
    obtain ⟨i, hi⟩ : ∃ i : Slot, i.val = k.procs.nextPid.toNat :=
      ⟨⟨k.procs.nextPid.toNat, by omega⟩, rfl⟩
    have hne : i ≠ 0 := by
      rintro rfl
      rw [Fin.val_zero] at hi
      omega
    have hget := (honly i hne (by rw [hcreated]; omega)).get
    rw [procGet_slot] at hget
    cases hget
  · intro hfull i hi hfree
    have hpos : i.val ≠ 0 := fun h => hi (Fin.ext h)
    have hlt := i.isLt
    rw [hcreated, hfull] at hfree
    omega

/-- **Only created processes exist** exactly when no slot is left free: at any
state of any run from `proc_init` this needs all 255 process IDs to have been
given out, so it holds along no run. -/
theorem only_created_iff (pmmBus heapBus : Bus M) (pmm : PmmState) (heap : HeapState) (mem : M)
    {calls : List ProcCall} {replies : List ProcReply} {k : Kernel M}
    (hrun : exec (procStep pmmBus heapBus) (Kernel.init pmm heap mem) calls = some (replies, k)) :
    (OnlyCreated (createdPids calls replies) k.procs ↔ k.procs.nextPid.toNat = 256) ∧
      ¬ OnlyCreatedAlong pmmBus heapBus (Kernel.init pmm heap mem) calls := by
  refine ⟨onlyCreated_iff_full hrun, fun halong => ?_⟩
  have hempty : exec (procStep pmmBus heapBus) (Kernel.init pmm heap mem) [] =
      some ([], Kernel.init pmm heap mem) := rfl
  have hstart := (onlyCreated_iff_full hempty).mp (halong [] calls rfl _ _ hempty)
  have hfirst : (Kernel.init pmm heap mem).procs.nextPid.toNat = 1 := rfl
  omega

/-- After one tick no process has been created, and all but slot 0 are free. -/
theorem only_created_iff_one_tick :
    ¬ OnlyCreatedAlong Mem.bus Mem.bus (Kernel.init ⟨0, 0, 0, 0⟩ ⟨0, 0, 0⟩ ⟨fun _ => 0, []⟩)
      [.tick 0] :=
  (only_created_iff Mem.bus Mem.bus ⟨0, 0, 0, 0⟩ ⟨0, 0, 0⟩ ⟨fun _ => 0, []⟩ rfl).2

/-- The first tick after `proc_init` dispatches slot 1, although nothing has been
created. -/
theorem only_created_fails_at_first_tick :
    ¬ OnlyCreatedAlong Mem.bus Mem.bus (Kernel.init ⟨0, 0, 0, 0⟩ ⟨0, 0, 0⟩ ⟨fun _ => 0, []⟩)
      [.tick 0] ∧
    (procStep Mem.bus Mem.bus (Kernel.init ⟨0, 0, 0, 0⟩ ⟨0, 0, 0⟩ ⟨fun _ => 0, []⟩)
      (.tick 0)).map (·.1) = some (.ticked (some 1)) := by
  constructor
  · intro halong
    have hnot : NotAProcess (procInit Procs.static) 1 :=
      halong [] [.tick 0] rfl [] _ rfl 1 (by decide) (by decide)
    exact hnot.unselected 0 (by decide)
  · rfl

end Nimbu
