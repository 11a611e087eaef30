import Nimbu.Proc.Scheduler

/-!
# Runs of the process table

One step is a call of `proc_create`, `proc_exit`, `proc_block`, `proc_unblock`
or `scheduler_tick`. The lemmas say what each of them does to the states of the
table; everything else about runs is derived from them. After `proc_init` the
current process is slot 0, and no operation ever changes that.
-/

namespace Nimbu

/-- A call that concerns the process table. -/
inductive ProcCall where
  /-- `proc_create(entry_point, priority)`. -/
  | create (entryPoint priority : Word)
  /-- `proc_exit(pid)`. -/
  | exit (pid : Word)
  /-- `proc_block(resource)`. -/
  | block (resource : Word)
  /-- `proc_unblock(pid)`. -/
  | unblock (pid : Word)
  /-- `scheduler_tick(context)`. -/
  | tick (context : Word)

/-- The result of a call. -/
inductive ProcReply where
  /-- The value returned. -/
  | status (ret : ℤ)
  /-- A tick, with the slot `context_switch` dispatched. -/
  | ticked (dispatched : Option Slot)
  deriving DecidableEq

/-- The slot dispatched during a call. -/
def ProcReply.dispatched : ProcReply → Option Slot
  | .status _ => none
  | .ticked dispatched => dispatched

variable {M : Type} {pmmBus heapBus : Bus M}

/-- One call. -/
def procStep (pmmBus heapBus : Bus M) (k : Kernel M) : ProcCall → Option (ProcReply × Kernel M)
  | .create entryPoint priority => do
    let (ret, k) ← procCreate pmmBus heapBus k entryPoint priority
    return (.status ret, k)
  | .exit pid =>
    let (ret, procs) := procExit k.procs pid
    some (.status ret, { k with procs })
  | .block resource =>
    let (ret, procs) := procBlock k.procs resource
    some (.status ret, { k with procs })
  | .unblock pid =>
    let (ret, procs) := procUnblock k.procs pid
    some (.status ret, { k with procs })
  | .tick context =>
    let (dispatched, procs) := schedulerTick k.procs context
    some (.ticked dispatched, { k with procs })

/-- The kernel after `proc_init`, with the frame allocator, the heap and the
memory in any state. -/
def Kernel.init (pmm : PmmState) (heap : HeapState) (mem : M) : Kernel M :=
  ⟨pmm, heap, mem, procInit Procs.static⟩

/-- The kernel after `pmm_init` with 64 KB of memory, one `pmm_alloc`, `heap_init` and
`proc_init`. -/
def smallKernel : Kernel Mem :=
  Kernel.init ⟨0xC0200000, 16, 1, 2⟩ ⟨0xC0100000, 0x800000, 0⟩
    ⟨fun a => if a = 0xC0200000 then 1 else 0, []⟩

namespace Procs

/-- The state of a slot. -/
def state (p : Procs) (i : Slot) : ProcState := (p.table i).state

/-- What every run from `proc_init` keeps: the current process is slot 0, and the
next process ID is never 0. -/
structure Idle (p : Procs) : Prop where
  /-- Slot 0 is the current process. -/
  current : p.currentProcess = some 0
  /-- Slot 0 is never created. -/
  next_pos : 0 < p.nextPid.toNat
  /-- The process ID never passes the end of the table. -/
  next_le : p.nextPid.toNat ≤ 256

end Procs

/-- `proc_init` starts with the idle process as the only running one. -/
theorem procInit_idle : (procInit Procs.static).Idle :=
  ⟨rfl, by decide, by decide⟩

/-- After `proc_init` slot 0 is RUNNING and all others are READY. -/
theorem state_procInit (i : Slot) :
    (procInit Procs.static).state i = if i = 0 then .running else .ready := by
  unfold Procs.state procInit
  simp only [Procs.table_modify]
  split <;> rfl

/-- The control block as `proc_create` fills it in before it asks for memory. -/
def Pcb.opened (pcb : Pcb) (pid parentPid priority : Word) : Pcb :=
  { pcb with pid, parentPid, state := .ready, priority, timeSliceRemaining := schedulerTimeSlice,
             totalRuntime := 0 }

/-- The control block once `proc_create` has its frames and the answer of the heap. -/
def Pcb.equipped (pcb : Pcb) (kernelStack pageDirPhys context : Word) : Pcb :=
  { pcb with kernelStack, pageDirPhys, context }

/-- Two changes of one block are one change. -/
theorem Procs.modify_modify (p : Procs) (i : Slot) (f g : Pcb → Pcb) :
    (p.modify i f).modify i g = p.modify i fun pcb => g (f pcb) := by
  unfold Procs.modify
  simp only [Function.update_self, Function.update_idem]

/-- The frames of `proc_create` are two calls of `pmm_alloc`. -/
theorem procCreateFrames_allocs {s pmm : PmmState} {m m' : M} {a b : Word}
    (hcall : procCreateFrames pmmBus s m = some (a, b, pmm, m')) :
    ∃ s₁ m₁, pmmAlloc pmmBus s m = some (a, s₁, m₁) ∧
      pmmAlloc pmmBus s₁ m₁ = some (b, pmm, m') := by
  unfold procCreateFrames at hcall
  obtain ⟨⟨a₁, s₁, m₁⟩, hfirst, hcall⟩ := Option.bind_eq_some_iff.mp hcall
  obtain ⟨⟨b₂, s₂, m₂⟩, hsecond, hcall⟩ := Option.bind_eq_some_iff.mp hcall
  obtain ⟨rfl, rfl, rfl, rfl⟩ : a₁ = a ∧ b₂ = b ∧ s₂ = pmm ∧ m₂ = m' := by simpa using hcall
  exact ⟨s₁, m₁, hfirst, hsecond⟩

/-- **What `proc_create` does.** It refuses because there are no more process
IDs; or it fails because it got no frame or frame 0; or it fails because the heap
refused the context; or it succeeds. -/
theorem procCreate_cases {k k' : Kernel M} {entryPoint priority : Word} {ret : ℤ}
    (hcall : procCreate pmmBus heapBus k entryPoint priority = some (ret, k')) :
    (256 ≤ k.procs.nextPid.toNat ∧ ret = -1 ∧ k' = k) ∨
    ∃ (i : Slot) (a b : Word) (pmm : PmmState) (m : M), i.val = k.procs.nextPid.toNat ∧
      procCreateFrames pmmBus k.pmm k.mem = some (a, b, pmm, m) ∧
      (((a = 0 ∨ b = 0) ∧ ret = -1 ∧ k' = ⟨pmm, k.heap, m, k.procs.modify i fun pcb =>
          pcb.opened k.procs.nextPid k.procs.currentPid priority⟩) ∨
        ¬ (a = 0 ∨ b = 0) ∧ ∃ (context : Word) (heap : HeapState) (m₂ : M),
          kmalloc heapBus k.heap m contextSize = some (context, heap, m₂) ∧
          ((context = 0 ∧ ret = -1 ∧ k' = ⟨pmm, heap, m₂, k.procs.modify i fun pcb =>
              (pcb.opened k.procs.nextPid k.procs.currentPid priority).equipped
                (kernelStackOf k.procs.nextPid) b context⟩) ∨
            context ≠ 0 ∧ ∃ m₃,
              initContext heapBus m₂ context entryPoint (kernelStackOf k.procs.nextPid) =
                some m₃ ∧
              ret = k.procs.nextPid.toNat ∧
              k' = ⟨pmm, heap, m₃, { k.procs.modify i fun pcb =>
                (pcb.opened k.procs.nextPid k.procs.currentPid priority).equipped
                  (kernelStackOf k.procs.nextPid) b context with
                nextPid := k.procs.nextPid + 1 }⟩)) := by
  unfold procCreate at hcall
  split at hcall
  · rename_i hnext
    right
    simp only [Option.bind_eq_bind, Option.bind_eq_some_iff, Prod.exists] at hcall
    obtain ⟨a, b, pmm, m, hframes, hcall⟩ := hcall
    refine ⟨⟨k.procs.nextPid.toNat, hnext⟩, a, b, pmm, m, rfl, hframes, ?_⟩
    split at hcall
    · rename_i hzero
      obtain ⟨rfl, rfl⟩ : -1 = ret ∧ _ = k' := by simpa using hcall
      exact Or.inl ⟨hzero, rfl, rfl⟩
    · rename_i hnonzero
      simp only [Option.bind_eq_some_iff, Prod.exists, Procs.modify_modify] at hcall
      obtain ⟨context, heap, m₂, hkmalloc, hcall⟩ := hcall
      refine Or.inr ⟨hnonzero, context, heap, m₂, hkmalloc, ?_⟩
      split at hcall
      · rename_i hnull
        obtain ⟨rfl, rfl⟩ : -1 = ret ∧ _ = k' := by simpa using hcall
        exact Or.inl ⟨hnull, rfl, rfl⟩
      · rename_i hcontext
        obtain ⟨m₃, hinit, hcall⟩ := Option.bind_eq_some_iff.mp hcall
        obtain ⟨rfl, rfl⟩ : (k.procs.nextPid.toNat : ℤ) = ret ∧ _ = k' := by simpa using hcall
        exact Or.inr ⟨hcontext, m₃, hinit, rfl, rfl⟩
  · left
    rename_i hnext
    obtain ⟨rfl, rfl⟩ : -1 = ret ∧ k = k' := by simpa using hcall
    exact ⟨by omega, rfl, rfl⟩

/-- `k'` is the kernel `k` after a `proc_create` that made slot `i` a process, with the
frames `a` and `b` and a context. -/
structure Kernel.Served (pmmBus heapBus : Bus M) (k k' : Kernel M) (entryPoint priority : Word)
    (i : Slot) (a b context : Word) : Prop where
  /-- The slot is the next process ID. -/
  slot : i.val = k.procs.nextPid.toNat
  /-- The two frames, the context and its registers, one after the other. -/
  calls : ∃ m m₂, procCreateFrames pmmBus k.pmm k.mem = some (a, b, k'.pmm, m) ∧
    kmalloc heapBus k.heap m contextSize = some (context, k'.heap, m₂) ∧
    initContext heapBus m₂ context entryPoint (kernelStackOf k.procs.nextPid) = some k'.mem
  /-- The stack is not frame 0. -/
  stack_ne : a ≠ 0
  /-- The page directory is not frame 0. -/
  page_dir_ne : b ≠ 0
  /-- The heap served the context. -/
  context_ne : context ≠ 0
  /-- The control block of the process. -/
  block : k'.procs.table i =
    ((k.procs.table i).opened k.procs.nextPid k.procs.currentPid priority).equipped
      (kernelStackOf k.procs.nextPid) b context
  /-- All other control blocks are kept. -/
  others : ∀ j ≠ i, k'.procs.table j = k.procs.table j
  /-- The process ID is used up. -/
  next : k'.procs.nextPid = k.procs.nextPid + 1

/-- A `proc_create` that does not return -1 makes the next slot a process. -/
theorem procCreate_served {k k' : Kernel M} {entryPoint priority : Word} {ret : ℤ}
    (hcall : procCreate pmmBus heapBus k entryPoint priority = some (ret, k')) (hret : ret ≠ -1) :
    ∃ i a b context, ret = i.val ∧
      k.Served pmmBus heapBus k' entryPoint priority i a b context := by
  rcases procCreate_cases hcall with ⟨-, hfail, -⟩ | ⟨i, a, b, pmm, m, hi, hframes, hcases⟩
  · exact absurd hfail hret
  · rcases hcases with ⟨-, hfail, -⟩ | ⟨hnonzero, context, heap, m₂, hkmalloc, hcases⟩
    · exact absurd hfail hret
    · rw [not_or] at hnonzero
      rcases hcases with ⟨-, hfail, -⟩ | ⟨hcontext, m₃, hinit, rfl, rfl⟩
      · exact absurd hfail hret
      · refine ⟨i, a, b, context, by rw [hi], hi, ⟨m, m₂, hframes, hkmalloc, hinit⟩, hnonzero.1,
          hnonzero.2, hcontext, ?_, ?_, rfl⟩
        · simp only [Procs.table_modify_self]
        · intro j hj
          simp only [Procs.table_modify_of_ne _ _ hj]

/-- What `proc_create` does to the table: nothing when there are no more process
IDs; otherwise it makes the next slot READY, whether it succeeds or not. -/
theorem procCreate_procs {k k' : Kernel M} {entryPoint priority : Word} {ret : ℤ}
    (hcall : procCreate pmmBus heapBus k entryPoint priority = some (ret, k')) :
    (256 ≤ k.procs.nextPid.toNat ∧ ret = -1 ∧ k' = k) ∨
    ∃ i : Slot, i.val = k.procs.nextPid.toNat ∧ k'.procs.state i = .ready ∧
      (∀ j ≠ i, k'.procs.table j = k.procs.table j) ∧
      k'.procs.currentProcess = k.procs.currentProcess ∧
      ((ret = -1 ∧ k'.procs.nextPid = k.procs.nextPid) ∨
        (ret = i.val ∧ k'.procs.nextPid = k.procs.nextPid + 1)) := by
  rcases procCreate_cases hcall with hfull | ⟨i, a, b, pmm, m, hi, -, hcases⟩
  · exact Or.inl hfull
  · right
    rcases hcases with ⟨-, rfl, rfl⟩ |
      ⟨-, context, heap, m₂, -, ⟨-, rfl, rfl⟩ | ⟨-, m₃, -, rfl, rfl⟩⟩
    · refine ⟨i, hi, by simp [Procs.state, Pcb.opened], ?_, rfl, Or.inl ⟨rfl, rfl⟩⟩
      intro j hj
      simp only [Procs.table_modify_of_ne _ _ hj]
    · refine ⟨i, hi, by simp [Procs.state, Pcb.opened, Pcb.equipped], ?_, rfl, Or.inl ⟨rfl, rfl⟩⟩
      intro j hj
      simp only [Procs.table_modify_of_ne _ _ hj]
    · refine ⟨i, hi, by simp [Procs.state, Pcb.opened, Pcb.equipped], ?_, rfl,
        Or.inr ⟨by rw [hi], rfl⟩⟩
      intro j hj
      simp only [Procs.table_modify_of_ne _ _ hj]

section Create

variable {k : Kernel M} (heapBus) (entryPoint priority : Word) {a b : Word} {pmm : PmmState}
  {m : M}

/-- `proc_create` fails when it gets no frame or frame 0. -/
theorem procCreate_of_no_frame (hnext : k.procs.nextPid.toNat < 256)
    (hframes : procCreateFrames pmmBus k.pmm k.mem = some (a, b, pmm, m)) (hzero : a = 0 ∨ b = 0) :
    ∃ procs, procCreate pmmBus heapBus k entryPoint priority =
      some (-1, ⟨pmm, k.heap, m, procs⟩) ∧ procs.nextPid = k.procs.nextPid := by
  simp only [procCreate, dif_pos hnext, hframes, Option.bind_eq_bind, Option.bind_some,
    if_pos hzero, Option.pure_def]
  exact ⟨_, rfl, rfl⟩

/-- `proc_create` fails when the heap refuses the context. -/
theorem procCreate_of_no_context (hnext : k.procs.nextPid.toNat < 256)
    (hframes : procCreateFrames pmmBus k.pmm k.mem = some (a, b, pmm, m))
    (hnonzero : ¬ (a = 0 ∨ b = 0)) {h : HeapState} {m₂ : M}
    (hkmalloc : kmalloc heapBus k.heap m contextSize = some (0, h, m₂)) :
    ∃ procs, procCreate pmmBus heapBus k entryPoint priority =
      some (-1, ⟨pmm, h, m₂, procs⟩) ∧ procs.nextPid = k.procs.nextPid := by
  simp only [procCreate, dif_pos hnext, hframes, Option.bind_eq_bind, Option.bind_some,
    if_neg hnonzero, hkmalloc, if_true, Option.pure_def]
  exact ⟨_, rfl, rfl⟩

/-- `proc_create` succeeds with two frames and a context. -/
theorem procCreate_of_context (hnext : k.procs.nextPid.toNat < 256)
    (hframes : procCreateFrames pmmBus k.pmm k.mem = some (a, b, pmm, m))
    (hnonzero : ¬ (a = 0 ∨ b = 0)) {context : Word} {h : HeapState} {m₂ m₃ : M}
    (hkmalloc : kmalloc heapBus k.heap m contextSize = some (context, h, m₂))
    (hcontext : context ≠ 0)
    (hinit : initContext heapBus m₂ context entryPoint (kernelStackOf k.procs.nextPid) =
      some m₃) :
    ∃ procs, procCreate pmmBus heapBus k entryPoint priority =
        some ((k.procs.nextPid.toNat : ℤ), ⟨pmm, h, m₃, procs⟩) ∧
      procs.nextPid = k.procs.nextPid + 1 ∧
      ∀ i : Slot, i.val = k.procs.nextPid.toNat → (procs.table i).context = context := by
  simp only [procCreate, dif_pos hnext, hframes, Option.bind_eq_bind, Option.bind_some,
    if_neg hnonzero, hkmalloc, if_neg hcontext, hinit, Option.pure_def]
  refine ⟨_, rfl, rfl, fun i hi => ?_⟩
  obtain rfl : i = ⟨k.procs.nextPid.toNat, hnext⟩ := Fin.ext hi
  simp only [Procs.table_modify_self]

end Create

/-- The first READY slot is READY. -/
theorem findReady_state {p : Procs} {i : Slot} (hfind : findReady p = some i) :
    p.state i = .ready := by
  unfold Procs.state
  simpa using List.find?_some hfind

/-- There is no READY slot when none is found. -/
theorem findReady_none {p : Procs} (hfind : findReady p = none) (i : Slot) :
    p.state i ≠ .ready := by
  unfold Procs.state
  simpa using List.find?_eq_none.mp hfind i (List.mem_finRange i)

/-- Slot 0 is found first. -/
theorem findReady_zero {p : Procs} (hready : p.state 0 = .ready) : findReady p = some 0 := by
  unfold findReady
  rw [show List.finRange 256 = 0 :: (List.finRange 255).map Fin.succ from List.finRange_succ]
  exact List.find?_cons_of_pos (by simpa [Procs.state] using hready)

/-- Slot 0 is chosen when it is READY or no slot is. -/
theorem findReady_getD_zero_iff {p : Procs} :
    (findReady p).getD 0 = 0 ↔ p.state 0 = .ready ∨ ∀ i, p.state i ≠ .ready := by
  cases hfind : findReady p with
  | none => exact iff_of_true rfl (Or.inr (findReady_none hfind))
  | some i =>
    have hready := findReady_state hfind
    constructor
    · intro hi
      rw [Option.getD_some] at hi
      exact Or.inl (hi ▸ hready)
    · rintro (h | h)
      · rw [findReady_zero h] at hfind
        exact (Option.some.inj hfind).symm
      · exact absurd hready (h i)

/-- The search for a READY slot depends on the states only. -/
theorem findReady_congr {p q : Procs} (hstate : ∀ i, q.state i = p.state i) :
    findReady q = findReady p := by
  unfold findReady
  have hsame : (fun i => decide ((q.table i).state = .ready)) =
      fun i => decide ((p.table i).state = .ready) := by
    funext i
    exact congrArg (fun s => decide (s = ProcState.ready)) (hstate i)
  rw [hsame]

/-- What `context_switch` does to the states when slot 0 is the current process:
slot 0 becomes READY, and then the chosen slot RUNNING. -/
theorem contextSwitch_state {p : Procs} (hcurrent : p.currentProcess = some 0) (context : Word) :
    (contextSwitch p context).1 = (findReady p).getD 0 ∧
      (∀ j, (contextSwitch p context).2.2.state j =
        if j = (findReady p).getD 0 then .running else if j = 0 then .ready else p.state j) ∧
      (∀ j, ((contextSwitch p context).2.2.table j).blockedOn = (p.table j).blockedOn) ∧
      (contextSwitch p context).2.2.currentProcess = some 0 ∧
      (contextSwitch p context).2.2.nextPid = p.nextPid := by
  simp only [contextSwitch, procGetCurrent, hcurrent]
  refine ⟨trivial, ?_, ?_, hcurrent, rfl⟩
  · intro j
    simp only [Procs.state, Procs.table_modify]
    grind
  · intro j
    simp only [Procs.table_modify]
    grind

/-- Counting down a slice changes nothing but the slice. -/
theorem countDown_kept (p : Procs) (i j : Slot) :
    (countDown p i).state j = p.state j ∧
      ((countDown p i).table j).blockedOn = (p.table j).blockedOn ∧
      (countDown p i).currentProcess = p.currentProcess ∧
      (countDown p i).nextPid = p.nextPid := by
  unfold countDown Procs.state
  split
  · simp only [Procs.table_modify, Procs.currentProcess_modify, Procs.nextPid_modify]
    grind
  · exact ⟨rfl, rfl, rfl, rfl⟩

/-- A slice runs out when at most one tick of it was left. -/
theorem countDown_slice (p : Procs) (i : Slot) :
    ((countDown p i).table i).timeSliceRemaining = 0 ↔
      (p.table i).timeSliceRemaining.toNat ≤ 1 := by
  unfold countDown
  split
  · rename_i hpos
    rw [Procs.table_modify_self]
    constructor <;> intro h <;> bv_omega
  · rename_i hzero
    constructor <;> intro h <;> bv_omega

/-- Slot 0 is RUNNING with more than one tick left; otherwise a tick switches. -/
def Procs.Stays (p : Procs) : Prop :=
  p.state 0 = .running ∧ 1 < (p.table 0).timeSliceRemaining.toNat

instance (p : Procs) : Decidable p.Stays := inferInstanceAs (Decidable (_ ∧ _))

/-- The table after the count of a tick and the countdown of slot 0. -/
def Procs.counted (p : Procs) : Procs :=
  countDown { p with schedulerTicks := p.schedulerTicks + 1 } 0

/-- A tick counts, and switches unless slot 0 stays. -/
theorem schedulerTick_eq {p : Procs} (hcurrent : p.currentProcess = some 0) (context : Word) :
    schedulerTick p context =
      if p.Stays then (none, p.counted)
      else (some (contextSwitch p.counted context).1, (contextSwitch p.counted context).2.2) := by
  have hstate : (p.counted.table 0).state = p.state 0 :=
    (countDown_kept { p with schedulerTicks := p.schedulerTicks + 1 } 0 0).1
  have hslice := countDown_slice { p with schedulerTicks := p.schedulerTicks + 1 } 0
  have hstays : ((p.counted.table 0).timeSliceRemaining = 0 ∨
      (p.counted.table 0).state ≠ .running) ↔ ¬ p.Stays := by
    unfold Procs.Stays Procs.counted at *
    rw [hslice, hstate, not_and_or, not_lt]
    exact or_comm
  have htick : schedulerTick p context =
      if (p.counted.table 0).timeSliceRemaining = 0 ∨ (p.counted.table 0).state ≠ .running then
        (some (contextSwitch p.counted context).1, (contextSwitch p.counted context).2.2)
      else (none, p.counted) := by
    unfold schedulerTick Procs.counted
    simp only [procGetCurrent, hcurrent]
  rw [htick, if_congr hstays rfl rfl, ite_not]

/-- What a tick does: it counts and changes no state, or it switches. -/
theorem schedulerTick_cases {p : Procs} (hcurrent : p.currentProcess = some 0) (context : Word) :
    (∀ j, ((schedulerTick p context).2.table j).blockedOn = (p.table j).blockedOn) ∧
      (schedulerTick p context).2.currentProcess = some 0 ∧
      (schedulerTick p context).2.nextPid = p.nextPid ∧
      ((p.Stays ∧ (schedulerTick p context).1 = none ∧
          ∀ j, (schedulerTick p context).2.state j = p.state j) ∨
        (¬ p.Stays ∧ (schedulerTick p context).1 = some ((findReady p).getD 0) ∧
          ∀ j, (schedulerTick p context).2.state j =
            if j = (findReady p).getD 0 then .running
            else if j = 0 then .ready else p.state j)) := by
  have hkept := countDown_kept { p with schedulerTicks := p.schedulerTicks + 1 } 0
  have hstate : ∀ j, p.counted.state j = p.state j := fun j => (hkept j).1
  have hblocked : ∀ j, (p.counted.table j).blockedOn = (p.table j).blockedOn :=
    fun j => (hkept j).2.1
  have hcurrent' : p.counted.currentProcess = some 0 := (hkept 0).2.2.1.trans hcurrent
  have hnext' : p.counted.nextPid = p.nextPid := (hkept 0).2.2.2
  rw [schedulerTick_eq hcurrent]
  by_cases h : p.Stays
  · rw [if_pos h]
    exact ⟨hblocked, hcurrent', hnext', Or.inl ⟨h, rfl, hstate⟩⟩
  · rw [if_neg h]
    obtain ⟨hslot, hstates, hkeptb, hcur, hnext⟩ := contextSwitch_state hcurrent' context
    rw [findReady_congr hstate] at hslot hstates
    refine ⟨fun j => (hkeptb j).trans (hblocked j), hcur, hnext.trans hnext',
      Or.inr ⟨h, congrArg some hslot, fun j => ?_⟩⟩
    rw [hstates j, hstate j]

/-- A control block with the slice and the runtime of another one. -/
def Pcb.SameClock (pcb pcb' : Pcb) : Prop :=
  pcb'.timeSliceRemaining = pcb.timeSliceRemaining ∧ pcb'.totalRuntime = pcb.totalRuntime

/-- A change that keeps the slice and the runtime of a control block. -/
theorem Procs.sameClock_modify {p : Procs} {i : Slot} {f : Pcb → Pcb}
    (hf : (p.table i).SameClock (f (p.table i))) (j : Slot) :
    (p.table j).SameClock ((p.modify i f).table j) := by
  rw [Procs.table_modify]
  split
  · rename_i hji
    rw [hji]
    exact hf
  · exact ⟨rfl, rfl⟩

/-- **What a tick does to a control block.** The slot dispatched gets a new slice and one more
tick of runtime; otherwise slot 0 loses a tick of its slice, if it has one, and the other slots
keep theirs. -/
theorem schedulerTick_table {p : Procs} (hcurrent : p.currentProcess = some 0) (context : Word)
    (j : Slot) :
    ((schedulerTick p context).2.table j).timeSliceRemaining.toNat =
        (if (schedulerTick p context).1 = some j then schedulerTimeSlice.toNat
        else if j = 0 then (p.table 0).timeSliceRemaining.toNat - 1
        else (p.table j).timeSliceRemaining.toNat) ∧
      ((schedulerTick p context).2.table j).totalRuntime =
        if (schedulerTick p context).1 = some j then (p.table j).totalRuntime + 1
        else (p.table j).totalRuntime := by
  have hslice : (p.counted.table j).timeSliceRemaining.toNat =
      if j = 0 then (p.table 0).timeSliceRemaining.toNat - 1
      else (p.table j).timeSliceRemaining.toNat := by
    unfold Procs.counted countDown
    by_cases hj : j = 0
    · subst hj
      rw [if_pos rfl]
      split
      · rw [Procs.table_modify_self]
        bv_omega
      · bv_omega
    · rw [if_neg hj]
      split
      · rw [Procs.table_modify_of_ne _ _ hj]
      · rfl
  have hruntime : (p.counted.table j).totalRuntime = (p.table j).totalRuntime := by
    unfold Procs.counted countDown
    split
    · rw [Procs.table_modify]
      split
      · rename_i hj
        rw [hj]
      · rfl
    · rfl
  rw [schedulerTick_eq hcurrent]
  by_cases hstays : p.Stays
  · rw [if_pos hstays]
    exact ⟨hslice, hruntime⟩
  · have hcurrent' : procGetCurrent p.counted = some 0 :=
      ((countDown_kept { p with schedulerTicks := p.schedulerTicks + 1 } 0 0).2.2.1).trans hcurrent
    -- The switch saves slot 0, which changes neither the slice nor the runtime.
    have hsaved : (p.counted.table j).SameClock ((p.counted.modify 0 fun pcb =>
        { pcb with state := .ready, context }).table j) := Procs.sameClock_modify ⟨rfl, rfl⟩ j
    rw [if_neg hstays]
    simp only [contextSwitch, hcurrent', Option.some.injEq]
    rw [Procs.table_modify]
    by_cases hj : j = (findReady p.counted).getD 0
    · rw [if_pos hj, if_pos hj.symm, if_pos hj.symm]
      refine ⟨rfl, ?_⟩
      rw [← hj, hsaved.2, hruntime]
    · rw [if_neg hj, if_neg (Ne.symm hj), if_neg (Ne.symm hj), hsaved.1, hsaved.2]
      exact ⟨hslice, hruntime⟩

/-- A tick is counted. -/
theorem schedulerTick_ticks {p : Procs} (hcurrent : p.currentProcess = some 0) (context : Word) :
    (schedulerTick p context).2.schedulerTicks = p.schedulerTicks + 1 := by
  have hcounted : p.counted.schedulerTicks = p.schedulerTicks + 1 := by
    unfold Procs.counted countDown
    split
    · rfl
    · rfl
  rw [schedulerTick_eq hcurrent]
  split
  · exact hcounted
  · unfold contextSwitch
    split
    · exact hcounted
    · exact hcounted

/-- `proc_exit` makes a slot of the table ZOMBIE. -/
theorem procExit_cases (p : Procs) (pid : Word) :
    (256 ≤ pid.toNat ∧ procExit p pid = (-1, p)) ∨
    ∃ i : Slot, i.val = pid.toNat ∧ procExit p pid =
      (0, p.modify i fun pcb => { pcb with state := .zombie }) := by
  unfold procExit
  split
  · rename_i hpid
    exact Or.inr ⟨⟨pid.toNat, hpid⟩, rfl, rfl⟩
  · exact Or.inl ⟨by omega, rfl⟩

/-- `proc_unblock` refuses, or makes a BLOCKED slot READY. -/
theorem procUnblock_cases (p : Procs) (pid : Word) :
    procUnblock p pid = (-1, p) ∨
    ∃ i : Slot, i.val = pid.toNat ∧ p.state i = .blocked ∧ procUnblock p pid =
      (0, p.modify i fun pcb => { pcb with state := .ready, blockedOn := 0 }) := by
  unfold procUnblock
  split
  · rename_i hpid
    split
    · exact Or.inl rfl
    · rename_i hblocked
      exact Or.inr ⟨⟨pid.toNat, hpid⟩, rfl, not_not.mp hblocked, rfl⟩
  · exact Or.inl rfl

/-- `proc_block` blocks the current process. -/
theorem procBlock_eq {p : Procs} (hcurrent : p.currentProcess = some 0) (resource : Word) :
    procBlock p resource =
      (0, p.modify 0 fun pcb => { pcb with state := .blocked, blockedOn := resource }) := by
  simp only [procBlock, hcurrent]

/-- The step of a tick. -/
theorem procStep_tick {k k' : Kernel M} {context : Word} {reply : ProcReply}
    (hstep : procStep pmmBus heapBus k (.tick context) = some (reply, k')) :
    reply = .ticked (schedulerTick k.procs context).1 ∧
      k'.procs = (schedulerTick k.procs context).2 := by
  obtain ⟨rfl, rfl⟩ := Prod.mk.inj (Option.some.inj hstep)
  exact ⟨rfl, rfl⟩

/-- **What one call does to the table.** It changes nothing; or it creates the
next slot, kills a slot, blocks slot 0 or unblocks a BLOCKED slot; or it is a
tick. -/
theorem procStep_cases {k k' : Kernel M} {call : ProcCall} {reply : ProcReply}
    (hidle : k.procs.Idle) (hstep : procStep pmmBus heapBus k call = some (reply, k')) :
    (k'.procs = k.procs ∧ reply = .status (-1) ∧
      (∀ entryPoint priority, call = .create entryPoint priority →
        256 ≤ k.procs.nextPid.toNat) ∧
      (∀ resource, call ≠ .block resource) ∧ ∀ context, call ≠ .tick context) ∨
    (∃ entryPoint priority ret, ∃ i : Slot, call = .create entryPoint priority ∧
      reply = .status ret ∧ i.val = k.procs.nextPid.toNat ∧ k'.procs.state i = .ready ∧
      (∀ j ≠ i, k'.procs.table j = k.procs.table j) ∧
      k'.procs.currentProcess = k.procs.currentProcess ∧
      ((ret = -1 ∧ k'.procs.nextPid = k.procs.nextPid) ∨
        (ret = i.val ∧ k'.procs.nextPid = k.procs.nextPid + 1))) ∨
    (∃ pid, ∃ i : Slot, call = .exit pid ∧ reply = .status 0 ∧ i.val = pid.toNat ∧
      k'.procs = k.procs.modify i fun pcb => { pcb with state := .zombie }) ∨
    (∃ resource, call = .block resource ∧ reply = .status 0 ∧
      k'.procs = k.procs.modify 0 fun pcb =>
        { pcb with state := .blocked, blockedOn := resource }) ∨
    (∃ pid, ∃ i : Slot, call = .unblock pid ∧ reply = .status 0 ∧ i.val = pid.toNat ∧
      k.procs.state i = .blocked ∧
      k'.procs = k.procs.modify i fun pcb => { pcb with state := .ready, blockedOn := 0 }) ∨
    (∃ context, call = .tick context ∧
      reply = .ticked (schedulerTick k.procs context).1 ∧
      k'.procs = (schedulerTick k.procs context).2) := by
  cases call with
  | create entryPoint priority =>
    obtain ⟨⟨ret, k₁⟩, hcall, hresult⟩ := Option.bind_eq_some_iff.mp hstep
    obtain ⟨rfl, rfl⟩ : ProcReply.status ret = reply ∧ k₁ = k' := by simpa using hresult
    rcases procCreate_procs hcall with ⟨hfull, rfl, rfl⟩ | ⟨i, hslot⟩
    · exact Or.inl ⟨rfl, rfl, fun _ _ _ => hfull, by simp, by simp⟩
    · exact Or.inr (Or.inl ⟨entryPoint, priority, ret, i, rfl, rfl, hslot⟩)
  | exit pid =>
    obtain ⟨rfl, rfl⟩ : ProcReply.status (procExit k.procs pid).1 = reply ∧ _ = k' := by
      simpa [procStep] using hstep
    rcases procExit_cases k.procs pid with ⟨-, heq⟩ | ⟨i, hi, heq⟩
    · rw [heq]
      exact Or.inl ⟨rfl, rfl, by simp, by simp, by simp⟩
    · rw [heq]
      exact Or.inr (Or.inr (Or.inl ⟨pid, i, rfl, rfl, hi, rfl⟩))
  | block resource =>
    obtain ⟨rfl, rfl⟩ : ProcReply.status (procBlock k.procs resource).1 = reply ∧ _ = k' := by
      simpa [procStep] using hstep
    rw [procBlock_eq hidle.current]
    exact Or.inr (Or.inr (Or.inr (Or.inl ⟨resource, rfl, rfl, rfl⟩)))
  | unblock pid =>
    obtain ⟨rfl, rfl⟩ : ProcReply.status (procUnblock k.procs pid).1 = reply ∧ _ = k' := by
      simpa [procStep] using hstep
    rcases procUnblock_cases k.procs pid with heq | ⟨i, hi, hblocked, heq⟩
    · rw [heq]
      exact Or.inl ⟨rfl, rfl, by simp, by simp, by simp⟩
    · rw [heq]
      exact Or.inr (Or.inr (Or.inr (Or.inr (Or.inl ⟨pid, i, rfl, rfl, hi, hblocked, rfl⟩))))
  | tick context =>
    exact Or.inr (Or.inr (Or.inr (Or.inr (Or.inr ⟨context, rfl, procStep_tick hstep⟩))))

/-- Slot 0 stays the current process. -/
theorem procStep_idle {k k' : Kernel M} {call : ProcCall} {reply : ProcReply}
    (hidle : k.procs.Idle) (hstep : procStep pmmBus heapBus k call = some (reply, k')) :
    k'.procs.Idle := by
  have hmodify : ∀ (i : Slot) (f : Pcb → Pcb), (k.procs.modify i f).Idle :=
    fun i f => ⟨hidle.current, hidle.next_pos, hidle.next_le⟩
  rcases procStep_cases hidle hstep with ⟨heq, -⟩ | ⟨_, _, _, i, -, -, hi, -, -, hcurrent, hnext⟩ |
    ⟨_, i, -, -, -, heq⟩ | ⟨_, -, -, heq⟩ | ⟨_, i, -, -, -, -, heq⟩ | ⟨context, -, -, heq⟩
  · rw [heq]
    exact hidle
  · have hlt := i.isLt
    have hpos := hidle.next_pos
    rw [← hi] at hpos
    rcases hnext with ⟨-, hnext⟩ | ⟨-, hnext⟩
    · exact ⟨hcurrent.trans hidle.current, by rw [hnext]; omega, by rw [hnext]; omega⟩
    · exact ⟨hcurrent.trans hidle.current, by rw [hnext]; bv_omega, by rw [hnext]; bv_omega⟩
  · rw [heq]
    exact hmodify i _
  · rw [heq]
    exact hmodify 0 _
  · rw [heq]
    exact hmodify i _
  · obtain ⟨-, hcurrent, hnext, -⟩ := schedulerTick_cases hidle.current context
    rw [heq]
    exact ⟨hcurrent, by rw [hnext]; exact hidle.next_pos, by rw [hnext]; exact hidle.next_le⟩

/-- Slot 0 is the current process after every run from `proc_init`. -/
theorem exec_idle {pmm : PmmState} {heap : HeapState} {mem : M} {calls : List ProcCall}
    {replies : List ProcReply} {k : Kernel M}
    (hrun : exec (procStep pmmBus heapBus) (Kernel.init pmm heap mem) calls = some (replies, k)) :
    k.procs.Idle :=
  exec_invariant (fun k => k.procs.Idle) (fun hidle _ hstep => procStep_idle hidle hstep)
    procInit_idle (along_of_exec hrun) hrun

/-- A change that keeps the process ID of a control block. -/
theorem Procs.pid_modify {p : Procs} {i : Slot} {f : Pcb → Pcb}
    (hf : (f (p.table i)).pid = (p.table i).pid) (j : Slot) :
    ((p.modify i f).table j).pid = (p.table j).pid := by
  rw [Procs.table_modify]
  split
  · rename_i hji
    rw [hf, hji]
  · rfl

/-- A tick changes no process ID. -/
theorem schedulerTick_pid {p : Procs} (hcurrent : p.currentProcess = some 0) (context : Word)
    (j : Slot) : ((schedulerTick p context).2.table j).pid = (p.table j).pid := by
  have hcounted : (p.counted.table j).pid = (p.table j).pid := by
    unfold Procs.counted countDown
    split
    · exact Procs.pid_modify rfl j
    · rfl
  rw [schedulerTick_eq hcurrent]
  split
  · exact hcounted
  · refine Eq.trans ?_ hcounted
    unfold contextSwitch
    simp only
    rw [Procs.pid_modify rfl]
    split
    · rfl
    · exact Procs.pid_modify rfl j

/-- The calls but `proc_create` keep the process IDs. -/
theorem procStep_pid {k k' : Kernel M} {call : ProcCall}
    {reply : ProcReply} (hidle : k.procs.Idle)
    (hcall : ∀ entryPoint priority, call ≠ .create entryPoint priority)
    (hstep : procStep pmmBus heapBus k call = some (reply, k')) :
    k'.procs.nextPid = k.procs.nextPid ∧
      ∀ j, (k'.procs.table j).pid = (k.procs.table j).pid := by
  rcases procStep_cases hidle hstep with ⟨heq, -⟩ | ⟨_, _, _, _, hcreate, -⟩ |
    ⟨_, i, -, -, -, heq⟩ | ⟨_, -, -, heq⟩ | ⟨_, i, -, -, -, -, heq⟩ | ⟨context, -, -, heq⟩
  · rw [heq]
    exact ⟨rfl, fun _ => rfl⟩
  · exact absurd hcreate (hcall _ _)
  · rw [heq]
    exact ⟨rfl, Procs.pid_modify rfl⟩
  · rw [heq]
    exact ⟨rfl, Procs.pid_modify rfl⟩
  · rw [heq]
    exact ⟨rfl, Procs.pid_modify rfl⟩
  · rw [heq]
    obtain ⟨-, -, hnext, -⟩ := schedulerTick_cases hidle.current context
    exact ⟨hnext, schedulerTick_pid hidle.current context⟩

/-- `proc_create` sets the slice and the runtime of the slot it opens and no other. -/
theorem procCreate_clock {k k' : Kernel M} {entryPoint priority : Word} {ret : ℤ}
    (hidle : k.procs.Idle)
    (hcall : procCreate pmmBus heapBus k entryPoint priority = some (ret, k')) :
    k'.procs.schedulerTicks = k.procs.schedulerTicks ∧
      ∀ j, (k.procs.table j).SameClock (k'.procs.table j) ∨
        (j ≠ 0 ∧ (k'.procs.table j).timeSliceRemaining = schedulerTimeSlice ∧
          (k'.procs.table j).totalRuntime = 0) := by
  -- The slot is opened, and what is filled in later keeps its slice and its runtime.
  have hopened : ∀ {i : Slot} {f : Pcb → Pcb}, i.val = k.procs.nextPid.toNat →
      (f (k.procs.table i)).timeSliceRemaining = schedulerTimeSlice →
      (f (k.procs.table i)).totalRuntime = 0 → ∀ j,
      (k.procs.table j).SameClock ((k.procs.modify i f).table j) ∨
        (j ≠ 0 ∧ ((k.procs.modify i f).table j).timeSliceRemaining = schedulerTimeSlice ∧
          ((k.procs.modify i f).table j).totalRuntime = 0) := by
    intro i f hi hslice hruntime j
    by_cases hj : j = i
    · subst hj
      have hpos := hidle.next_pos
      rw [Procs.table_modify_self]
      refine Or.inr ⟨?_, hslice, hruntime⟩
      rintro rfl
      rw [Fin.val_zero] at hi
      omega
    · rw [Procs.table_modify_of_ne _ _ hj]
      exact Or.inl ⟨rfl, rfl⟩
  rcases procCreate_cases hcall with ⟨-, -, rfl⟩ | ⟨i, a, b, pmm, m, hi, -, hcases⟩
  · exact ⟨rfl, fun _ => Or.inl ⟨rfl, rfl⟩⟩
  · rcases hcases with ⟨-, -, rfl⟩ |
      ⟨-, context, heap, m₂, -, ⟨-, -, rfl⟩ | ⟨-, m₃, -, -, rfl⟩⟩
    · refine ⟨rfl, ?_⟩
      dsimp only
      exact hopened hi rfl rfl
    · refine ⟨rfl, ?_⟩
      dsimp only
      exact hopened hi rfl rfl
    · refine ⟨rfl, ?_⟩
      dsimp only
      exact hopened hi rfl rfl

/-- The calls but ticks leave all slices and runtimes alone, except those of a slot that
`proc_create` opens. -/
theorem procStep_clock {k k' : Kernel M} {call : ProcCall} {reply : ProcReply}
    (hidle : k.procs.Idle) (hcall : ∀ context, call ≠ .tick context)
    (hstep : procStep pmmBus heapBus k call = some (reply, k')) :
    (∃ ret, reply = .status ret) ∧ k'.procs.schedulerTicks = k.procs.schedulerTicks ∧
      ∀ j, (k.procs.table j).SameClock (k'.procs.table j) ∨
        (j ≠ 0 ∧ (k'.procs.table j).timeSliceRemaining = schedulerTimeSlice ∧
          (k'.procs.table j).totalRuntime = 0) := by
  rcases procStep_cases hidle hstep with ⟨heq, rfl, -⟩ | ⟨_, _, ret, _, rfl, rfl, -⟩ |
    ⟨_, i, -, rfl, -, heq⟩ | ⟨_, -, rfl, heq⟩ | ⟨_, i, -, rfl, -, -, heq⟩ | ⟨context, htick, -⟩
  · rw [heq]
    exact ⟨⟨_, rfl⟩, rfl, fun _ => Or.inl ⟨rfl, rfl⟩⟩
  · obtain ⟨⟨ret', k₁⟩, hcreate, hresult⟩ := Option.bind_eq_some_iff.mp hstep
    obtain ⟨-, rfl⟩ := Prod.mk.inj (Option.some.inj hresult)
    exact ⟨⟨ret, rfl⟩, procCreate_clock hidle hcreate⟩
  · rw [heq]
    exact ⟨⟨_, rfl⟩, rfl, fun j => Or.inl (Procs.sameClock_modify ⟨rfl, rfl⟩ j)⟩
  · rw [heq]
    exact ⟨⟨_, rfl⟩, rfl, fun j => Or.inl (Procs.sameClock_modify ⟨rfl, rfl⟩ j)⟩
  · rw [heq]
    exact ⟨⟨_, rfl⟩, rfl, fun j => Or.inl (Procs.sameClock_modify ⟨rfl, rfl⟩ j)⟩
  · exact absurd htick (hcall context)

/-- The calls but ticks give the states RUNNING and BLOCKED to slot 0 only. -/
theorem procStep_others {k k' : Kernel M} {call : ProcCall} {reply : ProcReply} {st : ProcState}
    (hst : st = .running ∨ st = .blocked) (hidle : k.procs.Idle)
    (hother : ∀ i ≠ 0, k.procs.state i ≠ st)
    (htick : ∀ context, call = .tick context →
      ∀ i ≠ 0, (schedulerTick k.procs context).2.state i ≠ st)
    (hstep : procStep pmmBus heapBus k call = some (reply, k')) :
    ∀ i ≠ 0, k'.procs.state i ≠ st := by
  have hready : ProcState.ready ≠ st := by
    rcases hst with rfl | rfl <;> decide
  have hzombie : ProcState.zombie ≠ st := by
    rcases hst with rfl | rfl <;> decide
  have hmodify : ∀ {i : Slot} {f : Pcb → Pcb}, i = 0 ∨ (f (k.procs.table i)).state ≠ st →
      ∀ j ≠ 0, (k.procs.modify i f).state j ≠ st := by
    intro i f hf j hj
    unfold Procs.state
    rw [Procs.table_modify]
    split
    · rename_i hji
      exact hf.resolve_left fun hi => hj (hji.trans hi)
    · exact hother j hj
  rcases procStep_cases hidle hstep with ⟨heq, -⟩ | ⟨_, _, _, i, -, -, -, hnew, hkept, -⟩ |
    ⟨_, i, -, -, -, heq⟩ | ⟨_, -, -, heq⟩ | ⟨_, i, -, -, -, -, heq⟩ | ⟨context, hcall, -, heq⟩
  · rw [heq]
    exact hother
  · intro j hj
    by_cases hij : j = i
    · rw [hij, hnew]
      exact hready
    · unfold Procs.state
      rw [hkept j hij]
      exact hother j hj
  · rw [heq]
    exact hmodify (Or.inr hzombie)
  · rw [heq]
    exact hmodify (Or.inl rfl)
  · rw [heq]
    exact hmodify (Or.inr hready)
  · rw [heq]
    exact htick context hcall

end Nimbu
