import Nimbu.Kernel.Create

/-!
# What a process takes and what it gives back

`proc_create` takes a slot of the table, two page frames and a heap block, one
after the other, and `proc_exit` changes a state in the table. Nothing in between
gives anything back: neither the failure paths of `proc_create` nor `proc_exit`.
-/

namespace Nimbu

variable {M : Type} {bus pmmBus heapBus : Bus M}

/-- The frame allocator, the heap, memory and the table are what they were. -/
structure Kernel.SameAs (k' k : Kernel Mem) : Prop where
  /-- The record of the frame allocator. -/
  pmm : k'.pmm = k.pmm
  /-- The record of the heap. -/
  heap : k'.heap = k.heap
  /-- The bitmap and the blocks of the heap. -/
  bytes : k'.mem.bytes = k.mem.bytes
  /-- The table and the next process ID. -/
  procs : k'.procs = k.procs

/-- The frame allocations of `proc_create` change nothing when no page is free; a
page that is allocated is counted. -/
theorem procCreateFrames_cases {s pmm : PmmState} {m m' : M} {a b : Word}
    (hcall : procCreateFrames bus s m = some (a, b, pmm, m')) :
    (findFreePage bus s m = some 0xFFFFFFFF ∧ a = 0 ∧ b = 0 ∧ pmm = s ∧ m' = m) ∨
    (findFreePage bus s m ≠ some 0xFFFFFFFF ∧
      ((b = 0 ∧ pmm.allocatedPages = s.allocatedPages + 1) ∨
        pmm.allocatedPages = s.allocatedPages + 2)) := by
  obtain ⟨s₁, m₁, hfirst, hsecond⟩ := procCreateFrames_allocs hcall
  rcases pmmAlloc_cases hfirst with ⟨hnone, rfl, rfl, rfl⟩ | ⟨i, hfind, hi, -, rfl, -⟩
  · left
    rcases pmmAlloc_cases hsecond with ⟨-, rfl, rfl, rfl⟩ | ⟨i, hfind, hi, -⟩
    · exact ⟨hnone, rfl, rfl, rfl, rfl⟩
    · rw [hnone] at hfind
      exact absurd (Option.some.inj hfind).symm hi
  · right
    refine ⟨by rw [hfind]; exact fun h => hi (Option.some.inj h), ?_⟩
    rcases pmmAlloc_cases hsecond with ⟨-, rfl, rfl, -⟩ | ⟨j, -, -, -, rfl, -⟩
    · exact Or.inl ⟨rfl, rfl⟩
    · right
      simp only
      bv_omega

/-- Changing a block leaves the table alone exactly when the block already held the
new values. -/
theorem Procs.modify_eq_self_iff (p : Procs) (i : Slot) (f : Pcb → Pcb) :
    p.modify i f = p ↔ f (p.table i) = p.table i := by
  constructor
  · intro h
    have hblock := congrArg (fun q : Procs => q.table i) h
    simpa using hblock
  · intro h
    unfold Procs.modify
    rw [h, Function.update_eq_self]

/-- **A failed `proc_create` is undone** exactly when there was nothing to undo: it
was refused for lack of a process ID; or no page was free and the next slot
already held the values that the call writes before it asks for pages. -/
theorem proc_create_atomic_iff {k k' : Kernel Mem} {entryPoint priority : Word}
    (hcall : procCreate Mem.bus Mem.bus k entryPoint priority = some (-1, k')) :
    k'.SameAs k ↔ 256 ≤ k.procs.nextPid.toNat ∨
      (findFreePage Mem.bus k.pmm k.mem = some 0xFFFFFFFF ∧
        ∀ i : Slot, i.val = k.procs.nextPid.toNat →
          (k.procs.table i).opened k.procs.nextPid k.procs.currentPid priority =
            k.procs.table i) := by
  rcases procCreate_cases hcall with ⟨hfull, -, rfl⟩ | ⟨i, a, b, pmm, m, hi, hframes, hcases⟩
  · exact iff_of_true ⟨rfl, rfl, rfl, rfl⟩ (Or.inl hfull)
  · have hnext : ¬ 256 ≤ k.procs.nextPid.toNat := by
      have := i.isLt
      omega
    rw [or_iff_right hnext]
    rcases procCreateFrames_cases hframes with ⟨hnone, rfl, rfl, rfl, rfl⟩ | ⟨hsome, hcount⟩
    · rcases hcases with ⟨-, -, rfl⟩ | ⟨hnonzero, -⟩
      · have hslot : (∀ j : Slot, j.val = k.procs.nextPid.toNat →
            (k.procs.table j).opened k.procs.nextPid k.procs.currentPid priority =
              k.procs.table j) ↔
            (k.procs.table i).opened k.procs.nextPid k.procs.currentPid priority =
              k.procs.table i := by
          constructor
          · intro h
            exact h i hi
          · intro h j hj
            obtain rfl : j = i := Fin.ext (hj.trans hi.symm)
            exact h
        have hsame := Procs.modify_eq_self_iff k.procs i fun pcb =>
          pcb.opened k.procs.nextPid k.procs.currentPid priority
        rw [and_iff_right hnone, hslot]
        constructor
        · intro h
          exact hsame.mp h.procs
        · intro h
          exact ⟨rfl, rfl, rfl, hsame.mpr h⟩
      · exact absurd (Or.inl rfl) hnonzero
    · have hpmm : pmm ≠ k.pmm := by
        rintro rfl
        rcases hcount with ⟨-, hcount⟩ | hcount <;> bv_omega
      refine iff_of_false (fun h => hpmm ?_) fun h => hsome h.1
      rw [← h.pmm]
      rcases hcases with ⟨-, -, rfl⟩ | ⟨-, context, heap, m₂, -, ⟨-, -, rfl⟩ | ⟨-, m₃, -, hret, -⟩⟩
      · rfl
      · rfl
      · omega

/-- A second attempt with the same arguments, when there are no pages, changes nothing. -/
theorem proc_create_atomic_second_attempt :
    ∃ k₁ k₂, procCreate Mem.bus Mem.bus
        (Kernel.init ⟨0xC0200000, 0, 0, 0⟩ ⟨0xC0100000, 0x800000, 0⟩ ⟨fun _ => 0, []⟩) 0 5 =
        some (-1, k₁) ∧
      procCreate Mem.bus Mem.bus k₁ 0 5 = some (-1, k₂) ∧ k₂.SameAs k₁ := by
  refine ⟨_, _, rfl, rfl, (@proc_create_atomic_iff _ _ 0 5 rfl).mpr (Or.inr ⟨rfl, ?_⟩)⟩
  intro i hi
  obtain rfl : i = 1 := Fin.ext hi
  rfl

/-- `kmain` calls `proc_init`. -/
theorem kmainKernel_procs {m : Mem} {k : Kernel Mem} (hinit : kmainKernel m = some k) :
    k.procs = procInit Procs.static := by
  unfold kmainKernel at hinit
  obtain ⟨x, -, hk⟩ := Option.bind_eq_some_iff.mp hinit
  obtain rfl : _ = k := Option.some.inj hk
  rfl

/-- The first two frames are frame 0 and frame 1. -/
theorem Frames.alloc_alloc_empty (total : ℕ) (htotal : 2 ≤ total) :
    (empty total).alloc.1 = 0 ∧ (empty total).alloc.2.alloc.2.held = {1, 0} := by
  have hfirst : (empty total).alloc = (0 * 4096, (empty total).take 0 (by simp [empty]; omega)) :=
    alloc_of_least _ (by simp [empty]) (by simp)
  have hsecond : ((empty total).take 0 (by simp [empty]; omega)).alloc = (1 * 4096, _) :=
    alloc_of_least (by simp [take, empty]; omega) (by simp [take, empty]) (by simp [take])
  rw [hfirst]
  simp only
  rw [hsecond]
  simp [take, empty]

/-- The first `proc_create` after `kmain`'s initialisation gets frame 0 and fails. -/
theorem kmain_first_create (m : Mem) (entryPoint priority : Word) :
    ∃ k k', kmainKernel m = some k ∧ k.pmm.allocatedPages = 0 ∧
      procCreate Mem.bus Mem.bus k entryPoint priority = some (-1, k') ∧
      k'.pmm.allocatedPages = 2 ∧
      k'.procs = (procInit Procs.static).modify 1 fun pcb => pcb.opened 1 0 priority := by
  obtain ⟨k, hinit, hsound, -⟩ := kmainKernel_sound m
  have hprocs := kmainKernel_procs hinit
  obtain ⟨a, b, pmm, m', hframes, ha, -, hsound', -⟩ := hsound.frames
  have hbefore : k.pmm.Represents k.mem.bytes _ := hsound.pmm.2.2.2
  have hafter : pmm.Represents m'.bytes _ := (hsound' k.procs hsound.idle).pmm.2.2.2
  obtain ⟨hzero, hheld⟩ := Frames.alloc_alloc_empty 32768 (by omega)
  have hnext : k.procs.nextPid.toNat < 256 := by
    rw [hprocs]
    decide
  have ha0 : a = 0 := by
    apply BitVec.eq_of_toNat_eq
    rw [ha, hzero]
    rfl
  obtain ⟨procs, hcall, -⟩ := procCreate_of_no_frame Mem.bus entryPoint priority hnext hframes
    (Or.inl ha0)
  refine ⟨k, _, hinit, ?_, hcall, ?_, ?_⟩
  · have hcount := hbefore.allocated_eq
    rw [Frames.empty, Finset.card_empty] at hcount
    bv_omega
  · have hcount := hafter.allocated_eq
    rw [hheld] at hcount
    exact BitVec.eq_of_toNat_eq hcount
  · rcases procCreate_cases hcall with ⟨hfull, -⟩ | ⟨i, a', b', pmm', m₁, hi, hframes', hcases⟩
    · omega
    · obtain ⟨rfl, -⟩ : a = a' ∧ _ := by simpa [hframes] using hframes'
      rcases hcases with ⟨-, -, heq⟩ | ⟨hnonzero, -⟩
      · rw [hprocs] at hi heq
        obtain rfl : i = 1 := Fin.ext hi
        exact congrArg Kernel.procs heq
      · exact absurd (Or.inl ha0) hnonzero

/-- The first `proc_create` after `kmain`'s initialisation fails and leaves two frames
allocated and slot 1 READY with a process ID and no context. -/
theorem proc_create_not_atomic_at_boot :
    ∃ k k', kmainKernel ⟨fun _ => 0, []⟩ = some k ∧
      procCreate Mem.bus Mem.bus k 0x100000 1 = some (-1, k') ∧ ¬ k'.SameAs k ∧
      k'.pmm.allocatedPages = 2 ∧ (k'.procs.table 1).pid = 1 ∧ k'.procs.state 1 = .ready ∧
      (k'.procs.table 1).context = 0 := by
  obtain ⟨k, k', hinit, hbefore, hcall, hafter, hprocs⟩ :=
    kmain_first_create ⟨fun _ => 0, []⟩ 0x100000 1
  refine ⟨k, k', hinit, hcall, fun hsame => ?_, hafter, ?_⟩
  · rw [hsame.pmm, hbefore] at hafter
    exact absurd hafter (by decide)
  · rw [hprocs]
    exact ⟨rfl, rfl, rfl⟩

/-- What a process took is given back: its two frames are free, the block of its context
is free, and process IDs are left. -/
structure Kernel.Reclaimed (k : Kernel Mem) (stackPhys pdPhys context : Word) : Prop where
  /-- The frame of the stack. -/
  stack_free : k.mem.bytes.bit k.pmm.bitmap (stackPhys.toNat / 4096) = false
  /-- The frame of the page directory. -/
  page_dir_free : k.mem.bytes.bit k.pmm.bitmap (pdPhys.toNat / 4096) = false
  /-- The used flag in the header of the context's block. -/
  context_free : k.mem.bytes (context - allocHeaderSize + headerUsedOffset) = 0
  /-- `proc_create` is not refused for lack of a process ID. -/
  pid_left : k.procs.nextPid.toNat < 256

/-- `kmalloc` sets the used flag of the block it serves. -/
theorem kmalloc_used_flag {h h' : HeapState} {m m' : Mem} {n p : Word} (hp : p ≠ 0)
    (hcall : kmalloc Mem.bus h m n = some (p, h', m')) :
    m'.bytes (p - allocHeaderSize + headerUsedOffset) = 1 := by
  have hflag : ∀ current : Word,
      current + allocHeaderSize - allocHeaderSize + headerUsedOffset =
        current + headerUsedOffset := by
    intro current
    rw [BitVec.add_sub_cancel]
  unfold kmalloc at hcall
  split at hcall
  · obtain ⟨rfl, -⟩ : 0 = p ∧ _ := by simpa using hcall
    exact absurd rfl hp
  · obtain ⟨walk, -, hcall⟩ := Option.bind_eq_some_iff.mp hcall
    cases walk with
    | corrupt =>
      obtain ⟨rfl, -⟩ : 0 = p ∧ _ := by simpa using hcall
      exact absurd rfl hp
    | found current =>
      obtain ⟨rfl, -, rfl⟩ : current + allocHeaderSize = p ∧ h = h' ∧ _ = m' := by
        simpa using hcall
      rw [hflag]
      simp [Bytes.put_apply]
    | tail current offset =>
      simp only at hcall
      split at hcall
      · obtain ⟨rfl, -⟩ : 0 = p ∧ _ := by simpa using hcall
        exact absurd rfl hp
      · obtain ⟨rfl, -, rfl⟩ : current + allocHeaderSize = p ∧ _ = h' ∧ _ = m' := by
          simpa using hcall
        rw [hflag]
        simp [Bytes.put_apply]

/-- Setting the registers of a context keeps the used flag before it. -/
theorem initContext_used_flag {m m' : Mem} {context entryPoint kernelStack : Word}
    (hinit : initContext Mem.bus m context entryPoint kernelStack = some m') :
    m'.bytes (context - allocHeaderSize + headerUsedOffset) =
      m.bytes (context - allocHeaderSize + headerUsedOffset) := by
  obtain ⟨m₁, hinit', hkept⟩ := initContext_eq m context entryPoint kernelStack
  obtain rfl : m₁ = m' := Option.some.inj (hinit'.symm.trans hinit)
  apply hkept
  intro j hj
  unfold allocHeaderSize headerUsedOffset
  bv_omega

/-- `context_switch` keeps the next process ID. -/
theorem contextSwitch_nextPid (p : Procs) (context : Word) :
    (contextSwitch p context).2.2.nextPid = p.nextPid := by
  unfold contextSwitch
  simp only [Procs.nextPid_modify]
  split <;> rfl

/-- A tick keeps the next process ID. -/
theorem schedulerTick_nextPid (p : Procs) (context : Word) :
    (schedulerTick p context).2.nextPid = p.nextPid := by
  unfold schedulerTick
  simp only
  split
  · rfl
  · rename_i i _
    have hcounted := (countDown_kept { p with schedulerTicks := p.schedulerTicks + 1 } i i).2.2.2
    split
    · exact (contextSwitch_nextPid _ context).trans hcounted
    · exact hcounted

/-- Ticks and `proc_exit` change the states of the table and nothing else. -/
theorem exit_keeps {k k' : Kernel M} {ticks : List Word} {pid : Word} {replies : List ProcReply}
    (hrun : exec (procStep pmmBus heapBus) k (ticks.map ProcCall.tick ++ [.exit pid]) =
      some (replies, k')) :
    k'.pmm = k.pmm ∧ k'.heap = k.heap ∧ k'.mem = k.mem ∧
      k'.procs.nextPid = k.procs.nextPid := by
  induction ticks generalizing k replies with
  | nil =>
    obtain ⟨reply, k₁, _, hstep, hnil, -⟩ := exec_cons_iff.mp hrun
    obtain ⟨-, rfl⟩ : [] = _ ∧ k₁ = k' := by simpa using hnil
    obtain ⟨-, rfl⟩ : _ = reply ∧ _ = k₁ := by simpa [procStep] using hstep
    refine ⟨rfl, rfl, rfl, ?_⟩
    rcases procExit_cases k.procs pid with ⟨-, heq⟩ | ⟨i, -, heq⟩
    · rw [heq]
    · rw [heq]
      rfl
  | cons context ticks ih =>
    obtain ⟨reply, k₁, rest, hstep, hrest, -⟩ := exec_cons_iff.mp hrun
    obtain ⟨hpmm, hheap, hmem, hnext⟩ := ih hrest
    obtain ⟨-, rfl⟩ : _ = reply ∧ _ = k₁ := by simpa [procStep] using hstep
    exact ⟨hpmm, hheap, hmem, hnext.trans (schedulerTick_nextPid _ _)⟩

/-- **A process gives nothing back.** After a successful `proc_create`, any ticks and
`proc_exit` of the new process, the two frames are still counted, the block of the
context is still in use, and the process ID is used up; after the last one
`proc_create` is refused for ever. So what the process took is never reclaimed. -/
theorem create_exit_never_reclaims {k k₁ k₂ : Kernel Mem} {entryPoint priority : Word} {i : Slot}
    {ticks : List Word} {replies : List ProcReply}
    (hcreate : procCreate Mem.bus Mem.bus k entryPoint priority = some ((i.val : ℤ), k₁))
    (hrun : exec (procStep Mem.bus Mem.bus) k₁
      (ticks.map ProcCall.tick ++ [.exit (BitVec.ofNat 32 i.val)]) = some (replies, k₂)) :
    (∃ a b pmm m, procCreateFrames Mem.bus k.pmm k.mem = some (a, b, pmm, m) ∧
      ¬ k₂.Reclaimed a b (k₁.procs.table i).context) ∧
    k₂.pmm.allocatedPages = k.pmm.allocatedPages + 2 ∧
    k₂.mem.bytes ((k₁.procs.table i).context - allocHeaderSize + headerUsedOffset) = 1 ∧
    k₂.procs.nextPid.toNat = i.val + 1 ∧
    (i.val = 255 → ∀ entryPoint priority,
      procCreate Mem.bus Mem.bus k₂ entryPoint priority = some (-1, k₂)) := by
  obtain ⟨hpmm, -, hmem, hnext⟩ := exit_keeps hrun
  obtain ⟨j, a, b, context, hret, hserved⟩ := procCreate_served hcreate (by omega)
  obtain rfl : i = j := Fin.ext (by omega)
  obtain ⟨m, m₂, hframes, hkmalloc, hinit⟩ := hserved.calls
  have hcontext : (k₁.procs.table i).context = context := by
    rw [hserved.block]
    rfl
  have hflag : k₂.mem.bytes (context - allocHeaderSize + headerUsedOffset) = 1 := by
    rw [hmem, initContext_used_flag hinit]
    exact kmalloc_used_flag hserved.context_ne hkmalloc
  have hcount : k₂.pmm.allocatedPages = k.pmm.allocatedPages + 2 := by
    rw [hpmm]
    rcases procCreateFrames_cases hframes with ⟨-, ha, -⟩ | ⟨-, ⟨hb, -⟩ | hcount⟩
    · exact absurd ha hserved.stack_ne
    · exact absurd hb hserved.page_dir_ne
    · exact hcount
  have hpids : k₂.procs.nextPid.toNat = i.val + 1 := by
    have hslot := hserved.slot
    have hlt := i.isLt
    rw [hnext, hserved.next]
    bv_omega
  rw [hcontext]
  refine ⟨⟨a, b, _, m, hframes, fun h => ?_⟩, hcount, hflag, hpids, ?_⟩
  · have hfree := h.context_free
    rw [hflag] at hfree
    exact absurd hfree (by decide)
  · intro hlast entryPoint priority
    unfold procCreate
    rw [dif_neg (by omega)]
    rfl

/-- A process that is created, runs for a tick and exits leaves two frames more allocated. -/
theorem create_exit_never_reclaims_once :
    ∃ k₁ replies k₂, procCreate Mem.bus Mem.bus smallKernel 0x100000 1 = some (1, k₁) ∧
      exec (procStep Mem.bus Mem.bus) k₁ ([0].map ProcCall.tick ++ [.exit 1]) =
        some (replies, k₂) ∧
      k₂.pmm.allocatedPages = 3 := by
  have hcall : (procCreate Mem.bus Mem.bus smallKernel 0x100000 1).map (·.1) = some 1 := by
    decide +kernel
  obtain ⟨⟨ret, k₁⟩, hcreate, hret⟩ := Option.map_eq_some_iff.mp hcall
  obtain rfl : ret = 1 := hret
  refine ⟨k₁, _, _, hcreate, rfl, ?_⟩
  exact (@create_exit_never_reclaims _ _ _ _ _ 1 [0] _ hcreate rfl).2.1

/-- After process 1 has been created and has exited, its frames 1 and 2 are still
allocated and the block of its context is still in use. -/
theorem create_exit_leaks :
    ∃ k₁ replies k₂ pmm m, procCreate Mem.bus Mem.bus smallKernel 0x100000 1 = some (1, k₁) ∧
      exec (procStep Mem.bus Mem.bus) k₁ [.exit 1] = some (replies, k₂) ∧
      procCreateFrames Mem.bus smallKernel.pmm smallKernel.mem =
        some (0x1000, 0x2000, pmm, m) ∧
      ¬ k₂.Reclaimed 0x1000 0x2000 (k₁.procs.table 1).context := by
  have hcall : (procCreate Mem.bus Mem.bus smallKernel 0x100000 1).map
      (fun r => (r.1, r.2.mem.bytes.bit r.2.pmm.bitmap 1)) = some (1, true) := by
    decide +kernel
  have hframes : (procCreateFrames Mem.bus smallKernel.pmm smallKernel.mem).map
      (fun r => (r.1, r.2.1)) = some (0x1000, 0x2000) := by
    decide +kernel
  obtain ⟨⟨ret, k₁⟩, hcreate, hr⟩ := Option.map_eq_some_iff.mp hcall
  obtain ⟨⟨a, b, pmm, m⟩, hframes, hr'⟩ := Option.map_eq_some_iff.mp hframes
  simp only [Prod.mk.injEq] at hr hr'
  obtain ⟨rfl, hbit⟩ := hr
  obtain ⟨rfl, rfl⟩ := hr'
  refine ⟨k₁, _, _, pmm, m, hcreate, rfl, hframes, fun h => ?_⟩
  have hfree := h.stack_free
  exact absurd (hfree.symm.trans hbit) (by decide)

end Nimbu
