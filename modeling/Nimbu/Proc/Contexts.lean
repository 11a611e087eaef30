import Nimbu.Proc.Lifecycle
import Nimbu.Proc.TimeSlices

/-!
# Dispatches and contexts

`proc_create` makes a slot READY and stores a context for it, and nothing else does
either for a slot other than slot 0. The interrupted context goes to the current
process, which is slot 0.
-/

namespace Nimbu

variable {M : Type} {pmmBus heapBus : Bus M} {k k' : Kernel M} {call : ProcCall}
  {calls : List ProcCall} {reply : ProcReply} {replies : List ProcReply} {i : Slot}

/-- The call is a `proc_create` that fills in a slot. -/
def Opens (k : Kernel M) (i : Slot) : ProcCall → Prop
  | .create _ _ => k.procs.nextPid.toNat = i.val
  | _ => False

instance (k : Kernel M) (i : Slot) : DecidablePred (Opens k i) := fun call => by
  cases call <;> unfold Opens <;> infer_instance

/-- How many calls of a run fill in a slot. -/
def timesOpened (pmmBus heapBus : Bus M) (i : Slot) : Kernel M → List ProcCall → ℕ
  | _, [] => 0
  | k, call :: calls => (if Opens k i call then 1 else 0) +
      match procStep pmmBus heapBus k call with
      | none => 0
      | some (_, k') => timesOpened pmmBus heapBus i k' calls

/-- One call: what it dispatches was READY, and only `proc_create` makes READY. -/
theorem procStep_dispatches (hidle : k.procs.Idle) (hother : k.procs.OthersUnblocked) (hi : i ≠ 0)
    (hstep : procStep pmmBus heapBus k call = some (reply, k')) :
    (if reply = .ticked (some i) then 1 else 0) +
        (if k'.procs.state i = .ready then 1 else 0) ≤
      (if k.procs.state i = .ready then 1 else 0) + (if Opens k i call then 1 else 0) := by
  rcases procStep_cases hidle hstep with ⟨heq, rfl, -⟩ |
    ⟨entryPoint, priority, ret, j, rfl, rfl, hj, -, hkept, -, -⟩ | ⟨_, j, rfl, rfl, hj, heq⟩ |
    ⟨_, rfl, rfl, heq⟩ | ⟨_, j, rfl, rfl, hj, hblocked, heq⟩ | ⟨context, rfl, rfl, heq⟩
  · rw [heq, if_neg (by simp)]
    omega
  · rw [if_neg (by simp)]
    by_cases hij : i = j
    · have hopens : Opens k i (.create entryPoint priority) := by
        rw [Opens, hij, hj]
      rw [if_pos hopens]
      split <;> omega
    · rw [Procs.state, hkept i hij, Procs.state]
      omega
  · rw [if_neg (by simp)]
    by_cases hij : i = j
    · rw [heq, hij, Procs.state, Procs.table_modify_self, if_neg (by simp)]
      omega
    · rw [heq, Procs.state, Procs.table_modify_of_ne _ _ hij, Procs.state]
      omega
  · rw [if_neg (by simp), heq, Procs.state, Procs.table_modify_of_ne _ _ hi, Procs.state]
    omega
  · have hij : i ≠ j := by
      rintro rfl
      exact hother i hi hblocked
    rw [if_neg (by simp), heq, Procs.state, Procs.table_modify_of_ne _ _ hij, Procs.state]
    omega
  · rw [heq]
    obtain ⟨-, -, -, ⟨-, hslot, hstate⟩ | ⟨-, hslot, hstate⟩⟩ :=
      schedulerTick_cases hidle.current context
    · rw [hslot, hstate, if_neg (by simp)]
      omega
    · rw [hslot, hstate]
      by_cases hfirst : i = (findReady k.procs).getD 0
      · have hready : k.procs.state i = .ready := by
          cases hfind : findReady k.procs with
          | none =>
            rw [hfind, Option.getD_none] at hfirst
            exact absurd hfirst hi
          | some j =>
            rw [hfind, Option.getD_some] at hfirst
            rw [hfirst]
            exact findReady_state hfind
        rw [if_pos hfirst, if_pos (by rw [hfirst]), if_neg (by simp), if_pos hready]
        omega
      · rw [if_neg hfirst, if_neg hi, if_neg (by simpa using Ne.symm hfirst)]
        omega

/-- A run dispatches a slot other than slot 0 at most as often as it was READY at first or has
been opened. -/
theorem count_dispatches (hidle : k.procs.Idle) (hother : k.procs.OthersUnblocked) (hi : i ≠ 0)
    (hrun : exec (procStep pmmBus heapBus) k calls = some (replies, k')) :
    replies.count (.ticked (some i)) + (if k'.procs.state i = .ready then 1 else 0) ≤
      (if k.procs.state i = .ready then 1 else 0) + timesOpened pmmBus heapBus i k calls := by
  induction calls generalizing k replies with
  | nil =>
    obtain ⟨rfl, rfl⟩ := Prod.mk.inj (Option.some.inj hrun)
    simp only [List.count_nil, timesOpened]
    omega
  | cons call calls ih =>
    obtain ⟨reply, k₁, rest, hstep, hrest, rfl⟩ := exec_cons_iff.mp hrun
    have hone := procStep_dispatches hidle hother hi hstep
    have hmany := ih (procStep_idle hidle hstep) (procStep_othersUnblocked hidle hother hstep) hrest
    simp only [List.count_cons, beq_iff_eq, timesOpened, hstep]
    omega

/-- **A slot is dispatched once for each time it is opened.** In every run from `proc_init` a
slot other than slot 0, which is READY at first, is dispatched at most once and once more for
each `proc_create` that fills it in: a process that has been dispatched is never dispatched
again. -/
theorem dispatched_once_per_create (pmmBus heapBus : Bus M) (pmm : PmmState) (heap : HeapState)
    (mem : M)
    (hrun : exec (procStep pmmBus heapBus) (Kernel.init pmm heap mem) calls = some (replies, k))
    (hi : i ≠ 0) :
    replies.count (.ticked (some i)) ≤
      1 + timesOpened pmmBus heapBus i (Kernel.init pmm heap mem) calls := by
  have hcount := count_dispatches procInit_idle procInit_othersUnblocked hi hrun
  have hready : (Kernel.init pmm heap mem).procs.state i = .ready := by
    rw [Kernel.init, state_procInit, if_neg hi]
  rw [if_pos hready] at hcount
  omega

/-- Two processes are created, and thirty ticks dispatch the first of them once. -/
theorem dispatched_once_of_two :
    ∃ replies k, exec (procStep Mem.bus Mem.bus) smallKernel
        ([.create 0 0, .create 0 0] ++ List.replicate 30 (.tick 0)) = some (replies, k) ∧
      replies.count (.ticked (some 1)) ≤ 2 := by
  have heval : (exec (procStep Mem.bus Mem.bus) smallKernel
      ([.create 0 0, .create 0 0] ++ List.replicate 30 (.tick 0))).isSome = true := by
    decide +kernel
  have hopened : timesOpened Mem.bus Mem.bus 1 smallKernel
      ([.create 0 0, .create 0 0] ++ List.replicate 30 (.tick 0)) = 1 := by
    decide +kernel
  obtain ⟨⟨replies, k⟩, hrun⟩ := Option.isSome_iff_exists.mp heval
  have hcount := dispatched_once_per_create Mem.bus Mem.bus _ _ _ hrun
    (i := 1) (by decide)
  exact ⟨replies, k, hrun, hcount.trans (by rw [← smallKernel, hopened])⟩

/-- What `context_switch` hands back at a tick: the context of the slot it dispatches, as it is
after the interrupted context has been saved, or the interrupted one. -/
def handedBack (k : Kernel M) (context : Word) : Option Word :=
  if k.procs.Stays then none else some (contextSwitch k.procs.counted context).2.1

/-- The context saved last: each switch saves the interrupted one. -/
def savedContext (saved : Word) : ProcCall → ProcReply → Word
  | .tick context, .ticked (some _) => context
  | _, _ => saved

/-- Among the calls from `k` on is a `proc_create` that fills in a slot and stores this context
for it. -/
def StoredByCreate (pmmBus heapBus : Bus M) (k : Kernel M) (calls : List ProcCall) (i : Slot)
    (context : Word) : Prop :=
  ∃ pre entryPoint priority post replies k₁ reply k₂,
    calls = pre ++ .create entryPoint priority :: post ∧
    exec (procStep pmmBus heapBus) k pre = some (replies, k₁) ∧
    procStep pmmBus heapBus k₁ (.create entryPoint priority) = some (reply, k₂) ∧
    k₁.procs.nextPid.toNat = i.val ∧ (k₂.procs.table i).context = context

/-- Counting down changes no context. -/
theorem context_counted (p : Procs) (j : Slot) :
    (p.counted.table j).context = (p.table j).context := by
  unfold Procs.counted countDown
  split
  · rw [Procs.table_modify]
    split
    · rename_i hj
      rw [hj]
    · rfl
  · rfl

/-- A tick that switches saves the interrupted context for slot 0 and changes no other. -/
theorem schedulerTick_context {p : Procs} (hcurrent : p.currentProcess = some 0) (context : Word)
    (j : Slot) : ((schedulerTick p context).2.table j).context =
      if (schedulerTick p context).1 ≠ none ∧ j = 0 then context else (p.table j).context := by
  rw [schedulerTick_eq hcurrent]
  by_cases hstays : p.Stays
  · rw [if_pos hstays, if_neg (by simp)]
    exact context_counted p j
  · have hcurrent' : procGetCurrent p.counted = some 0 :=
      ((countDown_kept { p with schedulerTicks := p.schedulerTicks + 1 } 0 0).2.2.1).trans hcurrent
    have hsaved : ∀ l, ((p.counted.modify 0 fun pcb =>
        { pcb with state := .ready, context }).table l).context =
        if l = 0 then context else (p.table l).context := by
      intro l
      rw [Procs.table_modify]
      split
      · rfl
      · exact context_counted p l
    rw [if_neg hstays]
    simp only [contextSwitch, hcurrent', Procs.table_modify _ ((findReady p.counted).getD 0), ne_eq,
      reduceCtorEq, not_false_eq_true, true_and]
    split
    · rename_i hj
      rw [← hj]
      exact hsaved j
    · exact hsaved j

/-- What a switch hands back: for slot 0 the context that has just been saved, for another
slot the one in its control block, if there is one. -/
theorem handedBack_cases (hidle : k.procs.Idle) {context w : Word}
    (hback : handedBack k context = some w) :
    w = context ∨ ∃ i ≠ 0, (contextSwitch k.procs.counted context).1 = i ∧
      (k.procs.table i).context = w ∧ w ≠ 0 := by
  unfold handedBack at hback
  split at hback
  · cases hback
  · have hcurrent : procGetCurrent k.procs.counted = some 0 :=
      (countDown_kept { k.procs with schedulerTicks := k.procs.schedulerTicks + 1 } 0
        0).2.2.1.trans hidle.current
    simp only [contextSwitch, hcurrent, Procs.table_modify_self, Option.some.injEq] at hback
    by_cases hzero : (findReady k.procs.counted).getD 0 = 0
    · rw [hzero, Procs.table_modify_self] at hback
      simp only [ite_self] at hback
      exact Or.inl hback.symm
    · rw [Procs.table_modify_of_ne _ _ hzero] at hback
      split at hback
      · rename_i hne
        rw [hback] at hne
        exact Or.inr ⟨_, hzero, rfl, (context_counted _ _).symm.trans hback, hne⟩
      · exact Or.inl hback.symm

/-- One call: the context of slot 0 changes when a tick switches, that of another slot when
`proc_create` fills the slot in. -/
theorem procStep_context (hidle : k.procs.Idle)
    (hstep : procStep pmmBus heapBus k call = some (reply, k')) :
    (k'.procs.table 0).context = savedContext (k.procs.table 0).context call reply ∧
      ∀ i ≠ 0, (k'.procs.table i).context = (k.procs.table i).context ∨
        ∃ entryPoint priority, call = .create entryPoint priority ∧
          k.procs.nextPid.toNat = i.val := by
  have hmodify : ∀ {j : Slot} {f : Pcb → Pcb}, k'.procs = k.procs.modify j f →
      (∀ pcb, (f pcb).context = pcb.context) →
      ∀ l, (k'.procs.table l).context = (k.procs.table l).context := by
    intro j f heq hf l
    rw [heq, Procs.table_modify]
    split
    · rename_i hl
      rw [hf, hl]
    · rfl
  rcases procStep_cases hidle hstep with ⟨heq, rfl, -⟩ |
    ⟨entryPoint, priority, ret, j, rfl, rfl, hj, -, hkept, -, -⟩ | ⟨_, j, rfl, rfl, -, heq⟩ |
    ⟨_, rfl, rfl, heq⟩ | ⟨_, j, rfl, rfl, -, -, heq⟩ | ⟨context, rfl, rfl, heq⟩
  · rw [heq]
    exact ⟨by cases call <;> rfl, fun i _ => Or.inl rfl⟩
  · have hzero : (0 : Slot) ≠ j := by
      rintro rfl
      exact absurd hj (Nat.ne_of_lt hidle.next_pos)
    refine ⟨by rw [hkept 0 hzero]; rfl, fun i _ => ?_⟩
    by_cases hij : i = j
    · exact Or.inr ⟨entryPoint, priority, rfl, by rw [hij, hj]⟩
    · rw [hkept i hij]
      exact Or.inl rfl
  · exact ⟨hmodify heq (fun _ => rfl) 0, fun i _ => Or.inl (hmodify heq (fun _ => rfl) i)⟩
  · exact ⟨hmodify heq (fun _ => rfl) 0, fun i _ => Or.inl (hmodify heq (fun _ => rfl) i)⟩
  · exact ⟨hmodify heq (fun _ => rfl) 0, fun i _ => Or.inl (hmodify heq (fun _ => rfl) i)⟩
  · rw [heq]
    refine ⟨?_, fun i hi => Or.inl ?_⟩
    · rw [schedulerTick_context hidle.current]
      cases (schedulerTick k.procs context).1 <;> simp [savedContext]
    · rw [schedulerTick_context hidle.current, if_neg (fun h => hi h.2)]

/-- A run: slot 0 holds the context saved last, another slot the one it had or the one that a
`proc_create` has stored. -/
theorem exec_context (hidle : k.procs.Idle)
    (hrun : exec (procStep pmmBus heapBus) k calls = some (replies, k')) :
    (k'.procs.table 0).context =
        ledger savedContext (k.procs.table 0).context calls replies ∧
      ∀ i ≠ 0, (k'.procs.table i).context = (k.procs.table i).context ∨
        StoredByCreate pmmBus heapBus k calls i (k'.procs.table i).context := by
  induction calls generalizing k replies with
  | nil =>
    obtain ⟨rfl, rfl⟩ := Prod.mk.inj (Option.some.inj hrun)
    exact ⟨rfl, fun i _ => Or.inl rfl⟩
  | cons call calls ih =>
    obtain ⟨reply, k₁, rest, hstep, hrest, rfl⟩ := exec_cons_iff.mp hrun
    obtain ⟨hzero, hothers⟩ := procStep_context hidle hstep
    obtain ⟨hzero', hothers'⟩ := ih (procStep_idle hidle hstep) hrest
    refine ⟨?_, fun i hi => ?_⟩
    · rw [hzero', hzero]
      rfl
    · rcases hothers' i hi with hsame |
        ⟨pre, entryPoint, priority, post, replies₁, k₂, reply₂, k₃, rfl, hpre, hcreate, hrest⟩
      · rcases hothers i hi with hsame' | ⟨entryPoint, priority, rfl, hnext⟩
        · exact Or.inl (hsame.trans hsame')
        · exact Or.inr ⟨[], entryPoint, priority, calls, [], k, reply, k₁, rfl, rfl, hstep, hnext,
            hsame.symm⟩
      · exact Or.inr ⟨call :: pre, entryPoint, priority, post, reply :: replies₁, k₂, reply₂, k₃,
          rfl, exec_cons_iff.mpr ⟨_, _, _, hstep, hpre, rfl⟩, hcreate, hrest⟩

/-- **A saved context is not handed back.** After every run from `proc_init` the control block
of slot 0 holds the context that was interrupted last, and what `context_switch` hands back
at the next tick is the context interrupted then, or one that a `proc_create` of the run has
stored for the slot dispatched: never one that was saved at an earlier tick. -/
theorem context_from_create (pmmBus heapBus : Bus M) (pmm : PmmState) (heap : HeapState) (mem : M)
    (hrun : exec (procStep pmmBus heapBus) (Kernel.init pmm heap mem) calls = some (replies, k)) :
    (k.procs.table 0).context = ledger savedContext 0 calls replies ∧
      ∀ context w, handedBack k context = some w → w = context ∨
        ∃ i ≠ 0, (contextSwitch k.procs.counted context).1 = i ∧
          StoredByCreate pmmBus heapBus (Kernel.init pmm heap mem) calls i w := by
  have hboot : ∀ i, ((Kernel.init pmm heap mem).procs.table i).context = 0 := by
    intro i
    unfold Kernel.init procInit
    simp only [Procs.table_modify]
    split <;> rfl
  obtain ⟨hzero, hothers⟩ := exec_context (show (Kernel.init pmm heap mem).procs.Idle from
    procInit_idle) hrun
  rw [hboot] at hzero
  refine ⟨hzero, fun context w hback => ?_⟩
  rcases handedBack_cases (exec_idle hrun) hback with hsame | ⟨i, hi, hnext, hcontext, hne⟩
  · exact Or.inl hsame
  · rcases hothers i hi with hold | hstored
    · rw [hboot] at hold
      exact absurd (hcontext.symm.trans hold) hne
    · rw [hcontext] at hstored
      exact Or.inr ⟨i, hi, hnext, hstored⟩

/-- Two processes are created, and the twelfth tick dispatches the second: what it hands back is
the context stored for slot 2, and not the one saved at the ticks before. -/
theorem context_from_create_twelve_ticks :
    ∃ replies k, exec (procStep Mem.bus Mem.bus) smallKernel
        ([.create 0 0, .create 0 0] ++ List.replicate 11 (.tick 0x111)) = some (replies, k) ∧
      (k.procs.table 0).context = ledger savedContext 0
        ([.create 0 0, .create 0 0] ++ List.replicate 11 (.tick 0x111)) replies ∧
      handedBack k 0x222 = some 0xC0100064 ∧
      StoredByCreate Mem.bus Mem.bus smallKernel
        ([.create 0 0, .create 0 0] ++ List.replicate 11 (.tick 0x111)) 2 0xC0100064 := by
  have heval : (exec (procStep Mem.bus Mem.bus) smallKernel
      ([.create 0 0, .create 0 0] ++ List.replicate 11 (.tick 0x111))).map (fun r =>
        (handedBack r.2 0x222, (contextSwitch r.2.procs.counted 0x222).1)) =
          some (some 0xC0100064, 2) := by
    decide +kernel
  obtain ⟨⟨replies, k⟩, hrun, hresult⟩ := Option.map_eq_some_iff.mp heval
  obtain ⟨hback, hslot⟩ := Prod.mk.inj hresult
  obtain ⟨hsaved, hfrom⟩ := context_from_create Mem.bus Mem.bus _ _ _ hrun
  rcases hfrom 0x222 0xC0100064 hback with hsame | ⟨i, -, hnext, hstored⟩
  · exact absurd hsame (by decide)
  · obtain rfl : 2 = i := hslot.symm.trans hnext
    exact ⟨replies, k, hrun, hsaved, hback, hstored⟩

end Nimbu
