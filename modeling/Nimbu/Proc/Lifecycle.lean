import Nimbu.Proc.Steps

/-!
# The life cycle of a process

A BLOCKED process should wait until it is unblocked or killed, and a process
that was killed should stay dead. Three writes of the code are unguarded: a tick
makes slot 0 READY whatever it was, `proc_create` makes the next slot READY
whatever it was, and `proc_block` blocks the current process whatever it was.
The life cycle is respected by exactly those runs that never reach one of them
in a state where it matters.
-/

namespace Nimbu

variable {M : Type} {pmmBus heapBus : Bus M}

/-- The slot is BLOCKED on the resource. -/
def Procs.BlockedOn (p : Procs) (i : Slot) (resource : Word) : Prop :=
  p.state i = .blocked ∧ (p.table i).blockedOn = resource

/-- `proc_exit` or `proc_unblock` names the slot. -/
def ProcCall.Releases (i : Slot) : ProcCall → Prop
  | .exit pid => i.val = pid.toNat
  | .unblock pid => i.val = pid.toNat
  | _ => False

/-- Along the run a BLOCKED process stays BLOCKED on its resource and is not
dispatched, until `proc_unblock` or `proc_exit` names it. -/
def BlockedWaits (pmmBus heapBus : Bus M) (k : Kernel M) (calls : List ProcCall) : Prop :=
  ∀ i resource, Persists (procStep pmmBus heapBus) (fun k => k.procs.BlockedOn i resource)
    (ProcCall.Releases i) (fun reply => reply.dispatched = some i) k calls

/-- Once `proc_exit` has returned 0 along the run, the process stays ZOMBIE for
the rest of it and is not dispatched. -/
def ExitIsFinal (pmmBus heapBus : Bus M) (k : Kernel M) (calls : List ProcCall) : Prop :=
  ∀ pre pid mid post, calls = pre ++ .exit pid :: (mid ++ post) →
    ∀ replies k₁ k₂ replies' k₃, exec (procStep pmmBus heapBus) k pre = some (replies, k₁) →
      procStep pmmBus heapBus k₁ (.exit pid) = some (.status 0, k₂) →
      exec (procStep pmmBus heapBus) k₂ mid = some (replies', k₃) →
      ∀ i : Slot, i.val = pid.toNat →
        k₃.procs.state i = .zombie ∧ ∀ reply ∈ replies', reply.dispatched ≠ some i

/-- The calls that respect the life cycle: a tick while slot 0 is neither BLOCKED
nor ZOMBIE, `proc_create` while the next slot is not ZOMBIE, and `proc_block`
while slot 0 is neither ZOMBIE nor BLOCKED on something else. -/
def RespectsLifecycle (k : Kernel M) : ProcCall → Prop
  | .create _ _ => ∀ i : Slot, i.val = k.procs.nextPid.toNat → k.procs.state i ≠ .zombie
  | .block resource => k.procs.state 0 ≠ .zombie ∧
      (k.procs.state 0 = .blocked → (k.procs.table 0).blockedOn = resource)
  | .tick _ => k.procs.state 0 ≠ .blocked ∧ k.procs.state 0 ≠ .zombie
  | _ => True

/-- No slot but slot 0 is BLOCKED. -/
def Procs.OthersUnblocked (p : Procs) : Prop := ∀ i ≠ 0, p.state i ≠ .blocked

/-- `proc_init` leaves none BLOCKED. -/
theorem procInit_othersUnblocked : (procInit Procs.static).OthersUnblocked := by
  intro i hi
  rw [state_procInit, if_neg hi]
  simp

/-- A call keeps a slot as it is, unless the slot is released. -/
def KeepsSlot (pmmBus heapBus : Bus M) (Q : Procs → Prop) (i : Slot) (release : ProcCall → Prop)
    (k : Kernel M) (call : ProcCall) : Prop :=
  Q k.procs → ¬ release call → ∀ reply k', procStep pmmBus heapBus k call = some (reply, k') →
    Q k'.procs ∧ ¬ reply.dispatched = some i

/-- A call keeps every BLOCKED slot that it does not release, and every ZOMBIE. -/
def KeepsWaiting (pmmBus heapBus : Bus M) (k : Kernel M) (call : ProcCall) : Prop :=
  (∀ i resource,
    KeepsSlot pmmBus heapBus (fun p => p.BlockedOn i resource) i (ProcCall.Releases i) k call) ∧
  ∀ i, KeepsSlot pmmBus heapBus (fun p => p.state i = .zombie) i (fun _ => False) k call

/-- Only slot 0 is ever BLOCKED. -/
theorem procStep_othersUnblocked {k k' : Kernel M} {call : ProcCall} {reply : ProcReply}
    (hidle : k.procs.Idle) (hother : k.procs.OthersUnblocked)
    (hstep : procStep pmmBus heapBus k call = some (reply, k')) : k'.procs.OthersUnblocked := by
  refine procStep_others (Or.inr rfl) hidle hother ?_ hstep
  rintro context - j hj
  obtain ⟨-, -, -, ⟨-, -, hstate⟩ | ⟨-, -, hstate⟩⟩ := schedulerTick_cases hidle.current context
  · rw [hstate j]
    exact hother j hj
  · rw [hstate j, if_neg hj]
    split
    · simp
    · exact hother j hj

/-- A tick keeps every slot but slot 0 that is not READY. -/
theorem schedulerTick_keeps {p : Procs} (hcurrent : p.currentProcess = some 0) (context : Word)
    {i : Slot} (hi : i ≠ 0) (hready : p.state i ≠ .ready) :
    (schedulerTick p context).2.state i = p.state i ∧
      (schedulerTick p context).1 ≠ some i := by
  obtain ⟨-, -, -, ⟨-, hnone, hstate⟩ | ⟨-, hsome, hstate⟩⟩ :=
    schedulerTick_cases hcurrent context
  · exact ⟨hstate i, by simp [hnone]⟩
  · have hne : i ≠ (findReady p).getD 0 := by
      cases hfind : findReady p with
      | none => exact hi
      | some j =>
        rintro rfl
        exact hready (findReady_state hfind)
    refine ⟨by rw [hstate i, if_neg hne, if_neg hi], ?_⟩
    rw [hsome]
    exact fun h => hne (Option.some.inj h).symm

/-- A tick that finds slot 0 not running makes it READY or RUNNING. -/
theorem schedulerTick_zero {p : Procs} (hcurrent : p.currentProcess = some 0) (context : Word)
    (hstopped : p.state 0 ≠ .running) :
    (schedulerTick p context).2.state 0 = .ready ∨
      (schedulerTick p context).2.state 0 = .running := by
  obtain ⟨-, -, -, ⟨hstays, -⟩ | ⟨-, -, hstate⟩⟩ := schedulerTick_cases hcurrent context
  · exact absurd hstays.1 hstopped
  · rw [hstate 0]
    split
    · exact Or.inr rfl
    · exact Or.inl (if_pos rfl)

/-- From the table `p` to the table `p'` a call keeps every BLOCKED slot that it
does not release and every ZOMBIE, and dispatches none of them. -/
def Procs.KeptBy (p p' : Procs) (call : ProcCall) (dispatched : Option Slot) : Prop :=
  (∀ i resource, p.BlockedOn i resource → ¬ call.Releases i →
    p'.BlockedOn i resource ∧ dispatched ≠ some i) ∧
  ∀ i, p.state i = .zombie → p'.state i = .zombie ∧ dispatched ≠ some i

/-- For a call that returns, only the table it leaves matters. -/
theorem keepsWaiting_iff_keptBy {k k' : Kernel M} {call : ProcCall} {reply : ProcReply}
    (hstep : procStep pmmBus heapBus k call = some (reply, k')) :
    KeepsWaiting pmmBus heapBus k call ↔ k.procs.KeptBy k'.procs call reply.dispatched := by
  unfold KeepsWaiting KeepsSlot Procs.KeptBy
  rw [hstep]
  simp

namespace Procs

variable {p p' : Procs} {call : ProcCall} {i j : Slot} {resource : Word}

/-- A slot that is not touched keeps its state. -/
theorem state_of_table (hkept : p'.table j = p.table j) : p'.state j = p.state j := by
  unfold state
  rw [hkept]

/-- A slot that is not touched stays BLOCKED. -/
theorem BlockedOn.of_table (hblocked : p.BlockedOn j resource)
    (hkept : p'.table j = p.table j) : p'.BlockedOn j resource := by
  unfold BlockedOn
  rw [state_of_table hkept, hkept]
  exact hblocked

/-- A call that touches only slot `i` keeps the others, and slot `i` too if that
was neither BLOCKED nor ZOMBIE. -/
theorem keptBy_of_touched (hkept : ∀ j ≠ i, p'.table j = p.table j)
    (hblocked : ∀ resource, p.BlockedOn i resource → ¬ call.Releases i → p'.BlockedOn i resource)
    (hzombie : p.state i = .zombie → p'.state i = .zombie) : p.KeptBy p' call none := by
  refine ⟨fun j r hwait hrelease => ⟨?_, by simp⟩, fun j hdead => ⟨?_, by simp⟩⟩
  · by_cases hj : j = i
    · subst hj
      exact hblocked r hwait hrelease
    · exact hwait.of_table (hkept j hj)
  · by_cases hj : j = i
    · subst hj
      exact hzombie hdead
    · rw [state_of_table (hkept j hj)]
      exact hdead

/-- Creating a slot keeps the waiting and the dead exactly when the slot was not
ZOMBIE. -/
theorem keptBy_create_iff (hother : p.OthersUnblocked) (hi : i ≠ 0)
    (hready : p'.state i = .ready) (hkept : ∀ j ≠ i, p'.table j = p.table j) :
    p.KeptBy p' call none ↔ p.state i ≠ .zombie := by
  constructor
  · rintro ⟨-, hzombie⟩ hdead
    have hstill := (hzombie i hdead).1
    rw [hready] at hstill
    cases hstill
  · intro halive
    apply keptBy_of_touched hkept
    · intro r hwait
      exact absurd hwait.1 (hother i hi)
    · intro hdead
      exact absurd hdead halive

/-- Killing a slot keeps the waiting and the dead. -/
theorem keptBy_exit {pid : Word} (hi : i.val = pid.toNat) :
    p.KeptBy (p.modify i fun pcb => { pcb with state := .zombie }) (.exit pid) none := by
  apply keptBy_of_touched (fun j hj => table_modify_of_ne p _ hj)
  · intro r _ hrelease
    exact absurd hi hrelease
  · intro _
    simp [state]

/-- Unblocking a slot keeps the waiting and the dead. -/
theorem keptBy_unblock {pid : Word} (hi : i.val = pid.toNat) (hblocked : p.state i = .blocked) :
    p.KeptBy (p.modify i fun pcb => { pcb with state := .ready, blockedOn := 0 })
      (.unblock pid) none := by
  apply keptBy_of_touched (fun j hj => table_modify_of_ne p _ hj)
  · intro r _ hrelease
    exact absurd hi hrelease
  · intro hdead
    rw [hblocked] at hdead
    cases hdead

/-- Blocking slot 0 keeps the waiting and the dead exactly when it was not ZOMBIE
and not BLOCKED on something else. -/
theorem keptBy_block_iff (p : Procs) (resource : Word) :
    p.KeptBy (p.modify 0 fun pcb => { pcb with state := .blocked, blockedOn := resource })
      (.block resource) none ↔
    p.state 0 ≠ .zombie ∧ (p.state 0 = .blocked → (p.table 0).blockedOn = resource) := by
  have hnew : (p.modify 0 fun pcb =>
      { pcb with state := .blocked, blockedOn := resource }).BlockedOn 0 resource := by
    simp [BlockedOn, state]
  constructor
  · rintro ⟨hblocked, hzombie⟩
    refine ⟨fun hdead => ?_, fun hwait => ?_⟩
    · have hstill := (hzombie 0 hdead).1
      rw [hnew.1] at hstill
      cases hstill
    · have hstill := (hblocked 0 _ ⟨hwait, rfl⟩ not_false).1
      exact hstill.2.symm.trans hnew.2
  · rintro ⟨halive, hsame⟩
    apply keptBy_of_touched (fun j hj => table_modify_of_ne p _ hj)
    · intro r hwait _
      rw [← hwait.2, hsame hwait.1]
      exact hnew
    · intro hdead
      exact absurd hdead halive

/-- A tick keeps the waiting and the dead exactly when slot 0 is neither BLOCKED
nor ZOMBIE. -/
theorem keptBy_tick_iff (hcurrent : p.currentProcess = some 0) (context : Word) :
    p.KeptBy (schedulerTick p context).2 (.tick context) (schedulerTick p context).1 ↔
      p.state 0 ≠ .blocked ∧ p.state 0 ≠ .zombie := by
  obtain ⟨hwaits, -⟩ := schedulerTick_cases hcurrent context
  constructor
  · rintro ⟨hblocked, hzombie⟩
    refine ⟨fun hwait => ?_, fun hdead => ?_⟩
    · have hstill := (hblocked 0 _ ⟨hwait, rfl⟩ not_false).1.1
      rcases schedulerTick_zero hcurrent context (by simp [hwait]) with h | h <;>
        simp [h] at hstill
    · have hstill := (hzombie 0 hdead).1
      rcases schedulerTick_zero hcurrent context (by simp [hdead]) with h | h <;>
        simp [h] at hstill
  · rintro ⟨hunblocked, halive⟩
    refine ⟨fun j r hwait _ => ?_, fun j hdead => ?_⟩
    · have hj : j ≠ 0 := by
        rintro rfl
        exact hunblocked hwait.1
      obtain ⟨hstate, hslot⟩ := schedulerTick_keeps hcurrent context hj (by simp [hwait.1])
      exact ⟨⟨hstate.trans hwait.1, (hwaits j).trans hwait.2⟩, hslot⟩
    · have hj : j ≠ 0 := by
        rintro rfl
        exact halive hdead
      obtain ⟨hstate, hslot⟩ := schedulerTick_keeps hcurrent context hj (by simp [hdead])
      exact ⟨hstate.trans hdead, hslot⟩

end Procs

/-- A call that returns keeps the waiting and the dead exactly when it respects
the life cycle. -/
theorem keepsWaiting_iff {k k' : Kernel M} {call : ProcCall} {reply : ProcReply}
    (hidle : k.procs.Idle) (hother : k.procs.OthersUnblocked)
    (hstep : procStep pmmBus heapBus k call = some (reply, k')) :
    KeepsWaiting pmmBus heapBus k call ↔ RespectsLifecycle k call := by
  rw [keepsWaiting_iff_keptBy hstep]
  rcases procStep_cases hidle hstep with ⟨heq, rfl, hcreate, hblock, htick⟩ |
    ⟨entryPoint, priority, _, i, rfl, rfl, hi, hready, hkept, -⟩ | ⟨pid, i, rfl, rfl, hi, heq⟩ |
    ⟨resource, rfl, rfl, heq⟩ | ⟨pid, i, rfl, rfl, hi, hblocked, heq⟩ | ⟨context, rfl, rfl, heq⟩
  · rw [heq]
    refine iff_of_true (Procs.keptBy_of_touched (i := 0) (fun _ _ => rfl) (fun _ h _ => h) id) ?_
    cases call with
    | create entryPoint priority =>
      intro i hi
      have hfull := hcreate entryPoint priority rfl
      have hlt := i.isLt
      omega
    | block resource => exact absurd rfl (hblock resource)
    | tick context => exact absurd rfl (htick context)
    | exit pid => trivial
    | unblock pid => trivial
  · have hne : i ≠ 0 := by
      have := hidle.next_pos
      rintro rfl
      simp at hi
      omega
    have hsame : RespectsLifecycle k (.create entryPoint priority) ↔
        k.procs.state i ≠ .zombie := by
      constructor
      · intro h
        exact h i hi
      · intro h j hj
        obtain rfl : j = i := Fin.ext (hj.trans hi.symm)
        exact h
    rw [hsame]
    exact Procs.keptBy_create_iff hother hne hready hkept
  · rw [heq]
    exact iff_of_true (Procs.keptBy_exit hi) trivial
  · rw [heq]
    exact Procs.keptBy_block_iff k.procs resource
  · rw [heq]
    exact iff_of_true (Procs.keptBy_unblock hi hblocked) trivial
  · rw [heq]
    exact Procs.keptBy_tick_iff hidle.current context

/-- A slot becomes ZOMBIE only by a `proc_exit` that names it and returns 0. -/
theorem procStep_zombie {k k' : Kernel M} {call : ProcCall} {reply : ProcReply} {i : Slot}
    (hidle : k.procs.Idle) (hstep : procStep pmmBus heapBus k call = some (reply, k'))
    (hdead : k'.procs.state i = .zombie) :
    k.procs.state i = .zombie ∨
      ∃ pid, call = .exit pid ∧ reply = .status 0 ∧ i.val = pid.toNat := by
  have hmodify : ∀ {j : Slot} {f : Pcb → Pcb}, (f (k.procs.table j)).state ≠ .zombie →
      k'.procs = k.procs.modify j f → k.procs.state i = .zombie := by
    intro j f hf heq
    unfold Procs.state at hdead ⊢
    rw [heq, Procs.table_modify] at hdead
    split at hdead
    · exact absurd hdead hf
    · exact hdead
  rcases procStep_cases hidle hstep with ⟨heq, -⟩ | ⟨_, _, _, j, -, -, -, hready, hkept, -⟩ |
    ⟨pid, j, rfl, rfl, hj, heq⟩ | ⟨_, -, -, heq⟩ | ⟨_, j, -, -, -, -, heq⟩ | ⟨context, -, -, heq⟩
  · left
    rw [← heq]
    exact hdead
  · left
    have hne : i ≠ j := by
      rintro rfl
      rw [hready] at hdead
      cases hdead
    unfold Procs.state at hdead ⊢
    rwa [hkept i hne] at hdead
  · by_cases hij : i = j
    · right
      exact ⟨pid, rfl, rfl, by rw [hij, hj]⟩
    · left
      unfold Procs.state at hdead ⊢
      rwa [heq, Procs.table_modify_of_ne _ _ hij] at hdead
  · left
    exact hmodify (by simp) heq
  · left
    exact hmodify (by simp) heq
  · left
    rw [heq] at hdead
    obtain ⟨-, -, -, ⟨-, -, hstate⟩ | ⟨-, -, hstate⟩⟩ := schedulerTick_cases hidle.current context
    · rwa [hstate i] at hdead
    · rw [hstate i] at hdead
      grind

/-- A ZOMBIE was one from the start of the run, or was killed during the run. -/
theorem exec_zombie {k k' : Kernel M} {calls : List ProcCall} {replies : List ProcReply} {i : Slot}
    (hidle : k.procs.Idle) (hrun : exec (procStep pmmBus heapBus) k calls = some (replies, k'))
    (hdead : k'.procs.state i = .zombie) :
    k.procs.state i = .zombie ∨ ∃ pre pid mid replies₁ k₁ k₂ replies₂,
      calls = pre ++ .exit pid :: mid ∧ i.val = pid.toNat ∧
      exec (procStep pmmBus heapBus) k pre = some (replies₁, k₁) ∧
      procStep pmmBus heapBus k₁ (.exit pid) = some (.status 0, k₂) ∧
      exec (procStep pmmBus heapBus) k₂ mid = some (replies₂, k') := by
  induction calls generalizing k replies with
  | nil =>
    obtain ⟨-, rfl⟩ : [] = replies ∧ k = k' := by simpa using hrun
    exact Or.inl hdead
  | cons call calls ih =>
    obtain ⟨reply, t, rest, hstep, hrest, -⟩ := exec_cons_iff.mp hrun
    rcases ih (procStep_idle hidle hstep) hrest with
      hbefore | ⟨pre, pid, mid, replies₁, k₁, k₂, replies₂, rfl, hi, hpre, hexit, hmid⟩
    · rcases procStep_zombie hidle hstep hbefore with hbefore | ⟨pid, rfl, rfl, hi⟩
      · exact Or.inl hbefore
      · exact Or.inr ⟨[], pid, calls, [], k, t, rest, rfl, hi, rfl, hstep, hrest⟩
    · refine Or.inr ⟨call :: pre, pid, mid, reply :: replies₁, k₁, k₂, replies₂, rfl, hi, ?_,
        hexit, hmid⟩
      exact exec_cons_iff.mpr ⟨reply, t, replies₁, hstep, hpre, rfl⟩

/-- A `proc_exit` that returns 0 makes the slot it names a ZOMBIE. -/
theorem procExit_zombie {k k' : Kernel M} {pid : Word} {i : Slot} (hi : i.val = pid.toNat)
    (hstep : procStep pmmBus heapBus k (.exit pid) = some (.status 0, k')) :
    k'.procs.state i = .zombie := by
  obtain ⟨-, rfl⟩ : (procExit k.procs pid).1 = 0 ∧ _ = k' := by simpa [procStep] using hstep
  rcases procExit_cases k.procs pid with ⟨hbig, -⟩ | ⟨j, hj, heq⟩
  · have := i.isLt
    omega
  · obtain rfl : i = j := Fin.ext (hi.trans hj.symm)
    simp only [heq, Procs.state, Procs.table_modify_self]

/-- An exit is final exactly when every ZOMBIE persists, as long as there was none
at the start. -/
theorem exitIsFinal_iff {k : Kernel M} (hidle : k.procs.Idle)
    (halive : ∀ i, k.procs.state i ≠ .zombie) (calls : List ProcCall) :
    ExitIsFinal pmmBus heapBus k calls ↔
      ∀ i, Persists (procStep pmmBus heapBus) (fun k => k.procs.state i = .zombie)
        (fun _ => False) (fun reply => reply.dispatched = some i) k calls := by
  constructor
  · intro hfinal i pre mid post heq replies t replies' t' hpre hmid hdead _
    rcases exec_zombie hidle hpre hdead with
      hbefore | ⟨pre₁, pid, mid₁, replies₁, k₁, k₂, replies₂, rfl, hi, hpre₁, hexit, hmid₁⟩
    · exact absurd hbefore (halive i)
    · have hboth : exec (procStep pmmBus heapBus) k₂ (mid₁ ++ mid) =
          some (replies₂ ++ replies', t') :=
        exec_append_iff.mpr ⟨replies₂, t, replies', hmid₁, hmid, rfl⟩
      obtain ⟨hstate, hslots⟩ := hfinal pre₁ pid (mid₁ ++ mid) post (by simp [heq]) replies₁ k₁ k₂
        (replies₂ ++ replies') t' hpre₁ hexit hboth i hi
      exact ⟨hstate, fun reply hreply => hslots reply (List.mem_append_right _ hreply)⟩
  · intro hpersists pre pid mid post heq replies k₁ k₂ replies' k₃ hpre hexit hmid i hi
    have hprefix : exec (procStep pmmBus heapBus) k (pre ++ [.exit pid]) =
        some (replies ++ [.status 0], k₂) := exec_concat hpre hexit
    exact hpersists i (pre ++ [.exit pid]) mid post (by simp [heq]) _ k₂ replies' k₃ hprefix hmid
      (procExit_zombie hi hexit) (by simp)

/-- **The life cycle of processes.** In a run from `proc_init` that returns, a
BLOCKED process waits until `proc_unblock` or `proc_exit` names it and an exit is
final, exactly when every call of the run respects the life cycle. -/
theorem lifecycle_legal_iff (pmmBus heapBus : Bus M) (pmm : PmmState) (heap : HeapState) (mem : M)
    {calls : List ProcCall} {replies : List ProcReply} {k : Kernel M}
    (hrun : exec (procStep pmmBus heapBus) (Kernel.init pmm heap mem) calls =
      some (replies, k)) :
    BlockedWaits pmmBus heapBus (Kernel.init pmm heap mem) calls ∧
        ExitIsFinal pmmBus heapBus (Kernel.init pmm heap mem) calls ↔
      Along (procStep pmmBus heapBus) RespectsLifecycle (Kernel.init pmm heap mem) calls := by
  have hidle : (Kernel.init pmm heap mem).procs.Idle := procInit_idle
  have hstate : ∀ i, (Kernel.init pmm heap mem).procs.state i =
      if i = 0 then .running else .ready := state_procInit
  have halive : ∀ i, (Kernel.init pmm heap mem).procs.state i ≠ .zombie := by
    intro i
    rw [hstate i]
    split <;> simp
  have hother : (Kernel.init pmm heap mem).procs.OthersUnblocked := by
    intro i hi
    rw [hstate i, if_neg hi]
    simp
  have hkeeps : BlockedWaits pmmBus heapBus (Kernel.init pmm heap mem) calls ∧
        ExitIsFinal pmmBus heapBus (Kernel.init pmm heap mem) calls ↔
      Along (procStep pmmBus heapBus) (KeepsWaiting pmmBus heapBus) (Kernel.init pmm heap mem)
        calls := by
    rw [exitIsFinal_iff hidle halive]
    unfold BlockedWaits KeepsWaiting
    simp only [persists_iff, along_and_iff, along_forall_iff]
    rfl
  rw [hkeeps]
  refine along_iff_of_invariant (fun k => k.procs.Idle ∧ k.procs.OthersUnblocked) ?_ ?_
    ⟨hidle, hother⟩ (along_of_exec hrun)
  · rintro k call ⟨hidle, hother⟩ ⟨reply, k', hstep⟩
    exact keepsWaiting_iff hidle hother hstep
  · rintro k call reply k' ⟨hidle, hother⟩ - - hstep
    exact ⟨procStep_idle hidle hstep, procStep_othersUnblocked hidle hother hstep⟩

/-- A run in which slot 0 waits, is unblocked and runs again, after slot 1 was
killed. -/
theorem lifecycle_legal_one_wait :
    BlockedWaits Mem.bus Mem.bus (Kernel.init ⟨0, 0, 0, 0⟩ ⟨0, 0, 0⟩ ⟨fun _ => 0, []⟩)
        [.exit 1, .block 7, .unblock 0, .tick 0] ∧
      ExitIsFinal Mem.bus Mem.bus (Kernel.init ⟨0, 0, 0, 0⟩ ⟨0, 0, 0⟩ ⟨fun _ => 0, []⟩)
        [.exit 1, .block 7, .unblock 0, .tick 0] := by
  refine (lifecycle_legal_iff Mem.bus Mem.bus ⟨0, 0, 0, 0⟩ ⟨0, 0, 0⟩ ⟨fun _ => 0, []⟩ rfl).mpr ?_
  refine Along.cons trivial rfl (Along.cons ⟨by decide, by decide⟩ rfl
    (Along.cons trivial rfl (Along.cons ⟨by decide, by decide⟩ rfl trivial)))

/-- After `proc_block` the next tick makes the blocked process READY again,
although no one unblocked it. -/
theorem lifecycle_broken_by_tick :
    ¬ (BlockedWaits Mem.bus Mem.bus (Kernel.init ⟨0, 0, 0, 0⟩ ⟨0, 0, 0⟩ ⟨fun _ => 0, []⟩)
        [.block 7, .tick 0] ∧
      ExitIsFinal Mem.bus Mem.bus (Kernel.init ⟨0, 0, 0, 0⟩ ⟨0, 0, 0⟩ ⟨fun _ => 0, []⟩)
        [.block 7, .tick 0]) := by
  rintro ⟨hwaits, -⟩
  have hkept := hwaits 0 7 [.block 7] [.tick 0] [] rfl _ _ _ _ rfl rfl ⟨by decide, by decide⟩
    (by simp [ProcCall.Releases])
  exact absurd hkept.1.1 (by decide)

end Nimbu
