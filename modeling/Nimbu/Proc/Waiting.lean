import Nimbu.Proc.RoundRobin
import Nimbu.Proc.TimeSlices
import Nimbu.Proc.Lifecycle

/-!
# How long a READY slot waits

A READY slot other than slot 0 waits for the slots before it in the table, eleven ticks
for each: ten for slot 0 and one for the slot. What else happens meanwhile can only put
one more slot before it, or make slot 0 READY again.
-/

namespace Nimbu

section Filter

variable {α : Type*} [DecidableEq α] {p q : α → Bool} {l : List α} {a b : α}

/-- A filter that lets more through puts no element further forward. -/
theorem idxOf_filter_mono (hp : p a = true) (hpq : ∀ c ∈ l, p c = true → q c = true) :
    (l.filter p).idxOf a ≤ (l.filter q).idxOf a := by
  induction l with
  | nil => exact le_rfl
  | cons c l ih =>
    have hrest := ih fun c hc => hpq c (List.mem_cons_of_mem _ hc)
    by_cases hca : c = a
    · subst hca
      rw [List.filter_cons_of_pos hp, List.idxOf_cons_self]
      exact Nat.zero_le _
    · by_cases hpc : p c = true
      · rw [List.filter_cons_of_pos hpc, List.filter_cons_of_pos (hpq c List.mem_cons_self hpc),
          List.idxOf_cons_ne _ hca, List.idxOf_cons_ne _ hca]
        omega
      · rw [List.filter_cons_of_neg hpc]
        by_cases hqc : q c = true
        · rw [List.filter_cons_of_pos hqc, List.idxOf_cons_ne _ hca]
          omega
        · rwa [List.filter_cons_of_neg hqc]

/-- A filter that lets one more element through puts the others back by one place at most. -/
theorem idxOf_filter_le_succ (hnodup : l.Nodup) (hp : p a = true) (hq : q a = true)
    (hpq : ∀ c ∈ l, c ≠ b → q c = p c) :
    (l.filter q).idxOf a ≤ (l.filter p).idxOf a + 1 := by
  induction l with
  | nil => exact Nat.zero_le _
  | cons c l ih =>
    rw [List.nodup_cons] at hnodup
    have hrest := ih hnodup.2 fun c hc => hpq c (List.mem_cons_of_mem _ hc)
    by_cases hca : c = a
    · subst hca
      rw [List.filter_cons_of_pos hq, List.idxOf_cons_self]
      exact Nat.zero_le _
    · by_cases hcb : c = b
      · have hsame : l.filter q = l.filter p := by
          apply List.filter_congr
          intro d hd
          exact hpq d (List.mem_cons_of_mem _ hd) fun hdb => hnodup.1 (hcb.trans hdb.symm ▸ hd)
        have hle : (l.filter p).idxOf a ≤ ((c :: l).filter p).idxOf a := by
          by_cases hpc : p c = true
          · rw [List.filter_cons_of_pos hpc, List.idxOf_cons_ne _ hca]
            omega
          · rw [List.filter_cons_of_neg hpc]
        by_cases hqc : q c = true
        · rw [List.filter_cons_of_pos hqc, List.idxOf_cons_ne _ hca, hsame]
          omega
        · rw [List.filter_cons_of_neg hqc, hsame]
          omega
      · have hcc := hpq c List.mem_cons_self hcb
        by_cases hpc : p c = true
        · rw [List.filter_cons_of_pos hpc, List.filter_cons_of_pos (hcc.trans hpc),
            List.idxOf_cons_ne _ hca, List.idxOf_cons_ne _ hca]
          omega
        · rwa [List.filter_cons_of_neg hpc, List.filter_cons_of_neg (by rwa [hcc])]

end Filter

/-- The ticks until a slot of the queue is dispatched, if there is one. -/
def Rota.turn (x : Rota) : ℕ := if x.lead = 0 then 11 else x.lead

/-- The ticks until a slot of the queue is dispatched. -/
def Rota.delay (x : Rota) (i : Slot) : ℕ := 11 * x.queue.idxOf i + x.turn

theorem Rota.turn_pos (x : Rota) : 0 < x.turn := by
  unfold Rota.turn
  split <;> omega

@[simp] theorem Rota.turn_zero (queue : List Slot) : Rota.turn ⟨0, queue⟩ = 11 := if_pos rfl

@[simp] theorem Rota.turn_succ (lead : ℕ) (queue : List Slot) :
    Rota.turn ⟨lead + 1, queue⟩ = lead + 1 := if_neg (Nat.succ_ne_zero lead)

/-- A tick dispatches the slot whose delay is over, and takes one from the delay of the
others. -/
theorem Rota.delay_tick {x : Rota} {i : Slot} (hi : i ∈ x.queue) (hzero : i ≠ 0) (context : Word) :
    ((x.tick context).1 = some i ∧ x.delay i = 1) ∨
    ((x.tick context).1 ≠ some i ∧ i ∈ (x.tick context).2.queue ∧
      (x.tick context).2.delay i + 1 = x.delay i) := by
  obtain ⟨lead, queue⟩ := x
  rcases lead with _ | _ | lead
  · exact Or.inr ⟨fun h => hzero (Option.some.inj h).symm, hi, rfl⟩
  · cases queue with
    | nil => cases hi
    | cons j queue =>
      by_cases hji : j = i
      · subst hji
        refine Or.inl ⟨rfl, ?_⟩
        simp only [Rota.delay, List.idxOf_cons_self, Rota.turn_succ]
      · have hrest : i ∈ queue := (List.mem_cons.mp hi).resolve_left (Ne.symm hji)
        refine Or.inr ⟨fun h => hji (Option.some.inj h), hrest, ?_⟩
        simp only [Rota.delay, Rota.tick, List.idxOf_cons_ne _ hji, Rota.turn_zero, Rota.turn_succ]
        omega
  · exact Or.inr ⟨Option.some_ne_none i ∘ Eq.symm, hi, rfl⟩

namespace Procs

variable {p p' : Procs} {i j : Slot}

/-- The ticks until a READY slot is dispatched, if nothing else happens. -/
def delay (p : Procs) (i : Slot) : ℕ := p.rota.delay i

theorem delay_pos (p : Procs) (i : Slot) : 0 < p.delay i := by
  have := p.rota.turn_pos
  unfold delay Rota.delay
  omega

/-- The countdown depends on slot 0 only. -/
theorem turn_congr (hzero : p'.table 0 = p.table 0) : p'.rota.turn = p.rota.turn := by
  have hlead : p'.lead = p.lead := by
    unfold lead state
    rw [hzero]
  unfold rota Rota.turn
  rw [hlead]

theorem state_modify (p : Procs) (j i : Slot) (f : Pcb → Pcb) :
    (p.modify j f).state i = if i = j then (f (p.table j)).state else p.state i := by
  unfold state
  rw [table_modify]
  split <;> rfl

/-- A slot 0 that does not want to run gives way at the next tick. -/
theorem turn_of_stopped (hzero : p.state 0 = .blocked ∨ p.state 0 = .zombie) :
    p.rota.turn = 1 := by
  rcases hzero with hzero | hzero <;> simp [rota, Rota.turn, lead, hzero]

theorem turn_of_ready (hzero : p.state 0 = .ready) : p.rota.turn = 11 := by
  simp [rota, Rota.turn, lead, hzero]

/-- What a change of the queue and of the countdown does to the delay. -/
theorem delay_le {n m : ℕ} (hqueue : p'.waiting.idxOf i ≤ p.waiting.idxOf i + n)
    (hturn : p'.rota.turn ≤ p.rota.turn + m) : p'.delay i ≤ p.delay i + (11 * n + m) := by
  unfold delay Rota.delay rota at *
  simp only at *
  omega

/-- One slot that becomes READY delays the others by eleven ticks at most. -/
theorem idxOf_waiting_le_succ (hi : i ≠ 0) (hready : p.state i = .ready)
    (hready' : p'.state i = .ready) (hkept : ∀ k ≠ j, p'.state k = p.state k) :
    p'.waiting.idxOf i ≤ p.waiting.idxOf i + 1 := by
  apply idxOf_filter_le_succ (b := j) (List.nodup_finRange 256)
  · simp [hi, hready]
  · simp [hi, hready']
  · intro k _ hk
    rw [hkept k hk]

/-- One slot that is READY no longer delays no other slot. -/
theorem idxOf_waiting_le (hi : i ≠ 0) (hready' : p'.state i = .ready)
    (hleft : ∀ k ≠ 0, p'.state k = .ready → p.state k = .ready) :
    p'.waiting.idxOf i ≤ p.waiting.idxOf i := by
  apply idxOf_filter_mono
  · simp [hi, hready']
  · intro k _ hk
    simp only [decide_eq_true_eq] at hk ⊢
    exact ⟨hk.1, hleft k hk.1 hk.2⟩

end Procs

/-- How much a call can delay a READY slot: `proc_create` may put one before it,
and `proc_unblock` may make slot 0 READY again. -/
def ProcCall.delays : ProcCall → ℕ
  | .create _ _ => 11
  | .unblock pid => if pid = 0 then 10 else 0
  | _ => 0

section Calls

variable {M : Type} {pmmBus heapBus : Bus M} {k k' : Kernel M} {call : ProcCall}
  {reply : ProcReply} {i : Slot}

/-- A tick dispatches a READY slot whose delay is over; otherwise the slot stays READY and
waits one tick less. -/
theorem Procs.delay_tick {p : Procs} (hcurrent : p.currentProcess = some 0) (hi : i ≠ 0)
    (hready : p.state i = .ready) (context : Word) :
    ((schedulerTick p context).1 = some i ∧ p.delay i = 1) ∨
    ((schedulerTick p context).1 ≠ some i ∧ (schedulerTick p context).2.state i = .ready ∧
      (schedulerTick p context).2.delay i + 1 = p.delay i) := by
  obtain ⟨hslot, hrota⟩ := rota_tick hcurrent context
  have hwaiting : i ∈ p.rota.queue := mem_waiting.mpr ⟨hi, hready⟩
  unfold Procs.delay
  rw [hslot, hrota]
  rcases Rota.delay_tick hwaiting hi context with hnow | ⟨hlater, hqueue, hdelay⟩
  · exact Or.inl hnow
  · rw [← hrota] at hqueue
    exact Or.inr ⟨hlater, (mem_waiting.mp hqueue).2, hdelay⟩

/-- What one call other than the exit of a READY slot adds to its delay. -/
theorem procStep_delay (hidle : k.procs.Idle) (hother : k.procs.OthersUnblocked) (hi : i ≠ 0)
    (hready : k.procs.state i = .ready) (hexit : ∀ pid, call = .exit pid → pid.toNat ≠ i.val)
    (hstep : procStep pmmBus heapBus k call = some (reply, k')) (hnot : reply ≠ .ticked (some i)) :
    k'.procs.state i = .ready ∧
      k'.procs.delay i + tickCount [call] ≤ k.procs.delay i + call.delays := by
  rcases procStep_cases hidle hstep with ⟨heq, -, -, -, hcall⟩ |
    ⟨_, _, _, j, rfl, -, hj, hjready, hkept, -, -⟩ | ⟨pid, j, rfl, -, hj, heq⟩ |
    ⟨_, rfl, -, heq⟩ | ⟨pid, j, rfl, -, hj, hblocked, heq⟩ | ⟨context, rfl, rfl, heq⟩
  · have hquiet : tickCount [call] = 0 := by
      rw [tickCount_singleton, if_neg]
      cases call <;> simp_all [ProcCall.isTick]
    rw [heq]
    exact ⟨hready, by omega⟩
  · have hready' : k'.procs.state i = .ready := by
      by_cases hij : i = j
      · rw [hij]
        exact hjready
      · rw [Procs.state, hkept i hij]
        exact hready
    have hzero : (0 : Slot) ≠ j := by
      rintro rfl
      exact absurd hj (Nat.ne_of_lt hidle.next_pos)
    have hqueue := Procs.idxOf_waiting_le_succ (j := j) hi hready hready' fun l hl => by
      rw [Procs.state, Procs.state, hkept l hl]
    exact ⟨hready', Procs.delay_le hqueue (m := 0) (Procs.turn_congr (hkept 0 hzero)).le⟩
  · have hij : i ≠ j := fun h => hexit pid rfl (by rw [h, hj])
    have hready' : k'.procs.state i = .ready := by
      rw [heq, Procs.state_modify, if_neg hij]
      exact hready
    have hqueue := Procs.idxOf_waiting_le (p := k.procs) hi hready' fun l _ hl => by
      rw [heq, Procs.state_modify] at hl
      split at hl
      · cases hl
      · exact hl
    have hturn : k'.procs.rota.turn ≤ k.procs.rota.turn := by
      by_cases hzero : (0 : Slot) = j
      · rw [Procs.turn_of_stopped (Or.inr (by rw [heq, Procs.state_modify, if_pos hzero]))]
        exact k.procs.rota.turn_pos
      · exact (Procs.turn_congr (by rw [heq, Procs.table_modify_of_ne _ _ hzero])).le
    exact ⟨hready', Procs.delay_le (n := 0) (m := 0) hqueue hturn⟩
  · have hstate : ∀ l ≠ 0, k'.procs.state l = k.procs.state l := by
      intro l hl
      rw [heq, Procs.state_modify, if_neg hl]
    refine ⟨(hstate i hi).trans hready, Procs.delay_le (n := 0) (m := 0) ?_ ?_⟩
    · exact (congrArg (List.idxOf i) (Procs.waiting_congr hstate)).le
    · rw [Procs.turn_of_stopped (Or.inl (by rw [heq, Procs.state_modify, if_pos rfl]))]
      exact k.procs.rota.turn_pos
  · obtain rfl : j = 0 := by
      by_contra hne
      exact hother j hne hblocked
    have hstate : ∀ l ≠ 0, k'.procs.state l = k.procs.state l := by
      intro l hl
      rw [heq, Procs.state_modify, if_neg hl]
    have hpid : pid = 0 := BitVec.eq_of_toNat_eq hj.symm
    have hcost : (ProcCall.unblock pid).delays = 10 := if_pos hpid
    rw [hcost]
    refine ⟨(hstate i hi).trans hready, Procs.delay_le (n := 0) (m := 10) ?_ ?_⟩
    · exact (congrArg (List.idxOf i) (Procs.waiting_congr hstate)).le
    · rw [Procs.turn_of_stopped (Or.inl hblocked),
        Procs.turn_of_ready (by rw [heq, Procs.state_modify, if_pos rfl])]
  · rw [heq]
    rcases Procs.delay_tick hidle.current hi hready context with ⟨hnow, -⟩ | ⟨-, hready', hdelay⟩
    · exact absurd (congrArg ProcReply.ticked hnow) hnot
    · exact ⟨hready', hdelay.le⟩

/-- The ticks among some calls, one by one. -/
theorem tickCount_eq_sum (calls : List ProcCall) :
    tickCount calls = (calls.map fun call => tickCount [call]).sum := by
  induction calls with
  | nil => rfl
  | cons call calls ih => rw [tickCount_cons, List.map_cons, List.sum_cons, ih]

/-- After every run from `proc_init` slot 0 is current, no other slot is BLOCKED and no slice
is longer than a full one. -/
theorem exec_waiting {pmm : PmmState} {heap : HeapState} {mem : M} {calls : List ProcCall}
    {replies : List ProcReply}
    (hrun : exec (procStep pmmBus heapBus) (Kernel.init pmm heap mem) calls = some (replies, k)) :
    k.procs.Idle ∧ k.procs.OthersUnblocked ∧ k.procs.SlicesBounded := by
  have hslices : (procInit Procs.static).SlicesBounded := by
    intro i
    have hzero : (procInit Procs.static).slice i = 0 := by
      unfold Procs.slice procInit
      simp only [Procs.table_modify]
      split <;> rfl
    rw [hzero]
    exact Nat.zero_le _
  exact exec_invariant
    (fun k : Kernel M => k.procs.Idle ∧ k.procs.OthersUnblocked ∧ k.procs.SlicesBounded)
    (fun hinv _ hstep => ⟨procStep_idle hinv.1 hstep,
      procStep_othersUnblocked hinv.1 hinv.2.1 hstep,
      procStep_slicesBounded hinv.1 hinv.2.2 hstep⟩)
    ⟨procInit_idle, procInit_othersUnblocked, hslices⟩ (along_of_exec hrun) hrun

end Calls

/-- Slices that are not longer than a full one bound the countdown. -/
theorem Procs.SlicesBounded.turn_le {p : Procs} (hbounded : p.SlicesBounded) :
    p.rota.turn ≤ 11 := by
  have hslice := hbounded 0
  have hten : schedulerTimeSlice.toNat = 10 := rfl
  unfold Procs.slice at hslice
  have hlead : p.lead ≤ 11 := by
    unfold Procs.lead
    cases p.state 0 <;> simp only <;> omega
  unfold Procs.rota Rota.turn
  split
  · exact Nat.le_refl 11
  · exact hlead

/-- **A READY slot is dispatched.** After every run from `proc_init`, a READY slot other than
slot 0 is dispatched before the ticks of any later calls outnumber its delay and what the
calls add to it: eleven ticks for a `proc_create` and ten for a `proc_unblock` of slot 0.
Its delay is at most eleven ticks for each READY slot before it and for itself. -/
theorem ready_slot_dispatched {M : Type} (pmmBus heapBus : Bus M) (pmm : PmmState)
    (heap : HeapState) (mem : M) {pre mid : List ProcCall} {replies replies' : List ProcReply}
    {k k' : Kernel M}
    (hpre : exec (procStep pmmBus heapBus) (Kernel.init pmm heap mem) pre = some (replies, k))
    (hmid : exec (procStep pmmBus heapBus) k mid = some (replies', k')) {i : Slot} (hi : i ≠ 0)
    (hready : k.procs.state i = .ready) (hexit : ∀ pid, .exit pid ∈ mid → pid.toNat ≠ i.val) :
    k.procs.delay i ≤ 11 * (k.procs.waiting.idxOf i + 1) ∧
      (k.procs.delay i + (mid.map ProcCall.delays).sum ≤ tickCount mid →
        .ticked (some i) ∈ replies') := by
  obtain ⟨hidle, hother, hbounded⟩ := exec_waiting hpre
  refine ⟨?_, fun hticks => ?_⟩
  · have hturn := hbounded.turn_le
    unfold Procs.delay Rota.delay Procs.rota at *
    simp only at *
    omega
  · by_contra hnone
    have halong : Along (procStep pmmBus heapBus)
        (fun _ call => ∀ pid, call = .exit pid → pid.toNat ≠ i.val) k mid := by
      rw [along_iff_forall]
      rintro pre call post rfl _ _ _ pid rfl
      exact hexit pid (by simp)
    obtain ⟨-, hmeasure⟩ := exec_measure (D := fun reply => reply = .ticked (some i))
      (fun k : Kernel M => k.procs.delay i) (fun call => tickCount [call]) ProcCall.delays
      (fun k : Kernel M => k.procs.Idle ∧ k.procs.OthersUnblocked ∧ k.procs.state i = .ready)
      (fun hinv hcall hstep hnot => by
        obtain ⟨hidle, hother, hready⟩ := hinv
        obtain ⟨hready', hdelay⟩ := procStep_delay hidle hother hi hready hcall hstep hnot
        exact ⟨⟨procStep_idle hidle hstep, procStep_othersUnblocked hidle hother hstep, hready'⟩,
          hdelay⟩)
      ⟨hidle, hother, hready⟩ halong hmid (fun reply hreply heq => hnone (heq ▸ hreply))
    have hpos := k'.procs.delay_pos i
    rw [← tickCount_eq_sum] at hmeasure
    omega

/-- Twelve ticks after `proc_init` slot 2 has been dispatched. -/
theorem ready_slot_dispatched_twelve_ticks :
    ∃ replies k, exec (procStep Mem.bus Mem.bus)
        (Kernel.init ⟨0, 0, 0, 0⟩ ⟨0, 0, 0⟩ ⟨fun _ => 0, []⟩) (List.replicate 12 (.tick 0)) =
          some (replies, k) ∧ .ticked (some 2) ∈ replies := by
  have heval : (exec (procStep Mem.bus Mem.bus)
      (Kernel.init ⟨0, 0, 0, 0⟩ ⟨0, 0, 0⟩ ⟨fun _ => 0, []⟩)
        (List.replicate 12 (.tick 0))).isSome = true := by
    decide +kernel
  obtain ⟨⟨replies, k⟩, hrun⟩ := Option.isSome_iff_exists.mp heval
  have hready : (procInit Procs.static).state 2 = .ready := by
    rw [state_procInit]
    decide
  have hdelay : (procInit Procs.static).delay 2 = 12 := by
    decide +kernel
  have hboot : exec (procStep Mem.bus Mem.bus)
      (Kernel.init ⟨0, 0, 0, 0⟩ ⟨0, 0, 0⟩ ⟨fun _ => 0, []⟩) [] =
        some ([], Kernel.init ⟨0, 0, 0, 0⟩ ⟨0, 0, 0⟩ ⟨fun _ => 0, []⟩) := rfl
  obtain ⟨-, hdispatched⟩ := ready_slot_dispatched Mem.bus Mem.bus ⟨0, 0, 0, 0⟩ ⟨0, 0, 0⟩
    ⟨fun _ => 0, []⟩ hboot hrun (i := 2) (by decide) hready (by simp)
  exact ⟨replies, k, hrun, hdispatched (by rw [Kernel.init, hdelay]; decide)⟩

/-- A slot other than slot 0 that is not READY is not dispatched. -/
theorem Procs.not_dispatched {p : Procs} (hcurrent : p.currentProcess = some 0) {i : Slot}
    (hi : i ≠ 0) (hready : p.state i ≠ .ready) (ticks : List Word) :
    some i ∉ (trace schedulerTick p ticks).1 := by
  induction ticks generalizing p with
  | nil => exact List.not_mem_nil
  | cons context ticks ih =>
    obtain ⟨hstate, hslot⟩ := schedulerTick_keeps hcurrent context hi hready
    obtain ⟨-, hcurrent', -⟩ := schedulerTick_cases hcurrent context
    have hrest := ih hcurrent' (by rwa [hstate])
    simp only [trace, List.mem_cons, not_or]
    exact ⟨hslot.symm, hrest⟩

/-- Ticks alone dispatch a READY slot at the end of its delay and at no other time. -/
theorem Procs.dispatched_at_iff {p : Procs} (hcurrent : p.currentProcess = some 0) {i : Slot}
    (hi : i ≠ 0) (hready : p.state i = .ready) (ticks : List Word) (n : ℕ) :
    (trace schedulerTick p ticks).1[n]? = some (some i) ↔
      n + 1 = p.delay i ∧ n < ticks.length := by
  induction ticks generalizing p n with
  | nil => simp [trace]
  | cons context ticks ih =>
    obtain ⟨-, hcurrent', -, hcases⟩ := schedulerTick_cases hcurrent context
    simp only [trace, List.length_cons]
    rcases Procs.delay_tick hcurrent hi hready context with
      ⟨hnow, hdelay⟩ | ⟨hlater, hready', hdelay⟩
    · cases n with
      | zero => simp [hnow, hdelay]
      | succ n =>
        have hrunning : (schedulerTick p context).2.state i ≠ .ready := by
          rcases hcases with ⟨-, hnone, -⟩ | ⟨-, hslot, hstate⟩
          · rw [hnow] at hnone
            cases hnone
          · rw [hnow] at hslot
            rw [hstate, ← Option.some.inj hslot, if_pos rfl]
            simp
        have hnever := Procs.not_dispatched hcurrent' hi hrunning ticks
        refine iff_of_false (fun h => hnever ?_) (by omega)
        rw [List.getElem?_cons_succ] at h
        exact List.mem_of_getElem? h
    · cases n with
      | zero =>
        have hpos := (schedulerTick p context).2.delay_pos i
        refine iff_of_false (fun h => hlater ?_) (by omega)
        simpa using h
      | succ n =>
        rw [List.getElem?_cons_succ, ih hcurrent' hready' n]
        omega

/-- **The schedule.** After every run from `proc_init`, ticks alone dispatch every READY slot
other than slot 0 exactly once, at the tick that its place among the READY slots says:
eleven ticks after the READY slot before it. -/
theorem ready_slot_dispatched_at {M : Type} (pmmBus heapBus : Bus M) (pmm : PmmState)
    (heap : HeapState) (mem : M) {calls : List ProcCall} {replies : List ProcReply} {k : Kernel M}
    (hrun : exec (procStep pmmBus heapBus) (Kernel.init pmm heap mem) calls = some (replies, k))
    {i : Slot} (hi : i ≠ 0) (hready : k.procs.state i = .ready) (ticks : List Word) (n : ℕ) :
    (trace schedulerTick k.procs ticks).1[n]? = some (some i) ↔
      n + 1 = 11 * k.procs.waiting.idxOf i + k.procs.rota.turn ∧ n < ticks.length :=
  Procs.dispatched_at_iff (exec_idle hrun).current hi hready ticks n

/-- Right after `proc_init` the twelfth tick dispatches slot 2. -/
theorem ready_slot_dispatched_at_tick_twelve :
    (trace schedulerTick (procInit Procs.static) (List.replicate 20 0)).1[11]? =
      some (some 2) := by
  have hready : (procInit Procs.static).state 2 = .ready := by
    rw [state_procInit]
    decide
  have hplace : 11 + 1 = 11 * (procInit Procs.static).waiting.idxOf 2 +
      (procInit Procs.static).rota.turn := by
    decide +kernel
  have hboot : exec (procStep Mem.bus Mem.bus)
      (Kernel.init ⟨0, 0, 0, 0⟩ ⟨0, 0, 0⟩ ⟨fun _ => 0, []⟩) [] =
        some ([], Kernel.init ⟨0, 0, 0, 0⟩ ⟨0, 0, 0⟩ ⟨fun _ => 0, []⟩) := rfl
  exact (ready_slot_dispatched_at Mem.bus Mem.bus ⟨0, 0, 0, 0⟩ ⟨0, 0, 0⟩ ⟨fun _ => 0, []⟩
    hboot (by decide) hready (List.replicate 20 0) 11).mpr ⟨hplace, by decide⟩

end Nimbu
