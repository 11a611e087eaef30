import Nimbu.Proc.Created

/-!
# The order of dispatches

The scan of `context_switch` starts at slot 0 every time, and slot 0 is the
current process for ever, so the scheduler is not the round robin it is meant to
be: READY slots are dispatched once each, in the order of the table, and slot 0 is
dispatched again between any two of them. This file describes ticks by a
countdown and a queue, and finds the runs of ticks that are round robin.
-/

namespace Nimbu

variable {M : Type}

section Dispatches

variable {α τ υ : Type*}

/-- A run of ticks is round robin for some processes: between two dispatches of one
process, every other of them that waited the whole time was dispatched. -/
def RoundRobin (step : τ → α → Option Slot × τ) (waits : τ → Slot → Prop)
    (created : Slot → Prop) (t : τ) (as : List α) : Prop :=
  ∀ pre a mid b post t₁, as = pre ++ a :: (mid ++ b :: post) → ∀ s c, c ≠ s → created c →
    step (trace step t pre).2 a = (some s, t₁) → (step (trace step t₁ mid).2 b).1 = some s →
    (∀ mid₁ mid₂, mid = mid₁ ++ mid₂ → waits (trace step t₁ mid₁).2 c) →
    some c ∈ (trace step t₁ mid).1

/-- Systems that dispatch the same slots and stay related dispatch the same slots
in every run. -/
theorem trace_of_simulation {step : τ → α → Option Slot × τ} {step' : υ → α → Option Slot × υ}
    {R : τ → υ → Prop}
    (hsim : ∀ {t u} (a), R t u → (step t a).1 = (step' u a).1 ∧ R (step t a).2 (step' u a).2)
    {t : τ} {u : υ} (hrel : R t u) (as : List α) :
    (trace step t as).1 = (trace step' u as).1 ∧ R (trace step t as).2 (trace step' u as).2 := by
  induction as generalizing t u with
  | nil => exact ⟨rfl, hrel⟩
  | cons a as ih =>
    obtain ⟨hslot, hnext⟩ := hsim a hrel
    obtain ⟨hslots, hlast⟩ := ih hnext
    refine ⟨?_, hlast⟩
    simp only [trace, hslot, hslots]

/-- A system that dispatches the same slots as a round robin one, and whose slots wait
only when they wait there, is round robin too. -/
theorem RoundRobin.of_simulation {step : τ → α → Option Slot × τ}
    {step' : υ → α → Option Slot × υ} {R : τ → υ → Prop} {waits : τ → Slot → Prop}
    {waits' : υ → Slot → Prop} {created : Slot → Prop}
    (hsim : ∀ {t u} (a), R t u → (step t a).1 = (step' u a).1 ∧ R (step t a).2 (step' u a).2)
    (hwait : ∀ {t u c}, R t u → created c → waits' u c → waits t c) {t : τ} {u : υ} (hrel : R t u)
    {as : List α} (hfair : RoundRobin step waits created t as) :
    RoundRobin step' waits' created u as := by
  intro pre a mid b post u₁ heq s c hcs hmade hfirst hsecond hwaits
  obtain ⟨-, hpre⟩ := trace_of_simulation hsim hrel pre
  obtain ⟨hslot, hnext⟩ := hsim a hpre
  rw [hfirst] at hslot hnext
  obtain ⟨hslots, hmid⟩ := trace_of_simulation hsim hnext mid
  have hslot' := (hsim b hmid).1
  rw [hsecond] at hslot'
  rw [← hslots]
  apply hfair pre a mid b post _ heq s c hcs hmade (Prod.ext hslot rfl) hslot'
  intro mid₁ mid₂ hsplit
  have hrel' := (trace_of_simulation hsim hnext mid₁).2
  exact hwait hrel' hmade (hwaits mid₁ mid₂ hsplit)

/-- A run of two pieces dispatches what the first and then the second does. -/
theorem trace_append (step : τ → α → Option Slot × τ) (t : τ) (as bs : List α) :
    trace step t (as ++ bs) =
      ((trace step t as).1 ++ (trace step (trace step t as).2 bs).1,
        (trace step (trace step t as).2 bs).2) := by
  induction as generalizing t with
  | nil => rfl
  | cons a as ih => simp only [List.cons_append, trace, ih]

end Dispatches

/-- What decides the next dispatches: in how many ticks slot 0 gives way, and the
slots that wait, in the order of the table. -/
structure Rota where
  /-- Ticks until another slot is dispatched, or 0 if slot 0 is next. -/
  lead : ℕ
  /-- The READY slots but slot 0. -/
  queue : List Slot

/-- A tick: slot 0 is dispatched for ten ticks, counts down, and gives way to the
first slot that waits. -/
def Rota.tick : Rota → Word → Option Slot × Rota
  | ⟨0, queue⟩, _ => (some 0, ⟨10, queue⟩)
  | ⟨1, []⟩, _ => (some 0, ⟨10, []⟩)
  | ⟨1, i :: queue⟩, _ => (some i, ⟨0, queue⟩)
  | ⟨lead + 2, queue⟩, _ => (none, ⟨lead + 1, queue⟩)

namespace Procs

/-- The ticks until slot 0 gives way. -/
def lead (p : Procs) : ℕ :=
  match p.state 0 with
  | .ready => 0
  | .running => max (p.table 0).timeSliceRemaining.toNat 1
  | .blocked => 1
  | .zombie => 1

/-- The READY slots but slot 0, in the order of the table. -/
def waiting (p : Procs) : List Slot :=
  (List.finRange 256).filter fun i => i ≠ 0 ∧ p.state i = .ready

/-- The countdown and the queue of a process table. -/
def rota (p : Procs) : Rota := ⟨p.lead, p.waiting⟩

variable {p p' : Procs} {i : Slot}

theorem mem_waiting : i ∈ p.waiting ↔ i ≠ 0 ∧ p.state i = .ready := by
  simp [waiting, List.mem_filter, List.mem_finRange]

/-- No slot waits twice. -/
theorem nodup_waiting (p : Procs) : p.waiting.Nodup :=
  (List.nodup_finRange 256).filter _

/-- The queue depends on the states only. -/
theorem waiting_congr (hstate : ∀ j ≠ 0, p'.state j = p.state j) : p'.waiting = p.waiting := by
  unfold waiting
  apply List.filter_congr
  intro j _
  by_cases hj : j = 0
  · simp [hj]
  · rw [hstate j hj]

/-- A slot that is READY no longer leaves the queue. -/
theorem waiting_of_dispatched {queue : List Slot} (hqueue : p.waiting = i :: queue)
    (hi : p'.state i ≠ .ready) (hstate : ∀ j, j ≠ 0 → j ≠ i → p'.state j = p.state j) :
    p'.waiting = queue := by
  have hleave : p'.waiting = p.waiting.filter fun j => j ≠ i := by
    unfold waiting
    rw [List.filter_filter]
    apply List.filter_congr
    intro j _
    by_cases hj : j = i
    · simp [hj, hi]
    · by_cases hzero : j = 0
      · simp [hzero]
      · rw [hstate j hzero hj]
        simp [hj]
  have hnodup := p.nodup_waiting
  rw [hqueue, List.nodup_cons] at hnodup
  rw [hleave, hqueue, List.filter_cons_of_neg (by simp), List.filter_eq_self]
  intro j hj
  rw [decide_eq_true_eq]
  rintro rfl
  exact hnodup.1 hj

/-- While slot 0 is not READY, the scan finds the first slot that waits. -/
theorem findReady_eq_head? (hzero : p.state 0 ≠ .ready) : findReady p = p.waiting.head? := by
  unfold findReady waiting
  rw [List.head?_filter]
  congr 1
  funext i
  by_cases hi : i = 0
  · have hnot : (p.table 0).state ≠ .ready := hzero
    simp [hi, hnot]
  · simp [hi, state]

/-- A tick that stays takes one tick off the slice of slot 0. -/
theorem slice_of_stays (hcurrent : p.currentProcess = some 0) (context : Word) (hstays : p.Stays) :
    ((schedulerTick p context).2.table 0).timeSliceRemaining.toNat + 1 =
      (p.table 0).timeSliceRemaining.toNat := by
  have hslice := hstays.2
  have hnone : (schedulerTick p context).1 = none := by
    rw [schedulerTick_eq hcurrent, if_pos hstays]
  rw [(schedulerTick_table hcurrent context 0).1, hnone, if_neg (by simp), if_pos rfl]
  omega

/-- When slot 0 is dispatched it gets a new slice. -/
theorem slice_of_dispatched (hcurrent : p.currentProcess = some 0) (context : Word)
    (hzero : (schedulerTick p context).1 = some 0) :
    ((schedulerTick p context).2.table 0).timeSliceRemaining = schedulerTimeSlice := by
  apply BitVec.eq_of_toNat_eq
  rw [(schedulerTick_table hcurrent context 0).1, if_pos hzero]

/-- Slot 0 stays exactly when it gives way in two ticks or more. -/
theorem stays_iff_lead : p.Stays ↔ 2 ≤ p.lead := by
  unfold Stays lead
  cases p.state 0 with
  | running => simp only [true_and]; omega
  | ready => simp
  | blocked => simp
  | zombie => simp

/-- Slot 0 is next exactly when it is READY. -/
theorem lead_eq_zero_iff : p.lead = 0 ↔ p.state 0 = .ready := by
  unfold lead
  cases p.state 0 with
  | running => simp
  | ready => simp
  | blocked => simp
  | zombie => simp

/-- A RUNNING slot 0 gives way when its slice has run out. -/
theorem lead_of_running (hrunning : p.state 0 = .running) :
    p.lead = max (p.table 0).timeSliceRemaining.toNat 1 := by
  simp only [lead, hrunning]

/-- Dispatching slot 0 makes it give way in ten ticks. -/
theorem lead_of_dispatched (hcurrent : p.currentProcess = some 0) (context : Word)
    (hzero : (schedulerTick p context).1 = some 0)
    (hrunning : (schedulerTick p context).2.state 0 = .running) :
    (schedulerTick p context).2.lead = 10 := by
  rw [lead_of_running hrunning, slice_of_dispatched hcurrent context hzero]
  rfl

/-- **A tick of the scheduler is a tick of its rota.** -/
theorem rota_tick (hcurrent : p.currentProcess = some 0) (context : Word) :
    (schedulerTick p context).1 = (p.rota.tick context).1 ∧
      (schedulerTick p context).2.rota = (p.rota.tick context).2 := by
  obtain ⟨-, -, -, ⟨hstays, hslot, hstate⟩ | ⟨hswitch, hslot, hstate⟩⟩ :=
    schedulerTick_cases hcurrent context
  · have hslice := slice_of_stays hcurrent context hstays
    have hmore := hstays.2
    have hlead := lead_of_running hstays.1
    have hlead' := lead_of_running ((hstate 0).trans hstays.1)
    obtain ⟨n, hn⟩ : ∃ n, p.lead = n + 2 := ⟨p.lead - 2, by omega⟩
    have hn' : (schedulerTick p context).2.lead = n + 1 := by omega
    unfold rota
    rw [waiting_congr fun j _ => hstate j, hn, hn']
    exact ⟨hslot, rfl⟩
  · by_cases hzero : p.state 0 = .ready
    · have hlead := lead_eq_zero_iff.mpr hzero
      rw [findReady_zero hzero, Option.getD_some] at hslot hstate
      have hrunning : (schedulerTick p context).2.state 0 = .running := by
        rw [hstate, if_pos rfl]
      unfold rota
      rw [waiting_congr fun j hj => by rw [hstate j, if_neg hj, if_neg hj], hlead,
        lead_of_dispatched hcurrent context hslot hrunning]
      exact ⟨hslot, rfl⟩
    · have hlead : p.lead = 1 := by
        have hpos := lead_eq_zero_iff.not.mpr hzero
        have hfew := stays_iff_lead.not.mp hswitch
        omega
      rw [findReady_eq_head? hzero] at hslot hstate
      unfold rota
      rw [hlead]
      cases hqueue : p.waiting with
      | nil =>
        rw [hqueue, List.head?_nil, Option.getD_none] at hslot hstate
        have hrunning : (schedulerTick p context).2.state 0 = .running := by
          rw [hstate, if_pos rfl]
        have hkept : (schedulerTick p context).2.waiting = p.waiting :=
          waiting_congr fun j hj => by rw [hstate j, if_neg hj, if_neg hj]
        rw [hkept, hqueue, lead_of_dispatched hcurrent context hslot hrunning]
        exact ⟨hslot, rfl⟩
      | cons i queue =>
        rw [hqueue, List.head?_cons, Option.getD_some] at hslot hstate
        have hi : i ≠ 0 := (mem_waiting.mp (by rw [hqueue]; simp : i ∈ p.waiting)).1
        have hready : (schedulerTick p context).2.state 0 = .ready := by
          rw [hstate, if_neg hi.symm, if_pos rfl]
        have hleft : (schedulerTick p context).2.waiting = queue := by
          apply waiting_of_dispatched hqueue
          · rw [hstate, if_pos rfl]
            simp
          · intro j hj hji
            rw [hstate, if_neg hji, if_neg hj]
        rw [hleft, lead_eq_zero_iff.mpr hready]
        exact ⟨hslot, rfl⟩

end Procs

namespace Rota

variable {x y : Rota} {context : Word} {i : Slot} {ticks : List Word}

/-- A tick at most takes the first slot from the queue. -/
theorem queue_tick (x : Rota) (context : Word) : (x.tick context).2.queue <:+ x.queue := by
  unfold tick
  split
  · exact List.suffix_rfl
  · exact List.suffix_rfl
  · exact List.suffix_cons _ _
  · exact List.suffix_rfl

/-- Ticks take slots from the front of the queue only. -/
theorem queue_trace (x : Rota) (ticks : List Word) : (trace tick x ticks).2.queue <:+ x.queue := by
  induction ticks generalizing x with
  | nil => exact List.suffix_rfl
  | cons context ticks ih => exact (ih _).trans (queue_tick x context)

/-- Another slot than 0 is dispatched from the front of the queue. -/
theorem queue_of_dispatched (hslot : (x.tick context).1 = some i) (hi : i ≠ 0) :
    x.queue = i :: (x.tick context).2.queue := by
  unfold tick at hslot ⊢
  split at hslot
  · exact absurd (Option.some.inj hslot).symm hi
  · exact absurd (Option.some.inj hslot).symm hi
  · rw [Option.some.inj hslot]
  · cases hslot

/-- Slot 0 is dispatched when it is next, or when nothing waits. -/
theorem tick_of_zero (hzero : 0 ∉ x.queue) (hslot : (x.tick context).1 = some 0) :
    (x.lead = 0 ∨ x.queue = []) ∧ (x.tick context).2 = ⟨10, x.queue⟩ := by
  unfold tick at hslot ⊢
  split at hslot
  · exact ⟨Or.inl rfl, rfl⟩
  · exact ⟨Or.inr rfl, rfl⟩
  · rw [Option.some.inj hslot] at hzero
    simp at hzero
  · cases hslot

/-- While slot 0 counts down nothing is dispatched. -/
theorem trace_of_lt (hlt : ticks.length < x.lead) :
    trace tick x ticks =
      (List.replicate ticks.length none, ⟨x.lead - ticks.length, x.queue⟩) := by
  induction ticks generalizing x with
  | nil => rfl
  | cons context ticks ih =>
    obtain ⟨lead, queue⟩ := x
    rw [List.length_cons] at hlt
    obtain ⟨n, rfl⟩ : ∃ n, lead = n + 2 := ⟨lead - 2, by simp only at hlt; omega⟩
    have hrest := ih (x := ⟨n + 1, queue⟩) (by simp only at hlt ⊢; omega)
    simp only [trace, tick, hrest, List.length_cons, List.replicate_succ]
    simp only [Prod.mk.injEq, Rota.mk.injEq, and_true, true_and]
    omega

/-- When slot 0 has counted down, the first slot that waits is dispatched, and slot
0 is next. -/
theorem trace_of_eq {queue : List Slot} (hlength : ticks.length = x.lead) (hpos : 0 < x.lead)
    (hqueue : x.queue = i :: queue) :
    trace tick x ticks = (List.replicate (x.lead - 1) none ++ [some i], ⟨0, queue⟩) := by
  obtain ⟨pre, context, rfl⟩ : ∃ pre context, ticks = pre ++ [context] :=
    ⟨ticks.dropLast, ticks.getLast (List.ne_nil_of_length_pos (by omega)),
      (List.dropLast_append_getLast _).symm⟩
  rw [List.length_append, List.length_singleton] at hlength
  have hleft : x.lead - pre.length = 1 := by omega
  rw [trace_append, trace_of_lt (by omega), hleft, hqueue]
  simp only [trace, tick, ← hlength, Nat.add_sub_cancel]

/-- The slots that slot 0 overtakes: all that wait but the first, if slot 0 is next,
and all but the first two otherwise. -/
def overtaken (x : Rota) : List Slot := x.queue.drop (if x.lead = 0 then 1 else 2)

/-- The queue when slot 0 is next. -/
def settled (x : Rota) : List Slot := x.queue.drop (if x.lead = 0 then 0 else 1)

theorem overtaken_eq (x : Rota) : x.overtaken = x.settled.drop 1 := by
  unfold overtaken settled
  rw [List.drop_drop]
  split <;> rfl

/-- As long as something waits, slot 0 is next after the countdown. -/
theorem trace_settled (hqueue : x.queue ≠ []) (hlength : ticks.length = x.lead) :
    (trace tick x ticks).2 = ⟨0, x.settled⟩ := by
  obtain ⟨lead, queue⟩ := x
  cases queue with
  | nil => exact absurd rfl hqueue
  | cons i queue =>
    by_cases hzero : lead = 0
    · subst hzero
      rw [List.eq_nil_of_length_eq_zero hlength]
      rfl
    · rw [trace_of_eq hlength (Nat.pos_of_ne_zero hzero) rfl]
      simp [settled, hzero]

/-- Slot 0 is not dispatched while something waits, before the countdown is over
and the first slot has left the queue. -/
theorem settled_of_zero (hnonzero : 0 ∉ x.queue) {c : Slot}
    (hc : c ∈ (trace tick x ticks).2.queue)
    (hslot : ((trace tick x ticks).2.tick context).1 = some 0) :
    x.lead ≤ ticks.length ∧ (trace tick x ticks).2.queue <:+ x.settled := by
  have hqueue : x.queue ≠ [] := by
    intro hnil
    have hmem := (queue_trace x ticks).subset hc
    rw [hnil] at hmem
    cases hmem
  have hnonzero' : 0 ∉ (trace tick x ticks).2.queue :=
    fun hmem => hnonzero ((queue_trace x ticks).subset hmem)
  have hle : x.lead ≤ ticks.length := by
    by_contra hlt
    have hnext := (tick_of_zero hnonzero' hslot).1
    rw [trace_of_lt (by omega)] at hnext
    rcases hnext with hlead | hnil
    · simp only at hlead
      omega
    · exact hqueue hnil
  refine ⟨hle, ?_⟩
  have hfirst : (trace tick x (ticks.take x.lead)).2 = ⟨0, x.settled⟩ :=
    trace_settled hqueue (List.length_take_of_le hle)
  have hsplit : (trace tick x ticks).2 =
      (trace tick ⟨0, x.settled⟩ (ticks.drop x.lead)).2 := by
    rw [← hfirst]
    conv_lhs => rw [← List.take_append_drop x.lead ticks]
    rw [trace_append]
  rw [hsplit]
  exact queue_trace _ _

/-- A run that is not round robin is long enough for slot 0 to be dispatched twice,
and the slot it passes over is overtaken. -/
theorem overtaken_of_twice (hnodup : x.queue.Nodup) (hnonzero : 0 ∉ x.queue)
    {pre mid : List Word} {a b : Word} {y : Rota} {s c : Slot} (hcs : c ≠ s)
    (hfirst : (trace tick x pre).2.tick a = (some s, y))
    (hsecond : ((trace tick y mid).2.tick b).1 = some s)
    (hstart : c ∈ y.queue) (hend : c ∈ (trace tick y mid).2.queue) :
    x.lead + 11 ≤ pre.length + 1 + mid.length ∧ c ∈ x.overtaken := by
  have hslot : ((trace tick x pre).2.tick a).1 = some s := by rw [hfirst]
  have hy : ((trace tick x pre).2.tick a).2 = y := by rw [hfirst]
  have hsuffix := queue_trace x pre
  have hs : s = 0 := by
    by_contra hs
    have hleft := queue_of_dispatched hslot hs
    rw [hy] at hleft
    have honce := hsuffix.sublist.nodup hnodup
    rw [hleft, List.nodup_cons] at honce
    have hagain := queue_of_dispatched hsecond hs
    have hmem : s ∈ (trace tick y mid).2.queue := by
      rw [hagain]
      simp
    exact honce.1 ((queue_trace y mid).subset hmem)
  subst hs
  have hnonzero' : 0 ∉ (trace tick x pre).2.queue := fun hmem => hnonzero (hsuffix.subset hmem)
  have hnext := (tick_of_zero hnonzero' hslot).2
  rw [hy] at hnext
  have hqueue : y.queue = (trace tick x pre).2.queue := by rw [hnext]
  have hlead : y.lead = 10 := by rw [hnext]
  have hnonzero'' : 0 ∉ y.queue := by rwa [hqueue]
  obtain ⟨hpre, hsettled⟩ := settled_of_zero hnonzero (hqueue ▸ hstart) hslot
  obtain ⟨hmid, hsettled'⟩ := settled_of_zero hnonzero'' hend hsecond
  rw [hlead] at hmid
  refine ⟨by omega, ?_⟩
  rw [overtaken_eq]
  have hdrop : y.settled = y.queue.drop 1 := by simp [settled, hlead]
  have hmem : c ∈ y.queue.drop 1 := hdrop ▸ hsettled'.subset hend
  rw [hqueue, List.suffix_iff_eq_drop.mp hsettled, List.drop_drop, Nat.add_comm,
    ← List.drop_drop] at hmem
  exact (List.drop_suffix _ _).subset hmem

/-- A slot that is overtaken waits while slot 0 is dispatched, counts down, gives way
to another slot and is dispatched again. -/
theorem not_roundRobin_of_overtaken (hnodup : x.queue.Nodup) {created : Slot → Prop} {c : Slot}
    (hc : c ∈ x.overtaken) (hcreated : created c) (hcz : c ≠ 0)
    (hlength : x.lead + 12 ≤ ticks.length) :
    ¬ RoundRobin tick (fun x c => c ∈ x.queue) created x ticks := by
  intro hfair
  obtain ⟨pre, rest, hpre, rfl⟩ : ∃ pre rest, pre.length = x.lead ∧ ticks = pre ++ rest :=
    ⟨ticks.take x.lead, ticks.drop x.lead, List.length_take_of_le (by omega),
      (List.take_append_drop _ _).symm⟩
  rw [List.length_append] at hlength
  obtain ⟨a, mid, b, post, hmid, rfl⟩ :
      ∃ a mid b post, mid.length = 10 ∧ rest = a :: (mid ++ b :: post) := by
    cases rest with
    | nil => simp only [List.length_nil] at hlength; omega
    | cons a rest =>
      rw [List.length_cons] at hlength
      obtain ⟨b, post, hpost⟩ : ∃ b post, rest.drop 10 = b :: post := by
        apply List.exists_cons_of_length_pos
        rw [List.length_drop]
        omega
      refine ⟨a, rest.take 10, b, post, List.length_take_of_le (by omega), ?_⟩
      rw [← hpost, List.take_append_drop]
  rw [overtaken_eq] at hc
  have hqueue : x.queue ≠ [] := by
    intro hnil
    simp [settled, hnil] at hc
  have hfirst := trace_settled hqueue hpre
  obtain ⟨i, queue, hsettled⟩ : ∃ i queue, x.settled = i :: queue := by
    cases hsettled : x.settled with
    | nil => simp [hsettled] at hc
    | cons i queue => exact ⟨i, queue, rfl⟩
  rw [hsettled] at hfirst
  have hcq : c ∈ queue := by simpa [hsettled] using hc
  have hci : i ≠ c := by
    rintro rfl
    have honce : x.settled.Nodup := (List.drop_suffix _ _).sublist.nodup hnodup
    rw [hsettled, List.nodup_cons] at honce
    exact honce.1 hcq
  have hcycle : trace tick ⟨10, i :: queue⟩ mid =
      (List.replicate 9 none ++ [some i], ⟨0, queue⟩) := trace_of_eq hmid (by simp) rfl
  have hnext := hfair pre a mid b post ⟨10, i :: queue⟩ rfl 0 c hcz hcreated
    (by rw [hfirst]; rfl) (by rw [hcycle]; rfl) ?_
  · rw [hcycle] at hnext
    simp [hci.symm] at hnext
  · rintro mid₁ mid₂ rfl
    rw [List.length_append] at hmid
    by_cases hlast : mid₁.length = 10
    · rw [trace_of_eq hlast (by simp) rfl]
      exact hcq
    · rw [trace_of_lt (by simp only; omega)]
      simp [hcq]

/-- A run of ticks of a rota is round robin exactly when it is too short for slot 0 to
be dispatched twice with another slot in between, or nothing created is overtaken. -/
theorem roundRobin_iff (hnodup : x.queue.Nodup) (hnonzero : 0 ∉ x.queue) {created : Slot → Prop}
    (hcreated : ∀ c, created c → c ≠ 0) :
    RoundRobin tick (fun x c => c ∈ x.queue) created x ticks ↔
      ¬ (x.lead + 12 ≤ ticks.length ∧ ∃ c ∈ x.overtaken, created c) := by
  constructor
  · rintro hfair ⟨hlength, c, hc, hmade⟩
    exact not_roundRobin_of_overtaken hnodup hc hmade (hcreated c hmade) hlength hfair
  · rintro hshort pre a mid b post y rfl s c hcs hmade hfirst hsecond hwaits
    exfalso
    obtain ⟨hlength, hc⟩ := overtaken_of_twice hnodup hnonzero hcs hfirst hsecond
      (hwaits [] mid rfl) (hwaits mid [] (List.append_nil mid).symm)
    apply hshort
    refine ⟨?_, c, hc, hmade⟩
    simp only [List.length_append, List.length_cons]
    omega

end Rota

/-- The ticks of the scheduler are round robin exactly when those of its rota are. -/
theorem Procs.roundRobin_iff_rota {p : Procs} (hcurrent : p.currentProcess = some 0)
    {created : Slot → Prop} (hcreated : ∀ c, created c → c ≠ 0) (ticks : List Word) :
    RoundRobin schedulerTick (fun p c => p.state c = .ready) created p ticks ↔
      RoundRobin Rota.tick (fun x c => c ∈ x.queue) created p.rota ticks := by
  have hsim : ∀ {q : Procs} {x : Rota} (context : Word),
      (q.currentProcess = some 0 ∧ q.rota = x) →
      (schedulerTick q context).1 = (x.tick context).1 ∧
        ((schedulerTick q context).2.currentProcess = some 0 ∧
          (schedulerTick q context).2.rota = (x.tick context).2) := by
    rintro q x context ⟨hq, rfl⟩
    obtain ⟨hslot, hrota⟩ := rota_tick hq context
    exact ⟨hslot, (schedulerTick_cases hq context).2.1, hrota⟩
  constructor
  · apply RoundRobin.of_simulation hsim _ ⟨hcurrent, rfl⟩
    rintro q x c ⟨-, rfl⟩ hmade hc
    exact (mem_waiting.mp hc).2
  · refine RoundRobin.of_simulation (R := fun x q => q.currentProcess = some 0 ∧ q.rota = x)
      (fun context hrel => ⟨(hsim context hrel).1.symm, (hsim context hrel).2⟩) ?_ ⟨hcurrent, rfl⟩
    rintro x q c ⟨-, rfl⟩ hmade hc
    exact mem_waiting.mpr ⟨hcreated c hmade, hc⟩

/-- The condition under which ticks are not round robin: there are twelve ticks after
slot 0 has given way, and a created process is READY behind another READY slot,
or behind two of them if slot 0 is not READY itself. -/
def Procs.Overtakes (p : Procs) (created : List ℤ) (ticks : ℕ) : Prop :=
  p.lead + 12 ≤ ticks ∧
    ∃ c ∈ p.waiting.drop (if p.state 0 = .ready then 1 else 2), (c.val : ℤ) ∈ created

/-- **Scheduling is round robin** exactly when no created process is overtaken:
after any run from `proc_init`, some ticks dispatch one process twice while a
created process was READY the whole time and not dispatched, exactly when slot 0
has the time to be dispatched twice and a created process waits far enough behind. -/
theorem round_robin_iff (pmmBus heapBus : Bus M) (pmm : PmmState) (heap : HeapState) (mem : M)
    {calls : List ProcCall} {replies : List ProcReply} {k : Kernel M}
    (hrun : exec (procStep pmmBus heapBus) (Kernel.init pmm heap mem) calls = some (replies, k))
    (ticks : List Word) :
    RoundRobin schedulerTick (fun p c => p.state c = .ready)
        (fun c => (c.val : ℤ) ∈ createdPids calls replies) k.procs ticks ↔
      ¬ k.procs.Overtakes (createdPids calls replies) ticks.length := by
  have hidle := exec_idle hrun
  have hcreated : ∀ c : Slot, (c.val : ℤ) ∈ createdPids calls replies → c ≠ 0 := by
    rintro c hc rfl
    have hfirst := ((mem_createdPids_iff procInit_idle hrun 0).2.mp hc).1
    revert hfirst
    exact Nat.not_succ_le_zero 0
  have hnonzero : 0 ∉ k.procs.rota.queue := fun hmem => (Procs.mem_waiting.mp hmem).1 rfl
  rw [Procs.roundRobin_iff_rota hidle.current hcreated,
    Rota.roundRobin_iff k.procs.nodup_waiting hnonzero hcreated]
  unfold Procs.Overtakes Rota.overtaken Procs.rota
  simp only [Procs.lead_eq_zero_iff]

/-- With two created processes, twenty ticks are round robin. -/
theorem round_robin_of_two :
    ∃ replies k, exec (procStep Mem.bus Mem.bus) smallKernel [.create 0 0, .create 0 0] =
        some (replies, k) ∧
      RoundRobin schedulerTick (fun p c => p.state c = .ready)
        (fun c => (c.val : ℤ) ∈ createdPids [.create 0 0, .create 0 0] replies) k.procs
        (List.replicate 20 0) := by
  have hrun : (exec (procStep Mem.bus Mem.bus) smallKernel [.create 0 0, .create 0 0]).map
      (fun r => (r.1, r.2.procs.state 0, r.2.procs.waiting.take 2)) =
        some ([.status 1, .status 2], .running, [1, 2]) := by
    decide +kernel
  obtain ⟨⟨replies, k⟩, hrun, hr⟩ := Option.map_eq_some_iff.mp hrun
  simp only [Prod.mk.injEq] at hr
  obtain ⟨rfl, hzero, hfirst⟩ := hr
  refine ⟨_, k, hrun, (round_robin_iff Mem.bus Mem.bus _ _ _ hrun _).mpr ?_⟩
  rintro ⟨-, c, hc, hcreated⟩
  rw [hzero, if_neg (by simp)] at hc
  have hmem : c ∈ k.procs.waiting.take 2 := by
    have hpid : (c.val : ℤ) = 1 ∨ (c.val : ℤ) = 2 := by
      simpa [createdPids, createdPid] using hcreated
    rw [hfirst]
    rcases hpid with hpid | hpid
    · simp [show c = 1 from Fin.ext (by exact_mod_cast hpid)]
    · simp [show c = 2 from Fin.ext (by exact_mod_cast hpid)]
  exact List.disjoint_take_drop k.procs.nodup_waiting le_rfl hmem hc

/-- With three created processes, thirteen ticks dispatch slot 0 twice while process 3 is
READY and not dispatched. -/
theorem round_robin_fails_of_three :
    ∃ replies k, exec (procStep Mem.bus Mem.bus) smallKernel
        [.create 0 0, .create 0 0, .create 0 0] = some (replies, k) ∧
      replies = [.status 1, .status 2, .status 3] ∧
      ¬ RoundRobin schedulerTick (fun p c => p.state c = .ready)
        (fun c => (c.val : ℤ) ∈ createdPids [.create 0 0, .create 0 0, .create 0 0] replies)
        k.procs (List.replicate 13 0) := by
  have hrun : (exec (procStep Mem.bus Mem.bus) smallKernel
      [.create 0 0, .create 0 0, .create 0 0]).map
      (fun r => (r.1, r.2.procs.currentProcess, r.2.procs.lead,
        decide (3 ∈ r.2.procs.rota.overtaken))) =
        some ([.status 1, .status 2, .status 3], some 0, 1, true) := by
    decide +kernel
  obtain ⟨⟨replies, k⟩, hrun, hr⟩ := Option.map_eq_some_iff.mp hrun
  simp only [Prod.mk.injEq, decide_eq_true_eq] at hr
  obtain ⟨rfl, hcurrent, hlead, hc⟩ := hr
  refine ⟨_, k, hrun, rfl, ?_⟩
  have hcreated : ∀ c : Slot, (c.val : ℤ) ∈ createdPids
      [.create 0 0, .create 0 0, .create 0 0] [.status 1, .status 2, .status 3] → c ≠ 0 := by
    rintro c hc rfl
    revert hc
    decide
  rw [Procs.roundRobin_iff_rota hcurrent hcreated]
  apply Rota.not_roundRobin_of_overtaken k.procs.nodup_waiting hc (by decide) (by decide)
  rw [List.length_replicate]
  exact (congrArg (· + 12) hlead).le

end Nimbu
