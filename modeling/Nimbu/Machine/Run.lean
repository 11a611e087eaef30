import Mathlib.Algebra.GroupWithZero.Nat
import Mathlib.Data.List.Basic
import Mathlib.Data.List.ReduceOption
import Mathlib.Logic.Relation
import Mathlib.Tactic.Common

/-!
# Runs of a call-by-call system

A system answers one call at a time: `step s a` is the reply and the next
state, or `none` when the call does not return. Properties of whole runs are
reduced here to properties of one step, by invariants and by simulation.
-/

namespace Nimbu

variable {σ τ α ο : Type*}

/-- What is selected from a list, one element more. -/
theorem filterMap_cons_eq_append {β : Type*} (f : α → Option β) (a : α) (as : List α) :
    (a :: as).filterMap f = (f a).toList ++ as.filterMap f := by
  rw [List.filterMap_cons]
  cases f a <;> rfl

/-- The replies that there are, one more. -/
theorem reduceOption_cons_eq_append (o : Option ο) (os : List (Option ο)) :
    (o :: os).reduceOption = o.toList ++ os.reduceOption :=
  filterMap_cons_eq_append id o os

/-- The replies to a sequence of calls and the state after them. -/
def exec (step : σ → α → Option (ο × σ)) : σ → List α → Option (List ο × σ)
  | s, [] => some ([], s)
  | s, a :: as => do
    let (o, s') ← step s a
    let (os, s'') ← exec step s' as
    return (o :: os, s'')

/-- The replies and the final state of a system whose calls always return. -/
def trace (step : τ → α → ο × τ) : τ → List α → List ο × τ
  | t, [] => ([], t)
  | t, a :: as =>
    let rest := trace step (step t a).2 as
    ((step t a).1 :: rest.1, rest.2)

/-- A property of the state before a call and of the call, at every call of a run. -/
def Along (step : σ → α → Option (ο × σ)) (P : σ → α → Prop) : σ → List α → Prop
  | _, [] => True
  | s, a :: as => P s a ∧ ∀ o s', step s a = some (o, s') → Along step P s' as

variable {step : σ → α → Option (ο × σ)} {P Q : σ → α → Prop} {s s' : σ} {a : α} {as bs : List α}
  {os : List ο}

/-- The empty run stays where it is. -/
@[simp] theorem exec_nil : exec step s [] = some ([], s) := rfl

/-- A run of at least one call is its first call and a run from the next state. -/
theorem exec_cons_iff : exec step s (a :: as) = some (os, s') ↔
    ∃ o t os', step s a = some (o, t) ∧ exec step t as = some (os', s') ∧ os = o :: os' := by
  simp only [exec, Option.bind_eq_bind, Option.bind_eq_some_iff, Prod.exists, Option.pure_def,
    Option.some.injEq, Prod.mk.injEq]
  constructor
  · rintro ⟨o, t, hstep, os', t', hrest, rfl, rfl⟩
    exact ⟨o, t, os', hstep, hrest, rfl⟩
  · rintro ⟨o, t, os', hstep, hrest, rfl⟩
    exact ⟨o, t, hstep, os', s', hrest, rfl, rfl⟩

/-- A run of two pieces is a run of the first and a run of the second. -/
theorem exec_append_iff : exec step s (as ++ bs) = some (os, s') ↔
    ∃ os₁ t os₂, exec step s as = some (os₁, t) ∧ exec step t bs = some (os₂, s') ∧
      os = os₁ ++ os₂ := by
  induction as generalizing s os with
  | nil => simp
  | cons a as ih =>
    simp only [List.cons_append, exec_cons_iff, ih]
    constructor
    · rintro ⟨o, t, _, hstep, ⟨os₁, t', os₂, h₁, h₂, rfl⟩, rfl⟩
      exact ⟨o :: os₁, t', os₂, ⟨o, t, os₁, hstep, h₁, rfl⟩, h₂, rfl⟩
    · rintro ⟨_, t', os₂, ⟨o, t, os₁, hstep, h₁, rfl⟩, h₂, rfl⟩
      exact ⟨o, t, os₁ ++ os₂, hstep, ⟨os₁, t', os₂, h₁, h₂, rfl⟩, rfl⟩

/-- A run followed by one more call. -/
theorem exec_concat {o : ο} {t : σ} (hrun : exec step s as = some (os, t))
    (hstep : step t a = some (o, s')) : exec step s (as ++ [a]) = some (os ++ [o], s') :=
  exec_append_iff.mpr ⟨os, t, [o], hrun, exec_cons_iff.mpr ⟨o, s', [], hstep, rfl, rfl⟩, rfl⟩

/-- A run meets a property when its first call does and the rest does from there. -/
theorem Along.cons {o : ο} (hcall : P s a) (hstep : step s a = some (o, s'))
    (hrest : Along step P s' as) : Along step P s (a :: as) := by
  refine ⟨hcall, fun o' t ht => ?_⟩
  obtain ⟨-, rfl⟩ : o = o' ∧ s' = t := by simpa [hstep] using ht
  exact hrest

/-- A property that holds along a run holds along the first part of it. -/
theorem Along.of_append (h : Along step P s (as ++ bs)) : Along step P s as := by
  induction as generalizing s with
  | nil => trivial
  | cons a as ih => exact ⟨h.1, fun o t hstep => ih (h.2 o t hstep)⟩

/-- A property that holds along a run holds along both of its pieces. -/
theorem along_append_iff (hrun : exec step s as = some (os, s')) :
    Along step P s (as ++ bs) ↔ Along step P s as ∧ Along step P s' bs := by
  induction as generalizing s os with
  | nil =>
    obtain ⟨rfl, rfl⟩ : [] = os ∧ s = s' := by simpa using hrun
    simp [Along]
  | cons a as ih =>
    obtain ⟨o, t, os', hstep, hrest, -⟩ := exec_cons_iff.mp hrun
    have hnext : (∀ o' t', step s a = some (o', t') → Along step P t' (as ++ bs)) ↔
        (∀ o' t', step s a = some (o', t') → Along step P t' as) ∧ Along step P s' bs := by
      simp [hstep, ih hrest]
    simp only [List.cons_append, Along, hnext, and_assoc]

/-- Some call with the property leads from one state to the other. -/
def StepsTo (step : σ → α → Option (ο × σ)) (P : σ → α → Prop) (s s' : σ) : Prop :=
  ∃ a o, P s a ∧ step s a = some (o, s')

/-- A state is reached by calls with a property exactly when some run along which the
property holds ends there. -/
theorem exists_run_iff : (∃ as os, Along step P s as ∧ exec step s as = some (os, s')) ↔
    Relation.ReflTransGen (StepsTo step P) s s' := by
  constructor
  · rintro ⟨as, os, halong, hrun⟩
    induction as generalizing s os with
    | nil =>
      obtain ⟨-, rfl⟩ : [] = os ∧ s = s' := by simpa using hrun
      exact .refl
    | cons a as ih =>
      obtain ⟨o, t, os', hstep, hrest, -⟩ := exec_cons_iff.mp hrun
      exact .head ⟨a, o, halong.1, hstep⟩ (ih os' (halong.2 o t hstep) hrest)
  · intro hreach
    induction hreach using Relation.ReflTransGen.head_induction_on with
    | refl => exact ⟨[], [], trivial, rfl⟩
    | head hstep hrest ih =>
      obtain ⟨a, o, hcall, hstep⟩ := hstep
      obtain ⟨as, os, halong, hrun⟩ := ih
      exact ⟨a :: as, o :: os, Along.cons hcall hstep halong,
        exec_cons_iff.mpr ⟨o, _, os, hstep, hrun, rfl⟩⟩

/-- A property holds along a run when it holds at every call that is reached. -/
theorem along_iff_forall : Along step P s as ↔
    ∀ pre a post, as = pre ++ a :: post → ∀ os t, exec step s pre = some (os, t) → P t a := by
  induction as generalizing s with
  | nil => simp [Along]
  | cons b as ih =>
    constructor
    · rintro ⟨hb, hrest⟩ pre a post heq os t hpre
      cases pre with
      | nil =>
        obtain ⟨rfl, -⟩ : b = a ∧ as = post := by simpa using heq
        obtain ⟨-, rfl⟩ : [] = os ∧ s = t := by simpa using hpre
        exact hb
      | cons c pre =>
        obtain ⟨rfl, htail⟩ : b = c ∧ as = pre ++ a :: post := by simpa using heq
        obtain ⟨o, u, os', hstep, hpre', -⟩ := exec_cons_iff.mp hpre
        exact ih.mp (hrest o u hstep) pre a post htail os' t hpre'
    · intro h
      refine ⟨h [] b as rfl [] s rfl, fun o t hstep => ih.mpr ?_⟩
      intro pre a post heq os u hpre
      exact h (b :: pre) a post (by rw [heq]; rfl) (o :: os) u
        (exec_cons_iff.mpr ⟨o, t, os, hstep, hpre, rfl⟩)

/-- A family of properties holds along a run when each of them does. -/
theorem along_forall_iff {ι : Type*} {P : ι → σ → α → Prop} :
    Along step (fun s a => ∀ i, P i s a) s as ↔ ∀ i, Along step (P i) s as := by
  simp only [along_iff_forall]
  constructor
  · intro h i pre a post heq os t hpre
    exact h pre a post heq os t hpre i
  · intro h pre a post heq os t hpre i
    exact h i pre a post heq os t hpre

/-- Two properties hold along a run when each of them does. -/
theorem along_and_iff :
    Along step (fun s a => P s a ∧ Q s a) s as ↔ Along step P s as ∧ Along step Q s as := by
  simp only [along_iff_forall]
  constructor
  · intro h
    exact ⟨fun pre a post heq os t hpre => (h pre a post heq os t hpre).1,
      fun pre a post heq os t hpre => (h pre a post heq os t hpre).2⟩
  · rintro ⟨hP, hQ⟩ pre a post heq os t hpre
    exact ⟨hP pre a post heq os t hpre, hQ pre a post heq os t hpre⟩

/-- In a run that returns, every call returns. -/
theorem along_of_exec (hrun : exec step s as = some (os, s')) :
    Along step (fun s a => ∃ o t, step s a = some (o, t)) s as := by
  induction as generalizing s os with
  | nil => trivial
  | cons a as ih =>
    obtain ⟨o, t, os', hstep, hrest, -⟩ := exec_cons_iff.mp hrun
    exact Along.cons ⟨o, t, hstep⟩ hstep (ih hrest)

/-- All replies of a run have a property when the reply to every call has it. -/
theorem forall_replies_iff {D : ο → Prop} (hrun : exec step s as = some (os, s')) :
    (∀ o ∈ os, D o) ↔ Along step (fun s a => ∀ o t, step s a = some (o, t) → D o) s as := by
  induction as generalizing s os with
  | nil =>
    obtain ⟨rfl, -⟩ : [] = os ∧ s = s' := by simpa using hrun
    simp [Along]
  | cons a as ih =>
    obtain ⟨o, t, os', hstep, hrest, rfl⟩ := exec_cons_iff.mp hrun
    simp [Along, hstep, ih hrest]

/-- Along every piece of a run that starts where `Q` holds and contains no
releasing call, `Q` is kept and no reply satisfies `D`. -/
def Persists (step : σ → α → Option (ο × σ)) (Q : σ → Prop) (release : α → Prop) (D : ο → Prop)
    (s : σ) (as : List α) : Prop :=
  ∀ pre mid post, as = pre ++ mid ++ post → ∀ os t os' t', exec step s pre = some (os, t) →
    exec step t mid = some (os', t') → Q t → (∀ a ∈ mid, ¬ release a) → Q t' ∧ ∀ o ∈ os', ¬ D o

/-- A property persists when every call that does not release it keeps it. -/
theorem persists_iff {Q : σ → Prop} {release : α → Prop} {D : ο → Prop} :
    Persists step Q release D s as ↔
      Along step (fun t a => Q t → ¬ release a → ∀ o t', step t a = some (o, t') → Q t' ∧ ¬ D o)
        s as := by
  constructor
  · intro h
    rw [along_iff_forall]
    intro pre a post heq os t hpre hQ hkeep o t' hstep
    have hone : exec step t [a] = some ([o], t') := exec_cons_iff.mpr ⟨o, t', [], hstep, rfl, rfl⟩
    obtain ⟨hQ', hD⟩ := h pre [a] post (by simp [heq]) os t [o] t' hpre hone hQ
      (by simpa using hkeep)
    exact ⟨hQ', hD o (by simp)⟩
  · rintro h pre mid post rfl os t os' t' hpre hmid hQ hkeep
    rw [List.append_assoc, along_append_iff hpre, along_append_iff hmid] at h
    have hsteps := h.2.1
    clear h hpre
    induction mid generalizing t os' with
    | nil =>
      obtain ⟨rfl, rfl⟩ : [] = os' ∧ t = t' := by simpa using hmid
      exact ⟨hQ, by simp⟩
    | cons a mid ih =>
      obtain ⟨o, u, os'', hstep, hrest, rfl⟩ := exec_cons_iff.mp hmid
      obtain ⟨hQ', hD⟩ := hsteps.1 hQ (hkeep a (by simp)) o u hstep
      obtain ⟨hQ'', hD'⟩ := ih u os'' hrest hQ' (fun b hb => hkeep b (by simp [hb]))
        (hsteps.2 o u hstep)
      refine ⟨hQ'', fun o' ho' => ?_⟩
      rcases List.mem_cons.mp ho' with rfl | ho'
      · exact hD
      · exact hD' o' ho'

/-- What every permitted call preserves holds after every run of permitted calls. -/
theorem exec_invariant (Inv : σ → Prop)
    (hpreserved : ∀ {s a o s'}, Inv s → P s a → step s a = some (o, s') → Inv s')
    (hinit : Inv s) (hpermitted : Along step P s as) (hrun : exec step s as = some (os, s')) :
    Inv s' := by
  induction as generalizing s os with
  | nil =>
    obtain ⟨-, rfl⟩ : [] = os ∧ s = s' := by simpa using hrun
    exact hinit
  | cons a as ih =>
    obtain ⟨o, t, os', hstep, hrest, -⟩ := exec_cons_iff.mp hrun
    exact ih (hpreserved hinit hpermitted.1 hstep) (hpermitted.2 o t hstep) hrest

/-- If every permitted call returns and preserves the invariant, every run of
permitted calls returns in a state that satisfies it. -/
theorem exec_returns (Inv : σ → Prop)
    (hstep : ∀ {s a}, Inv s → P s a → ∃ o s', step s a = some (o, s') ∧ Inv s')
    (hinit : Inv s) (hpermitted : Along step P s as) :
    ∃ os s', exec step s as = some (os, s') ∧ Inv s' := by
  induction as generalizing s with
  | nil => exact ⟨[], s, rfl, hinit⟩
  | cons a as ih =>
    obtain ⟨o, t, ht, hinv⟩ := hstep hinit hpermitted.1
    obtain ⟨os, t', hrest, hinv'⟩ := ih hinv (hpermitted.2 o t ht)
    exact ⟨o :: os, t', exec_cons_iff.mpr ⟨o, t, os, ht, hrest, rfl⟩, hinv'⟩

/-- What an observer of the calls and the replies has noted down after them. -/
def ledger (note : τ → α → ο → τ) (t : τ) (as : List α) (os : List ο) : τ :=
  (as.zip os).foldl (fun t p => note t p.1 p.2) t

/-- If every permitted call returns and keeps the state in step with an observer's notes,
every permitted run returns in a state in step with the notes on it. -/
theorem exec_ledger_along (note : τ → α → ο → τ) (Inv : σ → τ → Prop)
    (hstep : ∀ {s t a}, Inv s t → P s a → ∃ o s', step s a = some (o, s') ∧ Inv s' (note t a o))
    {t : τ} (hinit : Inv s t) (hpermitted : Along step P s as) :
    ∃ os s', exec step s as = some (os, s') ∧ Inv s' (ledger note t as os) := by
  induction as generalizing s t with
  | nil => exact ⟨[], s, rfl, hinit⟩
  | cons a as ih =>
    obtain ⟨o, s₁, ha, hinv⟩ := hstep hinit hpermitted.1
    obtain ⟨os, s₂, hrest, hinv'⟩ := ih hinv (hpermitted.2 o s₁ ha)
    exact ⟨o :: os, s₂, exec_cons_iff.mpr ⟨o, s₁, os, ha, hrest, rfl⟩, hinv'⟩

/-- The same when every call is permitted. -/
theorem exec_ledger {note : τ → α → ο → τ} (Inv : σ → τ → Prop)
    (hstep : ∀ {s t} (a), Inv s t → ∃ o s', step s a = some (o, s') ∧ Inv s' (note t a o))
    {t : τ} (hinit : Inv s t) (as : List α) :
    ∃ os s', exec step s as = some (os, s') ∧ Inv s' (ledger note t as os) :=
  exec_ledger_along (P := fun _ _ => True) note Inv (fun {_ _ a} hinv _ => hstep a hinv) hinit
    (along_iff_forall.mpr fun _ _ _ _ _ _ _ => trivial)

/-- A property of the calls that an invariant guarantees holds along every run. -/
theorem along_of_invariant (Inv : σ → Prop)
    (hpreserved : ∀ {s a o s'}, Inv s → step s a = some (o, s') → Inv s')
    (hcall : ∀ {s} (a), Inv s → P s a) (hinit : Inv s) (as : List α) : Along step P s as := by
  induction as generalizing s with
  | nil => trivial
  | cons a as ih => exact ⟨hcall a hinit, fun o t hstep => ih (hpreserved hinit hstep)⟩

/-- A property of the calls that an invariant and the permission of a call guarantee
holds along every run of permitted calls. -/
theorem Along.of_invariant (Inv : σ → Prop)
    (hpreserved : ∀ {s a o s'}, Inv s → P s a → step s a = some (o, s') → Inv s')
    (hcall : ∀ {s a}, Inv s → P s a → Q s a) (hinit : Inv s) (hpermitted : Along step P s as) :
    Along step Q s as := by
  induction as generalizing s with
  | nil => trivial
  | cons a as ih =>
    refine ⟨hcall hinit hpermitted.1, fun o t hstep => ?_⟩
    exact ih (hpreserved hinit hpermitted.1 hstep) (hpermitted.2 o t hstep)

/-- Two properties of the calls that agree wherever an invariant holds agree along
every run of permitted calls, if one of them preserves the invariant. -/
theorem along_iff_of_invariant {R : σ → α → Prop} (Inv : σ → Prop)
    (hiff : ∀ {s a}, Inv s → R s a → (P s a ↔ Q s a))
    (hpreserved : ∀ {s a o s'}, Inv s → R s a → Q s a → step s a = some (o, s') → Inv s')
    (hinit : Inv s) (hpermitted : Along step R s as) : Along step P s as ↔ Along step Q s as := by
  induction as generalizing s with
  | nil => exact Iff.rfl
  | cons a as ih =>
    have hcall := hiff hinit hpermitted.1
    constructor
    · rintro ⟨hP, hrest⟩
      refine ⟨hcall.mp hP, fun o t hstep => ?_⟩
      have hinv := hpreserved hinit hpermitted.1 (hcall.mp hP) hstep
      exact (ih hinv (hpermitted.2 o t hstep)).mp (hrest o t hstep)
    · rintro ⟨hQ, hrest⟩
      refine ⟨hcall.mpr hQ, fun o t hstep => ?_⟩
      have hinv := hpreserved hinit hpermitted.1 hQ hstep
      exact (ih hinv (hpermitted.2 o t hstep)).mpr (hrest o t hstep)

/-- A system whose every call is answered as an abstract system answers it,
keeping the states related, answers every run as the abstract system does. -/
theorem exec_of_simulation {R : σ → τ → Prop} {abstractStep : τ → α → ο × τ}
    (hsim : ∀ {s t} (a), R s t →
      ∃ s', step s a = some ((abstractStep t a).1, s') ∧ R s' (abstractStep t a).2)
    {t : τ} (hrel : R s t) (as : List α) :
    ∃ s', exec step s as = some ((trace abstractStep t as).1, s') ∧
      R s' (trace abstractStep t as).2 := by
  induction as generalizing s t with
  | nil => exact ⟨s, rfl, hrel⟩
  | cons a as ih =>
    obtain ⟨s₁, hstep, hrel₁⟩ := hsim a hrel
    obtain ⟨s₂, hrest, hrel₂⟩ := ih hrel₁
    exact ⟨s₂, exec_cons_iff.mpr ⟨_, s₁, _, hstep, hrest, rfl⟩, hrel₂⟩

/-- Two systems that answer every permitted call alike, keeping their states related, answer
every run of permitted calls alike. -/
theorem exec_of_agreement {R : σ → τ → Prop} {other : τ → α → Option (ο × τ)}
    (hstep : ∀ {s t a}, R s t → P s a →
      ∃ o s' t', step s a = some (o, s') ∧ other t a = some (o, t') ∧ R s' t')
    {t : τ} (hrel : R s t) (hpermitted : Along step P s as) :
    ∃ os s' t', exec step s as = some (os, s') ∧ exec other t as = some (os, t') ∧ R s' t' := by
  induction as generalizing s t with
  | nil => exact ⟨[], s, t, rfl, rfl, hrel⟩
  | cons a as ih =>
    obtain ⟨o, s₁, t₁, hfirst, hanswer, hrel₁⟩ := hstep hrel hpermitted.1
    obtain ⟨os, s', t', hrun, hother, hrel'⟩ := ih hrel₁ (hpermitted.2 o s₁ hfirst)
    exact ⟨o :: os, s', t', exec_cons_iff.mpr ⟨o, s₁, os, hfirst, hrun, rfl⟩,
      exec_cons_iff.mpr ⟨o, t₁, os, hanswer, hother, rfl⟩, hrel'⟩

/-- Properties of the calls that agree in related states agree along runs of permitted calls
that the two systems answer alike. -/
theorem along_iff_of_agreement {R : σ → τ → Prop} {other : τ → α → Option (ο × τ)}
    {A : σ → α → Prop} {Q : τ → α → Prop}
    (hstep : ∀ {s t a}, R s t → A s a →
      ∃ o s' t', step s a = some (o, s') ∧ other t a = some (o, t') ∧ R s' t')
    (hiff : ∀ {s t} (a), R s t → (P s a ↔ Q t a)) {t : τ} (hrel : R s t)
    (hpermitted : Along step A s as) : Along step P s as ↔ Along other Q t as := by
  induction as generalizing s t with
  | nil => exact Iff.rfl
  | cons a as ih =>
    obtain ⟨o, s₁, t₁, hfirst, hanswer, hrel₁⟩ := hstep hrel hpermitted.1
    have hrest := ih hrel₁ (hpermitted.2 o s₁ hfirst)
    simp [Along, hfirst, hanswer, hiff a hrel, hrest]

/-- A measure that each step lowers by what the step gains, up to what it costs, goes down by
the gains of a whole run, up to its costs. -/
theorem exec_measure {D : ο → Prop} (measure : σ → ℕ) (gain cost : α → ℕ) (Inv : σ → Prop)
    (hstep : ∀ {s a o s'}, Inv s → P s a → step s a = some (o, s') → ¬ D o →
      Inv s' ∧ measure s' + gain a ≤ measure s + cost a)
    (hinit : Inv s) (hpermitted : Along step P s as) (hrun : exec step s as = some (os, s'))
    (hnone : ∀ o ∈ os, ¬ D o) :
    Inv s' ∧ measure s' + (as.map gain).sum ≤ measure s + (as.map cost).sum := by
  induction as generalizing s os with
  | nil =>
    obtain ⟨rfl, rfl⟩ := Prod.mk.inj (Option.some.inj hrun)
    exact ⟨hinit, Nat.le_refl _⟩
  | cons a as ih =>
    obtain ⟨o, t, os', hfirst, hrest, rfl⟩ := exec_cons_iff.mp hrun
    obtain ⟨hinv, hle⟩ := hstep hinit hpermitted.1 hfirst (hnone o List.mem_cons_self)
    obtain ⟨hinv', hle'⟩ := ih hinv (hpermitted.2 o t hfirst) hrest
      fun o' ho' => hnone o' (List.mem_cons_of_mem _ ho')
    refine ⟨hinv', ?_⟩
    simp only [List.map_cons, List.sum_cons]
    omega

/-- A system that answers some events as another system answers its calls, and takes the
other events in silence, answers every run as the other system does the calls among
the events. -/
theorem exec_of_stuttering {β ρ : Type*} (R : σ → τ → Prop) (call : α → Option β)
    {step : σ → α → Option (Option ρ × σ)} {other : τ → β → Option (ρ × τ)} {P : τ → β → Prop}
    (hsilent : ∀ {s t a}, R s t → call a = none → ∃ s', step s a = some (none, s') ∧ R s' t)
    (hcall : ∀ {s t a b}, R s t → call a = some b → P t b →
      ∃ r s' t', step s a = some (some r, s') ∧ other t b = some (r, t') ∧ R s' t')
    {t : τ} (hrel : R s t) (hpermitted : Along other P t (as.filterMap call)) :
    ∃ os s' t', exec step s as = some (os, s') ∧
      exec other t (as.filterMap call) = some (os.reduceOption, t') ∧ R s' t' := by
  induction as generalizing s t with
  | nil => exact ⟨[], s, t, rfl, rfl, hrel⟩
  | cons a as ih =>
    cases hevent : call a with
    | none =>
      obtain ⟨s₁, hstep, hrel₁⟩ := hsilent hrel hevent
      rw [List.filterMap_cons_none hevent] at hpermitted ⊢
      obtain ⟨os, s', t', hrun, hother, hrel'⟩ := ih hrel₁ hpermitted
      exact ⟨none :: os, s', t', exec_cons_iff.mpr ⟨none, s₁, os, hstep, hrun, rfl⟩, hother, hrel'⟩
    | some b =>
      rw [List.filterMap_cons_some hevent] at hpermitted ⊢
      obtain ⟨r, s₁, t₁, hstep, hanswer, hrel₁⟩ := hcall hrel hevent hpermitted.1
      obtain ⟨os, s', t', hrun, hother, hrel'⟩ := ih hrel₁ (hpermitted.2 r t₁ hanswer)
      exact ⟨some r :: os, s', t', exec_cons_iff.mpr ⟨some r, s₁, os, hstep, hrun, rfl⟩,
        exec_cons_iff.mpr ⟨r, t₁, _, hanswer, hother, rfl⟩, hrel'⟩

/-- A loop whose every round returns and keeps its invariant returns and keeps it. -/
theorem foldlM_returns {round : σ → α → Option σ} (Inv : σ → Prop)
    (hround : ∀ a ∈ as, ∀ s, Inv s → ∃ s', round s a = some s' ∧ Inv s') (hinit : Inv s) :
    ∃ s', as.foldlM round s = some s' ∧ Inv s' := by
  induction as generalizing s with
  | nil => exact ⟨s, rfl, hinit⟩
  | cons a as ih =>
    obtain ⟨t, ht, hinv⟩ := hround a List.mem_cons_self s hinit
    obtain ⟨s', hrest, hinv'⟩ := ih (fun b hb => hround b (List.mem_cons_of_mem _ hb)) hinv
    refine ⟨s', ?_, hinv'⟩
    rw [List.foldlM_cons, ht]
    exact hrest

/-- A counting loop whose every round returns and takes its invariant one step further
returns with the invariant of its last round. -/
theorem foldlM_range_returns {round : σ → ℕ → Option σ} (Inv : ℕ → σ → Prop) {n : ℕ}
    (hround : ∀ i < n, ∀ s, Inv i s → ∃ s', round s i = some s' ∧ Inv (i + 1) s')
    (hinit : Inv 0 s) : ∃ s', (List.range n).foldlM round s = some s' ∧ Inv n s' := by
  induction n with
  | zero => exact ⟨s, rfl, hinit⟩
  | succ n ih =>
    obtain ⟨t, hloop, hinv⟩ := ih fun i hi => hround i (by omega)
    obtain ⟨s', hlast, hinv'⟩ := hround n (by omega) t hinv
    refine ⟨s', ?_, hinv'⟩
    rw [List.range_succ, List.foldlM_append, hloop]
    simp [hlast]

end Nimbu
