import Mathlib.Data.List.Basic
import Mathlib.Data.List.Infix

/-!
# Events since events

A condition that one kind of event starts and another kind ends holds after a list
of events when one of the first kind has happened and none of the second kind since.
-/

namespace Nimbu

variable {α : Type*}

/-- An event with `P` has happened, and none with `Q` behind it. -/
def Since (P Q : α → Prop) (events : List α) : Prop :=
  ∃ pre a post, events = pre ++ a :: post ∧ P a ∧ ∀ b ∈ post, ¬ Q b

variable {P Q : α → Prop} {events : List α} {a : α}

/-- At first nothing has happened. -/
theorem not_since_nil : ¬ Since P Q [] := by
  rintro ⟨pre, a, post, hevents, -⟩
  exact absurd hevents (by simp)

/-- One more event starts the condition, or it holds before and the event does not end it. -/
theorem since_append_iff : Since P Q (events ++ [a]) ↔ P a ∨ ¬ Q a ∧ Since P Q events := by
  constructor
  · rintro ⟨pre, b, post, hevents, hb, hpost⟩
    rcases List.eq_nil_or_concat post with rfl | ⟨post, last, rfl⟩
    · obtain ⟨-, hlast⟩ := List.append_inj' hevents rfl
      rw [List.singleton_inj] at hlast
      exact Or.inl (hlast ▸ hb)
    · rw [List.concat_eq_append, ← List.cons_append, ← List.append_assoc] at hevents
      obtain ⟨hbefore, hlast⟩ := List.append_inj' hevents rfl
      rw [List.singleton_inj] at hlast
      rw [List.concat_eq_append] at hpost
      refine Or.inr ⟨?_, pre, b, post, hbefore, hb, fun c hc => hpost c (List.mem_append_left _ hc)⟩
      rw [hlast]
      exact hpost last (List.mem_append_right _ List.mem_cons_self)
  · rintro (ha | ⟨hkeep, pre, b, post, rfl, hb, hpost⟩)
    · exact ⟨events, a, [], rfl, ha, fun b hb => absurd hb List.not_mem_nil⟩
    · refine ⟨pre, b, post ++ [a], by simp, hb, fun c hc => ?_⟩
      rcases List.mem_append.mp hc with hc | hc
      · exact hpost c hc
      · rwa [List.mem_singleton.mp hc]

/-- The condition holds at some moment exactly when an event starts it. -/
theorem exists_prefix_since_iff : (∃ pre, pre <+: events ∧ Since P Q pre) ↔ ∃ a ∈ events, P a := by
  constructor
  · rintro ⟨_, ⟨rest, rfl⟩, pre, a, post, rfl, ha, -⟩
    exact ⟨a, by simp, ha⟩
  · rintro ⟨a, hmem, ha⟩
    obtain ⟨pre, post, rfl⟩ := List.append_of_mem hmem
    exact ⟨pre ++ [a], ⟨post, by simp⟩, since_append_iff.mpr (Or.inl ha)⟩

end Nimbu
