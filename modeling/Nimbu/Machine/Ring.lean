import Mathlib.Data.Nat.ModEq
import Mathlib.Tactic.Common

/-!
# Ring buffers

An array of `N` slots with two indices holds a queue of fewer than `N` elements:
those from the head on, up to the slot before the tail, with indices taken
modulo `N`. Equal indices mean an empty queue, and a tail just before the head
means that no further element fits.
-/

namespace Nimbu

variable {α : Type*} {N : ℕ}

/-- The slots from `head` to `tail` hold the queue. -/
structure RingHolds (slots : Vector α N) (head tail : ℕ) (queue : List α) : Prop where
  /-- The head is a slot. -/
  head_lt : head < N
  /-- One slot is always unused. -/
  length_lt : queue.length < N
  /-- The tail is behind the last element. -/
  tail_eq : tail = (head + queue.length) % N
  /-- Element `i` is in the slot `i` places behind the head. -/
  slot_eq : ∀ i < queue.length, slots[(head + i) % N]? = queue[i]?

/-- Different places from the same head are different slots. -/
theorem ring_index_inj {head i j : ℕ} (hi : i < N) (hj : j < N)
    (heq : (head + i) % N = (head + j) % N) : i = j := by
  have hmod : i % N = j % N := Nat.ModEq.add_left_cancel' head heq
  rwa [Nat.mod_eq_of_lt hi, Nat.mod_eq_of_lt hj] at hmod

namespace RingHolds

variable {slots : Vector α N} {head tail : ℕ} {queue : List α} {x : α}

/-- The tail is a slot. -/
theorem tail_lt (h : RingHolds slots head tail queue) : tail < N := by
  rw [h.tail_eq]
  exact Nat.mod_lt _ (by have := h.head_lt; omega)

/-- Equal indices hold the empty queue. -/
theorem empty (slots : Vector α N) (hhead : head < N) : RingHolds slots head head [] where
  head_lt := hhead
  length_lt := by simp only [List.length_nil]; omega
  tail_eq := by simp [Nat.mod_eq_of_lt hhead]
  slot_eq := by simp

/-- The indices are equal exactly when the queue is empty. -/
theorem head_eq_tail_iff (h : RingHolds slots head tail queue) : head = tail ↔ queue = [] := by
  have hpos : 0 < N := by
    have := h.head_lt
    omega
  constructor
  · intro heq
    have hindex : (head + 0) % N = (head + queue.length) % N := by
      rw [← h.tail_eq, ← heq, Nat.add_zero, Nat.mod_eq_of_lt h.head_lt]
    have hlength := ring_index_inj hpos h.length_lt hindex
    exact List.eq_nil_of_length_eq_zero hlength.symm
  · rintro rfl
    rw [h.tail_eq, List.length_nil, Nat.add_zero, Nat.mod_eq_of_lt h.head_lt]

/-- The slot behind the tail is the head exactly when no element fits any more. -/
theorem next_eq_head_iff (h : RingHolds slots head tail queue) :
    (tail + 1) % N = head ↔ queue.length + 1 = N := by
  have hhead := h.head_lt
  have hlength := h.length_lt
  have hnext : (tail + 1) % N = (head + (queue.length + 1)) % N := by
    rw [h.tail_eq, Nat.mod_add_mod, Nat.add_assoc]
  rw [hnext]
  constructor
  · intro heq
    by_contra hne
    have hindex : (head + (queue.length + 1)) % N = (head + 0) % N := by
      rw [heq, Nat.add_zero, Nat.mod_eq_of_lt hhead]
    have := ring_index_inj (show queue.length + 1 < N by omega) (by omega) hindex
    omega
  · intro heq
    rw [heq, Nat.add_mod_right, Nat.mod_eq_of_lt hhead]

/-- Storing at the tail and advancing it appends an element. -/
theorem push (h : RingHolds slots head tail queue) (hroom : queue.length + 1 < N) :
    RingHolds (slots.setIfInBounds tail x) head ((tail + 1) % N) (queue ++ [x]) where
  head_lt := h.head_lt
  length_lt := by simpa using hroom
  tail_eq := by
    rw [h.tail_eq, Nat.mod_add_mod, List.length_append, List.length_singleton, Nat.add_assoc]
  slot_eq := by
    intro i hi
    rw [List.length_append, List.length_singleton] at hi
    rw [Vector.getElem?_setIfInBounds]
    by_cases hlast : i = queue.length
    · subst hlast
      rw [if_pos h.tail_eq, if_pos h.tail_lt]
      simp
    · have hne : tail ≠ (head + i) % N := by
        rw [h.tail_eq]
        intro heq
        exact hlast (ring_index_inj (by omega) (by omega) heq.symm)
      rw [if_neg hne, h.slot_eq i (by omega), List.getElem?_append_left (by omega)]

/-- The slot of the head holds the first element. -/
theorem front (h : RingHolds slots head tail (x :: queue)) : slots[head]? = some x := by
  have hslot := h.slot_eq 0 (by simp)
  rwa [Nat.add_zero, Nat.mod_eq_of_lt h.head_lt, List.getElem?_cons_zero] at hslot

/-- Advancing the head removes the first element. -/
theorem pop (h : RingHolds slots head tail (x :: queue)) :
    RingHolds slots ((head + 1) % N) tail queue where
  head_lt := Nat.mod_lt _ (by have := h.head_lt; omega)
  length_lt := by
    have := h.length_lt
    rw [List.length_cons] at this
    omega
  tail_eq := by
    rw [h.tail_eq, Nat.mod_add_mod, List.length_cons]
    congr 1
    omega
  slot_eq := by
    intro i hi
    have hslot := h.slot_eq (i + 1) (by simpa using hi)
    rw [List.getElem?_cons_succ] at hslot
    rw [← hslot, Nat.mod_add_mod, Nat.add_assoc, Nat.add_comm 1 i]

end RingHolds

end Nimbu
