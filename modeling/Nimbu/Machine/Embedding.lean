import Nimbu.Machine.Memory

/-!
# One memory inside another

A memory of one kind stands inside a memory of another, which keeps more than the
bytes: a cache, a device. Where the two buses answer alike, words are read and
stored alike too.
-/

namespace Nimbu

variable {M N : Type}

/-- On the addresses of `S`, in the memories `ok` allows, the second bus does through
`f` what the first one does. -/
structure Bus.Embeds (bus₁ : Bus M) (bus₂ : Bus N) (f : M → N) (ok : M → Prop) (S : Set Word) :
    Prop where
  /-- Bytes are read alike. -/
  load_eq : ∀ {m a}, ok m → a ∈ S → bus₂.load (f m) a = bus₁.load m a
  /-- Bytes are stored alike. -/
  store_eq : ∀ {m a} (b), ok m → a ∈ S → bus₂.store (f m) a b = (bus₁.store m a b).map f

namespace Bus.Embeds

variable {bus₁ : Bus M} {bus₂ : Bus N} {f : M → N} {ok : M → Prop} {S : Set Word} {m : M} {a : Word}

/-- Words are read alike. -/
theorem loadWord_eq (h : bus₁.Embeds bus₂ f ok S) (hm : ok m)
    (hS : ∀ j < 4, a + BitVec.ofNat 32 j ∈ S) : bus₂.loadWord (f m) a = bus₁.loadWord m a := by
  have h0 : a ∈ S := by simpa using hS 0 (by decide)
  have h1 : a + 1 ∈ S := hS 1 (by decide)
  have h2 : a + 2 ∈ S := hS 2 (by decide)
  have h3 : a + 3 ∈ S := hS 3 (by decide)
  simp only [Bus.loadWord, h.load_eq hm h0, h.load_eq hm h1, h.load_eq hm h2, h.load_eq hm h3]

/-- Words are stored alike, when the bytes of the word leave memories that are allowed. -/
theorem storeWord_eq (h : bus₁.Embeds bus₂ f ok S) (hm : ok m) (w : Word)
    (hS : ∀ j < 4, a + BitVec.ofNat 32 j ∈ S)
    (hok : ∀ {m m'}, ∀ j < 4, ok m →
      bus₁.store m (a + BitVec.ofNat 32 j) (w.extractLsb' (8 * j) 8) = some m' → ok m') :
    bus₂.storeWord (f m) a w = (bus₁.storeWord m a w).map f := by
  have hbyte : ∀ {m : M}, ∀ j < 4, ok m → ∀ (rest₁ : M → Option M) (rest₂ : N → Option N),
      (∀ m', ok m' → rest₂ (f m') = (rest₁ m').map f) →
      (bus₂.store (f m) (a + BitVec.ofNat 32 j) (w.extractLsb' (8 * j) 8)).bind rest₂ =
        ((bus₁.store m (a + BitVec.ofNat 32 j) (w.extractLsb' (8 * j) 8)).bind rest₁).map f := by
    intro m j hj hm rest₁ rest₂ hrest
    rw [h.store_eq _ hm (hS j hj)]
    cases hstore : bus₁.store m (a + BitVec.ofNat 32 j) (w.extractLsb' (8 * j) 8) with
    | none => rfl
    | some m' => exact hrest m' (hok j hj hm hstore)
  have hfirst := hbyte 0 (by decide) hm
  simp only [BitVec.add_zero, Nat.mul_zero] at hfirst
  unfold Bus.storeWord
  refine hfirst _ _ fun m₁ hm₁ => ?_
  refine hbyte 1 (by decide) hm₁ _ _ fun m₂ hm₂ => ?_
  refine hbyte 2 (by decide) hm₂ _ _ fun m₃ hm₃ => ?_
  exact h.store_eq _ hm₃ (hS 3 (by decide))

section Plain

variable {bus : Bus N} {f : Mem → N} {ok : Mem → Prop} {m : Mem}

/-- Words of a flat memory are stored alike. -/
theorem storeWord_mem (h : Mem.bus.Embeds bus f ok S)
    (hkeep : ∀ {m a} (b), ok m → a ∈ S → ok (m.put a b)) (hm : ok m) (w : Word)
    (hS : ∀ j < 4, a + BitVec.ofNat 32 j ∈ S) :
    bus.storeWord (f m) a w = some (f (m.putWord a w)) ∧ ok (m.putWord a w) := by
  refine ⟨h.storeWord_eq hm w hS ?_, ?_⟩
  · intro m m' j hj hm hstore
    obtain rfl := Option.some.inj hstore
    exact hkeep _ hm (hS j hj)
  · have h0 := hkeep (w.extractLsb' 0 8) hm (hS 0 (by decide))
    have h1 := hkeep (w.extractLsb' 8 8) h0 (hS 1 (by decide))
    have h2 := hkeep (w.extractLsb' 16 8) h1 (hS 2 (by decide))
    have h3 := hkeep (w.extractLsb' 24 8) h2 (hS 3 (by decide))
    simpa [Mem.put, Mem.putWord, Bytes.putWord] using h3

end Plain

end Bus.Embeds

end Nimbu
