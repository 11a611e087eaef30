import Nimbu.Machine.Memory

/-!
# Arrays of words in memory

An array of words at `base` has entry `i` at `base + 4 * i`. Loops that store
consecutive entries set exactly these entries and touch no byte around them.
-/

namespace Nimbu

/-- The address of entry `i` of the array of words at `base`. -/
def entry (base : Word) (i : ℕ) : Word := base + BitVec.ofNat 32 (4 * i)

/-- Store the entries `0, ..., n - 1` in order. -/
def Bytes.fillWords (v : Bytes) (base : Word) (f : ℕ → Word) (n : ℕ) : Bytes :=
  (List.range n).foldl (fun v i => v.putWord (entry base i) (f i)) v

/-- An entry within the address space has the sum as its address. -/
theorem toNat_entry {base : Word} {i : ℕ} (hi : base.toNat + 4 * i < 2 ^ 32) :
    (entry base i).toNat = base.toNat + 4 * i := by
  rw [entry]
  bv_omega

/-- A word store changes no byte below its address or from four bytes above it on. -/
theorem Bytes.putWord_outside {v : Bytes} {a c : Word} (w : Word) (ha : a.toNat + 4 ≤ 2 ^ 32)
    (hc : c.toNat < a.toNat ∨ a.toNat + 4 ≤ c.toNat) : v.putWord a w c = v c := by
  apply Bytes.putWord_of_ne <;> bv_omega

/-- A word is the same in memories that agree on its four bytes. -/
theorem Bytes.word_eq_of_inside {v v' : Bytes} {a : Word} (ha : a.toNat + 4 ≤ 2 ^ 32)
    (hsame : ∀ c : Word, a.toNat ≤ c.toNat → c.toNat < a.toNat + 4 → v' c = v c) :
    v'.word a = v.word a := by
  apply Bytes.word_congr <;> apply hsame <;> bv_omega

variable {v : Bytes} {base : Word} {f : ℕ → Word} {n : ℕ}

/-- Storing one entry more. -/
theorem Bytes.fillWords_succ : v.fillWords base f (n + 1) =
    (v.fillWords base f n).putWord (entry base n) (f n) := by
  simp [Bytes.fillWords, List.range_succ]

/-- Bytes outside the array are kept. -/
theorem Bytes.fillWords_outside (hn : base.toNat + 4 * n ≤ 2 ^ 32) {c : Word}
    (hc : c.toNat < base.toNat ∨ base.toNat + 4 * n ≤ c.toNat) :
    v.fillWords base f n c = v c := by
  induction n with
  | zero => rfl
  | succ n ih =>
    have hentry := toNat_entry (show base.toNat + 4 * n < 2 ^ 32 by omega)
    rw [Bytes.fillWords_succ, Bytes.putWord_outside (f n) (by omega) (by omega)]
    exact ih (by omega) (by omega)

/-- Each entry of the array holds its word. -/
theorem Bytes.fillWords_entry (hn : base.toNat + 4 * n ≤ 2 ^ 32) {i : ℕ} (hi : i < n) :
    (v.fillWords base f n).word (entry base i) = f i := by
  induction n with
  | zero => omega
  | succ n ih =>
    have hentry := toNat_entry (show base.toNat + 4 * n < 2 ^ 32 by omega)
    have hentry' := toNat_entry (show base.toNat + 4 * i < 2 ^ 32 by omega)
    rw [Bytes.fillWords_succ]
    by_cases heq : i = n
    · subst heq
      exact Bytes.word_putWord_self _ _ _
    · rw [← ih (by omega) (by omega)]
      apply Bytes.word_eq_of_inside (by omega)
      intro c hlo hhi
      exact Bytes.putWord_outside (f n) (by omega) (by omega)

/-- A word outside the array is kept. -/
theorem Bytes.fillWords_word_outside (hn : base.toNat + 4 * n ≤ 2 ^ 32) {a : Word}
    (ha : a.toNat + 4 ≤ 2 ^ 32) (hout : a.toNat + 4 ≤ base.toNat ∨ base.toNat + 4 * n ≤ a.toNat) :
    (v.fillWords base f n).word a = v.word a := by
  apply Bytes.word_eq_of_inside ha
  intro c hlo hhi
  exact Bytes.fillWords_outside hn (by omega)

/-- A loop that stores consecutive entries on a bus that is plain memory everywhere. -/
theorem Bus.Lawful.foldlM_storeWord {M : Type} {bus : Bus M} {ok : M → Prop} {view : M → Bytes}
    (hbus : bus.Lawful ok view Set.univ) (base : Word) (f : ℕ → Word) (n : ℕ) {m : M} (hm : ok m) :
    ∃ m', (List.range n).foldlM (fun m i => bus.storeWord m (entry base i) (f i)) m = some m' ∧
      ok m' ∧ view m' = (view m).fillWords base f n :=
  Bus.foldlM_eq (fun m i => bus.storeWord m (entry base i) (f i))
    (fun v i => v.putWord (entry base i) (f i))
    (fun i _ _ hk => hbus.storeWord_univ hk (entry base i) (f i)) hm

/-- A word store leaves every other aligned word alone. -/
theorem Bytes.word_putWord_of_ne {v : Bytes} {a b : Word} (w : Word) (ha : a.toNat % 4 = 0)
    (hb : b.toNat % 4 = 0) (hne : a ≠ b) : (v.putWord b w).word a = v.word a := by
  have halt := a.isLt
  have hblt := b.isLt
  have hnat : a.toNat ≠ b.toNat := fun h => hne (BitVec.eq_of_toNat_eq h)
  apply Bytes.word_eq_of_inside (by omega)
  intro c hlo hhi
  exact Bytes.putWord_outside w (by omega) (by omega)

/-- The entries of a page of words lie in that page. -/
theorem toNat_entry_page {page : Word} (hpage : page.toNat % 4096 = 0) {i : ℕ} (hi : i < 1024) :
    (entry page i).toNat = page.toNat + 4 * i := by
  have := page.isLt
  exact toNat_entry (by omega)

/-- Entries of pages are the same word only for the same page and the same index. -/
theorem entry_page_inj {page page' : Word} (hpage : page.toNat % 4096 = 0)
    (hpage' : page'.toNat % 4096 = 0) {i j : ℕ} (hi : i < 1024) (hj : j < 1024) :
    entry page i = entry page' j ↔ page = page' ∧ i = j := by
  have hentry := toNat_entry_page hpage hi
  have hentry' := toNat_entry_page hpage' hj
  constructor
  · intro heq
    rw [heq] at hentry
    exact ⟨BitVec.eq_of_toNat_eq (by omega), by omega⟩
  · rintro ⟨rfl, rfl⟩
    rfl

/-- Storing one entry of a page of words keeps all other entries of all pages. -/
theorem Bytes.putWord_entry_of_ne {v : Bytes} {page page' : Word} (w : Word)
    (hpage : page.toNat % 4096 = 0) (hpage' : page'.toNat % 4096 = 0) {i j : ℕ} (hi : i < 1024)
    (hj : j < 1024) (hne : page ≠ page' ∨ i ≠ j) :
    (v.putWord (entry page' j) w).word (entry page i) = v.word (entry page i) := by
  have hentry := toNat_entry_page hpage hi
  have hentry' := toNat_entry_page hpage' hj
  apply Bytes.word_putWord_of_ne w (by omega) (by omega)
  rw [Ne, entry_page_inj hpage hpage' hi hj]
  rintro ⟨rfl, rfl⟩
  simp at hne

end Nimbu
