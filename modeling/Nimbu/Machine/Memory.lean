import Mathlib.Algebra.Group.Nat.Defs
import Mathlib.Data.Set.Basic
import Mathlib.Logic.Function.Basic
import Mathlib.Tactic.Common

/-!
# Byte memories of a 32-bit machine

Code reaches memory through a `Bus`, which loads and stores single bytes and
may refuse an access. The same code then runs on a flat linear memory, on one
array of bytes that faults outside its bounds, or behind a page table. Words
are stored in little-endian order, as on the i686.
-/

namespace Nimbu

/-- A 32-bit machine word, also used as an address. -/
abbrev Word := BitVec 32

/-- One byte of memory. -/
abbrev Byte := BitVec 8

/-- The contents of an address space, byte by byte. -/
abbrev Bytes := Word → Byte

/-- The word stored at an address in little-endian order. -/
def Bytes.word (v : Bytes) (a : Word) : Word :=
  (v (a + 3) ++ v (a + 2) ++ v (a + 1) ++ v a : BitVec (8 + 8 + 8 + 8))

/-- Replace one byte. -/
def Bytes.put (v : Bytes) (a : Word) (b : Byte) : Bytes := Function.update v a b

/-- Replace the four bytes of a word, lowest byte first. -/
def Bytes.putWord (v : Bytes) (a w : Word) : Bytes :=
  (((v.put a (w.extractLsb' 0 8)).put (a + 1) (w.extractLsb' 8 8)).put (a + 2)
    (w.extractLsb' 16 8)).put (a + 3) (w.extractLsb' 24 8)

/-- The byte just stored is read back and every other byte is kept. -/
theorem Bytes.put_apply (v : Bytes) (a : Word) (b : Byte) (c : Word) :
    v.put a b c = if c = a then b else v c := by
  simp [Bytes.put, Function.update_apply]

/-- A store leaves every other byte alone. -/
theorem Bytes.put_of_ne {v : Bytes} {a c : Word} (b : Byte) (h : c ≠ a) :
    v.put a b c = v c := by
  rw [Bytes.put_apply, if_neg h]

/-- The four bytes of a word, put together again, are the word. -/
theorem word_of_bytes (w : Word) :
    (w.extractLsb' 24 8 ++ w.extractLsb' 16 8 ++ w.extractLsb' 8 8 ++ w.extractLsb' 0 8 :
      BitVec (8 + 8 + 8 + 8)) = w := by
  apply BitVec.eq_of_getLsbD_eq
  intro i hi
  simp only [BitVec.getLsbD_append, BitVec.getLsbD_extractLsb']
  grind

/-- A word store leaves every byte outside its four addresses alone. -/
theorem Bytes.putWord_of_ne {v : Bytes} {a c : Word} (w : Word) (h0 : c ≠ a) (h1 : c ≠ a + 1)
    (h2 : c ≠ a + 2) (h3 : c ≠ a + 3) : v.putWord a w c = v c := by
  simp only [Bytes.putWord, Bytes.put_apply, h0, h1, h2, h3, if_false]

/-- A stored word is read back. -/
@[simp] theorem Bytes.word_putWord_self (v : Bytes) (a w : Word) : (v.putWord a w).word a = w := by
  have h01 : a ≠ a + 1 := by bv_omega
  have h02 : a ≠ a + 2 := by bv_omega
  have h03 : a ≠ a + 3 := by bv_omega
  have h12 : a + 1 ≠ a + 2 := by bv_omega
  have h13 : a + 1 ≠ a + 3 := by bv_omega
  have h23 : a + 2 ≠ a + 3 := by bv_omega
  simp only [Bytes.word, Bytes.putWord, Bytes.put_apply, if_true, h01, h02, h03, h12, h13, h23,
    if_false]
  exact word_of_bytes w

/-- Two address spaces that agree on the four bytes of a word agree on the word. -/
theorem Bytes.word_congr {v v' : Bytes} {a : Word} (h0 : v a = v' a) (h1 : v (a + 1) = v' (a + 1))
    (h2 : v (a + 2) = v' (a + 2)) (h3 : v (a + 3) = v' (a + 3)) : v.word a = v'.word a := by
  simp only [Bytes.word, h0, h1, h2, h3]

/-- The bits of a word in memory. -/
theorem Bytes.getLsbD_word (v : Bytes) (a : Word) {i : ℕ} (hi : i < 32) :
    (v.word a).getLsbD i = (v (a + BitVec.ofNat 32 (i / 8))).getLsbD (i % 8) := by
  have h0 : a + BitVec.ofNat 32 0 = a := by simp
  unfold Bytes.word
  simp only [BitVec.getLsbD_append]
  obtain hq | hq | hq | hq : i / 8 = 0 ∨ i / 8 = 1 ∨ i / 8 = 2 ∨ i / 8 = 3 := by omega
  · rw [hq, h0, if_pos (by omega), Nat.mod_eq_of_lt (by omega)]
  · rw [hq, if_neg (by omega), if_pos (by omega), show i % 8 = i - 8 by omega]
    rfl
  · rw [hq, if_neg (by omega), if_neg (by omega), if_pos (by omega),
      show i % 8 = i - 8 - 8 by omega]
    rfl
  · rw [hq, if_neg (by omega), if_neg (by omega), if_neg (by omega),
      show i % 8 = i - 8 - 8 - 8 by omega]
    rfl

/-- The bytes of a word in memory. -/
theorem Bytes.byte_of_word (v : Bytes) (a : Word) {k : ℕ} (hk : k < 4) :
    v (a + BitVec.ofNat 32 k) = (v.word a).extractLsb' (8 * k) 8 := by
  apply BitVec.eq_of_getLsbD_eq
  intro i hi
  rw [BitVec.getLsbD_extractLsb', v.getLsbD_word a (show 8 * k + i < 32 by omega),
    show (8 * k + i) / 8 = k by omega, show (8 * k + i) % 8 = i by omega, decide_eq_true hi,
    Bool.true_and]

/-- Two address spaces agree on a word exactly when they agree on its four bytes. -/
theorem Bytes.word_eq_iff {v v' : Bytes} {a : Word} : v.word a = v'.word a ↔
    ∀ k < 4, v (a + BitVec.ofNat 32 k) = v' (a + BitVec.ofNat 32 k) := by
  constructor
  · intro hword k hk
    rw [v.byte_of_word a hk, v'.byte_of_word a hk, hword]
  · intro hbyte
    exact Bytes.word_congr (by simpa using hbyte 0 (by decide)) (hbyte 1 (by decide))
      (hbyte 2 (by decide)) (hbyte 3 (by decide))

/-- Different offsets from one base are different addresses. -/
theorem offset_inj {base : Word} {i j : ℕ} (hi : i < 2 ^ 32) (hj : j < 2 ^ 32) :
    base + BitVec.ofNat 32 i = base + BitVec.ofNat 32 j ↔ i = j := by
  constructor
  · intro h
    bv_omega
  · rintro rfl
    rfl

/-- Access to the bytes of a memory `M`. A refused access is `none`. -/
structure Bus (M : Type) where
  /-- Read one byte. -/
  load : M → Word → Option Byte
  /-- Write one byte. -/
  store : M → Word → Byte → Option M

namespace Bus

variable {M : Type}

/-- Read a little-endian word. -/
def loadWord (bus : Bus M) (m : M) (a : Word) : Option Word := do
  let b0 ← bus.load m a
  let b1 ← bus.load m (a + 1)
  let b2 ← bus.load m (a + 2)
  let b3 ← bus.load m (a + 3)
  return (b3 ++ b2 ++ b1 ++ b0 : BitVec (8 + 8 + 8 + 8))

/-- Write a little-endian word, lowest byte first. -/
def storeWord (bus : Bus M) (m : M) (a w : Word) : Option M := do
  let m ← bus.store m a (w.extractLsb' 0 8)
  let m ← bus.store m (a + 1) (w.extractLsb' 8 8)
  let m ← bus.store m (a + 2) (w.extractLsb' 16 8)
  bus.store m (a + 3) (w.extractLsb' 24 8)

/-- On the memories satisfying `ok` and the addresses in `S`, the bus behaves
as plain memory with contents `view`. -/
structure Lawful (bus : Bus M) (ok : M → Prop) (view : M → Bytes) (S : Set Word) : Prop where
  /-- Every load in `S` succeeds and reads the contents. -/
  load_eq : ∀ {m a}, ok m → a ∈ S → bus.load m a = some (view m a)
  /-- Every store in `S` succeeds and replaces the one byte. -/
  store_eq : ∀ {m a} (b), ok m → a ∈ S →
    ∃ m', bus.store m a b = some m' ∧ ok m' ∧ view m' = (view m).put a b

variable {bus : Bus M} {ok : M → Prop} {view : M → Bytes} {S : Set Word}

/-- A word store on a lawful bus replaces the word's four bytes. -/
theorem Lawful.storeWord_eq (h : bus.Lawful ok view S) {m : M} (hm : ok m) {a : Word} (w : Word)
    (h0 : a ∈ S) (h1 : a + 1 ∈ S) (h2 : a + 2 ∈ S) (h3 : a + 3 ∈ S) :
    ∃ m', bus.storeWord m a w = some m' ∧ ok m' ∧ view m' = (view m).putWord a w := by
  obtain ⟨m0, hs0, hk0, hv0⟩ := h.store_eq (w.extractLsb' 0 8) hm h0
  obtain ⟨m1, hs1, hk1, hv1⟩ := h.store_eq (w.extractLsb' 8 8) hk0 h1
  obtain ⟨m2, hs2, hk2, hv2⟩ := h.store_eq (w.extractLsb' 16 8) hk1 h2
  obtain ⟨m3, hs3, hk3, hv3⟩ := h.store_eq (w.extractLsb' 24 8) hk2 h3
  refine ⟨m3, ?_, hk3, ?_⟩
  · simp only [storeWord, hs0, hs1, hs2, hs3, Option.bind_eq_bind, Option.bind_some]
  · rw [hv3, hv2, hv1, hv0, Bytes.putWord]

/-- A word store on a bus that is plain memory everywhere. -/
theorem Lawful.storeWord_univ (h : bus.Lawful ok view Set.univ) {m : M} (hm : ok m) (a w : Word) :
    ∃ m', bus.storeWord m a w = some m' ∧ ok m' ∧ view m' = (view m).putWord a w :=
  h.storeWord_eq hm w (Set.mem_univ _) (Set.mem_univ _) (Set.mem_univ _) (Set.mem_univ _)

/-- A loop whose every round has a known effect on the contents has the effects
of its rounds, one after the other. -/
theorem foldlM_eq {ι : Type*} (round : M → ι → Option M) (effect : Bytes → ι → Bytes) {l : List ι}
    (hround : ∀ i ∈ l, ∀ m, ok m →
      ∃ m', round m i = some m' ∧ ok m' ∧ view m' = effect (view m) i)
    {m : M} (hm : ok m) :
    ∃ m', l.foldlM round m = some m' ∧ ok m' ∧ view m' = l.foldl effect (view m) := by
  induction l generalizing m with
  | nil => exact ⟨m, rfl, hm, rfl⟩
  | cons i l ih =>
    obtain ⟨m₁, hs, hk, hv⟩ := hround i (by simp) m hm
    obtain ⟨m₂, hs₂, hk₂, hv₂⟩ := ih (fun j hj => hround j (by simp [hj])) hk
    refine ⟨m₂, ?_, hk₂, ?_⟩
    · simpa [hs] using hs₂
    · simpa [hv] using hv₂

/-- A loop of byte stores on a lawful bus performs the stores one by one. -/
theorem Lawful.foldlM_store (h : bus.Lawful ok view S) {ι : Type*} (addr : ι → Word)
    (val : ι → Byte) (l : List ι) {m : M} (hm : ok m) (hl : ∀ i ∈ l, addr i ∈ S) :
    ∃ m', l.foldlM (fun m i => bus.store m (addr i) (val i)) m = some m' ∧ ok m' ∧
      view m' = l.foldl (fun v i => v.put (addr i) (val i)) (view m) :=
  foldlM_eq (fun m i => bus.store m (addr i) (val i)) (fun v i => v.put (addr i) (val i))
    (fun i hi _ hk => h.store_eq (val i) hk (hl i hi)) hm

end Bus

/-- Filling `n` consecutive bytes with one value changes exactly these bytes. -/
theorem Bytes.foldl_put_range (v : Bytes) (base : Word) (b : Byte) {n : ℕ} (hn : n ≤ 2 ^ 32)
    (c : Word) :
    (List.range n).foldl (fun v i => v.put (base + BitVec.ofNat 32 i) b) v c =
      if (c - base).toNat < n then b else v c := by
  induction n with
  | zero => simp
  | succ n ih =>
    rw [List.range_succ, List.foldl_append]
    simp only [List.foldl_cons, List.foldl_nil, Bytes.put_apply, ih (by omega)]
    have hc : c = base + BitVec.ofNat 32 n ↔ (c - base).toNat = n := by
      constructor <;> intro h <;> bv_omega
    simp only [hc]
    grind

/-- A flat linear memory. `writes` records the addresses stored to, the latest
first; no code reads it. -/
structure Mem where
  /-- The contents. -/
  bytes : Bytes
  /-- The addresses of the stores made so far. -/
  writes : List Word

/-- Store one byte of a flat memory. -/
def Mem.put (m : Mem) (a : Word) (b : Byte) : Mem := ⟨m.bytes.put a b, a :: m.writes⟩

/-- Store one word of a flat memory, lowest byte first. -/
def Mem.putWord (m : Mem) (a w : Word) : Mem :=
  ⟨m.bytes.putWord a w, (a + 3) :: (a + 2) :: (a + 1) :: a :: m.writes⟩

/-- The bus of a flat memory: every access succeeds. -/
def Mem.bus : Bus Mem := ⟨fun m a => some (m.bytes a), fun m a b => some (m.put a b)⟩

@[simp] theorem Mem.bytes_put (m : Mem) (a : Word) (b : Byte) :
    (m.put a b).bytes = m.bytes.put a b := rfl

@[simp] theorem Mem.bytes_putWord (m : Mem) (a w : Word) :
    (m.putWord a w).bytes = m.bytes.putWord a w := rfl

@[simp] theorem Mem.bus_load (m : Mem) (a : Word) : Mem.bus.load m a = some (m.bytes a) := rfl

@[simp] theorem Mem.bus_store (m : Mem) (a : Word) (b : Byte) :
    Mem.bus.store m a b = some (m.put a b) := rfl

@[simp] theorem Mem.bus_loadWord (m : Mem) (a : Word) :
    Mem.bus.loadWord m a = some (m.bytes.word a) := rfl

@[simp] theorem Mem.bus_storeWord (m : Mem) (a w : Word) :
    Mem.bus.storeWord m a w = some (m.putWord a w) := rfl

/-- A flat memory is plain memory at every address. -/
theorem Mem.lawful : Mem.bus.Lawful (fun _ => True) Mem.bytes Set.univ :=
  ⟨fun _ _ => rfl, fun _ _ _ => ⟨_, rfl, trivial, rfl⟩⟩

/-- One array of `size` bytes at address `base`, and nothing around it. -/
def arrayBus (base : Word) (size : ℕ) : Bus (Vector Byte size) where
  load m a := m[(a - base).toNat]?
  store m a b := if h : (a - base).toNat < size then some (m.set (a - base).toNat b h) else none

/-- The contents of an array of bytes at `base`, read as zero outside it. -/
def arrayView (base : Word) (size : ℕ) (m : Vector Byte size) : Bytes :=
  fun a => m[(a - base).toNat]?.getD 0

/-- The array is plain memory within its bounds. -/
theorem arrayBus_lawful (base : Word) (size : ℕ) :
    (arrayBus base size).Lawful (fun _ => True) (arrayView base size)
      {a | (a - base).toNat < size} where
  load_eq := by
    intro m a _ ha
    have ha' : (a - base).toNat < size := ha
    simp only [arrayBus, arrayView, Vector.getElem?_eq_getElem ha', Option.getD_some]
  store_eq := by
    intro m a b _ ha
    have ha' : (a - base).toNat < size := ha
    refine ⟨m.set (a - base).toNat b, by simp only [arrayBus, dif_pos ha'], trivial, ?_⟩
    funext c
    have hc : (a - base).toNat = (c - base).toNat ↔ c = a := by
      constructor <;> intro h
      · bv_omega
      · rw [h]
    simp only [arrayView, Bytes.put_apply, Vector.getElem?_set, hc]
    split <;> rfl

end Nimbu
