import Nimbu.Machine.Memory

/-!
# Bitmaps packed into bytes

Bit `i` of a bitmap at `base` is bit `i % 8` of byte `i / 8`. Or-ing in a mask
sets one bit of the whole bitmap, and-ing with its complement clears one.
-/

namespace Nimbu

/-- Bit `i` of the bitmap at `base`. -/
def Bytes.bit (v : Bytes) (base : Word) (i : ℕ) : Bool :=
  (v (base + BitVec.ofNat 32 (i / 8))).getLsbD (i % 8)

/-- Shifting a bit down to position zero and masking reads it. -/
theorem shiftRight_and_one_eq_zero_iff (b : Byte) (k : ℕ) :
    (b >>> k) &&& 1#8 = 0 ↔ b.getLsbD k = false := by
  constructor
  · intro h
    have h0 := congrArg (fun x : Byte => x.getLsbD 0) h
    simpa using h0
  · intro h
    apply BitVec.eq_of_getLsbD_eq
    intro i hi
    cases i with
    | zero => simpa using h
    | succ i => simp [BitVec.getLsbD_one]

/-- A byte is zero when all its bits are clear. -/
theorem byte_eq_zero_iff (b : Byte) : b = 0 ↔ ∀ k < 8, b.getLsbD k = false := by
  constructor
  · rintro rfl k -
    simp
  · intro h
    apply BitVec.eq_of_getLsbD_eq
    intro i hi
    simpa using h i hi

/-- The byte index of a bit, computed on words. -/
theorem byteIdx_eq {i : ℕ} (hi : i < 2 ^ 32) :
    BitVec.ofNat 32 i / 8 = BitVec.ofNat 32 (i / 8) := by
  apply BitVec.eq_of_toNat_eq
  simp only [BitVec.toNat_udiv, BitVec.toNat_ofNat]
  rw [Nat.mod_eq_of_lt hi, Nat.mod_eq_of_lt (by omega : i / 8 < 2 ^ 32)]
  rfl

/-- The index of a bit within its byte, computed on words. -/
theorem bitIdx_eq {i : ℕ} (hi : i < 2 ^ 32) : (BitVec.ofNat 32 i % 8).toNat = i % 8 := by
  simp only [BitVec.toNat_umod, BitVec.toNat_ofNat]
  rw [Nat.mod_eq_of_lt hi]
  rfl

/-- Or-ing a one-bit mask into its byte sets exactly that bit of the bitmap. -/
theorem Bytes.bit_put_or (v : Bytes) (base : Word) {i j : ℕ} (hi : i < 2 ^ 32) (hj : j < 2 ^ 32) :
    (v.put (base + BitVec.ofNat 32 (i / 8))
        (v (base + BitVec.ofNat 32 (i / 8)) ||| 1#8 <<< (i % 8))).bit base j =
      (v.bit base j || decide (j = i)) := by
  simp only [Bytes.bit, Bytes.put_apply, offset_inj (show j / 8 < 2 ^ 32 by omega)
    (show i / 8 < 2 ^ 32 by omega)]
  split
  · rename_i hbyte
    have hbit : j % 8 < 8 := by omega
    rw [BitVec.getLsbD_or, hbyte, BitVec.getLsbD_shiftLeft, BitVec.getLsbD_one]
    grind
  · have hne : j ≠ i := by grind
    simp [hne]

/-- And-ing with the complement of a one-bit mask clears exactly that bit. -/
theorem Bytes.bit_put_and_not (v : Bytes) (base : Word) {i j : ℕ} (hi : i < 2 ^ 32)
    (hj : j < 2 ^ 32) :
    (v.put (base + BitVec.ofNat 32 (i / 8))
        (v (base + BitVec.ofNat 32 (i / 8)) &&& ~~~(1#8 <<< (i % 8)))).bit base j =
      (v.bit base j && decide (j ≠ i)) := by
  simp only [Bytes.bit, Bytes.put_apply, offset_inj (show j / 8 < 2 ^ 32 by omega)
    (show i / 8 < 2 ^ 32 by omega)]
  split
  · rename_i hbyte
    have hbit : j % 8 < 8 := by omega
    rw [BitVec.getLsbD_and, hbyte, BitVec.getLsbD_not, BitVec.getLsbD_shiftLeft,
      BitVec.getLsbD_one]
    grind
  · have hne : j ≠ i := by grind
    simp [hne]

end Nimbu
