import Nimbu.Machine.Memory

/-!
# Segment descriptors

`gdt.c` fills the global descriptor table, six descriptors of eight bytes. A
descriptor holds the base, the limit, the access byte and the flags of a segment in
pieces, and the processor puts these together again. The flags do not get that far.
-/

namespace Nimbu

/-- `SEG_ACCESS_PRESENT`. -/
def segAccessPresent : Byte := 0x80

/-- `SEG_ACCESS_PRIVILEGE_0`. -/
def segAccessPrivilege0 : Byte := 0x00

/-- `SEG_ACCESS_PRIVILEGE_3`. -/
def segAccessPrivilege3 : Byte := 0x60

/-- `SEG_ACCESS_CODE`. -/
def segAccessCode : Byte := 0x08

/-- `SEG_ACCESS_DATA`. -/
def segAccessData : Byte := 0x00

/-- `SEG_ACCESS_READABLE`. -/
def segAccessReadable : Byte := 0x02

/-- `SEG_ACCESS_WRITABLE`. -/
def segAccessWritable : Byte := 0x02

/-- `SEG_FLAG_GRANULARITY`. -/
def segFlagGranularity : Byte := 0x08

/-- `SEG_FLAG_32BIT`. -/
def segFlag32Bit : Byte := 0x04

/-- `gdt_entry_t`. -/
structure GdtEntry where
  /-- Segment limit (lower 16 bits). -/
  limitLow : BitVec 16
  /-- Base address (lower 16 bits). -/
  baseLow : BitVec 16
  /-- Base address (next 8 bits). -/
  baseMid : Byte
  /-- Access byte. -/
  access : Byte
  /-- Limit (upper 4 bits) + flags (upper 4 bits). -/
  limitHigh : Byte
  /-- Base address (upper 8 bits). -/
  baseHigh : Byte
  deriving DecidableEq

/-- The bytes of an entry in memory, where it is packed. -/
def GdtEntry.bytes (e : GdtEntry) : Vector Byte 8 :=
  #v[e.limitLow.extractLsb' 0 8, e.limitLow.extractLsb' 8 8, e.baseLow.extractLsb' 0 8,
    e.baseLow.extractLsb' 8 8, e.baseMid, e.access, e.limitHigh, e.baseHigh]

/-- The entry that `gdt_set_entry` writes. The flags are shifted as an `int` and cut to a
byte with the limit. -/
def gdtEntry (base limit : Word) (access flags : Byte) : GdtEntry where
  baseLow := (base &&& 0xFFFF).setWidth 16
  baseMid := ((base >>> 16) &&& 0xFF).setWidth 8
  baseHigh := ((base >>> 24) &&& 0xFF).setWidth 8
  limitLow := (limit &&& 0xFFFF).setWidth 16
  limitHigh := (((limit >>> 16) &&& (0x0F : Word)) |||
    ((flags.setWidth 32 &&& (0xF0 : Word)) <<< 4)).setWidth 8
  access := access

/-- `gdt_set_entry`. -/
def gdtSetEntry (gdt : Vector GdtEntry 6) (index base limit : Word) (access flags : Byte) :
    Vector GdtEntry 6 :=
  if index ≥ 6 then gdt
  else gdt.setIfInBounds index.toNat (gdtEntry base limit access flags)

/-- `gdt_init`, up to the flush. -/
def gdtInit (gdt : Vector GdtEntry 6) : Vector GdtEntry 6 :=
  let gdt := gdtSetEntry gdt 0 0 0 0 0
  let gdt := gdtSetEntry gdt 1 0 0xFFFFFFFF
    (segAccessPresent ||| segAccessPrivilege0 ||| segAccessCode ||| segAccessReadable)
    (segFlagGranularity ||| segFlag32Bit)
  let gdt := gdtSetEntry gdt 2 0 0xFFFFFFFF
    (segAccessPresent ||| segAccessPrivilege0 ||| segAccessData ||| segAccessWritable)
    (segFlagGranularity ||| segFlag32Bit)
  let gdt := gdtSetEntry gdt 3 0 0xFFFFFFFF
    (segAccessPresent ||| segAccessPrivilege3 ||| segAccessCode ||| segAccessReadable)
    (segFlagGranularity ||| segFlag32Bit)
  let gdt := gdtSetEntry gdt 4 0 0xFFFFFFFF
    (segAccessPresent ||| segAccessPrivilege3 ||| segAccessData ||| segAccessWritable)
    (segFlagGranularity ||| segFlag32Bit)
  gdtSetEntry gdt 5 0 0xFFFFFFFF (segAccessPresent ||| segAccessPrivilege0)
    (segFlagGranularity ||| segFlag32Bit)

/-- A segment as the processor sees it. -/
structure Segment where
  /-- The base address. -/
  base : Word
  /-- The limit. -/
  limit : BitVec 20
  /-- The access byte. -/
  access : Byte
  /-- The flags: granularity, operand size, 64-bit code and the available bit. -/
  flags : BitVec 4
  deriving DecidableEq

/-- What the processor reads from the eight bytes of a descriptor. -/
def cpuSegment (b : Vector Byte 8) : Segment where
  base := (b[7] ++ b[4] ++ b[3] ++ b[2] : BitVec (8 + 8 + 8 + 8))
  limit := (b[6].extractLsb' 0 4 ++ b[1] ++ b[0] : BitVec (4 + 8 + 8))
  access := b[5]
  flags := b[6].extractLsb' 4 4

/-- The members of an entry, as the processor takes them. -/
theorem cpuSegment_bytes (e : GdtEntry) :
    cpuSegment e.bytes =
      ⟨(e.baseHigh ++ e.baseMid ++ e.baseLow.extractLsb' 8 8 ++ e.baseLow.extractLsb' 0 8 :
          BitVec (8 + 8 + 8 + 8)),
        (e.limitHigh.extractLsb' 0 4 ++ e.limitLow.extractLsb' 8 8 ++ e.limitLow.extractLsb' 0 8 :
          BitVec (4 + 8 + 8)),
        e.access, e.limitHigh.extractLsb' 4 4⟩ :=
  rfl

section Pieces

/-- Eight bits of a word, as the code takes them. -/
theorem setWidth_shift_mask (w : Word) (k : ℕ) :
    ((w >>> k) &&& 0xFF).setWidth 8 = w.extractLsb' k 8 := by
  apply BitVec.eq_of_toNat_eq
  rw [BitVec.toNat_setWidth, BitVec.toNat_and, BitVec.toNat_ushiftRight, BitVec.extractLsb'_toNat,
    show (0xFF : Word).toNat = 2 ^ 8 - 1 from rfl, Nat.and_two_pow_sub_one_eq_mod, Nat.mod_mod]

/-- The low half of a word. -/
theorem setWidth_mask (w : Word) : (w &&& 0xFFFF).setWidth 16 = w.extractLsb' 0 16 := by
  apply BitVec.eq_of_toNat_eq
  rw [BitVec.toNat_setWidth, BitVec.toNat_and, BitVec.extractLsb'_toNat, Nat.shiftRight_zero,
    show (0xFFFF : Word).toNat = 2 ^ 16 - 1 from rfl, Nat.and_two_pow_sub_one_eq_mod, Nat.mod_mod]

/-- A byte of the low half. -/
theorem extractLsb'_low_half (w : Word) {k : ℕ} (hk : k + 8 ≤ 16) :
    (w.extractLsb' 0 16).extractLsb' k 8 = w.extractLsb' k 8 := by
  apply BitVec.eq_of_getLsbD_eq
  intro i hi
  simp only [BitVec.getLsbD_extractLsb']
  grind

/-- The low 20 bits of a word from its bytes. -/
theorem limit_of_pieces (w : Word) :
    (w.extractLsb' 16 4 ++ w.extractLsb' 8 8 ++ w.extractLsb' 0 8 : BitVec (4 + 8 + 8)) =
      w.setWidth 20 := by
  apply BitVec.eq_of_getLsbD_eq
  intro i hi
  simp only [BitVec.getLsbD_append, BitVec.getLsbD_extractLsb', BitVec.getLsbD_setWidth]
  grind

/-- No bit of the flags is left in the byte that they share with the limit. -/
theorem flags_shifted_out (flags : Byte) :
    ((flags.setWidth 32 &&& (0xF0 : Word)) <<< 4).setWidth 8 = 0#8 := by
  revert flags
  decide

/-- The two halves of a byte that holds four bits. -/
theorem halves_of_nibble (b : BitVec 4) :
    (b.setWidth 8).extractLsb' 0 4 = b ∧ (b.setWidth 8).extractLsb' 4 4 = 0 := by
  revert b
  decide

end Pieces

section Entry

variable (base limit : Word) (access flags : Byte)

/-- The low bits of the base. -/
theorem gdtEntry_baseLow : (gdtEntry base limit access flags).baseLow = base.extractLsb' 0 16 :=
  setWidth_mask base

/-- The next bits of the base. -/
theorem gdtEntry_baseMid : (gdtEntry base limit access flags).baseMid = base.extractLsb' 16 8 :=
  setWidth_shift_mask base 16

/-- The high bits of the base. -/
theorem gdtEntry_baseHigh : (gdtEntry base limit access flags).baseHigh = base.extractLsb' 24 8 :=
  setWidth_shift_mask base 24

/-- The low bits of the limit. -/
theorem gdtEntry_limitLow : (gdtEntry base limit access flags).limitLow = limit.extractLsb' 0 16 :=
  setWidth_mask limit

/-- The high bits of the limit, and no flags. -/
theorem gdtEntry_limitHigh :
    (gdtEntry base limit access flags).limitHigh = (limit.extractLsb' 16 4).setWidth 8 := by
  simp only [gdtEntry, BitVec.setWidth_or, flags_shifted_out]
  apply BitVec.eq_of_toNat_eq
  rw [BitVec.or_zero, BitVec.toNat_setWidth, BitVec.toNat_and, BitVec.toNat_ushiftRight,
    BitVec.toNat_setWidth, BitVec.extractLsb'_toNat, show (0x0F : Word).toNat = 2 ^ 4 - 1 from rfl,
    Nat.and_two_pow_sub_one_eq_mod]

/-- The processor gets the base, the limit and the access byte back, and no flags. -/
theorem cpuSegment_gdtEntry :
    cpuSegment (gdtEntry base limit access flags).bytes =
      ⟨base, limit.setWidth 20, access, 0⟩ := by
  obtain ⟨hlow, hhigh⟩ := halves_of_nibble (limit.extractLsb' 16 4)
  rw [cpuSegment_bytes, gdtEntry_baseLow, gdtEntry_baseMid, gdtEntry_baseHigh, gdtEntry_limitLow,
    gdtEntry_limitHigh, extractLsb'_low_half base (by omega), extractLsb'_low_half base (by omega),
    extractLsb'_low_half limit (by omega), extractLsb'_low_half limit (by omega), hlow, hhigh,
    word_of_bytes, limit_of_pieces]
  rfl

end Entry

section Table

variable (gdt : Vector GdtEntry 6) (index base limit : Word) (access flags : Byte)

/-- Behind the end of the table nothing is set. -/
theorem gdtSetEntry_of_ge (hindex : 6 ≤ index.toNat) :
    gdtSetEntry gdt index base limit access flags = gdt :=
  if_pos hindex

/-- The entry that was set, and every other one. -/
theorem gdtSetEntry_getElem (hindex : index.toNat < 6) {j : ℕ} (hj : j < 6) :
    (gdtSetEntry gdt index base limit access flags)[j] =
      if j = index.toNat then gdtEntry base limit access flags else gdt[j] := by
  have hbelow : ¬ index ≥ 6 := fun h => absurd hindex (not_lt.mpr h)
  simp only [gdtSetEntry, if_neg hbelow, Vector.getElem_setIfInBounds, eq_comm]

/-- `gdt_set_entry` encodes a segment: the processor decodes the entry to what was passed, every
other entry is kept, and an index behind the table changes nothing. -/
def EncodesSegment : Prop :=
  (∀ h : index.toNat < 6,
    cpuSegment ((gdtSetEntry gdt index base limit access flags)[index.toNat].bytes) =
      ⟨base, limit.setWidth 20, access, flags.setWidth 4⟩) ∧
  (∀ (j : ℕ) (hj : j < 6), j ≠ index.toNat →
    (gdtSetEntry gdt index base limit access flags)[j] = gdt[j]) ∧
  (6 ≤ index.toNat → gdtSetEntry gdt index base limit access flags = gdt)

/-- **A descriptor keeps all but its flags.** For every table, index, base, limit and access
byte and every nibble of flags, the segment is encoded exactly when the flags are 0 or the
index lies behind the table. -/
theorem encodesSegment_iff (hflags : flags.toNat ≤ 15) :
    EncodesSegment gdt index base limit access flags ↔ 6 ≤ index.toNat ∨ flags = 0 := by
  constructor
  · rintro ⟨hdecodes, -, -⟩
    by_cases hindex : index.toNat < 6
    · have hsegment := hdecodes hindex
      rw [gdtSetEntry_getElem _ _ _ _ _ _ hindex hindex, if_pos rfl, cpuSegment_gdtEntry,
        Segment.mk.injEq] at hsegment
      have hzero : flags.setWidth 4 = 0 := hsegment.2.2.2.symm
      refine Or.inr (BitVec.eq_of_toNat_eq ?_)
      have hnat := congrArg BitVec.toNat hzero
      rw [BitVec.toNat_setWidth, Nat.mod_eq_of_lt (by omega)] at hnat
      exact hnat
    · exact Or.inl (not_lt.mp hindex)
  · intro hcondition
    refine ⟨fun hindex => ?_, fun j hj hne => ?_, gdtSetEntry_of_ge _ _ _ _ _ _⟩
    · have hzero : flags = 0 := hcondition.resolve_left (not_le.mpr hindex)
      rw [gdtSetEntry_getElem _ _ _ _ _ _ hindex hindex, if_pos rfl, cpuSegment_gdtEntry, hzero]
      rfl
    · by_cases hindex : index.toNat < 6
      · rw [gdtSetEntry_getElem _ _ _ _ _ _ hindex hj, if_neg hne]
      · simp only [gdtSetEntry_of_ge _ _ _ _ _ _ (not_lt.mp hindex)]

end Table

/-- The null descriptor. -/
theorem encodesSegment_null :
    EncodesSegment (Vector.replicate 6 (gdtEntry 0 0xFFFFFFFF 0xFF 0x0F)) 0 0 0 0 0 :=
  (encodesSegment_iff (Vector.replicate 6 (gdtEntry 0 0xFFFFFFFF 0xFF 0x0F)) 0 0 0 0 0
    (by decide)).mpr (Or.inr rfl)

/-- The kernel's code segment loses its granularity and its operand size. -/
theorem not_encodesSegment_kernel_code :
    cpuSegment ((gdtSetEntry (Vector.replicate 6 (gdtEntry 0 0 0 0)) 1 0 0xFFFFFFFF 0x8A
        (segFlagGranularity ||| segFlag32Bit))[1].bytes) = ⟨0, 0xFFFFF, 0x8A, 0⟩ ∧
      ¬ EncodesSegment (Vector.replicate 6 (gdtEntry 0 0 0 0)) 1 0 0xFFFFFFFF 0x8A
        (segFlagGranularity ||| segFlag32Bit) := by
  have hdecoded : cpuSegment ((gdtSetEntry (Vector.replicate 6 (gdtEntry 0 0 0 0)) 1 0 0xFFFFFFFF
      0x8A (segFlagGranularity ||| segFlag32Bit))[1].bytes) = ⟨0, 0xFFFFF, 0x8A, 0⟩ := by
    decide
  refine ⟨hdecoded, ?_⟩
  rintro ⟨hdecodes, -, -⟩
  exact absurd (hdecoded.symm.trans (hdecodes (by decide))) (by decide)

section Init

/-- The first descriptors of a table have no flags. -/
def NoFlagsBelow (k : ℕ) (gdt : Vector GdtEntry 6) : Prop :=
  ∀ (j : ℕ) (hj : j < 6), j < k → (cpuSegment gdt[j].bytes).flags = 0

/-- Neither has the next one that is set. -/
theorem NoFlagsBelow.set {k : ℕ} {gdt : Vector GdtEntry 6} (h : NoFlagsBelow k gdt) {index : Word}
    (hindex : index.toNat = k) (hk : k < 6) (base limit : Word) (access flags : Byte) :
    NoFlagsBelow (k + 1) (gdtSetEntry gdt index base limit access flags) := by
  intro j hj hle
  rw [gdtSetEntry_getElem _ _ _ _ _ _ (hindex ▸ hk) hj]
  split
  · rw [cpuSegment_gdtEntry]
  · rename_i hne
    exact h j hj (by omega)

/-- All segments of `gdt_init` lack the flags that it passes: the limits count bytes, and the
code and the data have 16 bits. -/
theorem gdtInit_flags (gdt : Vector GdtEntry 6) : NoFlagsBelow 6 (gdtInit gdt) := by
  have hnone : NoFlagsBelow 0 gdt := fun j _ hlt => absurd hlt (Nat.not_lt_zero j)
  exact (((((hnone.set rfl (by decide) _ _ _ _).set rfl (by decide) _ _ _ _).set rfl
    (by decide) _ _ _ _).set rfl (by decide) _ _ _ _).set rfl (by decide) _ _ _ _).set rfl
    (by decide) _ _ _ _

end Init

end Nimbu
