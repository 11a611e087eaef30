import Mathlib.Data.Finset.Card
import Mathlib.Data.Nat.Find
import Nimbu.Machine.Bitmap
import Nimbu.Mm.Pmm

/-!
# Page frames as a set

The purpose of the frame allocator is to keep a set of held page frames, to
give out the least free one and to take held ones back. `Represents` relates
that set to the packed bitmap and the counters of `pmm.c`, and each operation
of `pmm.c` is shown to act on the bitmap as on the set. The bus is only assumed
to be plain memory on the bytes of the bitmap.
-/

namespace Nimbu

/-- A set of held page frames among frames `0, ..., total - 1`. -/
structure Frames where
  /-- Number of page frames. -/
  total : ℕ
  /-- Indices of the frames handed out. -/
  held : Finset ℕ
  /-- Only frames that exist are held. -/
  held_lt : ∀ i ∈ held, i < total

namespace Frames

/-- All frames free. -/
def empty (total : ℕ) : Frames := ⟨total, ∅, by simp⟩

/-- Hold one more frame. -/
def take (F : Frames) (i : ℕ) (hi : i < F.total) : Frames :=
  ⟨F.total, insert i F.held, by
    intro j hj
    rcases Finset.mem_insert.mp hj with rfl | hj
    · exact hi
    · exact F.held_lt j hj⟩

/-- Give one frame back. -/
def release (F : Frames) (i : ℕ) : Frames :=
  ⟨F.total, F.held.erase i, fun j hj => F.held_lt j (Finset.mem_of_mem_erase hj)⟩

/-- Hand out the least free frame and answer with its byte address; answer 0
when every frame is held. -/
def alloc (F : Frames) : ℕ × Frames :=
  if h : ∃ i, i < F.total ∧ i ∉ F.held then
    (Nat.find h * 4096, F.take (Nat.find h) (Nat.find_spec h).1)
  else (0, F)

/-- Allocate several frames, one after the other. -/
def allocs : ℕ → Frames → List ℕ × Frames
  | 0, F => ([], F)
  | count + 1, F =>
    let rest := allocs count F.alloc.2
    (F.alloc.1 :: rest.1, rest.2)

/-- Take back the frame at a byte address. Only an aligned address of a held
frame is accepted. -/
def free (F : Frames) (addr : ℕ) : ℤ × Frames :=
  if 4096 ∣ addr ∧ addr / 4096 < F.total ∧ addr / 4096 ∈ F.held then
    (0, F.release (addr / 4096))
  else (-1, F)

/-- Allocation takes the frame below which every frame is held. -/
theorem alloc_of_least {F : Frames} {i : ℕ} (hi : i < F.total) (hfree : i ∉ F.held)
    (hleast : ∀ j < i, j ∈ F.held) : F.alloc = (i * 4096, F.take i hi) := by
  have h : ∃ i, i < F.total ∧ i ∉ F.held := ⟨i, hi, hfree⟩
  have hfind : Nat.find h = i :=
    (Nat.find_eq_iff h).mpr ⟨⟨hi, hfree⟩, fun j hj hfreej => hfreej.2 (hleast j hj)⟩
  simp only [alloc, dif_pos h, hfind]

/-- Allocation from a full set changes nothing. -/
theorem alloc_of_full {F : Frames} (hfull : ∀ i < F.total, i ∈ F.held) : F.alloc = (0, F) := by
  have h : ¬ ∃ i, i < F.total ∧ i ∉ F.held := by
    rintro ⟨i, hi, hfree⟩
    exact hfree (hfull i hi)
  simp only [alloc, dif_neg h]

/-- A set of frames is full, or it has a least free frame. -/
theorem full_or_least (F : Frames) : (∀ i < F.total, i ∈ F.held) ∨
    ∃ i, i < F.total ∧ i ∉ F.held ∧ ∀ j < i, j ∈ F.held := by
  by_cases h : ∃ i, i < F.total ∧ i ∉ F.held
  · right
    refine ⟨Nat.find h, (Nat.find_spec h).1, (Nat.find_spec h).2, fun j hj => ?_⟩
    by_contra hfree
    exact Nat.find_min h hj ⟨by have := (Nat.find_spec h).1; omega, hfree⟩
  · left
    intro i hi
    by_contra hfree
    exact h ⟨i, hi, hfree⟩

/-- A full set holds every frame. -/
theorem le_card_of_full {F : Frames} (hfull : ∀ i < F.total, i ∈ F.held) :
    F.total ≤ F.held.card := by
  have hall : Finset.range F.total ⊆ F.held := fun i hi => hfull i (Finset.mem_range.mp hi)
  simpa using Finset.card_le_card hall

/-- Allocation hands out a frame other than 0 exactly when frame 0 is held and
some frame is free. -/
theorem alloc_ne_zero_iff (F : Frames) :
    F.alloc.1 ≠ 0 ↔ 0 ∈ F.held ∧ F.held.card < F.total := by
  have hsub : F.held ⊆ Finset.range F.total := fun i hi => Finset.mem_range.mpr (F.held_lt i hi)
  rcases F.full_or_least with hfull | ⟨i, hi, hfree, hleast⟩
  · have hcard := le_card_of_full hfull
    rw [alloc_of_full hfull]
    constructor
    · intro h
      exact absurd rfl h
    · intro h
      omega
  · have hssub : F.held ⊂ Finset.range F.total :=
      Finset.ssubset_iff_subset_ne.mpr
        ⟨hsub, fun heq => hfree (heq ▸ Finset.mem_range.mpr hi)⟩
    have hcard : F.held.card < F.total := by simpa using Finset.card_lt_card hssub
    rw [alloc_of_least hi hfree hleast]
    constructor
    · intro h
      have hpos : i ≠ 0 := by
        rintro rfl
        exact h rfl
      exact ⟨hleast 0 (by omega), hcard⟩
    · rintro ⟨hzero, -⟩ h
      have hi0 : i = 0 := by simp only at h; omega
      exact hfree (hi0 ▸ hzero)

/-- Two allocations hand out frames other than 0 exactly when frame 0 is held and
two frames are free. -/
theorem alloc_alloc_ne_zero_iff (F : Frames) :
    (F.alloc.1 ≠ 0 ∧ F.alloc.2.alloc.1 ≠ 0) ↔ 0 ∈ F.held ∧ F.held.card + 2 ≤ F.total := by
  rw [alloc_ne_zero_iff, alloc_ne_zero_iff]
  rcases F.full_or_least with hfull | ⟨i, hi, hfree, hleast⟩
  · have hcard := le_card_of_full hfull
    constructor <;> intro h <;> omega
  · have hcard : (F.take i hi).held.card = F.held.card + 1 := Finset.card_insert_of_notMem hfree
    rw [alloc_of_least hi hfree hleast, hcard]
    constructor
    · rintro ⟨⟨hzero, -⟩, -, hroom⟩
      exact ⟨hzero, hroom⟩
    · rintro ⟨hzero, hroom⟩
      exact ⟨⟨hzero, by omega⟩, Finset.mem_insert_of_mem hzero, hroom⟩

/-- At most `n` frames below `n` are held. -/
theorem card_le_of_below {F : Frames} {n : ℕ} (hbelow : ∀ i ∈ F.held, i < n) :
    F.held.card ≤ n := by
  have hsub : F.held ⊆ Finset.range n := fun i hi => Finset.mem_range.mpr (hbelow i hi)
  simpa using Finset.card_le_card hsub

/-- While only frames below `n` are held, allocation hands out a frame below `n`,
and frame `n` itself once these are used up. -/
theorem alloc_below {F : Frames} {n : ℕ} (hn : n < F.total) (hbelow : ∀ i ∈ F.held, i < n) :
    (F.held.card < n ∧ ∃ i, ∃ hi : i < F.total, i < n ∧ i ∉ F.held ∧
      F.alloc = (i * 4096, F.take i hi)) ∨
    (F.held.card = n ∧ F.alloc.1 = n * 4096) := by
  have hsub : F.held ⊆ Finset.range n := fun i hi => Finset.mem_range.mpr (hbelow i hi)
  rcases F.full_or_least with hfull | ⟨i, hi, hfree, hleast⟩
  · exact absurd (hbelow n (hfull n hn)) (lt_irrefl n)
  · by_cases hin : i < n
    · left
      refine ⟨?_, i, hi, hin, hfree, alloc_of_least hi hfree hleast⟩
      have hssub : F.held ⊂ Finset.range n :=
        Finset.ssubset_iff_subset_ne.mpr
          ⟨hsub, fun heq => hfree (heq ▸ Finset.mem_range.mpr hin)⟩
      simpa using Finset.card_lt_card hssub
    · right
      have hrange : Finset.range n ⊆ F.held :=
        fun j hj => hleast j (by have := Finset.mem_range.mp hj; omega)
      have heq : F.held = Finset.range n := Finset.Subset.antisymm hsub hrange
      have hi' : i = n := by
        by_contra hne
        exact absurd (hbelow n (hleast n (by omega))) (lt_irrefl n)
      refine ⟨by rw [heq, Finset.card_range], ?_⟩
      simp only [alloc_of_least hi hfree hleast, hi']

/-- Where exactly the frames below `n` are held, allocation hands out frame `n`. -/
theorem alloc_of_range {F : Frames} {n : ℕ} (hn : n < F.total) (hheld : F.held = Finset.range n) :
    F.alloc.1 = n * 4096 ∧ F.alloc.2.held = Finset.range (n + 1) := by
  have hfree : n ∉ F.held := by
    rw [hheld]
    simp
  have hleast : ∀ j < n, j ∈ F.held := by
    rw [hheld]
    simp
  rw [alloc_of_least hn hfree hleast]
  refine ⟨rfl, ?_⟩
  simp only [take, hheld]
  exact Finset.range_add_one.symm

/-- While only frames below `n` are held and enough of them are free, allocation
stays below `n`; otherwise frame `n` is handed out. -/
theorem allocs_below {F : Frames} {n count : ℕ} (hn : n < F.total)
    (hbelow : ∀ i ∈ F.held, i < n) :
    (F.held.card + count ≤ n ∧ (∀ addr ∈ (allocs count F).1, ∃ i < n, addr = i * 4096) ∧
      ∀ i ∈ (allocs count F).2.held, i < n) ∨
    (n < F.held.card + count ∧ n * 4096 ∈ (allocs count F).1) := by
  induction count generalizing F with
  | zero => exact Or.inl ⟨card_le_of_below hbelow, by simp [allocs], hbelow⟩
  | succ count ih =>
    rcases alloc_below hn hbelow with ⟨hlt, i, hi, hin, hfree, halloc⟩ | ⟨hfull, halloc⟩
    · have hcard : (F.take i hi).held.card = F.held.card + 1 :=
        Finset.card_insert_of_notMem hfree
      have hbelow' : ∀ j ∈ (F.take i hi).held, j < n := by
        intro j hj
        rcases Finset.mem_insert.mp hj with rfl | hj
        · exact hin
        · exact hbelow j hj
      have hrest := ih (show n < (F.take i hi).total from hn) hbelow'
      simp only [allocs, halloc]
      rw [hcard] at hrest
      rcases hrest with ⟨hroom, haddrs, hheld⟩ | ⟨hfull, haddr⟩
      · left
        refine ⟨by omega, ?_, hheld⟩
        intro addr haddr
        rcases List.mem_cons.mp haddr with rfl | haddr
        · exact ⟨i, hin, rfl⟩
        · exact haddrs addr haddr
      · right
        exact ⟨by omega, List.mem_cons_of_mem _ haddr⟩
    · right
      refine ⟨by omega, ?_⟩
      simp only [allocs, halloc]
      exact List.mem_cons_self

/-- Giving a frame back holds no new frame. -/
theorem free_held_subset (F : Frames) (addr : ℕ) : (F.free addr).2.held ⊆ F.held := by
  unfold free
  split
  · exact Finset.erase_subset _ _
  · exact Finset.Subset.refl _

/-- Allocation keeps what is held. -/
theorem held_subset_alloc (F : Frames) : F.held ⊆ F.alloc.2.held := by
  rcases F.full_or_least with hfull | ⟨i, hi, hfree, hleast⟩
  · rw [alloc_of_full hfull]
  · rw [alloc_of_least hi hfree hleast]
    exact Finset.subset_insert i F.held

/-- An allocation that does not answer 0 takes a frame that was free. -/
theorem alloc_fresh {F : Frames} (hne : F.alloc.1 ≠ 0) :
    F.alloc.1 % 4096 = 0 ∧ F.alloc.1 / 4096 ∉ F.held ∧ F.alloc.1 / 4096 ∈ F.alloc.2.held := by
  rcases F.full_or_least with hfull | ⟨i, hi, hfree, hleast⟩
  · rw [alloc_of_full hfull] at hne
    exact absurd rfl hne
  · rw [alloc_of_least hi hfree hleast]
    have hpage : i * 4096 / 4096 = i := Nat.mul_div_cancel i (by decide)
    simp only [hpage]
    exact ⟨Nat.mul_mod_left i 4096, hfree, Finset.mem_insert_self i F.held⟩

/-- Freeing another frame keeps a frame held. -/
theorem mem_free {F : Frames} {addr i : ℕ} (hi : i ∈ F.held) (hother : addr ≠ i * 4096) :
    i ∈ (F.free addr).2.held := by
  unfold free
  split
  · rename_i haccepted
    refine Finset.mem_erase.mpr ⟨fun heq => hother ?_, hi⟩
    rw [heq]
    exact (Nat.div_mul_cancel haccepted.1).symm
  · exact hi

/-- No more frames are held than exist. -/
theorem card_le (F : Frames) : F.held.card ≤ F.total := card_le_of_below F.held_lt

end Frames

/-- The addresses of the bitmap's bytes. -/
def PmmState.bitmapBytes (s : PmmState) : Set Word :=
  {a | (a - s.bitmap).toNat < s.bitmapSize.toNat}

/-- The record `s` and the bitmap in memory `v` stand for the set `F`. The last
field covers the padding bits of the last byte too, which no page owns. -/
structure PmmState.Represents (s : PmmState) (v : Bytes) (F : Frames) : Prop where
  /-- The page counter. -/
  total_eq : s.totalPages.toNat = F.total
  /-- Page addresses fit a word. -/
  total_lt : F.total < 2 ^ 20
  /-- One bit for each page, in whole bytes. -/
  size_eq : s.bitmapSize.toNat = (F.total + 7) / 8
  /-- The counter of allocated pages. -/
  allocated_eq : s.allocatedPages.toNat = F.held.card
  /-- A bit is set exactly for a held frame. -/
  bit_eq : ∀ i < 8 * s.bitmapSize.toNat, v.bit s.bitmap i = decide (i ∈ F.held)

variable {M : Type} {bus : Bus M} {ok : M → Prop} {view : M → Bytes} {S : Set Word}
  {s : PmmState} {m : M} {F : Frames}

/-- The byte of a page's bit is a byte of the bitmap. -/
theorem PmmState.byte_mem_bitmapBytes {i : ℕ} (hi : i < 8 * s.bitmapSize.toNat) :
    s.bitmap + BitVec.ofNat 32 (i / 8) ∈ s.bitmapBytes := by
  have hsize := s.bitmapSize.isLt
  show (s.bitmap + BitVec.ofNat 32 (i / 8) - s.bitmap).toNat < s.bitmapSize.toNat
  bv_omega

/-- The byte `pmm.c` reads for a page is a byte of the bitmap. -/
theorem PmmState.page_mem_bitmapBytes (hpages : s.totalPages.toNat ≤ 8 * s.bitmapSize.toNat)
    {i : Word} (hi : i.toNat < s.totalPages.toNat) : s.bitmap + i / 8 ∈ s.bitmapBytes := by
  have hdiv : (i / 8).toNat = i.toNat / 8 := BitVec.toNat_udiv
  have hoffset : s.bitmap + i / 8 - s.bitmap = i / 8 := by
    generalize i / 8 = d
    bv_omega
  simp only [PmmState.bitmapBytes, Set.mem_ofPred_eq, hoffset, hdiv]
  omega

/-- Every page has a bit in the bitmap. -/
theorem PmmState.Represents.page_lt {v : Bytes} (hrep : s.Represents v F) {i : ℕ}
    (hi : i < F.total) : i < 8 * s.bitmapSize.toNat := by
  have := hrep.size_eq
  omega

/-- Only the bytes of the bitmap matter to what it represents. -/
theorem PmmState.Represents.congr {v v' : Bytes} (hrep : s.Represents v F)
    (hsame : ∀ a ∈ s.bitmapBytes, v' a = v a) : s.Represents v' F where
  total_eq := hrep.total_eq
  total_lt := hrep.total_lt
  size_eq := hrep.size_eq
  allocated_eq := hrep.allocated_eq
  bit_eq := by
    intro i hi
    rw [← hrep.bit_eq i hi, Bytes.bit, Bytes.bit, hsame _ (s.byte_mem_bitmapBytes hi)]

/-- A record and a bitmap stand for one set only. -/
theorem PmmState.Represents.unique {v : Bytes} {F' : Frames} (hrep : s.Represents v F)
    (hrep' : s.Represents v F') : F = F' := by
  have htotal : F.total = F'.total := hrep.total_eq.symm.trans hrep'.total_eq
  have hheld : F.held = F'.held := by
    ext i
    constructor
    · intro hi
      have hlt := hrep.page_lt (F.held_lt i hi)
      simpa [hrep.bit_eq i hlt, hi] using hrep'.bit_eq i hlt
    · intro hi
      have hlt := hrep'.page_lt (F'.held_lt i hi)
      simpa [hrep'.bit_eq i hlt, hi] using hrep.bit_eq i hlt
  obtain ⟨total, held, hlt⟩ := F
  simp only at htotal hheld
  subst htotal hheld
  rfl

/-- Setting a free page's bit and counting it holds the page. -/
theorem PmmState.Represents.take {v : Bytes} (hrep : s.Represents v F) {i : ℕ}
    (hi : i < F.total) (hfree : i ∉ F.held) :
    { s with allocatedPages := s.allocatedPages + 1 }.Represents
      (v.put (s.bitmap + BitVec.ofNat 32 (i / 8))
        (v (s.bitmap + BitVec.ofNat 32 (i / 8)) ||| 1#8 <<< (i % 8))) (F.take i hi) where
  total_eq := hrep.total_eq
  total_lt := hrep.total_lt
  size_eq := hrep.size_eq
  allocated_eq := by
    have hcard := hrep.allocated_eq
    have hle := F.card_le
    have hlt := hrep.total_lt
    simp only [Frames.take, Finset.card_insert_of_notMem hfree, BitVec.toNat_add]
    rw [hcard]
    exact Nat.mod_eq_of_lt (by change F.held.card + 1 < 2 ^ 32; omega)
  bit_eq := by
    have hlt := hrep.total_lt
    have hsize := hrep.size_eq
    intro j hj
    replace hj : j < 8 * s.bitmapSize.toNat := hj
    rw [Bytes.bit_put_or v s.bitmap (by omega) (by omega), hrep.bit_eq j hj]
    simp only [Frames.take, Finset.mem_insert]
    grind

/-- Clearing a held page's bit and counting it down gives the page back. -/
theorem PmmState.Represents.release {v : Bytes} (hrep : s.Represents v F) {i : ℕ}
    (hheld : i ∈ F.held) :
    { s with allocatedPages := s.allocatedPages - 1 }.Represents
      (v.put (s.bitmap + BitVec.ofNat 32 (i / 8))
        (v (s.bitmap + BitVec.ofNat 32 (i / 8)) &&& ~~~(1#8 <<< (i % 8)))) (F.release i) where
  total_eq := hrep.total_eq
  total_lt := hrep.total_lt
  size_eq := hrep.size_eq
  allocated_eq := by
    have hcard := hrep.allocated_eq
    have hpos : 0 < F.held.card := Finset.card_pos.mpr ⟨i, hheld⟩
    simp only [Frames.release, Finset.card_erase_of_mem hheld]
    bv_omega
  bit_eq := by
    have hlt := hrep.total_lt
    have hsize := hrep.size_eq
    have hi := F.held_lt i hheld
    intro j hj
    replace hj : j < 8 * s.bitmapSize.toNat := hj
    rw [Bytes.bit_put_and_not v s.bitmap (by omega) (by omega), hrep.bit_eq j hj]
    simp only [Frames.release, Finset.mem_erase]
    grind

/-- Testing a page's bit on a lawful bus tells whether the page is free. -/
theorem bitmapTestBit_eq (hbus : bus.Lawful ok view S) (hS : s.bitmapBytes ⊆ S) (hm : ok m)
    (hrep : s.Represents (view m) F) {i : ℕ} (hi : i < F.total) :
    ∃ b, bitmapTestBit bus s m (BitVec.ofNat 32 i) = some b ∧ (b = 0 ↔ i ∉ F.held) := by
  have hlt := hrep.total_lt
  have hbyte : BitVec.ofNat 32 i / 8 = BitVec.ofNat 32 (i / 8) := byteIdx_eq (by omega)
  have hbit : (BitVec.ofNat 32 i % 8).toNat = i % 8 := bitIdx_eq (by omega)
  have hload := hbus.load_eq hm (hS (s.byte_mem_bitmapBytes (hrep.page_lt hi)))
  refine ⟨view m (s.bitmap + BitVec.ofNat 32 (i / 8)) >>> (i % 8) &&& 1#8, ?_, ?_⟩
  · simp only [bitmapTestBit, hbyte, hload, hbit, Option.bind_eq_bind, Option.bind_some,
      Option.pure_def]
  · rw [shiftRight_and_one_eq_zero_iff]
    have hbiteq := hrep.bit_eq i (hrep.page_lt hi)
    rw [Bytes.bit] at hbiteq
    simp [hbiteq]

/-- The scan from page `i` stops at the first free page at or after `i`. -/
theorem findFreePageFrom_eq (hbus : bus.Lawful ok view S) (hS : s.bitmapBytes ⊆ S) (hm : ok m)
    (hrep : s.Represents (view m) F) {remaining i : ℕ} (hend : i + remaining = F.total) :
    ((∀ j, i ≤ j → j < F.total → j ∈ F.held) ∧
      findFreePageFrom bus s m remaining (BitVec.ofNat 32 i) = some 0xFFFFFFFF) ∨
    ∃ j, i ≤ j ∧ j < F.total ∧ j ∉ F.held ∧ (∀ k, i ≤ k → k < j → k ∈ F.held) ∧
      findFreePageFrom bus s m remaining (BitVec.ofNat 32 i) = some (BitVec.ofNat 32 j) := by
  induction remaining generalizing i with
  | zero => exact Or.inl ⟨fun j hij hj => by omega, rfl⟩
  | succ remaining ih =>
    have hi : i < F.total := by omega
    obtain ⟨b, htest, hzero⟩ := bitmapTestBit_eq hbus hS hm hrep hi
    by_cases hfree : i ∈ F.held
    · have hb : b ≠ 0 := fun h => hzero.mp h hfree
      have hnext : findFreePageFrom bus s m (remaining + 1) (BitVec.ofNat 32 i) =
          findFreePageFrom bus s m remaining (BitVec.ofNat 32 (i + 1)) := by
        simp only [findFreePageFrom, htest, Option.bind_eq_bind, Option.bind_some, if_neg hb,
          BitVec.ofNat_add]
        rfl
      rw [hnext]
      rcases ih (i := i + 1) (by omega) with ⟨hall, hscan⟩ | ⟨j, hij, hj, hjfree, hbefore, hscan⟩
      · refine Or.inl ⟨fun j hij hj => ?_, hscan⟩
        rcases Nat.eq_or_lt_of_le hij with rfl | hlt
        · exact hfree
        · exact hall j hlt hj
      · refine Or.inr ⟨j, by omega, hj, hjfree, fun k hik hkj => ?_, hscan⟩
        rcases Nat.eq_or_lt_of_le hik with rfl | hlt
        · exact hfree
        · exact hbefore k hlt hkj
    · refine Or.inr ⟨i, le_rfl, hi, hfree, fun k hik hki => by omega, ?_⟩
      simp only [findFreePageFrom, htest, Option.bind_eq_bind, Option.bind_some,
        if_pos (hzero.mpr hfree), Option.pure_def]

/-- `find_free_page` finds the least free page, if there is one. -/
theorem findFreePage_eq (hbus : bus.Lawful ok view S) (hS : s.bitmapBytes ⊆ S) (hm : ok m)
    (hrep : s.Represents (view m) F) :
    ((∀ j < F.total, j ∈ F.held) ∧ findFreePage bus s m = some 0xFFFFFFFF) ∨
    ∃ j, j < F.total ∧ j ∉ F.held ∧ (∀ k < j, k ∈ F.held) ∧
      findFreePage bus s m = some (BitVec.ofNat 32 j) := by
  unfold findFreePage
  rw [hrep.total_eq]
  rcases findFreePageFrom_eq hbus hS hm hrep (Nat.zero_add F.total) with
    ⟨hall, hscan⟩ | ⟨j, -, hj, hjfree, hbefore, hscan⟩
  · exact Or.inl ⟨fun j hj => hall j (Nat.zero_le j) hj, hscan⟩
  · exact Or.inr ⟨j, hj, hjfree, fun k hk => hbefore k (Nat.zero_le k) hk, hscan⟩

/-- `pmm_alloc` changes nothing and answers 0 when no page is free; otherwise it
sets the bit of the least free page `i`, counts it and answers `i * 4096`. -/
theorem pmmAlloc_eq (hbus : bus.Lawful ok view S) (hS : s.bitmapBytes ⊆ S) (hm : ok m)
    (hrep : s.Represents (view m) F) :
    ((∀ j < F.total, j ∈ F.held) ∧ pmmAlloc bus s m = some (0, s, m)) ∨
    ∃ i, i < F.total ∧ i ∉ F.held ∧ (∀ k < i, k ∈ F.held) ∧ ∃ m',
      pmmAlloc bus s m = some (BitVec.ofNat 32 (i * 4096),
        { s with allocatedPages := s.allocatedPages + 1 }, m') ∧ ok m' ∧
      view m' = (view m).put (s.bitmap + BitVec.ofNat 32 (i / 8))
        (view m (s.bitmap + BitVec.ofNat 32 (i / 8)) ||| 1#8 <<< (i % 8)) := by
  have hlt := hrep.total_lt
  rcases findFreePage_eq hbus hS hm hrep with ⟨hfull, hfind⟩ | ⟨i, hi, hfree, hleast, hfind⟩
  · left
    refine ⟨hfull, ?_⟩
    simp only [pmmAlloc, hfind, Option.bind_eq_bind, Option.bind_some, if_true, Option.pure_def]
  · right
    have hmem := hS (s.byte_mem_bitmapBytes (hrep.page_lt hi))
    have hload := hbus.load_eq hm hmem
    obtain ⟨m', hstore, hok, hview⟩ := hbus.store_eq
      (view m (s.bitmap + BitVec.ofNat 32 (i / 8)) ||| 1#8 <<< (i % 8)) hm hmem
    refine ⟨i, hi, hfree, hleast, m', ?_, hok, hview⟩
    have hvalid : BitVec.ofNat 32 i ≠ 0xFFFFFFFF := by bv_omega
    have haddr : BitVec.ofNat 32 i * pageSize = BitVec.ofNat 32 (i * 4096) := by
      rw [BitVec.ofNat_mul]
      rfl
    simp only [pmmAlloc, hfind, Option.bind_eq_bind, Option.bind_some, if_neg hvalid,
      bitmapSetBit, byteIdx_eq (show i < 2 ^ 32 by omega), bitIdx_eq (show i < 2 ^ 32 by omega),
      hload, hstore, haddr, Option.pure_def]

/-- `pmm_free` clears the bit of a held page named by its aligned address and
answers 0; every other address is answered by -1 and changes nothing. -/
theorem pmmFree_eq (hbus : bus.Lawful ok view S) (hS : s.bitmapBytes ⊆ S) (hm : ok m)
    (hrep : s.Represents (view m) F) (addr : Word) :
    (¬ (4096 ∣ addr.toNat ∧ addr.toNat / 4096 < F.total ∧ addr.toNat / 4096 ∈ F.held) ∧
      pmmFree bus s m addr = some (-1, s, m)) ∨
    ∃ i, addr.toNat = i * 4096 ∧ i ∈ F.held ∧ ∃ m',
      pmmFree bus s m addr = some (0, { s with allocatedPages := s.allocatedPages - 1 }, m') ∧
      ok m' ∧
      view m' = (view m).put (s.bitmap + BitVec.ofNat 32 (i / 8))
        (view m (s.bitmap + BitVec.ofNat 32 (i / 8)) &&& ~~~(1#8 <<< (i % 8))) := by
  have hlt := hrep.total_lt
  have hpage : addr / pageSize = BitVec.ofNat 32 (addr.toNat / 4096) := by
    apply BitVec.eq_of_toNat_eq
    have := addr.isLt
    simp only [BitVec.toNat_udiv, BitVec.toNat_ofNat]
    rw [Nat.mod_eq_of_lt (by omega : addr.toNat / 4096 < 2 ^ 32)]
    rfl
  by_cases halign : addr % pageSize = 0
  · have hdvd : 4096 ∣ addr.toNat := by
      have h := congrArg BitVec.toNat halign
      rw [BitVec.toNat_umod] at h
      exact Nat.dvd_of_mod_eq_zero h
    by_cases hrange : addr.toNat / 4096 < F.total
    · have hge : ¬ (BitVec.ofNat 32 (addr.toNat / 4096) ≥ s.totalPages) := by
        have := hrep.total_eq
        bv_omega
      obtain ⟨b, htest, hzero⟩ := bitmapTestBit_eq hbus hS hm hrep hrange
      by_cases hheld : addr.toNat / 4096 ∈ F.held
      · right
        have hb : b ≠ 0 := fun h => hzero.mp h hheld
        have hmem := hS (s.byte_mem_bitmapBytes (hrep.page_lt hrange))
        have hload := hbus.load_eq hm hmem
        obtain ⟨m', hstore, hok, hview⟩ := hbus.store_eq
          (view m (s.bitmap + BitVec.ofNat 32 (addr.toNat / 4096 / 8)) &&&
            ~~~(1#8 <<< (addr.toNat / 4096 % 8))) hm hmem
        refine ⟨addr.toNat / 4096, (Nat.div_mul_cancel hdvd).symm, hheld, m', ?_, hok, hview⟩
        simp only [pmmFree, halign, hpage, ne_eq, not_true_eq_false, if_false, if_neg hge, htest,
          if_neg hb, bitmapClearBit, byteIdx_eq (show addr.toNat / 4096 < 2 ^ 32 by omega),
          bitIdx_eq (show addr.toNat / 4096 < 2 ^ 32 by omega), hload, hstore,
          Option.bind_eq_bind, Option.bind_some, Option.pure_def]
      · left
        refine ⟨fun h => hheld h.2.2, ?_⟩
        simp only [pmmFree, halign, hpage, ne_eq, not_true_eq_false, if_false, if_neg hge, htest,
          if_pos (hzero.mpr hheld), Option.bind_eq_bind, Option.bind_some, Option.pure_def]
    · left
      refine ⟨fun h => hrange h.2.1, ?_⟩
      have hge : BitVec.ofNat 32 (addr.toNat / 4096) ≥ s.totalPages := by
        have := hrep.total_eq
        have := addr.isLt
        bv_omega
      simp only [pmmFree, halign, hpage, ne_eq, not_true_eq_false, if_false, if_pos hge,
        Option.pure_def]
  · left
    refine ⟨fun h => halign ?_, ?_⟩
    · apply BitVec.eq_of_toNat_eq
      rw [BitVec.toNat_umod]
      exact Nat.mod_eq_zero_of_dvd h.1
    · simp only [pmmFree, ne_eq, halign, not_false_eq_true, if_true, Option.pure_def]

/-- `pmm_init` clears the whole bitmap, and so starts with every page free. -/
theorem pmmInit_eq (hbus : bus.Lawful ok view S) (totalMemory : Word)
    (hS : {a | (a - (kernelVirtBase + 0x200000)).toNat < (totalMemory.toNat / 4096 + 7) / 8} ⊆ S)
    (hm : ok m) :
    ∃ s m', pmmInit bus m totalMemory = some (s, m') ∧ ok m' ∧
      s.bitmap = kernelVirtBase + 0x200000 ∧
      s.Represents (view m') (Frames.empty (totalMemory.toNat / 4096)) ∧
      (∀ c ∈ s.bitmapBytes, view m' c = 0) ∧ ∀ c ∉ s.bitmapBytes, view m' c = view m c := by
  have htotal : (totalMemory / pageSize).toNat = totalMemory.toNat / 4096 := by
    rw [BitVec.toNat_udiv]
    rfl
  have hpages : totalMemory.toNat / 4096 < 2 ^ 20 := by
    have := totalMemory.isLt
    omega
  have hsize : ((totalMemory / pageSize + 7) / 8).toNat = (totalMemory.toNat / 4096 + 7) / 8 := by
    have hsum : (totalMemory / pageSize + 7).toNat = totalMemory.toNat / 4096 + 7 := by
      rw [BitVec.toNat_add, htotal]
      exact Nat.mod_eq_of_lt (show totalMemory.toNat / 4096 + 7 < 2 ^ 32 by omega)
    rw [BitVec.toNat_udiv, hsum]
    rfl
  obtain ⟨m', hloop, hok, hview⟩ := hbus.foldlM_store
    (fun i : ℕ => kernelVirtBase + 0x200000 + BitVec.ofNat 32 i) (fun _ => 0)
    (List.range ((totalMemory / pageSize + 7) / 8).toNat) hm (by
      intro i hi
      rw [List.mem_range, hsize] at hi
      apply hS
      show (kernelVirtBase + 0x200000 + BitVec.ofNat 32 i - (kernelVirtBase + 0x200000)).toNat < _
      rw [show (kernelVirtBase + 0x200000 + BitVec.ofNat 32 i - (kernelVirtBase + 0x200000)).toNat
        = i by bv_omega]
      exact hi)
  have hcontents : ∀ c, view m' c = if (c - (kernelVirtBase + 0x200000)).toNat <
      ((totalMemory / pageSize + 7) / 8).toNat then 0 else view m c := by
    intro c
    rw [hview, Bytes.foldl_put_range _ _ _ (by omega)]
  let s : PmmState := ⟨kernelVirtBase + 0x200000, totalMemory / pageSize, 0,
    (totalMemory / pageSize + 7) / 8⟩
  have hinit : pmmInit bus m totalMemory = some (s, m') := by
    simp only [pmmInit, hloop, Option.bind_eq_bind, Option.bind_some, Option.pure_def, s]
  refine ⟨s, m', hinit, hok, rfl, ⟨htotal, hpages, hsize, rfl, ?_⟩,
    fun c hc => (hcontents c).trans (if_pos hc), fun c hc => (hcontents c).trans (if_neg hc)⟩
  intro i hi
  have hmem : (kernelVirtBase + 0x200000 + BitVec.ofNat 32 (i / 8) -
      (kernelVirtBase + 0x200000)).toNat < ((totalMemory / pageSize + 7) / 8).toNat :=
    s.byte_mem_bitmapBytes hi
  simp only [s, Bytes.bit, hcontents, if_pos hmem]
  simp [Frames.empty]

end Nimbu
