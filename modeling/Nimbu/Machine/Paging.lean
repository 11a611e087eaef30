import Nimbu.Machine.WordArray

/-!
# Two-level paging of the i686

A linear address splits into a directory index, a table index and an offset.
While paging is off, linear addresses are physical addresses; once it is on,
every access goes through the page directory at `cr3`. Large pages and the
accessed and dirty bits, which do not change where an address leads, are left
out.
-/

namespace Nimbu

/-- The present and write bits of a directory or table entry. -/
def presentWrite : Word := 0x003

/-- The frame address in a directory or table entry. -/
def frameMask : Word := 0xFFFFF000

/-- Index of an address in the page directory. -/
def pdIndex (v : Word) : ℕ := v.toNat / 2 ^ 22

/-- Index of an address in its page table. -/
def ptIndex (v : Word) : ℕ := v.toNat / 2 ^ 12 % 2 ^ 10

/-- There are 1024 directory entries. -/
theorem pdIndex_lt (v : Word) : pdIndex v < 1024 := by
  have := v.isLt
  unfold pdIndex
  omega

/-- There are 1024 entries in a table. -/
theorem ptIndex_lt (v : Word) : ptIndex v < 1024 := Nat.mod_lt _ (by decide)

/-- The walk of the processor: `none` is a page fault. -/
def pageWalk (ram : Bytes) (cr3 v : Word) : Option Word :=
  let pde := ram.word (entry (cr3 &&& frameMask) (pdIndex v))
  if pde &&& 1 = 0 then none
  else
    let pte := ram.word (entry (pde &&& frameMask) (ptIndex v))
    if pte &&& 1 = 0 then none
    else some ((pte &&& frameMask) + BitVec.ofNat 32 (v.toNat % 2 ^ 12))

/-- The physical memory and the two control registers that matter here. -/
structure Machine where
  /-- Physical memory. -/
  ram : Bytes
  /-- The page directory base register. -/
  cr3 : Word
  /-- The bit PG of register CR0. -/
  paging : Bool

/-- The physical address behind a linear one. -/
def Machine.linear (m : Machine) (v : Word) : Option Word :=
  if m.paging then pageWalk m.ram m.cr3 v else some v

/-- Accesses at linear addresses. -/
def Machine.bus : Bus Machine where
  load m v := (m.linear v).map m.ram
  store m v b := (m.linear v).map fun p => { m with ram := m.ram.put p b }

/-- With paging off, the machine is plain memory. -/
theorem Machine.lawful (cr3 : Word) :
    Machine.bus.Lawful (fun m => m.paging = false ∧ m.cr3 = cr3) Machine.ram Set.univ where
  load_eq := by
    rintro m a ⟨hoff, -⟩ -
    simp [Machine.bus, Machine.linear, hoff]
  store_eq := by
    rintro m a b ⟨hoff, hcr3⟩ -
    refine ⟨{ m with ram := m.ram.put a b }, ?_, ⟨hoff, hcr3⟩, rfl⟩
    simp [Machine.bus, Machine.linear, hoff]

/-- The low twelve bits of a page address are clear. -/
theorem getLsbD_of_aligned {x : Word} (hx : x.toNat % 4096 = 0) {i : ℕ} (hi : i < 12) :
    x.getLsbD i = false := by
  obtain ⟨k, hk⟩ := Nat.dvd_of_mod_eq_zero hx
  rw [BitVec.getLsbD, hk, show 4096 = 2 ^ 12 from rfl, Nat.testBit_two_pow_mul]
  simp [Nat.not_le.mpr hi]

/-- The bits of the frame mask. -/
theorem getLsbD_frameMask {i : ℕ} (hi : i < 32) : frameMask.getLsbD i = decide (12 ≤ i) := by
  revert i
  decide

/-- The frame address in an entry starts a page. -/
theorem frame_toNat_mod (x : Word) : (x &&& frameMask).toNat % 4096 = 0 := by
  have hlow : (x &&& frameMask).setWidth 12 = 0#12 := by
    apply BitVec.eq_of_getLsbD_eq
    intro i hi
    rw [BitVec.getLsbD_setWidth, BitVec.getLsbD_and, getLsbD_frameMask (by omega)]
    simp [Nat.not_le.mpr hi]
  have hnat := congrArg BitVec.toNat hlow
  rwa [BitVec.toNat_setWidth] at hnat

/-- Or-ing the flags into a page address leaves its frame. -/
theorem frame_of_entry {x : Word} (hx : x.toNat % 4096 = 0) :
    (x ||| presentWrite) &&& frameMask = x := by
  apply BitVec.eq_of_getLsbD_eq
  intro i hi
  rw [BitVec.getLsbD_and, BitVec.getLsbD_or, getLsbD_frameMask hi]
  by_cases hlow : i < 12
  · simp [getLsbD_of_aligned hx hlow, Nat.not_le.mpr hlow]
  · have hflags : presentWrite.getLsbD i = false := by
      have : ∀ j < 32, 12 ≤ j → presentWrite.getLsbD j = false := by decide
      exact this i hi (by omega)
    simp [hflags, Nat.le_of_not_lt hlow]

/-- A page address is its own frame. -/
theorem frame_of_aligned {x : Word} (hx : x.toNat % 4096 = 0) : x &&& frameMask = x := by
  apply BitVec.eq_of_getLsbD_eq
  intro i hi
  rw [BitVec.getLsbD_and, getLsbD_frameMask hi]
  by_cases hlow : i < 12
  · simp [getLsbD_of_aligned hx hlow]
  · simp [Nat.le_of_not_lt hlow]

/-- An entry with the flags or-ed in is present. -/
theorem entry_present (x : Word) : (x ||| presentWrite) &&& 1 ≠ 0 := by
  intro h
  have h0 := congrArg (fun y : Word => y.getLsbD 0) h
  simp [presentWrite] at h0

/-- The first byte of an entry with the flags or-ed in is not zero. -/
theorem first_byte_ne_zero {v : Bytes} {a x : Word} (hword : v.word a = x ||| presentWrite) :
    v a ≠ 0 := by
  intro hzero
  have hbit : (v.word a).getLsbD 0 = (v a).getLsbD 0 := by
    unfold Bytes.word
    rw [BitVec.getLsbD_append]
    simp
  rw [hword, hzero] at hbit
  simp [presentWrite] at hbit

/-- A walk through a present directory entry and a present table entry. -/
theorem pageWalk_of_entries {ram : Bytes} {cr3 v table frame : Word}
    (hcr3 : cr3.toNat % 4096 = 0) (htable : table.toNat % 4096 = 0)
    (hframe : frame.toNat % 4096 = 0)
    (hpde : ram.word (entry cr3 (pdIndex v)) = table ||| presentWrite)
    (hpte : ram.word (entry table (ptIndex v)) = frame ||| presentWrite) :
    pageWalk ram cr3 v = some (frame + BitVec.ofNat 32 (v.toNat % 2 ^ 12)) := by
  unfold pageWalk
  rw [frame_of_aligned hcr3]
  simp only [hpde, frame_of_entry htable, hpte, frame_of_entry hframe, if_neg (entry_present _)]

/-- A walk through an empty directory entry faults. -/
theorem pageWalk_of_empty {ram : Bytes} {cr3 v : Word} (hcr3 : cr3.toNat % 4096 = 0)
    (hpde : ram.word (entry cr3 (pdIndex v)) = 0) : pageWalk ram cr3 v = none := by
  unfold pageWalk
  rw [frame_of_aligned hcr3]
  simp only [hpde]
  rfl

end Nimbu
