import Nimbu.Mm.Frames
import Nimbu.Mm.Vmm

/-!
# Memory at boot

`kmain` calls `pmm_init` while paging is off and `vmm_init` after it. The bitmap
is cleared through a linear address that is physical at that moment and is read
through the same linear address once the boot mapping is in force, so the bytes
cleared and the bytes read are different ones.
-/

namespace Nimbu

/-- The memory size `kmain` passes to `pmm_init`: 128 MB. -/
def kmainTotalMemory : Word := 128 * 1024 * 1024

/-- The start of the heap that `kmain` passes to `heap_init`. -/
def kmainHeapStart : Word := kernelVirtBase + 0x100000

/-- The size of the heap that `kmain` passes to `heap_init`: 8 MB. -/
def kmainHeapSize : Word := 8 * 1024 * 1024

/-- The part of `kmain` that sets up physical and virtual memory. -/
def kmainMemory (st : StaticTables) (m : Machine) : Option (PmmState × Machine) := do
  let (s, m) ← pmmInit Machine.bus m kmainTotalMemory
  let m ← vmmInit st m
  return (s, m)

/-- The same for a memory of any size. -/
def memoryInit (st : StaticTables) (m : Machine) (totalMemory : Word) :
    Option (PmmState × Machine) := do
  let (s, m) ← pmmInit Machine.bus m totalMemory
  let m ← vmmInit st m
  return (s, m)

/-- The physical address of the bitmap under the boot mapping. -/
def bitmapPhys : Word := 0x200000

/-- The page of the bitmap, seen through the boot mapping. -/
theorem bootMap_bitmap {k : ℕ} (hk : k < 4096) :
    bootMap (kernelVirtBase + 0x200000 + BitVec.ofNat 32 k) =
      some (bitmapPhys + BitVec.ofNat 32 k) := by
  have hvirt : (kernelVirtBase + 0x200000 + BitVec.ofNat 32 k).toNat = 0xC0200000 + k := by
    unfold kernelVirtBase
    bv_omega
  unfold bootMap
  rw [if_neg (by omega), if_pos (by omega)]
  congr 1
  unfold kernelVirtBase bitmapPhys
  bv_omega

/-- What `pmm_init` and `vmm_init` set up: the record for the given memory size, the
static arrays filled over a memory that differs from the one at boot only in the
bytes `pmm_init` cleared, and the static directory in force. -/
theorem memoryInit_eq (st : StaticTables) (ram : Bytes) (cr3 totalMemory : Word) :
    ∃ s m v, memoryInit st ⟨ram, cr3, false⟩ totalMemory = some (s, m) ∧
      s.bitmap = kernelVirtBase + 0x200000 ∧
      s.Represents v (Frames.empty (totalMemory.toNat / 4096)) ∧
      (∀ c ∈ s.bitmapBytes, v c = 0) ∧ (∀ c ∉ s.bitmapBytes, v c = ram c) ∧
      m.ram = st.fill v ∧ m.linear = bootMap ∧ m.paging = true ∧ m.cr3 = st.directory := by
  obtain ⟨s, m₁, hpmm, ⟨hoff, -⟩, hbitmap, hrep, hclear, hkept⟩ :=
    pmmInit_eq (Machine.lawful cr3) totalMemory (Set.subset_univ _)
      (show (⟨ram, cr3, false⟩ : Machine).paging = false ∧ _ from ⟨rfl, rfl⟩)
  obtain ⟨m₂, hvmm, hram, hlinear⟩ := vmmInit_eq st hoff
  obtain ⟨hpaging, hcr3⟩ := vmmInit_registers hvmm
  refine ⟨s, m₂, m₁.ram, ?_, hbitmap, hrep, hclear, hkept, hram, hlinear, hpaging, hcr3⟩
  simp only [memoryInit, hpmm, hvmm, Option.bind_eq_bind, Option.bind_some, Option.pure_def]

/-- What `kmain` sets up: the record for 32768 pages, the static arrays filled
over a memory that differs from the one at boot only in the bytes `pmm_init`
cleared, and the boot mapping. -/
theorem kmainMemory_eq (st : StaticTables) (ram : Bytes) (cr3 : Word) :
    ∃ s m v, kmainMemory st ⟨ram, cr3, false⟩ = some (s, m) ∧
      s.bitmap = kernelVirtBase + 0x200000 ∧ s.totalPages.toNat = 32768 ∧
      s.bitmapSize.toNat = 4096 ∧ (∀ c ∈ s.bitmapBytes, v c = 0) ∧
      (∀ c ∉ s.bitmapBytes, v c = ram c) ∧ m.ram = st.fill v ∧ m.linear = bootMap := by
  obtain ⟨s, m, v, hinit, hbitmap, hrep, hclear, hkept, hram, hlinear, -⟩ :=
    memoryInit_eq st ram cr3 kmainTotalMemory
  exact ⟨s, m, v, hinit, hbitmap, hrep.total_eq, hrep.size_eq, hclear, hkept, hram, hlinear⟩

/-- All bits of a page-sized bitmap are clear when all its bytes are zero. -/
theorem forall_bits_iff (f : ℕ → Byte) :
    (∀ i < 32768, (f (i / 8)).getLsbD (i % 8) = false) ↔ ∀ k < 4096, f k = 0 := by
  constructor
  · intro h k hk
    rw [byte_eq_zero_iff]
    intro j hj
    have hbit := h (8 * k + j) (by omega)
    rwa [show (8 * k + j) / 8 = k by omega, show (8 * k + j) % 8 = j by omega] at hbit
  · intro h i hi
    rw [h (i / 8) (by omega)]
    simp

/-- After `kmain` has set up memory, testing the bit of page `i` reads the byte
`i / 8` of the physical page at 0x200000. -/
theorem bitmapTestBit_boot {s : PmmState} {m : Machine}
    (hbitmap : s.bitmap = kernelVirtBase + 0x200000) (hlinear : m.linear = bootMap) {i : ℕ}
    (hi : i < 32768) :
    bitmapTestBit Machine.bus s m (BitVec.ofNat 32 i) =
      some (m.ram (bitmapPhys + BitVec.ofNat 32 (i / 8)) >>> (i % 8) &&& 1#8) := by
  simp only [bitmapTestBit, byteIdx_eq (show i < 2 ^ 32 by omega),
    bitIdx_eq (show i < 2 ^ 32 by omega), Machine.bus, hlinear, hbitmap,
    bootMap_bitmap (show i / 8 < 4096 by omega), Option.map_some, Option.bind_eq_bind,
    Option.bind_some, Option.pure_def]

/-- The bits read after boot are all clear exactly when the physical page at
0x200000 held zeros at boot and is not a page of the static arrays. -/
theorem kmainMemory_read (st : StaticTables) (ram : Bytes) (cr3 : Word) :
    ∃ s m, kmainMemory st ⟨ram, cr3, false⟩ = some (s, m) ∧
      s.bitmap = kernelVirtBase + 0x200000 ∧ s.totalPages.toNat = 32768 ∧
      s.bitmapSize.toNat = 4096 ∧ m.linear = bootMap ∧
      ((∀ i < s.totalPages.toNat,
          bitmapTestBit Machine.bus s m (BitVec.ofNat 32 i) = some 0) ↔
        bitmapPhys ∉ st.bytes ∧ ∀ k < 4096, ram (bitmapPhys + BitVec.ofNat 32 k) = 0) := by
  obtain ⟨s, m, v, hboot, hbitmap, htotal, hsize, -, hkept, hram, hlinear⟩ :=
    kmainMemory_eq st ram cr3
  have hbits : (∀ i < s.totalPages.toNat,
      bitmapTestBit Machine.bus s m (BitVec.ofNat 32 i) = some 0) ↔
      ∀ k < 4096, m.ram (bitmapPhys + BitVec.ofNat 32 k) = 0 := by
    rw [htotal, ← forall_bits_iff fun k => m.ram (bitmapPhys + BitVec.ofNat 32 k)]
    refine forall₂_congr fun i hi => ?_
    rw [bitmapTestBit_boot hbitmap hlinear hi, Option.some.injEq, shiftRight_and_one_eq_zero_iff]
  have haligned : bitmapPhys.toNat % 4096 = 0 := by decide
  have hfilled : st.Filled m.ram := hram ▸ st.fill_filled v
  have hsame : bitmapPhys ∉ st.bytes → ∀ k < 4096,
      m.ram (bitmapPhys + BitVec.ofNat 32 k) = ram (bitmapPhys + BitVec.ofNat 32 k) := by
    intro hout k hk
    rw [hram, st.fill_outside v (by rwa [st.page_mem_bytes haligned hk]), hkept]
    intro hmem
    have hoffset : (bitmapPhys + BitVec.ofNat 32 k - s.bitmap).toNat < s.bitmapSize.toNat := hmem
    rw [hsize, hbitmap, bitmapPhys, kernelVirtBase] at hoffset
    bv_omega
  refine ⟨s, m, hboot, hbitmap, htotal, hsize, hlinear, hbits.trans ?_⟩
  constructor
  · intro hzero
    have hout : bitmapPhys ∉ st.bytes :=
      fun hmem => hfilled.first_byte haligned hmem (by simpa using hzero 0 (by decide))
    exact ⟨hout, fun k hk => (hsame hout k hk).symm.trans (hzero k hk)⟩
  · rintro ⟨hout, hzero⟩ k hk
    rw [hsame hout k hk]
    exact hzero k hk

/-- **What the allocator finds after boot.** Every bit it reads for one of the
32768 pages is 0 exactly when the physical page at 0x200000 held zeros at boot
and is not a page of the static page tables. For the bytes cleared are the
physical bytes at the linear address of the bitmap, and the bytes read are those
3 GB below. -/
theorem boot_bitmap_clear_iff (st : StaticTables) (ram : Bytes) (cr3 : Word) :
    ∃ s m, kmainMemory st ⟨ram, cr3, false⟩ = some (s, m) ∧ s.totalPages.toNat = 32768 ∧
      (∀ a ∈ s.bitmapBytes, (⟨ram, cr3, false⟩ : Machine).linear a = some a ∧
        m.linear a = some (a - kernelVirtBase)) ∧
      ((∀ i < s.totalPages.toNat,
          bitmapTestBit Machine.bus s m (BitVec.ofNat 32 i) = some 0) ↔
        bitmapPhys ∉ st.bytes ∧ ∀ k < 4096, ram (bitmapPhys + BitVec.ofNat 32 k) = 0) := by
  obtain ⟨s, m, hboot, hbitmap, htotal, hsize, hlinear, hread⟩ := kmainMemory_read st ram cr3
  refine ⟨s, m, hboot, htotal, ?_, hread⟩
  intro a ha
  have hoffset : (a - s.bitmap).toNat < s.bitmapSize.toNat := ha
  rw [hsize, hbitmap] at hoffset
  obtain ⟨k, hk, rfl⟩ : ∃ k < 4096, a = kernelVirtBase + 0x200000 + BitVec.ofNat 32 k :=
    ⟨_, hoffset, by bv_omega⟩
  refine ⟨by simp [Machine.linear], ?_⟩
  rw [hlinear, bootMap_bitmap hk, Option.some.injEq]
  unfold kernelVirtBase bitmapPhys
  bv_omega

/-- One layout of the static arrays, in the image behind its first 64 KB. -/
def layoutAt64K : StaticTables where
  directory := 0x110000
  tables := 0x111000
  directory_aligned := by decide
  tables_aligned := by decide
  directory_low := by decide
  tables_low := by decide
  apart := by decide

/-- On a machine whose memory holds ones at boot, the allocator finds pages
allocated right after it was initialised. -/
theorem boot_bitmap_dirty :
    ∃ s m, kmainMemory layoutAt64K ⟨fun _ => 0xFF, 0, false⟩ = some (s, m) ∧
      ¬ ∀ i < s.totalPages.toNat, bitmapTestBit Machine.bus s m (BitVec.ofNat 32 i) = some 0 := by
  obtain ⟨s, m, hboot, -, -, -, -, hread⟩ := kmainMemory_read layoutAt64K (fun _ => 0xFF) 0
  refine ⟨s, m, hboot, fun hclear => ?_⟩
  have hzero := (hread.mp hclear).2 0 (by decide)
  exact absurd hzero (by decide)

end Nimbu
