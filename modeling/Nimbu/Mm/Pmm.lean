import Nimbu.Machine.Memory

/-!
# The physical memory manager

`pmm.c`: a bitmap at a fixed kernel address holds one bit for each 4 KB page
frame, and allocation hands out the first frame whose bit is clear. Every
access to the bitmap goes through a bus, so that the functions below run on the
bitmap alone, on the linear memory they share with the rest of the kernel, or
behind the page tables.
-/

namespace Nimbu

/-- `KERNEL_VIRT_BASE`: the kernel half of the address space starts at 3 GB. -/
def kernelVirtBase : Word := 0xC0000000

/-- `PAGE_SIZE`. -/
def pageSize : Word := 4096

/-- The address of a page frame is on a page boundary. -/
theorem toNat_mul_pageSize (i : Word) : (i * pageSize).toNat % 4096 = 0 := by
  unfold pageSize
  bv_omega

/-- The static `pmm_state` record of `pmm.c`. -/
structure PmmState where
  /-- Address of the bitmap. -/
  bitmap : Word
  /-- Number of page frames. -/
  totalPages : Word
  /-- Number of allocated page frames. -/
  allocatedPages : Word
  /-- Size of the bitmap in bytes. -/
  bitmapSize : Word
  deriving DecidableEq

variable {M : Type} (bus : Bus M)

/-- `pmm_init`: size the bitmap for `total_memory` and clear it. The function
always returns 1, which `kmain` reads as success. -/
def pmmInit (m : M) (totalMemory : Word) : Option (PmmState × M) := do
  let totalPages := totalMemory / pageSize
  let bitmapSize := (totalPages + 7) / 8
  let bitmap := kernelVirtBase + 0x200000
  let m ← (List.range bitmapSize.toNat).foldlM
    (fun m i => bus.store m (bitmap + BitVec.ofNat 32 i) 0) m
  return ({ bitmap, totalPages, allocatedPages := 0, bitmapSize }, m)

/-- `bitmap_set_bit`. -/
def bitmapSetBit (s : PmmState) (m : M) (bit : Word) : Option M := do
  let byteIdx := bit / 8
  let bitIdx := bit % 8
  let byte ← bus.load m (s.bitmap + byteIdx)
  bus.store m (s.bitmap + byteIdx) (byte ||| 1#8 <<< bitIdx.toNat)

/-- `bitmap_clear_bit`. -/
def bitmapClearBit (s : PmmState) (m : M) (bit : Word) : Option M := do
  let byteIdx := bit / 8
  let bitIdx := bit % 8
  let byte ← bus.load m (s.bitmap + byteIdx)
  bus.store m (s.bitmap + byteIdx) (byte &&& ~~~(1#8 <<< bitIdx.toNat))

/-- `bitmap_test_bit`: 1 for an allocated page and 0 for a free one. -/
def bitmapTestBit (s : PmmState) (m : M) (bit : Word) : Option Byte := do
  let byteIdx := bit / 8
  let bitIdx := bit % 8
  let byte ← bus.load m (s.bitmap + byteIdx)
  return (byte >>> bitIdx.toNat) &&& 1#8

/-- The loop of `find_free_page` from page `i` on, with the given number of
pages still to be tested. -/
def findFreePageFrom (s : PmmState) (m : M) : ℕ → Word → Option Word
  | 0, _ => return 0xFFFFFFFF
  | remaining + 1, i => do
    if (← bitmapTestBit bus s m i) = 0 then return i
    else findFreePageFrom s m remaining (i + 1)

/-- `find_free_page`: the first page whose bit is clear, or `0xFFFFFFFF`. -/
def findFreePage (s : PmmState) (m : M) : Option Word :=
  findFreePageFrom bus s m s.totalPages.toNat 0

/-- `pmm_alloc`: the physical address of a newly allocated page frame, or 0. -/
def pmmAlloc (s : PmmState) (m : M) : Option (Word × PmmState × M) := do
  let pageIdx ← findFreePage bus s m
  if pageIdx = 0xFFFFFFFF then return (0, s, m)
  let m ← bitmapSetBit bus s m pageIdx
  return (pageIdx * pageSize, { s with allocatedPages := s.allocatedPages + 1 }, m)

/-- `pmm_free`: 0 when the frame was allocated and is free now, else -1. -/
def pmmFree (s : PmmState) (m : M) (addr : Word) : Option (ℤ × PmmState × M) := do
  if addr % pageSize ≠ 0 then return (-1, s, m)
  let pageIdx := addr / pageSize
  if pageIdx ≥ s.totalPages then return (-1, s, m)
  if (← bitmapTestBit bus s m pageIdx) = 0 then return (-1, s, m)
  let m ← bitmapClearBit bus s m pageIdx
  return (0, { s with allocatedPages := s.allocatedPages - 1 }, m)

/-- `pmm_get_allocated`. -/
def pmmGetAllocated (s : PmmState) : Word := s.allocatedPages

/-- `pmm_get_total`. -/
def pmmGetTotal (s : PmmState) : Word := s.totalPages

/-- `pmm_get_free`. -/
def pmmGetFree (s : PmmState) : Word := s.totalPages - s.allocatedPages

variable {bus}

/-- `pmm_alloc` changes nothing when no page is free, and counts the page it
allocates otherwise. -/
theorem pmmAlloc_cases {s s' : PmmState} {m m' : M} {a : Word}
    (hcall : pmmAlloc bus s m = some (a, s', m')) :
    (findFreePage bus s m = some 0xFFFFFFFF ∧ a = 0 ∧ s' = s ∧ m' = m) ∨
    ∃ i, findFreePage bus s m = some i ∧ i ≠ 0xFFFFFFFF ∧ a = i * pageSize ∧
      s' = { s with allocatedPages := s.allocatedPages + 1 } ∧
      bitmapSetBit bus s m i = some m' := by
  unfold pmmAlloc at hcall
  obtain ⟨i, hfind, hcall⟩ := Option.bind_eq_some_iff.mp hcall
  split at hcall
  · rename_i hnone
    obtain ⟨rfl, rfl, rfl⟩ : 0 = a ∧ s = s' ∧ m = m' := by simpa using hcall
    exact Or.inl ⟨hnone ▸ hfind, rfl, rfl, rfl⟩
  · rename_i hsome
    obtain ⟨m₁, hset, hcall⟩ := Option.bind_eq_some_iff.mp hcall
    obtain ⟨rfl, rfl, rfl⟩ : i * pageSize = a ∧ _ = s' ∧ m₁ = m' := by simpa using hcall
    exact Or.inr ⟨i, hfind, hsome, rfl, rfl, hset⟩

section Returns

variable {ok : M → Prop} {view : M → Bytes} {S : Set Word} {s : PmmState} {m : M}

/-- Testing a bit of the bitmap returns, whatever the bitmap holds. -/
theorem bitmapTestBit_returns (hbus : bus.Lawful ok view S) (hm : ok m) {i : Word}
    (hi : s.bitmap + i / 8 ∈ S) : ∃ b, bitmapTestBit bus s m i = some b := by
  refine ⟨(view m (s.bitmap + i / 8) >>> (i % 8).toNat) &&& 1#8, ?_⟩
  simp only [bitmapTestBit, hbus.load_eq hm hi, Option.bind_eq_bind, Option.bind_some,
    Option.pure_def]

/-- The loop of `find_free_page` returns the marker or a page it has tested. -/
theorem findFreePageFrom_returns (hbus : bus.Lawful ok view S) (hm : ok m)
    (hS : ∀ i : Word, i.toNat < s.totalPages.toNat → s.bitmap + i / 8 ∈ S) {remaining : ℕ}
    {i : Word} (hi : i.toNat + remaining = s.totalPages.toNat) :
    ∃ j, findFreePageFrom bus s m remaining i = some j ∧
      (j = 0xFFFFFFFF ∨ j.toNat < s.totalPages.toNat) := by
  induction remaining generalizing i with
  | zero => exact ⟨_, rfl, Or.inl rfl⟩
  | succ remaining ih =>
    have hlt := s.totalPages.isLt
    obtain ⟨b, hb⟩ := bitmapTestBit_returns hbus hm (hS i (by omega))
    have hnext : (i + 1).toNat + remaining = s.totalPages.toNat := by bv_omega
    obtain ⟨j, hj, hcases⟩ := ih hnext
    simp only [findFreePageFrom, hb, Option.bind_eq_bind, Option.bind_some]
    split
    · exact ⟨i, rfl, Or.inr (by omega)⟩
    · exact ⟨j, hj, hcases⟩

/-- `pmm_alloc` returns on every bitmap and changes the record only by its counter. -/
theorem pmmAlloc_returns (hbus : bus.Lawful ok view S) (hm : ok m)
    (hS : ∀ i : Word, i.toNat < s.totalPages.toNat → s.bitmap + i / 8 ∈ S) :
    ∃ a n m', pmmAlloc bus s m = some (a, { s with allocatedPages := n }, m') ∧ ok m' := by
  obtain ⟨j, hfind, hcases⟩ := findFreePageFrom_returns hbus hm hS (i := 0) (Nat.zero_add _)
  simp only [pmmAlloc, findFreePage, hfind, Option.bind_eq_bind, Option.bind_some]
  by_cases hnone : j = 0xFFFFFFFF
  · rw [if_pos hnone]
    exact ⟨0, s.allocatedPages, m, rfl, hm⟩
  · have hbyte := hS j (hcases.resolve_left hnone)
    obtain ⟨m', hstore, hm', -⟩ := hbus.store_eq
      (view m (s.bitmap + j / 8) ||| 1#8 <<< (j % 8).toNat) hm hbyte
    have hset : bitmapSetBit bus s m j = some m' := by
      simp only [bitmapSetBit, hbus.load_eq hm hbyte, hstore, Option.bind_eq_bind,
        Option.bind_some]
    rw [if_neg hnone, hset]
    exact ⟨_, _, m', rfl, hm'⟩

/-- `pmm_free` returns on every bitmap and changes the record only by its counter. -/
theorem pmmFree_returns (hbus : bus.Lawful ok view S) (hm : ok m)
    (hS : ∀ i : Word, i.toNat < s.totalPages.toNat → s.bitmap + i / 8 ∈ S) (addr : Word) :
    ∃ ret n m', pmmFree bus s m addr = some (ret, { s with allocatedPages := n }, m') ∧ ok m' := by
  unfold pmmFree
  by_cases haligned : addr % pageSize ≠ 0
  · rw [if_pos haligned]
    exact ⟨-1, s.allocatedPages, m, rfl, hm⟩
  by_cases hpage : addr / pageSize ≥ s.totalPages
  · rw [if_neg haligned, if_pos hpage]
    exact ⟨-1, s.allocatedPages, m, rfl, hm⟩
  have hbyte := hS (addr / pageSize) (Nat.lt_of_not_le hpage)
  obtain ⟨b, hb⟩ := bitmapTestBit_returns hbus hm hbyte
  obtain ⟨m', hstore, hm', -⟩ := hbus.store_eq
    (view m (s.bitmap + addr / pageSize / 8) &&& ~~~(1#8 <<< (addr / pageSize % 8).toNat)) hm hbyte
  have hclear : bitmapClearBit bus s m (addr / pageSize) = some m' := by
    simp only [bitmapClearBit, hbus.load_eq hm hbyte, hstore, Option.bind_eq_bind,
      Option.bind_some]
  simp only [if_neg haligned, if_neg hpage, hb, hclear, Option.bind_eq_bind, Option.bind_some]
  split
  · exact ⟨-1, s.allocatedPages, m, rfl, hm⟩
  · exact ⟨0, _, m', rfl, hm'⟩

end Returns

/-- In plain memory `pmm_alloc` changes nothing, or sets the bit of the page it has found
and counts the page. -/
theorem pmmAlloc_mem {s s' : PmmState} {m m' : Mem} {a : Word}
    (hcall : pmmAlloc Mem.bus s m = some (a, s', m')) :
    (findFreePage Mem.bus s m = some 0xFFFFFFFF ∧ s' = s ∧ m' = m) ∨
    ∃ i, findFreePage Mem.bus s m = some i ∧ i ≠ 0xFFFFFFFF ∧ i.toNat < s.totalPages.toNat ∧
      s' = { s with allocatedPages := s.allocatedPages + 1 } ∧
      m' = m.put (s.bitmap + i / 8)
        (m.bytes (s.bitmap + i / 8) ||| 1#8 <<< (i % 8).toNat) := by
  rcases pmmAlloc_cases hcall with ⟨hnone, -, hs, hm⟩ | ⟨i, hfind, hsome, -, hs, hset⟩
  · exact Or.inl ⟨hnone, hs, hm⟩
  · obtain ⟨j, hj, hcases⟩ := findFreePageFrom_returns Mem.lawful trivial (s := s) (m := m) (i := 0)
      (fun _ _ => Set.mem_univ _) (Nat.zero_add _)
    obtain rfl : i = j := Option.some.inj (hfind.symm.trans hj)
    exact Or.inr ⟨i, hfind, hsome, hcases.resolve_left hsome, hs, (Option.some.inj hset).symm⟩

end Nimbu
