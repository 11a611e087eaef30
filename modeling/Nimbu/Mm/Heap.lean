import Nimbu.Machine.Memory

/-!
# The kernel heap

`heap.c`: blocks lie one after the other from the start of the heap, each with
a header in the same memory as the data. `kmalloc` walks the headers for the
first free block that is large enough and otherwise appends a block at the end;
`kfree` clears the used flag of one header.
-/

namespace Nimbu

/-- The static `heap_state` record of `heap.c`. -/
structure HeapState where
  /-- Address of the first block. -/
  start : Word
  /-- Size of the heap in bytes. -/
  size : Word
  /-- Bytes taken by blocks so far. -/
  used : Word
  deriving DecidableEq

/-- `ALLOC_MAGIC`. -/
def allocMagic : Word := 0xDEADBEEF

/-- `MIN_ALLOC_SIZE`. -/
def minAllocSize : Word := 32

/-- `sizeof(alloc_header_t)`: two words, one byte and three bytes of padding. -/
def allocHeaderSize : Word := 12

/-- Offset of the field `size` of `alloc_header_t`. -/
def headerSizeOffset : Word := 4

/-- Offset of the field `used` of `alloc_header_t`. -/
def headerUsedOffset : Word := 8

/-- How the walk over the blocks ends. -/
inductive Walk where
  /-- A header without the magic number: "Heap corruption". -/
  | corrupt
  /-- A free block, large enough, at this address. -/
  | found (current : Word)
  /-- No such block; the addresses of the end of the last block, as a pointer
  and as an offset from the start of the heap. -/
  | tail (current offset : Word)
  deriving DecidableEq

variable {M : Type} (bus : Bus M)

/-- `heap_init`. The function always returns 1. -/
def heapInit (start size : Word) : HeapState := ⟨start, size, 0⟩

/-- The `while` loop of `kmalloc`, for at most the given number of rounds. -/
def kmallocWalk (m : M) (used totalSize : Word) : ℕ → Word → Word → Option Walk
  | 0, _, _ => none
  | rounds + 1, current, offset => do
    if offset < used then
      let magic ← bus.loadWord m current
      if magic ≠ allocMagic then return .corrupt
      let inUse ← bus.load m (current + headerUsedOffset)
      let size ← bus.loadWord m (current + headerSizeOffset)
      if inUse = 0 ∧ size ≥ totalSize then return .found current
      kmallocWalk m used totalSize rounds (current + size) (offset + size)
    else return .tail current offset

/-- The size of the block for a request: the header and the data, at least 32 bytes. -/
def blockSize (size : Word) : Word :=
  if allocHeaderSize + size < minAllocSize then minAllocSize else allocHeaderSize + size

/-- `kmalloc`: a pointer to the data of a block, or 0. The loop reads memory and
changes nothing but its pointer and the offset, which move together, so after
`2 ^ 32` rounds it has repeated itself and never ends; that is `none`. -/
def kmalloc (h : HeapState) (m : M) (size : Word) : Option (Word × HeapState × M) := do
  if size = 0 ∨ size > h.size then return (0, h, m)
  let totalSize := blockSize size
  match ← kmallocWalk bus m h.used totalSize (2 ^ 32) h.start 0 with
  | .corrupt => return (0, h, m)
  | .found current =>
    let m ← bus.store m (current + headerUsedOffset) 1
    return (current + allocHeaderSize, h, m)
  | .tail current _ =>
    if h.used + totalSize > h.size then return (0, h, m)
    let m ← bus.storeWord m current allocMagic
    let m ← bus.storeWord m (current + headerSizeOffset) totalSize
    let m ← bus.store m (current + headerUsedOffset) 1
    return (current + allocHeaderSize, { h with used := h.used + totalSize }, m)

/-- `kfree`: 0, or -1 when the pointer is not preceded by a header. -/
def kfree (m : M) (ptr : Word) : Option (ℤ × M) := do
  if ptr = 0 then return (0, m)
  let header := ptr - allocHeaderSize
  let magic ← bus.loadWord m header
  if magic ≠ allocMagic then return (-1, m)
  let m ← bus.store m (header + headerUsedOffset) 0
  return (0, m)

/-- `heap_get_stats`: the values stored through its two pointers. -/
def heapGetStats (h : HeapState) : Word × Word := (h.used, h.size)

end Nimbu
