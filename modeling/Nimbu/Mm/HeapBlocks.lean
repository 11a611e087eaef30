import Nimbu.Machine.Blocks
import Nimbu.Mm.Heap
import Nimbu.Mm.Pmm

/-!
# The blocks of the kernel heap

The bytes between the start of the heap and `used` are read as a list of
blocks, and every operation of `heap.c` is stated as an operation on that list:
the walk of `kmalloc` finds the first free block that fits, a block is appended
only where none fits, and `kfree` frees one block.
-/

namespace Nimbu

namespace HeapState

/-- The address at an offset from the start of the heap. -/
def addr (h : HeapState) (o : ℕ) : Word := h.start + BitVec.ofNat 32 o

/-- Adding a small constant to the address of an offset. -/
theorem addr_add (h : HeapState) (o k : ℕ) : h.addr o + BitVec.ofNat 32 k = h.addr (o + k) := by
  rw [addr, addr, BitVec.ofNat_add, BitVec.add_assoc]

@[simp] theorem addr_add_sizeOffset (h : HeapState) (o : ℕ) :
    h.addr o + headerSizeOffset = h.addr (o + 4) := h.addr_add o 4

@[simp] theorem addr_add_usedOffset (h : HeapState) (o : ℕ) :
    h.addr o + headerUsedOffset = h.addr (o + 8) := h.addr_add o 8

@[simp] theorem addr_add_headerSize (h : HeapState) (o : ℕ) :
    h.addr o + allocHeaderSize = h.addr (o + 12) := h.addr_add o 12

/-- The header of the block with this data. -/
theorem addr_sub_headerSize (h : HeapState) (o : ℕ) :
    h.addr (o + 12) - allocHeaderSize = h.addr o := by
  rw [← h.addr_add_headerSize]
  exact BitVec.add_sub_cancel _ _

/-- Offsets within the address space have different addresses. -/
theorem addr_inj (h : HeapState) {o o' : ℕ} (ho : o < 2 ^ 32) (ho' : o' < 2 ^ 32) :
    h.addr o = h.addr o' ↔ o = o' := offset_inj ho ho'

/-- Below the end of the address space the address is the sum. -/
theorem toNat_addr (h : HeapState) {o : ℕ} (ho : h.start.toNat + o < 2 ^ 32) :
    (h.addr o).toNat = h.start.toNat + o := by
  rw [addr]
  bv_omega

end HeapState

/-- The header of block `b` stands at address `a`. -/
structure HeaderAt (v : Bytes) (a : Word) (b : Block) : Prop where
  /-- The magic number. -/
  magic : v.word a = allocMagic
  /-- The size, header included. -/
  size : v.word (a + headerSizeOffset) = BitVec.ofNat 32 b.size
  /-- The used flag. -/
  used : v (a + headerUsedOffset) = 0 ↔ b.inUse = false

/-- The heap lies in the kernel half of the address space, and the bytes in use
are exactly the blocks `bs`, each behind its own header. -/
structure HeapState.Tiled (h : HeapState) (v : Bytes) (bs : List Block) : Prop where
  /-- The heap starts in the kernel half. -/
  base_le : kernelVirtBase.toNat ≤ h.start.toNat
  /-- The heap ends within the address space. -/
  end_le : h.start.toNat + h.size.toNat ≤ 2 ^ 32
  /-- The blocks fit the heap. -/
  used_le : h.used.toNat ≤ h.size.toNat
  /-- The blocks fill the used part. -/
  span_eq : Block.span bs = h.used.toNat
  /-- Every block has room for a header and some data. -/
  min_size : ∀ b ∈ bs, 32 ≤ b.size
  /-- Every block has its header. -/
  header : ∀ o b, (o, b) ∈ Block.place 0 bs → HeaderAt v (h.addr o) b

variable {h : HeapState} {v v' : Bytes} {bs pre post : List Block} {b : Block} {o : ℕ}

/-- A word is kept where its four bytes are kept. -/
theorem HeapState.word_congr (hsame : ∀ k < 4, v' (h.addr (o + k)) = v (h.addr (o + k))) :
    v'.word (h.addr o) = v.word (h.addr o) := by
  have hbyte : ∀ k < 4, v' (h.addr o + BitVec.ofNat 32 k) = v (h.addr o + BitVec.ofNat 32 k) := by
    intro k hk
    rw [h.addr_add]
    exact hsame k hk
  exact Bytes.word_congr (hsame 0 (by decide)) (hbyte 1 (by decide)) (hbyte 2 (by decide))
    (hbyte 3 (by decide))

/-- A header is kept where its twelve bytes are kept. -/
theorem HeaderAt.congr (hheader : HeaderAt v (h.addr o) b)
    (hsame : ∀ k < 12, v' (h.addr (o + k)) = v (h.addr (o + k))) : HeaderAt v' (h.addr o) b := by
  refine ⟨?_, ?_, ?_⟩
  · rw [← hheader.magic]
    exact HeapState.word_congr fun k hk => hsame k (by omega)
  · rw [← hheader.size, h.addr_add_sizeOffset]
    refine HeapState.word_congr fun k hk => ?_
    rw [Nat.add_assoc]
    exact hsame (4 + k) (by omega)
  · rw [← hheader.used, h.addr_add_usedOffset, hsame 8 (by decide)]

/-- A word store changes no byte outside its four offsets. -/
theorem HeapState.putWord_of_ne {c : Word} (w : Word) (hne : ∀ k < 4, c ≠ h.addr (o + k)) :
    v.putWord (h.addr o) w c = v c := by
  have hne' : ∀ k < 4, c ≠ h.addr o + BitVec.ofNat 32 k := by
    intro k hk
    rw [h.addr_add]
    exact hne k hk
  exact Bytes.putWord_of_ne w (hne 0 (by decide)) (hne' 1 (by decide)) (hne' 2 (by decide))
    (hne' 3 (by decide))

/-- The stores `kmalloc` makes to append a block of size `t` at an offset. -/
def HeapState.putHeader (h : HeapState) (m : Mem) (o : ℕ) (t : Word) : Mem :=
  ((m.putWord (h.addr o) allocMagic).putWord (h.addr (o + 4)) t).put (h.addr (o + 8)) 1

/-- Appending a block changes no byte outside the new header. -/
theorem HeapState.putHeader_of_ne {m : Mem} {c : Word} (t : Word)
    (hne : ∀ k < 12, c ≠ h.addr (o + k)) : (h.putHeader m o t).bytes c = m.bytes c := by
  simp only [putHeader, Mem.bytes_put, Mem.bytes_putWord]
  rw [Bytes.put_of_ne _ (hne 8 (by decide)), HeapState.putWord_of_ne, HeapState.putWord_of_ne]
  · exact fun k hk => hne k (by omega)
  · intro k hk
    rw [Nat.add_assoc]
    exact hne (4 + k) (by omega)

/-- The appended header describes a used block of its size. -/
theorem HeapState.putHeader_header {m : Mem} (t : Word) (ho : o + 12 ≤ 2 ^ 32) :
    HeaderAt (h.putHeader m o t).bytes (h.addr o) ⟨t.toNat, true⟩ := by
  have hne : ∀ i < 12, ∀ j < 12, i ≠ j → h.addr (o + i) ≠ h.addr (o + j) := by
    intro i hi j hj hij heq
    rw [h.addr_inj (by omega) (by omega)] at heq
    omega
  refine ⟨?_, ?_, ?_⟩
  · rw [← Bytes.word_putWord_self m.bytes (h.addr o) allocMagic]
    refine HeapState.word_congr fun k hk => ?_
    simp only [putHeader, Mem.bytes_put, Mem.bytes_putWord]
    rw [Bytes.put_of_ne _ (hne k (by omega) 8 (by decide) (by omega)), HeapState.putWord_of_ne]
    intro j hj
    rw [Nat.add_assoc]
    exact hne k (by omega) (4 + j) (by omega) (by omega)
  · rw [h.addr_add_sizeOffset, BitVec.ofNat_toNat, BitVec.setWidth_eq]
    conv_rhs => rw [← Bytes.word_putWord_self (m.putWord (h.addr o) allocMagic).bytes
      (h.addr (o + 4)) t]
    refine HeapState.word_congr fun k hk => ?_
    rw [Nat.add_assoc]
    exact Bytes.put_of_ne _ (hne (4 + k) (by omega) 8 (by decide) (by omega))
  · rw [h.addr_add_usedOffset, putHeader, Mem.bytes_put, Bytes.put_apply, if_pos rfl]
    simp

namespace HeapState.Tiled

/-- The used part is smaller than a quarter of the address space. -/
theorem size_le (ht : h.Tiled v bs) : h.size.toNat ≤ 2 ^ 30 := by
  have h1 := ht.base_le
  have h2 := ht.end_le
  have h3 : kernelVirtBase.toNat = 0xC0000000 := rfl
  omega

/-- No pointer into the heap is 0. -/
theorem addr_ne_zero (ht : h.Tiled v bs) (ho : o + 12 < h.size.toNat) :
    h.addr (o + 12) ≠ 0 := by
  have hbase := ht.base_le
  have hend := ht.end_le
  have hvirt : kernelVirtBase.toNat = 0xC0000000 := rfl
  have haddr := h.toNat_addr (o := o + 12) (by omega)
  bv_omega

/-- A placed block lies within the used part. -/
theorem block_le (ht : h.Tiled v bs) (hb : (o, b) ∈ Block.place 0 bs) :
    o + b.size ≤ h.used.toNat ∧ 32 ≤ b.size := by
  have hend := Block.place_end_le hb
  have hspan := ht.span_eq
  exact ⟨by omega, ht.min_size b (Block.mem_of_mem_place hb)⟩

/-- No block is larger than the used part. -/
theorem size_le_used (ht : h.Tiled v bs) (hb : b ∈ bs) : b.size ≤ h.used.toNat := by
  obtain ⟨o, hplaced⟩ := Block.exists_mem_place hb
  exact le_trans (Nat.le_add_left _ _) (ht.block_le hplaced).1

/-- The blocks are kept where all headers are kept. -/
theorem congr (ht : h.Tiled v bs)
    (hsame : ∀ o b, (o, b) ∈ Block.place 0 bs → ∀ k < 12,
      v' (h.addr (o + k)) = v (h.addr (o + k))) : h.Tiled v' bs :=
  ⟨ht.base_le, ht.end_le, ht.used_le, ht.span_eq, ht.min_size,
    fun o b hb => (ht.header o b hb).congr (hsame o b hb)⟩

/-- Storing the used flag of one block replaces that block. -/
theorem mark (ht : h.Tiled v (pre ++ b :: post)) (u : Bool) {x : Byte}
    (hx : x = 0 ↔ u = false) :
    h.Tiled (v.put (h.addr (Block.span pre + 8)) x) (pre ++ { b with inUse := u } :: post) := by
  have hsize := ht.size_le
  have hused := ht.used_le
  have hmem := Block.mem_place_middle pre post b
  have hb := ht.block_le hmem
  refine ⟨ht.base_le, ht.end_le, ht.used_le, ?_, ?_, ?_⟩
  · simpa using ht.span_eq
  · intro c hc
    rcases List.mem_append.mp hc with hc | hc
    · exact ht.min_size c (by simp [hc])
    · rcases List.mem_cons.mp hc with rfl | hc
      · exact hb.2
      · exact ht.min_size c (by simp [hc])
  · intro o c hoc
    rw [Block.mem_place_replace (show ({ b with inUse := u } : Block).size = b.size from rfl)
      (fun c hc => by have := ht.min_size c hc; omega)] at hoc
    rcases hoc with heq | ⟨hoc, hne⟩
    · obtain ⟨rfl, rfl⟩ : o = Block.span pre ∧ c = _ := by simpa using heq
      have hold := ht.header _ _ hmem
      have hkeep : ∀ i < 8, v.put (h.addr (Block.span pre + 8)) x (h.addr (Block.span pre + i)) =
          v (h.addr (Block.span pre + i)) := by
        intro i hi
        refine Bytes.put_of_ne x fun heq => ?_
        rw [h.addr_inj (by omega) (by omega)] at heq
        omega
      refine ⟨?_, ?_, ?_⟩
      · rw [← hold.magic]
        exact HeapState.word_congr fun k hk => hkeep k (by omega)
      · rw [← hold.size, h.addr_add_sizeOffset]
        refine HeapState.word_congr fun k hk => ?_
        rw [Nat.add_assoc]
        exact hkeep (4 + k) (by omega)
      · rw [h.addr_add_usedOffset, Bytes.put_apply, if_pos rfl]
        exact hx
    · refine (ht.header o c hoc).congr fun k hk => Bytes.put_of_ne x fun heq => ?_
      have hc := ht.block_le hoc
      rw [h.addr_inj (by omega) (by omega)] at heq
      rcases Block.place_disjoint hoc hmem with ⟨rfl, -⟩ | h1 | h1
      · exact hne rfl
      · omega
      · omega

/-- Appending a block behind the last one adds it to the list. -/
theorem append {m : Mem} (ht : h.Tiled m.bytes bs) {t : Word} (hmin : 32 ≤ t.toNat)
    (hroom : h.used.toNat + t.toNat ≤ h.size.toNat) :
    { h with used := h.used + t }.Tiled (h.putHeader m h.used.toNat t).bytes
      (bs ++ [({ size := t.toNat, inUse := true } : Block)]) := by
  have hsize := ht.size_le
  have hused : (h.used + t).toNat = h.used.toNat + t.toNat := by bv_omega
  refine ⟨ht.base_le, ht.end_le, by rw [hused]; exact hroom, ?_, ?_, ?_⟩
  · simp [ht.span_eq, hused]
  · intro c hc
    rcases List.mem_append.mp hc with hc | hc
    · exact ht.min_size c hc
    · rw [List.mem_singleton.mp hc]
      exact hmin
  · intro o c hoc
    change HeaderAt _ (h.addr o) c
    rw [Block.place_append, List.mem_append, Nat.zero_add, ht.span_eq] at hoc
    rcases hoc with hoc | hoc
    · have hc := ht.block_le hoc
      refine (ht.header o c hoc).congr fun k hk => ?_
      refine HeapState.putHeader_of_ne t fun j hj heq => ?_
      rw [h.addr_inj (by omega) (by omega)] at heq
      omega
    · obtain ⟨rfl, rfl⟩ : o = h.used.toNat ∧ c = ⟨t.toNat, true⟩ := by
        simpa [Block.place] using hoc
      exact HeapState.putHeader_header t (by omega)

end HeapState.Tiled

/-- **The walk of `kmalloc`.** From the first of the remaining blocks it stops at
the first that is free and large enough, or, past the last one, exactly at the
end of the used part. It needs one round more than there are blocks. -/
theorem kmallocWalk_eq {m : Mem} (t : Word) (hlt : h.used.toNat < 2 ^ 32) {off : ℕ}
    (hspan : off + Block.span bs = h.used.toNat) (hmin : ∀ b ∈ bs, 32 ≤ b.size)
    (hheader : ∀ o b, (o, b) ∈ Block.place off bs → HeaderAt m.bytes (h.addr o) b)
    {rounds : ℕ} (hrounds : bs.length < rounds) :
    (∃ pre b post, bs = pre ++ b :: post ∧ (∀ c ∈ pre, ¬ c.Fits t.toNat) ∧ b.Fits t.toNat ∧
      kmallocWalk Mem.bus m h.used t rounds (h.addr off) (BitVec.ofNat 32 off) =
        some (.found (h.addr (off + Block.span pre)))) ∨
    ((∀ c ∈ bs, ¬ c.Fits t.toNat) ∧
      kmallocWalk Mem.bus m h.used t rounds (h.addr off) (BitVec.ofNat 32 off) =
        some (.tail (h.addr h.used.toNat) h.used)) := by
  induction bs generalizing off rounds with
  | nil =>
    right
    obtain ⟨rounds, rfl⟩ : ∃ n, rounds = n + 1 := ⟨rounds - 1, by simp at hrounds; omega⟩
    have hoff : off = h.used.toNat := by simpa using hspan
    subst hoff
    refine ⟨by simp, ?_⟩
    simp [kmallocWalk]
  | cons b bs ih =>
    obtain ⟨rounds, rfl⟩ : ∃ n, rounds = n + 1 := ⟨rounds - 1, by simp at hrounds; omega⟩
    have hb := hmin b (by simp)
    simp only [Block.span_cons] at hspan
    have hhead := hheader off b (by simp [Block.place])
    have hbefore : BitVec.ofNat 32 off < h.used := by bv_omega
    have hfits : (m.bytes (h.addr off + headerUsedOffset) = 0 ∧ BitVec.ofNat 32 b.size ≥ t) ↔
        b.Fits t.toNat := by
      rw [hhead.used, Block.Fits]
      refine and_congr_right fun _ => ?_
      constructor <;> intro hle <;> bv_omega
    have hround : kmallocWalk Mem.bus m h.used t (rounds + 1) (h.addr off) (BitVec.ofNat 32 off) =
        if b.Fits t.toNat then some (.found (h.addr off))
        else kmallocWalk Mem.bus m h.used t rounds (h.addr (off + b.size))
          (BitVec.ofNat 32 (off + b.size)) := by
      rw [kmallocWalk, if_pos hbefore]
      simp only [Mem.bus_loadWord, Mem.bus_load, Option.bind_eq_bind, Option.bind_some, hhead.magic,
        ne_eq, not_true_eq_false, if_false, hfits, hhead.size, h.addr_add, ← BitVec.ofNat_add,
        Option.pure_def]
    by_cases hfit : b.Fits t.toNat
    · left
      refine ⟨[], b, bs, rfl, by simp, hfit, ?_⟩
      rw [hround, if_pos hfit]
      simp
    · rw [hround, if_neg hfit]
      have hrest := ih (show off + b.size + Block.span bs = h.used.toNat by omega)
        (fun c hc => hmin c (by simp [hc]))
        (fun o c hc => hheader o c (by simp [Block.place, hc]))
        (show bs.length < rounds by simpa using hrounds)
      rcases hrest with ⟨pre, c, post, rfl, hpre, hc, hwalk⟩ | ⟨hnone, hwalk⟩
      · left
        refine ⟨b :: pre, c, post, rfl, ?_, hc, ?_⟩
        · intro d hd
          rcases List.mem_cons.mp hd with rfl | hd
          · exact hfit
          · exact hpre d hd
        · rw [hwalk, Block.span_cons, Nat.add_assoc]
      · right
        refine ⟨?_, hwalk⟩
        intro d hd
        rcases List.mem_cons.mp hd with rfl | hd
        · exact hfit
        · exact hnone d hd

/-- The size of the block that serves a request of `n` bytes. -/
def requestSize (n : ℕ) : ℕ := max 32 (12 + n)

/-- The block size `kmalloc` computes does not wrap for a request below 1 GB. -/
theorem blockSize_toNat {n : Word} (hn : n.toNat ≤ 2 ^ 30) :
    (blockSize n).toNat = requestSize n.toNat := by
  have hsum : (allocHeaderSize + n).toNat = 12 + n.toNat := by
    rw [allocHeaderSize]
    bv_omega
  have hmin : minAllocSize.toNat = 32 := rfl
  have hlt : allocHeaderSize + n < minAllocSize ↔ 12 + n.toNat < 32 := by
    rw [BitVec.lt_def, hsum, hmin]
  by_cases hsmall : 12 + n.toNat < 32
  · rw [blockSize, if_pos (hlt.mpr hsmall), hmin, requestSize, max_eq_left (by omega)]
  · rw [blockSize, if_neg (hlt.not.mpr hsmall), hsum, requestSize, max_eq_right (by omega)]

/-- **What `kmalloc` does to a heap of blocks.** It refuses and changes nothing;
or it marks the first free block that fits; or, when none fits, it appends a
block at the end of the used part. -/
theorem kmalloc_eq {m : Mem} (ht : h.Tiled m.bytes bs) (n : Word) :
    ((n = 0 ∨ h.size.toNat < n.toNat ∨ ((∀ c ∈ bs, ¬ c.Fits (requestSize n.toNat)) ∧
        h.size.toNat < h.used.toNat + requestSize n.toNat)) ∧
      kmalloc Mem.bus h m n = some (0, h, m)) ∨
    (∃ pre b post, bs = pre ++ b :: post ∧ (∀ c ∈ pre, ¬ c.Fits (requestSize n.toNat)) ∧
      b.Fits (requestSize n.toNat) ∧ 0 < n.toNat ∧ n.toNat ≤ h.size.toNat ∧
      kmalloc Mem.bus h m n =
        some (h.addr (Block.span pre + 12), h, m.put (h.addr (Block.span pre + 8)) 1)) ∨
    ((∀ c ∈ bs, ¬ c.Fits (requestSize n.toNat)) ∧ 0 < n.toNat ∧ n.toNat ≤ h.size.toNat ∧
      (blockSize n).toNat = requestSize n.toNat ∧
      h.used.toNat + requestSize n.toNat ≤ h.size.toNat ∧
      kmalloc Mem.bus h m n = some (h.addr (h.used.toNat + 12),
        { h with used := h.used + blockSize n }, h.putHeader m h.used.toNat (blockSize n))) := by
  have hsize := ht.size_le
  have hused := ht.used_le
  by_cases hbad : n = 0 ∨ n > h.size
  · left
    refine ⟨?_, by rw [kmalloc, if_pos hbad]; rfl⟩
    rcases hbad with hzero | hbig
    · exact Or.inl hzero
    · exact Or.inr (Or.inl (by bv_omega))
  · obtain ⟨hpos, hle⟩ : 0 < n.toNat ∧ n.toNat ≤ h.size.toNat := by
      constructor <;> bv_omega
    have ht32 := blockSize_toNat (show n.toNat ≤ 2 ^ 30 by omega)
    have hcount := Block.mul_length_le_span ht.min_size
    have hspan := ht.span_eq
    have hwalk := kmallocWalk_eq (blockSize n) h.used.isLt ((Nat.zero_add _).trans hspan)
      ht.min_size ht.header (show bs.length < 2 ^ 32 by omega)
    have hstart : h.addr 0 = h.start := by simp [HeapState.addr]
    rw [hstart, ht32, show BitVec.ofNat 32 0 = (0 : Word) from rfl] at hwalk
    rcases hwalk with ⟨pre, b, post, rfl, hpre, hb, hwalk⟩ | ⟨hnone, hwalk⟩
    · right; left
      refine ⟨pre, b, post, rfl, hpre, hb, hpos, hle, ?_⟩
      rw [Nat.zero_add] at hwalk
      rw [kmalloc, if_neg hbad]
      simp only [hwalk, Option.bind_eq_bind, Option.bind_some, Mem.bus_store,
        HeapState.addr_add_usedOffset, HeapState.addr_add_headerSize, Option.pure_def]
    · have hroom : h.used + blockSize n > h.size ↔
          h.size.toNat < h.used.toNat + requestSize n.toNat := by
        have hreq : requestSize n.toNat ≤ 2 ^ 30 + 44 := by unfold requestSize; omega
        rw [gt_iff_lt, BitVec.lt_def, BitVec.toNat_add, ht32, Nat.mod_eq_of_lt (by omega)]
      by_cases hfull : h.size.toNat < h.used.toNat + requestSize n.toNat
      · left
        refine ⟨Or.inr (Or.inr ⟨hnone, hfull⟩), ?_⟩
        rw [kmalloc, if_neg hbad]
        simp only [hwalk, Option.bind_eq_bind, Option.bind_some, if_pos (hroom.mpr hfull),
          Option.pure_def]
      · right; right
        refine ⟨hnone, hpos, hle, ht32, by omega, ?_⟩
        rw [kmalloc, if_neg hbad]
        simp only [hwalk, Option.bind_eq_bind, Option.bind_some, if_neg (hroom.not.mpr hfull),
          Mem.bus_storeWord, Mem.bus_store, HeapState.addr_add_sizeOffset,
          HeapState.addr_add_usedOffset, HeapState.addr_add_headerSize, HeapState.putHeader,
          Option.pure_def]

/-- A header determines its block. -/
theorem HeaderAt.unique {a : Word} {b' : Block} (hb : HeaderAt v a b) (hb' : HeaderAt v a b')
    (hsize : b.size < 2 ^ 32) (hsize' : b'.size < 2 ^ 32) : b = b' := by
  have hwords := hb.size.symm.trans hb'.size
  have hsizes : b.size = b'.size := by bv_omega
  have hflags : b.inUse = b'.inUse := by
    have hiff := hb.used.symm.trans hb'.used
    cases hu : b.inUse <;> cases hu' : b'.inUse <;> simp_all
  cases b
  cases b'
  simp_all

/-- Two lists of blocks that fill the same stretch with the same headers are equal. -/
theorem HeapState.blocks_unique {bs' : List Block} {off e : ℕ} (he : e < 2 ^ 32)
    (hspan : off + Block.span bs = e) (hspan' : off + Block.span bs' = e)
    (hmin : ∀ b ∈ bs, 32 ≤ b.size) (hmin' : ∀ b ∈ bs', 32 ≤ b.size)
    (hheader : ∀ o b, (o, b) ∈ Block.place off bs → HeaderAt v (h.addr o) b)
    (hheader' : ∀ o b, (o, b) ∈ Block.place off bs' → HeaderAt v (h.addr o) b) : bs = bs' := by
  induction bs generalizing off bs' with
  | nil =>
    cases bs' with
    | nil => rfl
    | cons c bs' =>
      have := hmin' c (by simp)
      simp only [Block.span_nil, Block.span_cons] at hspan hspan'
      omega
  | cons b bs ih =>
    cases bs' with
    | nil =>
      have := hmin b (by simp)
      simp only [Block.span_nil, Block.span_cons] at hspan hspan'
      omega
    | cons c bs' =>
      simp only [Block.span_cons] at hspan hspan'
      obtain rfl : b = c := (hheader off b (by simp [Block.place])).unique
        (hheader' off c (by simp [Block.place])) (by omega) (by omega)
      have hrest : bs = bs' := ih (show off + b.size + Block.span bs = e by omega)
        (show off + b.size + Block.span bs' = e by omega)
        (fun d hd => hmin d (by simp [hd])) (fun d hd => hmin' d (by simp [hd]))
        (fun o d hd => hheader o d (by simp [Block.place, hd]))
        (fun o d hd => hheader' o d (by simp [Block.place, hd]))
      rw [hrest]

/-- The blocks of a heap are determined by its memory. -/
theorem HeapState.Tiled.unique {bs' : List Block} (ht : h.Tiled v bs) (ht' : h.Tiled v bs') :
    bs = bs' :=
  HeapState.blocks_unique h.used.isLt ((Nat.zero_add _).trans ht.span_eq)
    ((Nat.zero_add _).trans ht'.span_eq) ht.min_size ht'.min_size ht.header ht'.header

/-- The offset at which a request of `n` bytes is served: that of the first free
block that fits, else the end of the used part. -/
def HeapState.placeFor (h : HeapState) (bs : List Block) (n : Word) : Option ℕ :=
  if n = 0 ∨ h.size.toNat < n.toNat then none
  else match Block.firstFit (requestSize n.toNat) 0 bs with
    | some o => some o
    | none =>
      if h.used.toNat + requestSize n.toNat ≤ h.size.toNat then some h.used.toNat else none

/-- **Where `kmalloc` serves a request.** It refuses where there is no place;
otherwise it writes only the header at the place and returns the address behind
it, and the blocks stay where they were but for the one at the place. -/
theorem kmalloc_placed {m : Mem} (ht : h.Tiled m.bytes bs) (n : Word) :
    (h.placeFor bs n = none ∧ kmalloc Mem.bus h m n = some (0, h, m)) ∨
    ∃ o h' m' bs', h.placeFor bs n = some o ∧ 0 < n.toNat ∧
      kmalloc Mem.bus h m n = some (h.addr (o + 12), h', m') ∧ h'.Tiled m'.bytes bs' ∧
      h'.start = h.start ∧ h'.size = h.size ∧
      ((h'.used = h.used ∧ ∃ b, (o, b) ∈ Block.place 0 bs) ∨
        (o = h.used.toNat ∧ h'.used.toNat = h.used.toNat + requestSize n.toNat)) ∧
      (∃ b, (o, b) ∈ Block.place 0 bs' ∧ requestSize n.toNat ≤ b.size) ∧
      (∀ o' b', (o', b') ∈ Block.place 0 bs' → o' = o ∨ ∃ b, (o', b) ∈ Block.place 0 bs) ∧
      ∀ c, (∀ k < 12, c ≠ h.addr (o + k)) → m'.bytes c = m.bytes c := by
  have hsize := ht.size_le
  have hused := ht.used_le
  rcases kmalloc_eq ht n with ⟨hwhy, heq⟩ | ⟨pre, b, post, rfl, hpre, hb, hpos, hle, heq⟩ |
    ⟨hnone, hpos, hle, hblock, hroom, heq⟩
  · left
    refine ⟨?_, heq⟩
    unfold HeapState.placeFor
    rcases hwhy with hzero | hbig | ⟨hnone, hfull⟩
    · rw [if_pos (Or.inl hzero)]
    · rw [if_pos (Or.inr hbig)]
    · rw [Block.firstFit_of_none hnone]
      simp [Nat.not_le.mpr hfull]
  · right
    have hbad : ¬ (n = 0 ∨ h.size.toNat < n.toNat) := by
      rintro (hzero | hbig)
      · simp [hzero] at hpos
      · omega
    have hmem := Block.mem_place_middle pre post b
    refine ⟨Block.span pre, h, _, pre ++ { b with inUse := true } :: post, ?_, hpos, heq,
      ht.mark true (by decide), rfl, rfl, Or.inl ⟨rfl, b, hmem⟩,
      ⟨_, Block.mem_place_middle pre post _, hb.2⟩, ?_, ?_⟩
    · unfold HeapState.placeFor
      rw [if_neg hbad, Block.firstFit_append hpre hb, Nat.zero_add]
    · intro o' b' ho'
      rw [Block.mem_place_replace (show ({ b with inUse := true } : Block).size = b.size from rfl)
        (fun c hc => by have := ht.min_size c hc; omega)] at ho'
      rcases ho' with heq' | ⟨hold, -⟩
      · exact Or.inl (congrArg Prod.fst heq')
      · exact Or.inr ⟨b', hold⟩
    · intro c hc
      exact Bytes.put_of_ne _ (hc 8 (by decide))
  · right
    have hbad : ¬ (n = 0 ∨ h.size.toNat < n.toNat) := by
      rintro (hzero | hbig)
      · simp [hzero] at hpos
      · omega
    have hmin : 32 ≤ requestSize n.toNat := le_max_left _ _
    have hsum : (h.used + blockSize n).toNat = h.used.toNat + requestSize n.toNat := by
      rw [← hblock]
      bv_omega
    refine ⟨h.used.toNat, { h with used := h.used + blockSize n }, _,
      bs ++ [{ size := (blockSize n).toNat, inUse := true }], ?_, hpos, heq,
      ht.append (by omega) (by omega), rfl, rfl, Or.inr ⟨rfl, hsum⟩, ⟨_,
        Block.mem_place_iff.mpr ⟨bs, [], rfl, by rw [Nat.zero_add, ht.span_eq]⟩, hblock.ge⟩, ?_, ?_⟩
    · unfold HeapState.placeFor
      rw [if_neg hbad, Block.firstFit_of_none hnone]
      simp [hroom]
    · intro o' b' ho'
      rw [Block.place_append, List.mem_append, Nat.zero_add, ht.span_eq] at ho'
      rcases ho' with hold | hnew
      · exact Or.inr ⟨b', hold⟩
      · left
        obtain ⟨rfl, -⟩ : o' = h.used.toNat ∧ _ := by simpa [Block.place] using hnew
        rfl
    · intro c hc
      exact HeapState.putHeader_of_ne _ hc

/-- `kfree` reads the magic number before its pointer, and clears one byte if it is there. -/
theorem kfree_addr {m : Mem} (hne : h.addr (o + 12) ≠ 0) :
    kfree Mem.bus m (h.addr (o + 12)) =
      if m.bytes.word (h.addr o) = allocMagic then some (0, m.put (h.addr (o + 8)) 0)
      else some (-1, m) := by
  simp only [kfree, if_neg hne, h.addr_sub_headerSize, Mem.bus_loadWord, Option.bind_eq_bind,
    Option.bind_some, ne_eq, ite_not, Mem.bus_store, HeapState.addr_add_usedOffset,
    Option.pure_def]

/-- `kfree` of a block's data clears the used flag of that block. -/
theorem kfree_eq {m : Mem} (ht : h.Tiled m.bytes (pre ++ b :: post)) :
    kfree Mem.bus m (h.addr (Block.span pre + 12)) =
      some (0, m.put (h.addr (Block.span pre + 8)) 0) := by
  have hmem := Block.mem_place_middle pre post b
  have hb := ht.block_le hmem
  have hused := ht.used_le
  rw [kfree_addr (ht.addr_ne_zero (by omega)), if_pos (ht.header _ _ hmem).magic]

end Nimbu
