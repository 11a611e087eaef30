import Nimbu.Mm.HeapSteps

/-!
# Foreign pointers

`kfree` knows a block by the magic number in its header. A pointer that belongs to no
block is refused unless the magic number stands before it, and that can only be in
bytes that `kmalloc` does not write: in the data of a block, in the padding of a header
or behind the last block. The bytes of the headers themselves never look like a
header anywhere else.
-/

namespace Nimbu

variable {h : HeapState} {v : Bytes} {bs pre post : List Block} {b : Block} {o o' : ℕ}

/-- The used flags are stored as 0 and 1. -/
def HeapState.Flags (h : HeapState) (v : Bytes) (bs : List Block) : Prop :=
  ∀ o b, (o, b) ∈ Block.place 0 bs → v (h.addr (o + 8)) = if b.inUse then 1 else 0

/-- The byte `k` of the magic number. -/
def magicByte (k : ℕ) : Byte := allocMagic.extractLsb' (8 * k) 8

/-- The first byte of the magic number is none of the others. -/
theorem magicByte_ne {k : ℕ} (hpos : 0 < k) (hk : k < 4) : magicByte 0 ≠ magicByte k := by
  obtain rfl | rfl | rfl : k = 1 ∨ k = 2 ∨ k = 3 := by omega
  · decide
  · decide
  · decide

/-- No byte of the magic number is a used flag. -/
theorem magicByte_ne_flag {k : ℕ} (hk : k < 4) (u : Bool) :
    magicByte k ≠ if u then 1 else 0 := by
  obtain rfl | rfl | rfl | rfl : k = 0 ∨ k = 1 ∨ k = 2 ∨ k = 3 := by omega
  · cases u <;> decide
  · cases u <;> decide
  · cases u <;> decide
  · cases u <;> decide

/-- The last byte of the size of a block is not that of the magic number. -/
theorem sizeByte_ne {n : ℕ} (hn : n ≤ 2 ^ 30) :
    (BitVec.ofNat 32 n).extractLsb' 24 8 ≠ magicByte 3 := by
  intro heq
  have hbyte := congrArg BitVec.toNat heq
  rw [BitVec.extractLsb'_toNat, BitVec.toNat_ofNat, Nat.shiftRight_eq_div_pow,
    show (magicByte 3).toNat = 222 from rfl] at hbyte
  omega

/-- Where the magic number stands, its bytes stand. -/
theorem HeapState.magicByte_eq (hmagic : v.word (h.addr o) = allocMagic) {k : ℕ} (hk : k < 4) :
    v (h.addr (o + k)) = magicByte k := by
  rw [← h.addr_add, v.byte_of_word _ hk, hmagic, magicByte]

/-- The magic number does not stand across the magic number, the size or the flag of a header. -/
theorem HeapState.Tiled.magic_apart (ht : h.Tiled v bs) (hflags : h.Flags v bs)
    (hplaced : (o', b) ∈ Block.place 0 bs) (hmagic : v.word (h.addr o) = allocMagic)
    (hne : o ≠ o') : o + 4 ≤ o' ∨ o' + 9 ≤ o := by
  have hheader := ht.header o' b hplaced
  have hb := ht.block_le hplaced
  have hused := ht.used_le
  have hsize := ht.size_le
  by_contra hacross
  obtain hlt | hlt | hlt | hlt : o < o' ∨ o' < o ∧ o < o' + 4 ∨ o = o' + 4 ∨ o' + 4 < o := by omega
  · -- The header's own magic number starts within it.
    have hfirst := HeapState.magicByte_eq hheader.magic (show 0 < 4 by decide)
    have hinside := HeapState.magicByte_eq hmagic (show o' - o < 4 by omega)
    rw [show o + (o' - o) = o' + 0 by omega, hfirst] at hinside
    exact magicByte_ne (by omega) (by omega) hinside
  · -- It starts within the header's magic number.
    have hfirst := HeapState.magicByte_eq hmagic (show 0 < 4 by decide)
    have hinside := HeapState.magicByte_eq hheader.magic (show o - o' < 4 by omega)
    rw [show o' + (o - o') = o + 0 by omega, hfirst] at hinside
    exact magicByte_ne (by omega) (by omega) hinside
  · -- It is the size.
    have hlast := HeapState.magicByte_eq hmagic (show 3 < 4 by decide)
    have hbyte := v.byte_of_word (h.addr o) (show 3 < 4 by decide)
    rw [h.addr_add, hlast, hlt, ← h.addr_add_sizeOffset, hheader.size] at hbyte
    exact sizeByte_ne (by omega) hbyte.symm
  · -- It covers the flag.
    have hflag := HeapState.magicByte_eq hmagic (show o' + 8 - o < 4 by omega)
    rw [show o + (o' + 8 - o) = o' + 8 by omega, hflags o' b hplaced] at hflag
    exact magicByte_ne_flag (by omega) b.inUse hflag.symm

namespace HeapState.Flags

/-- Storing a flag. -/
theorem mark (hflags : h.Flags v (pre ++ b :: post)) (ht : h.Tiled v (pre ++ b :: post))
    (u : Bool) {x : Byte} (hx : x = if u then 1 else 0) :
    h.Flags (v.put (h.addr (Block.span pre + 8)) x) (pre ++ { b with inUse := u } :: post) := by
  have hused := ht.used_le
  have hsize := ht.size_le
  intro o c hplaced
  rcases (Block.mem_place_replace (show ({ b with inUse := u } : Block).size = b.size from rfl)
    (fun c hc => by have := ht.min_size c hc; omega)).mp hplaced with hnew | ⟨hold, hne⟩
  · obtain ⟨rfl, rfl⟩ := Prod.mk.inj hnew
    rw [Bytes.put_apply, if_pos rfl, hx]
  · have hb := ht.block_le (Block.mem_place_middle pre post b)
    have hc := ht.block_le hold
    rw [Bytes.put_of_ne, hflags o c hold]
    intro heq
    rw [h.addr_inj (by omega) (by omega)] at heq
    exact hne (by simpa using heq)

/-- Appending a block. -/
theorem append {m : Mem} (hflags : h.Flags m.bytes bs) (ht : h.Tiled m.bytes bs) {t : Word} {n : ℕ}
    (hmin : 32 ≤ t.toNat) (hroom : h.used.toNat + t.toNat ≤ h.size.toNat) :
    { h with used := h.used + t }.Flags (h.putHeader m h.used.toNat t).bytes
      (bs ++ [({ size := n, inUse := true } : Block)]) := by
  have hsize := ht.size_le
  intro o c hplaced
  change (h.putHeader m h.used.toNat t).bytes (h.addr (o + 8)) = _
  rw [Block.place_append, List.mem_append, Nat.zero_add, ht.span_eq] at hplaced
  rcases hplaced with hold | hnew
  · have hc := ht.block_le hold
    rw [HeapState.putHeader_of_ne, hflags o c hold]
    intro k hk heq
    rw [h.addr_inj (by omega) (by omega)] at heq
    omega
  · obtain ⟨rfl, rfl⟩ : o = h.used.toNat ∧ c = ⟨n, true⟩ := by simpa [Block.place] using hnew
    rw [HeapState.putHeader, Mem.bytes_put, Bytes.put_apply, if_pos rfl, if_pos rfl]

end HeapState.Flags

namespace HeapClient

variable {x x' : HeapClient} {bs' : List Block} {call : HeapCall} {reply : HeapReply}

/-- Every action of a client that frees only what it holds stores flags as 0 and 1. -/
theorem HeapStep.flags (hstep : x.HeapStep bs call reply x' bs')
    (ht : x.heap.Tiled x.mem.bytes bs) (hflags : x.heap.Flags x.mem.bytes bs) :
    x'.heap.Flags x'.mem.bytes bs' := by
  cases hstep with
  | refused n hwhy => exact hflags
  | reused n pre post b hbs hpre hfits hpos hp =>
    subst hbs
    exact hflags.mark ht true rfl
  | appended n hnone hpos hle hblock hroom hp =>
    have hmin : 32 ≤ requestSize n.toNat := le_max_left _ _
    exact hflags.append ht (t := blockSize n) (by omega) (by omega)
  | freed pre post b hbs =>
    subst hbs
    exact hflags.mark ht false rfl
  | written a byte e o b he hs ha =>
    intro o' c hplaced
    have hne := hs.payload_ne ht ha (show 8 < 12 by decide) (Or.inl ⟨c, hplaced⟩)
    exact (Bytes.put_of_ne byte hne.symm).trans (hflags o' c hplaced)

/-- The magic number stands before a pointer, in bytes that are no part of the magic number, the
size or the flag of any header. -/
def Forged (x : HeapClient) (bs : List Block) (ptr : Word) : Prop :=
  x.mem.bytes.word (ptr - allocHeaderSize) = allocMagic ∧
    ∀ o b, (o, b) ∈ Block.place 0 bs → ∀ j < 4, ∀ k < 9,
      ptr - allocHeaderSize + BitVec.ofNat 32 j ≠ x.heap.addr (o + k)

/-- A pointer into the heap with room for a header before it is at an offset. -/
theorem exists_offset {ptr : Word} (ht : h.Tiled v bs) (hlo : h.start.toNat + 12 ≤ ptr.toNat)
    (hhi : ptr.toNat ≤ h.start.toNat + h.size.toNat) :
    ∃ o, ptr = h.addr (o + 12) ∧ o + 12 ≤ h.size.toNat ∧ ptr ≠ 0 := by
  have hend := ht.end_le
  have hlt := ptr.isLt
  refine ⟨ptr.toNat - h.start.toNat - 12, ?_, by omega, ?_⟩
  · apply BitVec.eq_of_toNat_eq
    rw [h.toNat_addr (by omega)]
    omega
  · rintro rfl
    exact absurd hlo (by simp)

/-- The magic number before a foreign pointer is forged. -/
theorem forged_addr_iff (ht : x.heap.Tiled x.mem.bytes bs) (hflags : x.heap.Flags x.mem.bytes bs)
    (ho : o + 12 ≤ x.heap.size.toNat)
    (hforeign : ∀ o' b, (o', b) ∈ Block.place 0 bs →
      x.heap.addr (o + 12) ≠ x.heap.addr (o' + 12)) :
    x.Forged bs (x.heap.addr (o + 12)) ↔ x.mem.bytes.word (x.heap.addr o) = allocMagic := by
  have hmax := ht.size_le
  have hused := ht.used_le
  rw [Forged, x.heap.addr_sub_headerSize]
  refine and_iff_left_of_imp fun hmagic o' b hplaced j hj k hk heq => ?_
  have hb := ht.block_le hplaced
  have hoff : o ≠ o' := by
    rintro rfl
    exact hforeign o b hplaced rfl
  rw [x.heap.addr_add, x.heap.addr_inj (by omega) (by omega)] at heq
  have hapart := ht.magic_apart hflags hplaced hmagic hoff
  omega

/-- **`kfree` refuses foreign pointers, but for forged headers.** After every run of a client
that frees only what it holds and writes only into what it holds, and for every pointer whose 12
preceding bytes lie in the heap and which is not the pointer of a block: `kfree` returns -1 and
stores nothing exactly when there is no forged header before the pointer, and otherwise it
returns 0 and clears one byte of it. -/
theorem kfree_foreign (start size : Word) (m : Mem)
    (hbase : kernelVirtBase.toNat ≤ start.toNat) (hend : start.toNat + size.toNat ≤ 2 ^ 32)
    {calls : List HeapCall} (hcalls : Along step HeldOnly (init start size m) calls) :
    ∃ replies x bs, exec step (init start size m) calls = some (replies, x) ∧
      x.heap.Tiled x.mem.bytes bs ∧
      ∀ ptr : Word, start.toNat + 12 ≤ ptr.toNat → ptr.toNat ≤ start.toNat + size.toNat →
        (∀ o b, (o, b) ∈ Block.place 0 bs → ptr ≠ x.heap.addr (o + 12)) →
        (kfree Mem.bus x.mem ptr = some (-1, x.mem) ↔ ¬ x.Forged bs ptr) ∧
        (x.Forged bs ptr → kfree Mem.bus x.mem ptr = some (0, x.mem.put (ptr - 4) 0)) := by
  obtain ⟨replies, x, -, hrun, -, hstart, hsize⟩ := owned_of_run m hbase hend hcalls
  have hinit : ∃ bs, (init start size m).Owned bs ∧
      (init start size m).heap.Flags (init start size m).mem.bytes bs :=
    ⟨[], ⟨init_sound m hbase hend, by simp [init], by simp [init]⟩,
      by simp [HeapState.Flags, Block.place]⟩
  obtain ⟨bs, hx, hflags⟩ := exec_invariant
    (fun x : HeapClient => ∃ bs, x.Owned bs ∧ x.heap.Flags x.mem.bytes bs)
    (fun hinv hcall hstep => by
      obtain ⟨bs, hx, hflags⟩ := hinv
      obtain ⟨bs', hx', hcases⟩ := hx.heapStep hcall hstep
      exact ⟨bs', hx', hcases.flags hx.tiled hflags⟩) hinit hcalls hrun
  have ht := hx.tiled
  refine ⟨replies, x, bs, hrun, ht, fun ptr hlo hhi hforeign => ?_⟩
  rw [← hstart] at hlo hhi
  rw [← hsize] at hhi
  obtain ⟨o, rfl, ho, hne⟩ := exists_offset ht hlo hhi
  have hbyte : x.heap.addr (o + 12) - 4 = x.heap.addr (o + 8) := by
    rw [← x.heap.addr_add (o + 8) 4]
    exact BitVec.add_sub_cancel _ _
  rw [forged_addr_iff ht hflags ho hforeign, kfree_addr hne, hbyte]
  constructor
  · split
    · rename_i hmagic
      exact iff_of_false (by simp) (not_not.mpr hmagic)
    · rename_i hmagic
      exact iff_of_true rfl hmagic
  · intro hmagic
    rw [if_pos hmagic]

/-- A heap of fewer than 64 bytes has no block but the one at its start. -/
theorem offset_eq_zero (ht : h.Tiled v bs) (hused : h.used.toNat < 64)
    (hplaced : (o, b) ∈ Block.place 0 bs) : o = 0 := by
  have hb := ht.block_le hplaced
  obtain ⟨pre, post, rfl, rfl⟩ := Block.mem_place_iff.mp hplaced
  have hcount : 32 * pre.length ≤ Block.span pre :=
    Block.mul_length_le_span fun c hc => ht.min_size c (List.mem_append_left _ hc)
  have hnil : pre = [] := List.length_eq_zero_iff.mp (by omega)
  rw [hnil, Block.span_nil]

/-- A pointer into the data of the only block is refused. -/
theorem kfree_foreign_interior :
    ∃ replies x, exec step (init 0xC0100000 0x800000 ⟨fun _ => 0xAA, []⟩) [.kmalloc 20] =
        some (replies, x) ∧ kfree Mem.bus x.mem 0xC0100010 = some (-1, x.mem) := by
  have hcalls : Along step HeldOnly (init 0xC0100000 0x800000 ⟨fun _ => 0xAA, []⟩)
      [.kmalloc 20] := Along.cons trivial rfl trivial
  obtain ⟨replies, x, bs, hrun, ht, hkfree⟩ := kfree_foreign 0xC0100000 0x800000
    ⟨fun _ => 0xAA, []⟩ (by decide) (by decide) hcalls
  have heval : (exec step (init 0xC0100000 0x800000 ⟨fun _ => 0xAA, []⟩) [.kmalloc 20]).map
      (fun r => (r.2.heap, r.2.mem.bytes.word (0xC0100010 - allocHeaderSize))) =
        some (⟨0xC0100000, 0x800000, 32⟩, 32) := by
    decide +kernel
  rw [hrun, Option.map_some, Option.some.injEq, Prod.mk.injEq] at heval
  refine ⟨replies, x, hrun, ((hkfree 0xC0100010 (by decide) (by decide) ?_).1).mpr ?_⟩
  · intro o b hplaced
    rw [offset_eq_zero ht (by rw [heval.1]; decide) hplaced, heval.1]
    decide
  · rintro ⟨hmagic, -⟩
    rw [heval.2] at hmagic
    exact absurd hmagic (by decide)

/-- Any bytes may be written into a block that is held. -/
theorem along_writes {e : Word × Word} (he : e ∈ x.held) (bytes : List (Word × Byte))
    (hbytes : ∀ w ∈ bytes, InPayload e w.1) :
    Along step HeldOnly x (bytes.map fun w => .write w.1 w.2) := by
  induction bytes generalizing x with
  | nil => trivial
  | cons w bytes ih =>
    have hwrite : x.step (.write w.1 w.2) = some (.written, { x with mem := x.mem.put w.1 w.2 }) :=
      rfl
    exact Along.cons ⟨e, he, hbytes w List.mem_cons_self⟩ hwrite
      (ih he fun d hd => hbytes d (List.mem_cons_of_mem _ hd))

/-- The data of a block may hold the magic number, and then a pointer behind it is accepted and
a byte of the data is cleared. -/
theorem kfree_accepts_forged :
    Along step HeldOnly (init 0xC0100000 0x800000 ⟨fun _ => 0xAA, []⟩)
        [.kmalloc 32, .write 0xC010000C 0xEF, .write 0xC010000D 0xBE, .write 0xC010000E 0xAD,
          .write 0xC010000F 0xDE] ∧
      ∃ replies x bs, exec step (init 0xC0100000 0x800000 ⟨fun _ => 0xAA, []⟩)
          [.kmalloc 32, .write 0xC010000C 0xEF, .write 0xC010000D 0xBE, .write 0xC010000E 0xAD,
            .write 0xC010000F 0xDE] = some (replies, x) ∧
        x.heap.Tiled x.mem.bytes bs ∧
        (∀ o b, (o, b) ∈ Block.place 0 bs → (0xC0100018 : Word) ≠ x.heap.addr (o + 12)) ∧
        ∃ m, kfree Mem.bus x.mem 0xC0100018 = some (0, m) ∧
          m.bytes 0xC0100014 ≠ x.mem.bytes 0xC0100014 := by
  have hheld : (step (init 0xC0100000 0x800000 ⟨fun _ => 0xAA, []⟩) (.kmalloc 32)).map
      (fun r => r.2.held) = some [(0xC010000C, 32)] := by
    decide +kernel
  have hcalls : Along step HeldOnly (init 0xC0100000 0x800000 ⟨fun _ => 0xAA, []⟩)
      [.kmalloc 32, .write 0xC010000C 0xEF, .write 0xC010000D 0xBE, .write 0xC010000E 0xAD,
        .write 0xC010000F 0xDE] := by
    refine ⟨trivial, fun o t hstep => ?_⟩
    rw [hstep, Option.map_some, Option.some.injEq] at hheld
    refine along_writes (e := (0xC010000C, 32)) (by rw [hheld]; exact List.mem_cons_self)
      [(0xC010000C, 0xEF), (0xC010000D, 0xBE), (0xC010000E, 0xAD), (0xC010000F, 0xDE)] ?_
    simp only [List.forall_mem_cons]
    exact ⟨by decide, by decide, by decide, by decide, List.forall_mem_nil _⟩
  obtain ⟨replies, x, bs, hrun, hx, -⟩ := owned_of_run ⟨fun _ => 0xAA, []⟩
    (show kernelVirtBase.toNat ≤ (0xC0100000 : Word).toNat by decide)
    (show (0xC0100000 : Word).toNat + (0x800000 : Word).toNat ≤ 2 ^ 32 by decide) hcalls
  have heval : (exec step (init 0xC0100000 0x800000 ⟨fun _ => 0xAA, []⟩)
      [.kmalloc 32, .write 0xC010000C 0xEF, .write 0xC010000D 0xBE, .write 0xC010000E 0xAD,
        .write 0xC010000F 0xDE]).map (fun r => (r.2.heap, r.2.mem.bytes 0xC0100014,
          (kfree Mem.bus r.2.mem 0xC0100018).map fun f => (f.1, f.2.bytes 0xC0100014))) =
      some (⟨0xC0100000, 0x800000, 44⟩, 0xAA, some (0, 0)) := by
    decide +kernel
  rw [hrun, Option.map_some, Option.some.injEq, Prod.mk.injEq, Prod.mk.injEq] at heval
  obtain ⟨hheap, hbyte, hkfree⟩ := heval
  obtain ⟨⟨ret, m⟩, hfree, hresult⟩ := Option.map_eq_some_iff.mp hkfree
  obtain ⟨rfl, hcleared⟩ := Prod.mk.inj hresult
  refine ⟨hcalls, replies, x, bs, hrun, hx.tiled, fun o b hplaced => ?_, m, hfree, ?_⟩
  · rw [offset_eq_zero hx.tiled (by rw [hheap]; decide) hplaced, hheap]
    decide
  · rw [show m.bytes 0xC0100014 = 0 from hcleared, hbyte]
    decide

end HeapClient

end Nimbu
