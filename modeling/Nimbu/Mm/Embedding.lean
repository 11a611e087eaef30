import Nimbu.Machine.Embedding
import Nimbu.Mm.HeapBlocks
import Nimbu.Mm.VmmMap

/-!
# The memory manager on an embedded memory

`pmm_alloc`, `pmm_free`, the calls of `heap.c` and those of `vmm.c` do on a memory inside
another one what they do on the memory alone, when the addresses they use are read and
stored alike. A call stores after all of its reads, so for the reads one memory is
enough.
-/

namespace Nimbu

variable {M N : Type} {bus₁ : Bus M} {bus₂ : Bus N} {f : M → N} {ok : M → Prop} {S : Set Word}
  {s : PmmState} {m : M} {st : StaticTables} {virt : Word}

section Bitmap

/-- Testing a bit of the bitmap. -/
theorem bitmapTestBit_embeds (h : bus₁.Embeds bus₂ f ok S) (hm : ok m) {i : Word}
    (hi : s.bitmap + i / 8 ∈ S) : bitmapTestBit bus₂ s (f m) i = bitmapTestBit bus₁ s m i := by
  simp only [bitmapTestBit, h.load_eq hm hi]

/-- The loop of `find_free_page`; a page it returns is one it has tested. -/
theorem findFreePageFrom_embeds (h : bus₁.Embeds bus₂ f ok S) (hm : ok m)
    (hS : ∀ i : Word, i.toNat < s.totalPages.toNat → s.bitmap + i / 8 ∈ S) {remaining : ℕ}
    {i : Word} (hi : i.toNat + remaining = s.totalPages.toNat) :
    findFreePageFrom bus₂ s (f m) remaining i = findFreePageFrom bus₁ s m remaining i ∧
      ∀ j, findFreePageFrom bus₁ s m remaining i = some j →
        j = 0xFFFFFFFF ∨ s.bitmap + j / 8 ∈ S := by
  induction remaining generalizing i with
  | zero => exact ⟨rfl, fun j hj => Or.inl (Option.some.inj hj).symm⟩
  | succ remaining ih =>
    have hlt := s.totalPages.isLt
    have hbyte := hS i (by omega)
    have hnext : (i + 1).toNat + remaining = s.totalPages.toNat := by bv_omega
    obtain ⟨hrest, hfound⟩ := ih hnext
    simp only [findFreePageFrom, bitmapTestBit_embeds h hm hbyte, hrest]
    refine ⟨trivial, fun j hj => ?_⟩
    obtain ⟨b, -, hj⟩ := Option.bind_eq_some_iff.mp hj
    split at hj
    · obtain rfl := Option.some.inj hj
      exact Or.inr hbyte
    · exact hfound j hj

/-- `pmm_alloc`. -/
theorem pmmAlloc_embeds (h : bus₁.Embeds bus₂ f ok S) (hm : ok m)
    (hS : ∀ i : Word, i.toNat < s.totalPages.toNat → s.bitmap + i / 8 ∈ S) :
    pmmAlloc bus₂ s (f m) = (pmmAlloc bus₁ s m).map fun r => (r.1, r.2.1, f r.2.2) := by
  obtain ⟨hfind, hfound⟩ := findFreePageFrom_embeds h hm hS (i := 0) (Nat.zero_add _)
  simp only [pmmAlloc, findFreePage, hfind, Option.bind_eq_bind]
  cases hpage : findFreePageFrom bus₁ s m s.totalPages.toNat 0 with
  | none => rfl
  | some i =>
    simp only [Option.bind_some]
    by_cases hnone : i = 0xFFFFFFFF
    · simp only [if_pos hnone, Option.pure_def, Option.map_some]
    · have hbyte := (hfound i hpage).resolve_left hnone
      simp only [if_neg hnone, bitmapSetBit, h.load_eq hm hbyte, Option.bind_eq_bind,
        Option.pure_def]
      cases bus₁.load m (s.bitmap + i / 8) with
      | none => rfl
      | some b =>
        simp only [Option.bind_some, h.store_eq _ hm hbyte]
        cases bus₁.store m (s.bitmap + i / 8) (b ||| 1#8 <<< (i % 8).toNat) <;> rfl

/-- `pmm_free`. -/
theorem pmmFree_embeds (h : bus₁.Embeds bus₂ f ok S) (hm : ok m)
    (hS : ∀ i : Word, i.toNat < s.totalPages.toNat → s.bitmap + i / 8 ∈ S) (addr : Word) :
    pmmFree bus₂ s (f m) addr = (pmmFree bus₁ s m addr).map fun r => (r.1, r.2.1, f r.2.2) := by
  unfold pmmFree
  by_cases haligned : addr % pageSize ≠ 0
  · rw [if_pos haligned, if_pos haligned]
    rfl
  by_cases hpage : addr / pageSize ≥ s.totalPages
  · rw [if_neg haligned, if_pos hpage, if_neg haligned, if_pos hpage]
    rfl
  have hbyte := hS (addr / pageSize) (Nat.lt_of_not_le hpage)
  simp only [if_neg haligned, if_neg hpage, bitmapTestBit_embeds h hm hbyte, bitmapClearBit,
    h.load_eq hm hbyte, Option.bind_eq_bind, Option.pure_def]
  cases bitmapTestBit bus₁ s m (addr / pageSize) with
  | none => rfl
  | some b =>
    simp only [Option.bind_some]
    split
    · rfl
    · cases bus₁.load m (s.bitmap + addr / pageSize / 8) with
      | none => rfl
      | some b =>
        simp only [Option.bind_some, h.store_eq _ hm hbyte]
        cases bus₁.store m (s.bitmap + addr / pageSize / 8)
          (b &&& ~~~(1#8 <<< (addr / pageSize % 8).toNat)) <;> rfl

end Bitmap

section Tables

/-- Finding the page table of an address. -/
theorem pageTableOf_embeds (h : bus₁.Embeds bus₂ f ok Set.univ) (hm : ok m) :
    pageTableOf bus₂ st (f m) virt = pageTableOf bus₁ st m virt := by
  simp only [pageTableOf, h.loadWord_eq hm fun _ _ => Set.mem_univ _]

/-- `vmm_get_phys`. -/
theorem vmmGetPhys_embeds (h : bus₁.Embeds bus₂ f ok Set.univ) (hm : ok m) :
    vmmGetPhys bus₂ st (f m) virt = vmmGetPhys bus₁ st m virt := by
  simp only [vmmGetPhys, pageTableOf_embeds h hm, h.loadWord_eq hm fun _ _ => Set.mem_univ _]

/-- `vmm_unmap`, which stores at most one entry. -/
theorem vmmUnmap_embeds (h : bus₁.Embeds bus₂ f ok Set.univ) (hm : ok m)
    (hstore : ∀ table, pageTableOf bus₁ st m virt = some (some table) →
      bus₂.storeWord (f m) (entry table (ptIndex virt)) 0 =
        (bus₁.storeWord m (entry table (ptIndex virt)) 0).map f) :
    vmmUnmap bus₂ st (f m) virt = (vmmUnmap bus₁ st m virt).map fun r => (r.1, f r.2) := by
  simp only [vmmUnmap, pageTableOf_embeds h hm, Option.bind_eq_bind, Option.pure_def]
  cases htable : pageTableOf bus₁ st m virt with
  | none => rfl
  | some table =>
    cases table with
    | none => rfl
    | some table =>
      simp only [Option.bind_some, h.loadWord_eq hm fun _ _ => Set.mem_univ _, hstore table htable]
      cases bus₁.loadWord m (entry table (ptIndex virt)) with
      | none => rfl
      | some ptEntry =>
        simp only [Option.bind_some]
        split
        · rfl
        · cases bus₁.storeWord m (entry table (ptIndex virt)) 0 <;> rfl

/-- The part of `vmm_map` that finds or creates the page table. -/
theorem vmmMapTable_embeds (h : bus₁.Embeds bus₂ f ok Set.univ) (hm : ok m)
    (hstore : ∀ frame s' m', pmmAlloc bus₁ s m = some (frame, s', m') → frame ≠ 0 →
      pageTableOf bus₁ st m virt = some none →
      bus₂.storeWord (f m') (entry st.directory (pdIndex virt)) (frame ||| presentWrite) =
        (bus₁.storeWord m' (entry st.directory (pdIndex virt)) (frame ||| presentWrite)).map f) :
    vmmMapTable bus₂ st s (f m) virt =
      (vmmMapTable bus₁ st s m virt).map fun r => (r.1, r.2.1, f r.2.2) := by
  simp only [vmmMapTable, pageTableOf_embeds h hm,
    pmmAlloc_embeds h hm fun _ _ => Set.mem_univ _, Option.bind_eq_bind, Option.pure_def]
  cases htable : pageTableOf bus₁ st m virt with
  | none => rfl
  | some table =>
    cases table with
    | some table => rfl
    | none =>
      simp only [Option.bind_some]
      cases halloc : pmmAlloc bus₁ s m with
      | none => rfl
      | some r =>
        obtain ⟨frame, s', m'⟩ := r
        simp only [Option.map_some, Option.bind_some]
        by_cases hzero : frame = 0
        · simp only [if_pos hzero, Option.map_some]
        · simp only [if_neg hzero, hstore frame s' m' halloc hzero htable]
          cases bus₁.storeWord m' (entry st.directory (pdIndex virt)) (frame ||| presentWrite) <;>
            rfl

/-- `vmm_map`, which stores one entry after the table has been found. -/
theorem vmmMap_embeds {phys flags : Word} (hvirt : virt % pageSize = 0)
    (hphys : phys % pageSize = 0)
    (htable : vmmMapTable bus₂ st s (f m) virt =
      (vmmMapTable bus₁ st s m virt).map fun r => (r.1, r.2.1, f r.2.2))
    (hstore : ∀ table s' m', vmmMapTable bus₁ st s m virt = some (some table, s', m') →
      bus₂.storeWord (f m') (entry table (ptIndex virt)) (phys ||| flags) =
        (bus₁.storeWord m' (entry table (ptIndex virt)) (phys ||| flags)).map f) :
    vmmMap bus₂ st s (f m) virt phys flags =
      (vmmMap bus₁ st s m virt phys flags).map fun r => (r.1, r.2.1, f r.2.2) := by
  simp only [vmmMap_of_aligned hvirt hphys, htable, Option.bind_eq_bind, Option.pure_def]
  cases hresult : vmmMapTable bus₁ st s m virt with
  | none => rfl
  | some r =>
    obtain ⟨table, s', m'⟩ := r
    cases table with
    | none => rfl
    | some table =>
      simp only [Option.map_some, Option.bind_some, hstore table s' m' hresult]
      cases bus₁.storeWord m' (entry table (ptIndex virt)) (phys ||| flags) <;> rfl

end Tables

section Heap

variable {bus : Bus N} {f : Mem → N} {ok : Mem → Prop} {h : HeapState} {bs : List Block} {m : Mem}

/-- The loop of `kmalloc`, which reads the headers of the blocks. -/
theorem kmallocWalk_embeds (he : Mem.bus.Embeds bus f ok S) (hm : ok m) (t : Word) {off : ℕ}
    (hspan : off + Block.span bs = h.used.toNat) (hmin : ∀ b ∈ bs, 32 ≤ b.size)
    (hheader : ∀ o b, (o, b) ∈ Block.place off bs → HeaderAt m.bytes (h.addr o) b)
    (hS : ∀ o b, (o, b) ∈ Block.place off bs → ∀ j < 12, h.addr (o + j) ∈ S) (rounds : ℕ) :
    kmallocWalk bus (f m) h.used t rounds (h.addr off) (BitVec.ofNat 32 off) =
      kmallocWalk Mem.bus m h.used t rounds (h.addr off) (BitVec.ofNat 32 off) := by
  induction bs generalizing off rounds with
  | nil =>
    obtain rfl : off = h.used.toNat := by simpa using hspan
    cases rounds with
    | zero => rfl
    | succ rounds => simp [kmallocWalk]
  | cons b bs ih =>
    cases rounds with
    | zero => rfl
    | succ rounds =>
      have hhead := hheader off b (by simp [Block.place])
      have hbyte : ∀ j < 12, h.addr (off + j) ∈ S := hS off b (by simp [Block.place])
      have hword : ∀ k, k + 4 ≤ 12 → ∀ j < 4, h.addr (off + k) + BitVec.ofNat 32 j ∈ S := by
        intro k hk j hj
        rw [h.addr_add, Nat.add_assoc]
        exact hbyte _ (by omega)
      have hmagic := he.loadWord_eq hm (hword 0 (by decide))
      have hsize := he.loadWord_eq hm (hword 4 (by decide))
      have hused := he.load_eq hm (hbyte 8 (by decide))
      rw [Nat.add_zero] at hmagic
      rw [Block.span_cons] at hspan
      have hrest := ih (show off + b.size + Block.span bs = h.used.toNat by omega)
        (fun c hc => hmin c (by simp [hc])) (fun o c hc => hheader o c (by simp [Block.place, hc]))
        (fun o c hc => hS o c (by simp [Block.place, hc])) rounds
      have hsize' : m.bytes.word (h.addr (off + 4)) = BitVec.ofNat 32 b.size := by
        rw [← h.addr_add_sizeOffset]
        exact hhead.size
      simp only [kmallocWalk, h.addr_add_usedOffset, h.addr_add_sizeOffset, hmagic, hsize, hused,
        Mem.bus_loadWord, Mem.bus_load, Option.bind_eq_bind, Option.bind_some, hsize', h.addr_add,
        ← BitVec.ofNat_add, hrest]

/-- `kmalloc`, when the headers of the blocks and the place of the request are there. -/
theorem kmalloc_embeds (he : Mem.bus.Embeds bus f ok S)
    (hkeep : ∀ {m a} (b), ok m → a ∈ S → ok (m.put a b)) (hm : ok m) (ht : h.Tiled m.bytes bs)
    (hS : ∀ o b, (o, b) ∈ Block.place 0 bs → ∀ j < 12, h.addr (o + j) ∈ S) (n : Word)
    (hplace : ∀ o, h.placeFor bs n = some o → ∀ j < 12, h.addr (o + j) ∈ S) :
    kmalloc bus h (f m) n = (kmalloc Mem.bus h m n).map fun r => (r.1, r.2.1, f r.2.2) := by
  by_cases hbad : n = 0 ∨ n > h.size
  · rw [kmalloc, if_pos hbad, kmalloc, if_pos hbad]
    rfl
  have hbad' : ¬ (n = 0 ∨ h.size.toNat < n.toNat) := hbad
  have hsize := ht.size_le
  have hused := ht.used_le
  have hcount := Block.mul_length_le_span ht.min_size
  have hspan := ht.span_eq
  have hstart : h.addr 0 = h.start := by simp [HeapState.addr]
  have ht32 := blockSize_toNat (show n.toNat ≤ 2 ^ 30 by omega)
  have hwalks := kmallocWalk_embeds he hm (blockSize n) ((Nat.zero_add _).trans hspan)
    ht.min_size ht.header hS (2 ^ 32)
  have hwalk := kmallocWalk_eq (blockSize n) h.used.isLt ((Nat.zero_add _).trans hspan)
    ht.min_size ht.header (show bs.length < 2 ^ 32 by omega)
  rw [hstart, show BitVec.ofNat 32 0 = (0 : Word) from rfl] at hwalks hwalk
  rw [kmalloc, if_neg hbad, kmalloc, if_neg hbad]
  rcases hwalk with ⟨pre, b, post, rfl, hpre, hb, hwalk⟩ | ⟨hnone, hwalk⟩
  · -- The first free block that fits is marked.
    have hbyte := hS _ _ (Block.mem_place_middle pre post b) 8 (by decide)
    rw [Nat.zero_add] at hwalk
    simp only [hwalks, hwalk, Option.bind_eq_bind, Option.bind_some, h.addr_add_usedOffset,
      he.store_eq _ hm hbyte]
    rfl
  · simp only [hwalks, hwalk, Option.bind_eq_bind, Option.bind_some]
    by_cases hfull : h.used + blockSize n > h.size
    · simp only [if_pos hfull]
      rfl
    · -- A block is appended at the end of the used part.
      have hroom : h.used.toNat + requestSize n.toNat ≤ h.size.toNat := by
        have hreq : requestSize n.toNat ≤ 2 ^ 30 + 44 := by unfold requestSize; omega
        rw [gt_iff_lt, BitVec.lt_def, BitVec.toNat_add, ht32, Nat.mod_eq_of_lt (by omega)] at hfull
        omega
      have hend : h.placeFor bs n = some h.used.toNat := by
        rw [ht32] at hnone
        rw [HeapState.placeFor, if_neg hbad', Block.firstFit_of_none hnone]
        simp only [if_pos hroom]
      have hbyte := hplace _ hend
      have hword : ∀ k, k + 4 ≤ 12 → ∀ j < 4,
          h.addr (h.used.toNat + k) + BitVec.ofNat 32 j ∈ S := by
        intro k hk j hj
        rw [h.addr_add, Nat.add_assoc]
        exact hbyte _ (by omega)
      obtain ⟨hmagic, hm₁⟩ := he.storeWord_mem hkeep hm allocMagic (hword 0 (by decide))
      obtain ⟨htotal, hm₂⟩ := he.storeWord_mem hkeep hm₁ (blockSize n) (hword 4 (by decide))
      have hflag := he.store_eq 1 hm₂ (hbyte 8 (by decide))
      rw [Nat.add_zero] at hmagic htotal hflag
      simp only [if_neg hfull, h.addr_add_sizeOffset, h.addr_add_usedOffset, hmagic, htotal, hflag,
        Mem.bus_storeWord, Option.bind_some]
      rfl

/-- `kfree`, when the header before the pointer is there. -/
theorem kfree_embeds (he : Mem.bus.Embeds bus f ok S) (hm : ok m) {ptr : Word}
    (hS : ∀ j < 12, ptr - allocHeaderSize + BitVec.ofNat 32 j ∈ S) :
    kfree bus (f m) ptr = (kfree Mem.bus m ptr).map fun r => (r.1, f r.2) := by
  by_cases hzero : ptr = 0
  · rw [kfree, if_pos hzero, kfree, if_pos hzero]
    rfl
  rw [kfree, if_neg hzero, kfree, if_neg hzero]
  simp only [he.loadWord_eq hm fun j hj => hS j (by omega), Mem.bus_loadWord, Option.bind_eq_bind,
    Option.bind_some]
  by_cases hmagic : m.bytes.word (ptr - allocHeaderSize) ≠ allocMagic
  · simp only [if_pos hmagic]
    rfl
  · have hflag := he.store_eq 0 hm (hS 8 (by decide))
    rw [show BitVec.ofNat 32 8 = headerUsedOffset from rfl] at hflag
    simp only [if_neg hmagic, hflag]
    rfl

end Heap

end Nimbu
