import Nimbu.Mm.VmmMap

/-!
# New page tables

`vmm_map` takes a frame from `pmm_alloc` when the directory has no page table for
an address, and writes one entry of it. The other 1023 entries are what the frame
happened to hold. This file says for which frames they map nothing.
-/

namespace Nimbu

/-- The 1024 words of a page, but for one, have `PAGE_PRESENT` clear. -/
def Bytes.NoneElsePresent (v : Bytes) (page : Word) (index : ℕ) : Prop :=
  ∀ j < 1024, j ≠ index → v.word (entry page j) &&& pagePresent = 0

/-- The frame for a new page table is clean but for the entry that `vmm_map` writes. A
frame that is the directory itself is treated as what it becomes. -/
def StaticTables.CleanFrame (st : StaticTables) (v : Bytes) (frame virt ptEntry : Word) : Prop :=
  if frame = st.directory then
    pdIndex virt = ptIndex virt ∧ (ptEntry &&& pagePresent ≠ 0 →
      v.NoneElsePresent (ptEntry &&& frameMask) (ptIndex virt))
  else v.NoneElsePresent frame (ptIndex virt)

/-- No other page in the 4 MB of an address is mapped: `vmm_get_phys` returns 0 for it
and `vmm_unmap` refuses it. -/
def MapsNothingElse {M : Type} (bus : Bus M) (st : StaticTables) (m : M) (virt : Word) : Prop :=
  ∀ v, pdIndex v = pdIndex virt → v.toNat / 4096 ≠ virt.toNat / 4096 →
    vmmGetPhys bus st m v = some 0 ∧ (vmmUnmap bus st m v).map (·.1) = some (-1)

variable {st : StaticTables} {s : PmmState} {m : Mem} {virt phys flags : Word}

/-- Plain memory reads the tables in it. -/
theorem Mem.readsTables (st : StaticTables) (m : Mem) (virt : Word) :
    ReadsTables Mem.bus st m m.bytes virt :=
  ⟨rfl, fun _ => rfl⟩

/-- A page is taken for unmapped exactly when one of its two entries is not present. -/
theorem unmapped_iff (v : Word) :
    (vmmGetPhys Mem.bus st m v = some 0 ∧ (vmmUnmap Mem.bus st m v).map (·.1) = some (-1)) ↔
      st.pde m.bytes v &&& pagePresent = 0 ∨ st.pte m.bytes v &&& pagePresent = 0 := by
  have hread := Mem.readsTables st m v
  constructor
  · rintro ⟨-, hunmap⟩
    by_contra hmapped
    rw [not_or] at hmapped
    rw [vmmUnmap_of_mapped hread hmapped.1 hmapped.2] at hunmap
    simp at hunmap
  · intro hnone
    rw [vmmUnmap_of_unmapped hread hnone, vmmGetPhys_eq hread]
    refine ⟨?_, rfl⟩
    unfold StaticTables.physOf
    rcases hnone with hpde | hpte
    · rw [if_pos hpde]
    · rw [if_pos hpte, ite_self]

/-- In terms of the entries of the page table: none but that of the address is present. -/
theorem mapsNothingElse_iff {pde : Word} (hpde : st.pde m.bytes virt = pde) :
    MapsNothingElse Mem.bus st m virt ↔
      (pde &&& pagePresent ≠ 0 → m.bytes.NoneElsePresent (pde &&& frameMask) (ptIndex virt)) := by
  unfold MapsNothingElse
  simp only [unmapped_iff]
  have hsame : ∀ v, pdIndex v = pdIndex virt → st.pde m.bytes v = pde := by
    intro v hv
    rw [← hpde, StaticTables.pde, hv, StaticTables.pde]
  constructor
  · intro h hpresent j hj hne
    have hlt := virt.isLt
    obtain ⟨v, hv⟩ : ∃ v : Word, v.toNat = pdIndex virt * 2 ^ 22 + j * 2 ^ 12 := by
      have hpd := pdIndex_lt virt
      exact ⟨BitVec.ofNat 32 (pdIndex virt * 2 ^ 22 + j * 2 ^ 12), by
        rw [BitVec.toNat_ofNat]
        exact Nat.mod_eq_of_lt (by omega)⟩
    have hpd : pdIndex v = pdIndex virt := by
      unfold pdIndex at *
      omega
    have hpt : ptIndex v = j := by
      unfold ptIndex pdIndex at *
      omega
    have hother : v.toNat / 4096 ≠ virt.toNat / 4096 := by
      unfold ptIndex pdIndex at *
      omega
    have hentry := (h v hpd hother).resolve_left (by rwa [hsame v hpd])
    rwa [StaticTables.pte, StaticTables.pageTable, hsame v hpd, hpt] at hentry
  · intro h v hpd hother
    rw [StaticTables.pte, StaticTables.pageTable, hsame v hpd]
    by_cases hpresent : pde &&& pagePresent = 0
    · exact Or.inl hpresent
    · right
      apply h hpresent _ (ptIndex_lt v)
      unfold ptIndex pdIndex at *
      omega

/-- The frames of `pmm_alloc` start on pages. -/
theorem pmmAlloc_aligned {M : Type} {bus : Bus M} {s s' : PmmState} {m m' : M} {frame : Word}
    (halloc : pmmAlloc bus s m = some (frame, s', m')) : frame.toNat % 4096 = 0 := by
  rcases pmmAlloc_cases halloc with ⟨-, rfl, -⟩ | ⟨i, -, -, rfl, -⟩
  · rfl
  · unfold pageSize
    bv_omega

/-- In plain memory `pmm_alloc` writes at most one byte of the bitmap. -/
theorem pmmAlloc_bytes {s s' : PmmState} {m m' : Mem} {frame : Word}
    (halloc : pmmAlloc Mem.bus s m = some (frame, s', m')) {c : Word}
    (hc : ∀ i : Word, c ≠ s.bitmap + i / 8) : m'.bytes c = m.bytes c := by
  rcases pmmAlloc_mem halloc with ⟨-, -, rfl⟩ | ⟨i, -, -, -, -, rfl⟩
  · rfl
  · exact Bytes.put_of_ne _ (hc i)

/-- What `vmm_map` does when it creates a page table. -/
theorem vmmMap_new {s₁ : PmmState} {m₁ : Mem} {frame : Word} (hvirt : virt % pageSize = 0)
    (hphys : phys % pageSize = 0) (habsent : st.pde m.bytes virt &&& pagePresent = 0)
    (halloc : pmmAlloc Mem.bus s m = some (frame, s₁, m₁)) (hframe : frame ≠ 0) :
    vmmMap Mem.bus st s m virt phys flags = some (0, s₁,
      (m₁.putWord (entry st.directory (pdIndex virt)) (frame ||| presentWrite)).putWord
        (entry frame (ptIndex virt)) (phys ||| flags)) := by
  have htable := pageTableOf_eq (Mem.readsTables st m virt).directory
  rw [if_pos habsent] at htable
  simp only [vmmMap_of_aligned hvirt hphys, vmmMapTable, htable, halloc, if_neg hframe,
    Mem.bus_storeWord, Option.bind_eq_bind, Option.bind_some, Option.pure_def]

section NewTable

variable {v : Bytes} {page frame w : Word}

/-- The words that decide what a new page table maps are not written by `vmm_map`, if
the directory entry is not one of them. -/
theorem noneElsePresent_newTable_iff (hpage : page.toNat % 4096 = 0)
    (hframe : frame.toNat % 4096 = 0)
    (hother : page ≠ st.directory ∨ pdIndex virt = ptIndex virt) (pdEntry : Word) :
    ((v.putWord (entry st.directory (pdIndex virt)) pdEntry).putWord (entry frame (ptIndex virt))
      w).NoneElsePresent page (ptIndex virt) ↔ v.NoneElsePresent page (ptIndex virt) := by
  have hkept : ∀ j < 1024, j ≠ ptIndex virt →
      ((v.putWord (entry st.directory (pdIndex virt)) pdEntry).putWord
        (entry frame (ptIndex virt)) w).word (entry page j) = v.word (entry page j) := by
    intro j hj hne
    rw [Bytes.putWord_entry_of_ne _ hpage hframe hj (ptIndex_lt virt) (Or.inr hne),
      Bytes.putWord_entry_of_ne _ hpage st.directory_aligned hj (pdIndex_lt virt) ?_]
    rcases hother with hother | hother
    · exact Or.inl hother
    · exact Or.inr (by rwa [hother])
  unfold Bytes.NoneElsePresent
  refine forall₃_congr fun j hj hne => ?_
  rw [hkept j hj hne]

/-- The directory entry that a new page table leaves, unless the table is written over
it. -/
theorem pde_newTable (hframe : frame.toNat % 4096 = 0)
    (hother : frame ≠ st.directory ∨ pdIndex virt ≠ ptIndex virt) (pdEntry : Word) :
    st.pde ((v.putWord (entry st.directory (pdIndex virt)) pdEntry).putWord
      (entry frame (ptIndex virt)) w) virt = pdEntry := by
  unfold StaticTables.pde
  rw [Bytes.putWord_entry_of_ne _ st.directory_aligned hframe (pdIndex_lt virt) (ptIndex_lt virt)
    (hother.imp Ne.symm id)]
  exact Bytes.word_putWord_self _ _ _

end NewTable

/-- A page table written over the directory itself: its directory entry maps the
directory, unless it is the entry written last. -/
theorem mapsNothingElse_of_directory {m₁ m₂ : Mem} {frame w : Word} (hsame : frame = st.directory)
    (hbytes : m₂ = (m₁.putWord (entry st.directory (pdIndex virt)) (frame ||| presentWrite)).putWord
      (entry frame (ptIndex virt)) w) :
    MapsNothingElse Mem.bus st m₂ virt ↔
      pdIndex virt = ptIndex virt ∧ (w &&& pagePresent ≠ 0 →
        m₁.bytes.NoneElsePresent (w &&& frameMask) (ptIndex virt)) := by
  have haligned : frame.toNat % 4096 = 0 := hsame ▸ st.directory_aligned
  by_cases hindex : pdIndex virt = ptIndex virt
  · have hpde : st.pde m₂.bytes virt = w := by
      rw [hbytes, StaticTables.pde, hindex, ← hsame]
      exact Bytes.word_putWord_self _ _ _
    rw [mapsNothingElse_iff hpde, and_iff_right hindex]
    refine imp_congr_right fun _ => ?_
    rw [hbytes]
    exact noneElsePresent_newTable_iff (frame_toNat_mod _) haligned (Or.inr hindex) _
  · have hpde : st.pde m₂.bytes virt = frame ||| presentWrite := by
      rw [hbytes]
      exact pde_newTable haligned (Or.inr hindex) _
    rw [mapsNothingElse_iff hpde, frame_of_entry haligned]
    refine iff_of_false (fun h => ?_) fun h => hindex h.1
    have hself := h (entry_present frame) (pdIndex virt) (pdIndex_lt virt) hindex
    rw [StaticTables.pde, ← hsame] at hpde
    rw [hpde] at hself
    exact entry_present frame hself

/-- A page table in a frame of its own. -/
theorem mapsNothingElse_of_frame {m₁ m₂ : Mem} {frame w : Word}
    (haligned : frame.toNat % 4096 = 0) (hne : frame ≠ st.directory)
    (hbytes : m₂ = (m₁.putWord (entry st.directory (pdIndex virt)) (frame ||| presentWrite)).putWord
      (entry frame (ptIndex virt)) w) :
    MapsNothingElse Mem.bus st m₂ virt ↔ m₁.bytes.NoneElsePresent frame (ptIndex virt) := by
  have hpde : st.pde m₂.bytes virt = frame ||| presentWrite := by
    rw [hbytes]
    exact pde_newTable haligned (Or.inl hne) _
  have hpresent : (frame ||| presentWrite) &&& pagePresent ≠ 0 := entry_present frame
  rw [mapsNothingElse_iff hpde, frame_of_entry haligned, imp_iff_right hpresent, hbytes]
  exact noneElsePresent_newTable_iff haligned haligned (Or.inl hne) _

/-- **A new page table maps nothing else** exactly when its frame was clean: whenever
`vmm_map` succeeds by taking a frame from `pmm_alloc`, no other page of the 4 MB is
mapped afterwards if and only if none of the other 1023 words of the frame has
`PAGE_PRESENT` set. -/
theorem new_table_maps_nothing_else_iff {s₁ : PmmState} {m₁ : Mem} {frame : Word}
    (hvirt : virt % pageSize = 0) (hphys : phys % pageSize = 0)
    (habsent : st.pde m.bytes virt &&& pagePresent = 0)
    (halloc : pmmAlloc Mem.bus s m = some (frame, s₁, m₁)) (hframe : frame ≠ 0) :
    ∃ m₂, vmmMap Mem.bus st s m virt phys flags = some (0, s₁, m₂) ∧
      (MapsNothingElse Mem.bus st m₂ virt ↔
        st.CleanFrame m₁.bytes frame virt (phys ||| flags)) := by
  refine ⟨_, vmmMap_new hvirt hphys habsent halloc hframe, ?_⟩
  have haligned := pmmAlloc_aligned halloc
  unfold StaticTables.CleanFrame
  by_cases hsame : frame = st.directory
  · rw [if_pos hsame]
    exact mapsNothingElse_of_directory hsame rfl
  · rw [if_neg hsame]
    exact mapsNothingElse_of_frame haligned hsame rfl

/-- Static arrays at 1 MB and behind. -/
def layoutAt1M : StaticTables where
  directory := 0x100000
  tables := 0x101000
  directory_aligned := by decide
  tables_aligned := by decide
  directory_low := by decide
  tables_low := by decide
  apart := by decide

/-- A frame allocator for 64 KB whose page 0 is allocated. -/
def smallPmm : PmmState := ⟨0xC0200000, 16, 1, 2⟩

/-- Memory with an empty directory, in which frame 1 holds one byte. -/
def recycledMem (content : Byte) : Mem :=
  ⟨fun a => if a = 0xC0200000 then 1 else if a = 0x1FFC then content else 0, []⟩

/-- The first free frame of that allocator is frame 1, and it keeps what it holds. -/
theorem smallPmm_alloc (content : Byte)
    (hfind : findFreePage Mem.bus smallPmm (recycledMem content) = some 1) :
    ∃ s₁ m₁, pmmAlloc Mem.bus smallPmm (recycledMem content) = some (0x1000, s₁, m₁) ∧
      ∀ c : Word, c.toNat < 0x100000 →
        m₁.bytes c = if c = 0x1FFC then content else 0 := by
  have halloc : ∃ r, pmmAlloc Mem.bus smallPmm (recycledMem content) = some r := by
    unfold pmmAlloc
    rw [hfind]
    exact ⟨_, rfl⟩
  obtain ⟨⟨frame, s₁, m₁⟩, halloc⟩ := halloc
  obtain rfl : frame = 0x1000 := by
    rcases pmmAlloc_cases halloc with ⟨hnone, -⟩ | ⟨i, hfind', -, rfl, -⟩
    · rw [hfind] at hnone
      cases hnone
    · rw [hfind] at hfind'
      obtain rfl := Option.some.inj hfind'
      rfl
  refine ⟨s₁, m₁, halloc, fun c hc => ?_⟩
  have hbitmap : ∀ i : Word, c ≠ smallPmm.bitmap + i / 8 := by
    intro i
    have hdiv : (i / 8).toNat < 2 ^ 29 := by
      have := i.isLt
      rw [BitVec.toNat_udiv]
      exact Nat.div_lt_of_lt_mul this
    have hstart : smallPmm.bitmap = 0xC0200000 := rfl
    rw [hstart]
    generalize i / 8 = d at hdiv
    bv_omega
  rw [pmmAlloc_bytes halloc hbitmap]
  exact if_neg (by bv_omega)

/-- A new page table in a frame of zeros maps nothing else. -/
theorem new_table_maps_nothing_else_of_zeros :
    ∃ s₁ m₂, vmmMap Mem.bus layoutAt1M smallPmm (recycledMem 0) 0x40000000 0x5000 3 =
        some (0, s₁, m₂) ∧
      MapsNothingElse Mem.bus layoutAt1M m₂ 0x40000000 := by
  obtain ⟨s₁, m₁, halloc, hbytes⟩ := smallPmm_alloc 0 (by decide +kernel)
  obtain ⟨m₂, hmap, hiff⟩ := @new_table_maps_nothing_else_iff layoutAt1M smallPmm (recycledMem 0)
    0x40000000 0x5000 3 s₁ m₁ 0x1000 (by decide) (by decide) (by decide +kernel) halloc (by decide)
  refine ⟨s₁, m₂, hmap, hiff.mpr ?_⟩
  unfold StaticTables.CleanFrame
  rw [if_neg (by decide)]
  intro j hj _
  have hzero : ∀ c : Word, c.toNat < 0x100000 → m₁.bytes c = 0 := by
    intro c hc
    rw [hbytes c hc, ite_self]
  have hentry : (entry 0x1000 j).toNat = 0x1000 + 4 * j := toNat_entry_page (by decide) hj
  generalize entry 0x1000 j = e at hentry ⊢
  unfold Bytes.word
  rw [hzero (e + 3) (by bv_omega), hzero (e + 2) (by bv_omega), hzero (e + 1) (by bv_omega),
    hzero e (by omega)]
  rfl

/-- A new page table in a frame whose last word is 1 maps the last page of its 4 MB to
physical page 0, and `vmm_unmap` finds that page mapped. -/
theorem new_table_maps_stale_page :
    ∃ s₁ m₂, vmmMap Mem.bus layoutAt1M smallPmm (recycledMem 1) 0x40000000 0x5000 3 =
        some (0, s₁, m₂) ∧
      ¬ MapsNothingElse Mem.bus layoutAt1M m₂ 0x40000000 := by
  obtain ⟨s₁, m₁, halloc, hbytes⟩ := smallPmm_alloc 1 (by decide +kernel)
  refine ⟨s₁, _, vmmMap_new (by decide) (by decide) (by decide +kernel) halloc (by decide), ?_⟩
  rw [mapsNothingElse_of_frame (by decide) (by decide) rfl]
  intro h
  have hlast := h 1023 (by decide) (by decide)
  have hentry : entry 0x1000 1023 = 0x1FFC := by decide
  have hword : m₁.bytes.word 0x1FFC = 1 := by
    unfold Bytes.word
    rw [hbytes _ (by decide), hbytes _ (by decide), hbytes _ (by decide), hbytes _ (by decide)]
    decide
  rw [hentry, hword] at hlast
  exact absurd hlast (by decide)

end Nimbu
