import Nimbu.Mm.Vmm

/-!
# Mapping pages

`vmm_map`, `vmm_unmap` and `vmm_get_phys` of `vmm.c`. A page table is found in the
static directory, and its address, which is physical, is used as a pointer; so
every access goes through a bus, that of plain memory or that of the machine with
paging on.
-/

namespace Nimbu

/-- `PAGE_PRESENT`. -/
def pagePresent : Word := 0x001

variable {M : Type} (bus : Bus M)

/-- The page table of an address, if the directory has a present entry for it. -/
def pageTableOf (st : StaticTables) (m : M) (virt : Word) : Option (Option Word) := do
  let pdEntry ← bus.loadWord m (entry st.directory (pdIndex virt))
  if pdEntry &&& pagePresent = 0 then return none
  else return some (pdEntry &&& frameMask)

/-- The part of `vmm_map` that finds or creates the page table. There is none when
`pmm_alloc` returns 0. -/
def vmmMapTable (st : StaticTables) (s : PmmState) (m : M) (virt : Word) :
    Option (Option Word × PmmState × M) := do
  match ← pageTableOf bus st m virt with
  | some pageTable => return (some pageTable, s, m)
  | none =>
    let (newTable, s, m) ← pmmAlloc bus s m
    if newTable = 0 then return (none, s, m)
    let m ← bus.storeWord m (entry st.directory (pdIndex virt)) (newTable ||| presentWrite)
    return (some newTable, s, m)

/-- `vmm_map`. -/
def vmmMap (st : StaticTables) (s : PmmState) (m : M) (virt phys flags : Word) :
    Option (ℤ × PmmState × M) := do
  if virt % pageSize ≠ 0 ∨ phys % pageSize ≠ 0 then return (-1, s, m)
  if pdIndex virt ≥ 1024 then return (-1, s, m)
  let (pageTable, s, m) ← vmmMapTable bus st s m virt
  match pageTable with
  | none => return (-1, s, m)
  | some pageTable =>
    let m ← bus.storeWord m (entry pageTable (ptIndex virt)) (phys ||| flags)
    return (0, s, m)

/-- `vmm_unmap`. -/
def vmmUnmap (st : StaticTables) (m : M) (virt : Word) : Option (ℤ × M) := do
  match ← pageTableOf bus st m virt with
  | none => return (-1, m)
  | some pageTable =>
    let ptEntry ← bus.loadWord m (entry pageTable (ptIndex virt))
    if ptEntry &&& pagePresent = 0 then return (-1, m)
    let m ← bus.storeWord m (entry pageTable (ptIndex virt)) 0
    return (0, m)

/-- `vmm_get_phys`. -/
def vmmGetPhys (st : StaticTables) (m : M) (virt : Word) : Option Word := do
  match ← pageTableOf bus st m virt with
  | none => return 0
  | some pageTable =>
    let ptEntry ← bus.loadWord m (entry pageTable (ptIndex virt))
    if ptEntry &&& pagePresent = 0 then return 0
    else return ptEntry &&& frameMask

/-- The directory entry of an address in a memory. -/
def StaticTables.pde (st : StaticTables) (v : Bytes) (virt : Word) : Word :=
  v.word (entry st.directory (pdIndex virt))

/-- The page table that the directory names for an address. -/
def StaticTables.pageTable (st : StaticTables) (v : Bytes) (virt : Word) : Word :=
  st.pde v virt &&& frameMask

/-- The page table depends on the directory entry only. -/
theorem StaticTables.pageTable_congr {st : StaticTables} {v v' : Bytes} {virt : Word}
    (hpde : st.pde v' virt = st.pde v virt) : st.pageTable v' virt = st.pageTable v virt := by
  unfold StaticTables.pageTable
  rw [hpde]

/-- The table entry of an address in a memory. -/
def StaticTables.pte (st : StaticTables) (v : Bytes) (virt : Word) : Word :=
  v.word (entry (st.pageTable v virt) (ptIndex virt))

/-- The physical page of an address by the tables in a memory, or 0. -/
def StaticTables.physOf (st : StaticTables) (v : Bytes) (virt : Word) : Word :=
  if st.pde v virt &&& pagePresent = 0 then 0
  else if st.pte v virt &&& pagePresent = 0 then 0
  else st.pte v virt &&& frameMask

/-- The walk of the processor in terms of the two entries. -/
theorem StaticTables.pageWalk_eq (st : StaticTables) (v : Bytes) (a : Word) :
    pageWalk v st.directory a =
      if st.pde v a &&& pagePresent = 0 then none
      else if st.pte v a &&& pagePresent = 0 then none
      else some ((st.pte v a &&& frameMask) + BitVec.ofNat 32 (a.toNat % 2 ^ 12)) := by
  unfold pageWalk
  rw [frame_of_aligned st.directory_aligned]
  rfl

/-- The bus reads the directory entry of an address, and its table entry if there is
one, as they are in a memory. -/
structure ReadsTables (st : StaticTables) (m : M) (v : Bytes) (virt : Word) : Prop where
  /-- The entry in the directory. -/
  directory : bus.loadWord m (entry st.directory (pdIndex virt)) = some (st.pde v virt)
  /-- The entry in the page table. -/
  table : st.pde v virt &&& pagePresent ≠ 0 →
    bus.loadWord m (entry (st.pageTable v virt) (ptIndex virt)) = some (st.pte v virt)

section Reads

variable {bus} {st : StaticTables} {m : M} {v : Bytes} {virt : Word}

/-- The page table is found where the directory says. -/
theorem pageTableOf_eq
    (hread : bus.loadWord m (entry st.directory (pdIndex virt)) = some (st.pde v virt)) :
    pageTableOf bus st m virt =
      some (if st.pde v virt &&& pagePresent = 0 then none else some (st.pageTable v virt)) := by
  simp only [pageTableOf, hread, Option.bind_eq_bind, Option.bind_some, StaticTables.pageTable]
  split <;> rfl

/-- `vmm_get_phys` reads the tables. -/
theorem vmmGetPhys_eq (hread : ReadsTables bus st m v virt) :
    vmmGetPhys bus st m virt = some (st.physOf v virt) := by
  unfold vmmGetPhys StaticTables.physOf
  rw [pageTableOf_eq hread.directory]
  by_cases hpde : st.pde v virt &&& pagePresent = 0
  · simp only [if_pos hpde, Option.bind_eq_bind, Option.bind_some, Option.pure_def]
  · simp only [if_neg hpde, Option.bind_eq_bind, Option.bind_some, hread.table hpde]
    split <;> rfl

/-- `vmm_unmap` refuses a page that is not mapped. -/
theorem vmmUnmap_of_unmapped (hread : ReadsTables bus st m v virt)
    (hnone : st.pde v virt &&& pagePresent = 0 ∨ st.pte v virt &&& pagePresent = 0) :
    vmmUnmap bus st m virt = some (-1, m) := by
  unfold vmmUnmap
  rw [pageTableOf_eq hread.directory]
  by_cases hpde : st.pde v virt &&& pagePresent = 0
  · simp only [if_pos hpde, Option.bind_eq_bind, Option.bind_some, Option.pure_def]
  · simp only [if_neg hpde, Option.bind_eq_bind, Option.bind_some, hread.table hpde,
      if_pos (hnone.resolve_left hpde), Option.pure_def]

/-- `vmm_unmap` clears the entry of a page that is mapped. -/
theorem vmmUnmap_of_mapped (hread : ReadsTables bus st m v virt)
    (hpde : st.pde v virt &&& pagePresent ≠ 0) (hpte : st.pte v virt &&& pagePresent ≠ 0) :
    vmmUnmap bus st m virt = (do
      let m ← bus.storeWord m (entry (st.pageTable v virt) (ptIndex virt)) 0
      return (0, m)) := by
  unfold vmmUnmap
  rw [pageTableOf_eq hread.directory]
  simp only [if_neg hpde, Option.bind_eq_bind, Option.bind_some, hread.table hpde, if_neg hpte]

/-- Aligned addresses pass the checks of `vmm_map`. -/
theorem vmmMap_of_aligned {s : PmmState} {phys flags : Word} (hvirt : virt % pageSize = 0)
    (hphys : phys % pageSize = 0) :
    vmmMap bus st s m virt phys flags = (do
      let (pageTable, s, m) ← vmmMapTable bus st s m virt
      match pageTable with
      | none => return (-1, s, m)
      | some pageTable =>
        let m ← bus.storeWord m (entry pageTable (ptIndex virt)) (phys ||| flags)
        return (0, s, m)) := by
  have haligned : ¬ (virt % pageSize ≠ 0 ∨ phys % pageSize ≠ 0) := by
    rw [not_or, not_not, not_not]
    exact ⟨hvirt, hphys⟩
  have hindex : ¬ pdIndex virt ≥ 1024 := Nat.not_le.mpr (pdIndex_lt virt)
  unfold vmmMap
  rw [if_neg haligned, if_neg hindex]

/-- `vmm_map` replaces the entry of a page whose page table exists. -/
theorem vmmMap_of_present {s : PmmState} {phys flags : Word} (hvirt : virt % pageSize = 0)
    (hphys : phys % pageSize = 0)
    (hread : bus.loadWord m (entry st.directory (pdIndex virt)) = some (st.pde v virt))
    (hpde : st.pde v virt &&& pagePresent ≠ 0) :
    vmmMap bus st s m virt phys flags = (do
      let m ← bus.storeWord m (entry (st.pageTable v virt) (ptIndex virt)) (phys ||| flags)
      return (0, s, m)) := by
  have htable := pageTableOf_eq hread
  rw [if_neg hpde] at htable
  simp only [vmmMap_of_aligned hvirt hphys, vmmMapTable, htable, Option.bind_eq_bind,
    Option.bind_some, Option.pure_def]

end Reads

/-- `PAGE_WRITE`. -/
def pageWrite : Word := 0x002

/-- `PAGE_USER`. -/
def pageUser : Word := 0x004

/-- The entries of an address at both levels are writable and supervisor-only. -/
def StaticTables.KernelWritable (st : StaticTables) (v : Bytes) (virt : Word) : Prop :=
  (st.pde v virt &&& pageWrite ≠ 0 ∧ st.pde v virt &&& pageUser = 0) ∧
    st.pte v virt &&& pageWrite ≠ 0 ∧ st.pte v virt &&& pageUser = 0

/-- A word is read where its four bytes are mapped to. -/
theorem Machine.loadWord_of_linear {m : Machine} {a p : Word}
    (hmap : ∀ j < 4, m.linear (a + BitVec.ofNat 32 j) = some (p + BitVec.ofNat 32 j)) :
    Machine.bus.loadWord m a = some (m.ram.word p) := by
  have h0 : m.linear a = some p := by simpa using hmap 0 (by decide)
  have h1 : m.linear (a + 1) = some (p + 1) := hmap 1 (by decide)
  have h2 : m.linear (a + 2) = some (p + 2) := hmap 2 (by decide)
  have h3 : m.linear (a + 3) = some (p + 3) := hmap 3 (by decide)
  simp only [Bus.loadWord, Machine.bus, h0, h1, h2, h3, Option.map_some, Option.bind_eq_bind,
    Option.bind_some, Option.pure_def]
  rfl

/-- Writable and not accessible to users are the flags of an entry of `vmm_init`. -/
theorem entry_flags {x : Word} (hx : x.toNat % 4096 = 0) :
    (x ||| presentWrite) &&& pageWrite ≠ 0 ∧ (x ||| presentWrite) &&& pageUser = 0 := by
  constructor
  · intro h
    have hbit := congrArg (fun y : Word => y.getLsbD 1) h
    simp [presentWrite, pageWrite] at hbit
  · apply BitVec.eq_of_getLsbD_eq
    intro i hi
    have hmask : ∀ j < 32, pageUser.getLsbD j = decide (j = 2) := by decide
    have hflag : presentWrite.getLsbD 2 = false := by decide
    rw [BitVec.getLsbD_and, BitVec.getLsbD_or, hmask i hi]
    by_cases htwo : i = 2
    · subst htwo
      rw [getLsbD_of_aligned hx (by decide), hflag]
      simp
    · simp [htwo]

namespace StaticTables

variable {st : StaticTables} {v : Bytes}

/-- The tables start on pages. -/
theorem table_aligned (st : StaticTables) {i : ℕ} (hi : i < 4) :
    (st.table i).toNat % 4096 = 0 := by
  have := st.tables_aligned
  rw [st.toNat_table hi]
  omega

/-- The entries of an address in one of the two mapped ranges. -/
theorem Filled.entries (hfilled : st.Filled v) {a : Word} {i n : ℕ} (hi : i < 4)
    (hdir : pdIndex a = i ∨ pdIndex a = 768 + i) (hn : n = 1024 * i + ptIndex a) :
    st.pde v a = st.table i ||| presentWrite ∧
      st.pte v a = BitVec.ofNat 32 (n * 4096) ||| presentWrite := by
  have hindex := ptIndex_lt a
  have hpde : st.pde v a = st.table i ||| presentWrite := by
    unfold pde
    rcases hdir with hdir | hdir
    · rw [hdir]
      exact hfilled.low i hi
    · rw [hdir]
      exact hfilled.high i hi
  refine ⟨hpde, ?_⟩
  rw [pte, pageTable, hpde, frame_of_entry (st.table_aligned hi), table, entry_entry, ← hn]
  exact hfilled.pages n (by omega)

/-- A mapped page of the filled tables. -/
theorem Filled.physOf_eq (hfilled : st.Filled v) {a : Word} {i n : ℕ} (hi : i < 4)
    (hdir : pdIndex a = i ∨ pdIndex a = 768 + i) (hn : n = 1024 * i + ptIndex a) :
    st.physOf v a = BitVec.ofNat 32 (n * 4096) ∧ st.KernelWritable v a := by
  obtain ⟨hpde, hpte⟩ := hfilled.entries hi hdir hn
  have hpage : (BitVec.ofNat 32 (n * 4096)).toNat % 4096 = 0 := by
    rw [BitVec.toNat_ofNat]
    omega
  have hpde' : st.pde v a &&& pagePresent ≠ 0 := by
    rw [hpde]
    exact entry_present _
  have hpte' : st.pte v a &&& pagePresent ≠ 0 := by
    rw [hpte]
    exact entry_present _
  constructor
  · unfold physOf
    rw [if_neg hpde', if_neg hpte', hpte, frame_of_entry hpage]
  · unfold KernelWritable
    rw [hpde, hpte]
    exact ⟨entry_flags (st.table_aligned hi), entry_flags hpage⟩

/-- A present directory entry of the filled tables is one of the eight that lead to a
static table. -/
theorem Filled.slot_of_present (hfilled : st.Filled v) {a : Word}
    (hpde : st.pde v a &&& pagePresent ≠ 0) :
    ∃ i < 4, (pdIndex a = i ∨ pdIndex a = 768 + i) ∧ st.pageTable v a = st.table i := by
  have hslot : ∃ i < 4, pdIndex a = i ∨ pdIndex a = 768 + i := by
    by_contra hnot
    apply hpde
    have hzero : st.pde v a = 0 := by
      apply hfilled.empty _ (pdIndex_lt a)
      · by_contra hlt
        exact hnot ⟨pdIndex a, by omega, Or.inl rfl⟩
      · by_contra hlt
        exact hnot ⟨pdIndex a - 768, by omega, Or.inr (by omega)⟩
    rw [hzero]
    rfl
  obtain ⟨i, hi, hslot⟩ := hslot
  obtain ⟨hentry, -⟩ := hfilled.entries hi hslot rfl
  refine ⟨i, hi, hslot, ?_⟩
  rw [pageTable, hentry, frame_of_entry (st.table_aligned hi)]

/-- Behind the boot mapping the machine reads the filled tables. -/
theorem Filled.readsTables {m : Machine} (hfilled : st.Filled m.ram)
    (hlinear : m.linear = bootMap) (a : Word) : ReadsTables Machine.bus st m m.ram a := by
  have hself : ∀ b : Word, b.toNat + 4 ≤ 0x1000000 →
      Machine.bus.loadWord m b = some (m.ram.word b) := by
    intro b hb
    apply Machine.loadWord_of_linear
    intro j hj
    rw [hlinear]
    exact if_pos (by bv_omega)
  have hdir := st.directory_low
  have htab := st.tables_low
  have hpd := pdIndex_lt a
  have hpt := ptIndex_lt a
  refine ⟨hself _ (by rw [st.toNat_directory_entry hpd]; omega), fun hpde => ?_⟩
  obtain ⟨i, hi, -, htable⟩ := hfilled.slot_of_present hpde
  rw [pte, htable]
  apply hself
  have htable' := st.toNat_table hi
  rw [toNat_entry (by omega)]
  omega

end StaticTables

/-- **The boot mapping.** After `vmm_init`, whatever memory held before: every page
below 16 MB is mapped to itself, every page of the 16 MB from 3 GB on is mapped to
the page 3 GB below, both writable and supervisor-only at both levels, and no
other address has a present directory entry. -/
theorem boot_mapping (st : StaticTables) (ram : Bytes) (cr3 : Word) :
    ∃ m, vmmInit st ⟨ram, cr3, false⟩ = some m ∧ ∀ v : Word,
      (v.toNat % 4096 = 0 → v.toNat < 0x1000000 →
        m.linear v = some v ∧ vmmGetPhys Machine.bus st m v = some v ∧
          st.KernelWritable m.ram v) ∧
      (v.toNat % 4096 = 0 → 0xC0000000 ≤ v.toNat → v.toNat < 0xC1000000 →
        m.linear v = some (v - kernelVirtBase) ∧
          vmmGetPhys Machine.bus st m v = some (v - kernelVirtBase) ∧
          st.KernelWritable m.ram v) ∧
      (0x1000000 ≤ v.toNat → v.toNat < 0xC0000000 ∨ 0xC1000000 ≤ v.toNat →
        m.linear v = none ∧ st.pde m.ram v &&& pagePresent = 0 ∧
          vmmGetPhys Machine.bus st m v = some 0) := by
  obtain ⟨m, hinit, hram, hlinear⟩ :=
    vmmInit_eq st (show (⟨ram, cr3, false⟩ : Machine).paging = false from rfl)
  have hfilled : st.Filled m.ram := hram ▸ st.fill_filled ram
  refine ⟨m, hinit, fun v => ?_⟩
  rw [vmmGetPhys_eq (hfilled.readsTables hlinear v), hlinear]
  refine ⟨fun haligned hlow => ?_, fun haligned hge hlt => ?_, fun hge hout => ?_⟩
  · obtain ⟨hphys, hflags⟩ := hfilled.physOf_eq (a := v) (i := pdIndex v)
      (by unfold pdIndex; omega) (Or.inl rfl) rfl
    have hpage : (1024 * pdIndex v + ptIndex v) * 4096 = v.toNat := by
      unfold pdIndex ptIndex
      omega
    refine ⟨if_pos hlow, ?_, hflags⟩
    rw [hphys, hpage, BitVec.ofNat_toNat, BitVec.setWidth_eq]
  · obtain ⟨hphys, hflags⟩ := hfilled.physOf_eq (a := v) (i := pdIndex v - 768)
      (by unfold pdIndex; omega) (Or.inr (by unfold pdIndex; omega)) rfl
    have hpage : (1024 * (pdIndex v - 768) + ptIndex v) * 4096 = v.toNat - 0xC0000000 := by
      unfold pdIndex ptIndex
      omega
    have hsub : BitVec.ofNat 32 (v.toNat - 0xC0000000) = v - kernelVirtBase := by
      unfold kernelVirtBase
      bv_omega
    refine ⟨?_, ?_, hflags⟩
    · unfold bootMap
      rw [if_neg (by omega), if_pos ⟨hge, hlt⟩]
    · rw [hphys, hpage, hsub]
  · have hvlt := v.isLt
    have hpde : st.pde m.ram v = 0 := by
      apply hfilled.empty <;> unfold pdIndex <;> omega
    have habsent : st.pde m.ram v &&& pagePresent = 0 := by
      rw [hpde]
      rfl
    refine ⟨?_, habsent, ?_⟩
    · unfold bootMap
      rw [if_neg (by omega), if_neg (by omega)]
    · unfold StaticTables.physOf
      rw [if_pos habsent]

end Nimbu
