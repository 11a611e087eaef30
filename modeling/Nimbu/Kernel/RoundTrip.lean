import Nimbu.Kernel.Mappings

/-!
# Round trips through the page tables

As long as calls spare the kernel's own data, what `vmm_map` writes is what
`vmm_get_phys` reads and `vmm_unmap` clears. `vmm_get_phys` returns the frame
without the offset in the page, so it agrees with the processor on page
boundaries only. And a `vmm_map` that fails has changed the allocator when the
page it was given is page 0.
-/

namespace Nimbu

/-- `PAGE_PWT`. -/
def pagePwt : Word := 0x008

/-- `PAGE_PCD`. -/
def pagePcd : Word := 0x010

/-- `PAGE_ACCESSED`. -/
def pageAccessed : Word := 0x020

/-- `PAGE_DIRTY`. -/
def pageDirty : Word := 0x040

/-- All `PAGE_*` constants together. -/
def pageFlags : Word :=
  pagePresent ||| pageWrite ||| pageUser ||| pagePwt ||| pagePcd ||| pageAccessed ||| pageDirty

/-- A combination of the `PAGE_*` constants that includes `PAGE_PRESENT`. -/
structure PresentFlags (flags : Word) : Prop where
  /-- No other bit is set. -/
  within : flags &&& pageFlags = flags
  /-- `PAGE_PRESENT` is set. -/
  present : flags &&& pagePresent ≠ 0

/-- Or-ing such flags into a page address leaves its frame. -/
theorem PresentFlags.leads {phys flags : Word} (hflags : PresentFlags flags)
    (hphys : phys.toNat % 4096 = 0) : Leads (phys ||| flags) phys := by
  have hpresent := (present_iff flags).mp hflags.present
  have hhigh : ∀ j < 32, 12 ≤ j → pageFlags.getLsbD j = false := by decide
  refine leads_iff.mpr ⟨?_, fun i hi => ?_⟩
  · rw [BitVec.getLsbD_or, hpresent, Bool.or_true]
  · rw [BitVec.getLsbD_or]
    by_cases hlow : i < 12
    · simp [getLsbD_of_aligned hphys hlow, Nat.not_le.mpr hlow]
    · have hflag : flags.getLsbD i = false := by
        rw [← hflags.within, BitVec.getLsbD_and, hhigh i hi (by omega), Bool.and_false]
      simp [hflag, Nat.le_of_not_lt hlow]

/-- A multiple of the page size. -/
theorem toNat_mod_of_mod_pageSize {a : Word} (ha : a % pageSize = 0) : a.toNat % 4096 = 0 := by
  have hnat := congrArg BitVec.toNat ha
  rwa [BitVec.toNat_umod] at hnat

/-- Addresses of one page have the same indices. -/
theorem indices_of_page {a b : Word} (hpage : a.toNat / 4096 = b.toNat / 4096) :
    pdIndex a = pdIndex b ∧ ptIndex a = ptIndex b := by
  unfold pdIndex ptIndex
  omega

section Page

variable {st : StaticTables} {v : Bytes} {a b : Word}

/-- The physical page of an address that is mapped. -/
theorem StaticTables.physOf_of_leads {page : Word} (hpde : st.pde v a &&& pagePresent ≠ 0)
    (hpte : Leads (st.pte v a) page) : st.physOf v a = page := by
  have hpresent : st.pte v a &&& pagePresent ≠ 0 := hpte.present
  rw [StaticTables.physOf, if_neg hpde, if_neg hpresent, hpte.frame]

/-- The physical page is the same for all addresses of a page. -/
theorem StaticTables.physOf_page (hpage : a.toNat / 4096 = b.toNat / 4096) :
    st.physOf v a = st.physOf v b := by
  obtain ⟨hpd, hpt⟩ := indices_of_page hpage
  unfold StaticTables.physOf StaticTables.pte StaticTables.pageTable StaticTables.pde
  rw [hpd, hpt]

/-- `vmm_unmap` does the same for all addresses of a page. -/
theorem vmStep_unmap_page (x : VmState) (hpage : a.toNat / 4096 = b.toNat / 4096) :
    vmStep st x (.unmap a) = vmStep st x (.unmap b) := by
  obtain ⟨hpd, hpt⟩ := indices_of_page hpage
  unfold vmStep vmmUnmap pageTableOf
  simp only [hpd, hpt]

/-- So does the condition on it. -/
theorem VmState.spares_unmap_page (x : VmState) (hpage : a.toNat / 4096 = b.toNat / 4096) :
    x.Spares st (.unmap a) ↔ x.Spares st (.unmap b) := by
  obtain ⟨hpd, hpt⟩ := indices_of_page hpage
  simp only [VmState.Spares, StaticTables.pageTable, StaticTables.pde, hpd, hpt]

end Page

section RoundTrip

variable {st : StaticTables} {x x' : VmState} {virt phys flags : Word}

/-- After a `vmm_map` that returned 0 the page is mapped to the given frame. -/
theorem VmState.Sound.map_maps (hx : x.Sound st) (hvirt : virt % pageSize = 0)
    (hphys : phys % pageSize = 0) (hflags : PresentFlags flags)
    (hspares : x.Spares st (.map virt phys flags))
    (hstep : vmStep st x (.map virt phys flags) = some (.status 0, x')) :
    x'.Sound st ∧ st.Maps x'.machine.ram virt phys := by
  obtain ⟨-, ret, s, m, hmap, hsound, -, hwritten⟩ := hx.map hvirt hphys hspares
  simp only [vmStep, hmap, Option.bind_eq_bind, Option.bind_some, Option.pure_def,
    Option.some.injEq, Prod.mk.injEq, VmReply.status.injEq] at hstep
  obtain ⟨rfl, rfl⟩ := hstep
  obtain ⟨hpde, hpte⟩ := hwritten rfl
  refine ⟨hsound, toNat_mod_of_mod_pageSize hvirt, hpde, ?_⟩
  rw [hpte]
  exact hflags.leads (toNat_mod_of_mod_pageSize hphys)

/-- `vmm_get_phys` of a mapped page. -/
theorem VmState.Sound.getPhys_of_maps (hx : x.Sound st) (hmaps : st.Maps x.machine.ram virt phys) :
    vmmGetPhys Machine.bus st x.machine virt = some phys := by
  rw [vmmGetPhys_eq (hx.readsTables virt), StaticTables.physOf_of_leads hmaps.directory hmaps.table]

/-- `vmm_unmap` of a mapped page clears its entry, and the page is then not mapped. -/
theorem VmState.Sound.unmap_of_maps (hx : x.Sound st) (hmaps : st.Maps x.machine.ram virt phys)
    (hspares : x.Spares st (.unmap virt)) :
    ∃ x', vmStep st x (.unmap virt) = some (.status 0, x') ∧ x'.Sound st ∧
      st.physOf x'.machine.ram virt = 0 ∧
      vmStep st x' (.unmap virt) = some (.status (-1), x') := by
  have hne := (hx.tables_apart hmaps.directory).1
  obtain ⟨m, hstore, hram, hsound⟩ := hx.storeTable hmaps.directory (hspares hmaps.directory)
  have hpte : st.pte m.ram virt = 0 := by
    rw [hram]
    exact st.pte_putTable hne 0
  have hnone : st.pte m.ram virt &&& pagePresent = 0 := by
    rw [hpte]
    rfl
  refine ⟨⟨x.pmm, m⟩, ?_, hsound, ?_, ?_⟩
  · simp only [vmStep, vmmUnmap_of_mapped (hx.readsTables virt) hmaps.directory hmaps.table.present,
      hstore, Option.bind_eq_bind, Option.bind_some, Option.pure_def]
  · rw [StaticTables.physOf, if_pos hnone]
    exact ite_self 0
  · simp only [vmStep, vmmUnmap_of_unmapped (hsound.readsTables virt) (Or.inr hnone),
      Option.bind_eq_bind, Option.bind_some, Option.pure_def]

/-- `vmm_map` of a page whose page table exists returns 0 and leaves the allocator and the
directory alone. -/
theorem VmState.Sound.remap (hx : x.Sound st) (hpde : st.pde x.machine.ram virt &&& pagePresent ≠ 0)
    (hvirt : virt % pageSize = 0) (hphys : phys % pageSize = 0)
    (hspares : x.Spares st (.map virt phys flags)) :
    ∃ x', vmStep st x (.map virt phys flags) = some (.status 0, x') ∧ x'.pmm = x.pmm ∧
      ∀ a, st.pde x'.machine.ram a = st.pde x.machine.ram a := by
  obtain ⟨m, hstore, hram, -⟩ := hx.storeTable hpde ((hspares hvirt hphys).1 hpde)
  refine ⟨⟨x.pmm, m⟩, ?_, rfl, fun a => ?_⟩
  · simp only [vmStep, vmmMap_of_present hvirt hphys (hx.readsTables virt).directory hpde, hstore,
      Option.bind_eq_bind, Option.bind_some, Option.pure_def]
  · rw [hram]
    exact st.pde_putTable (st.pageTable_aligned _ _) (hx.tables_apart hpde).1 _ _ _ _

end RoundTrip

/-- After boot, every run whose calls spare the kernel's own data returns in a state where
they are within reach. -/
theorem memoryInit_run (st : StaticTables) (ram : Bytes) (cr3 totalMemory : Word) :
    ∃ s m, memoryInit st ⟨ram, cr3, false⟩ totalMemory = some (s, m) ∧
      ((∀ c ∈ st.bytes, c ∉ s.physBytes) → ∀ calls,
        Along (vmStep st) (VmState.Spares st) ⟨s, m⟩ calls →
        ∃ replies x, exec (vmStep st) ⟨s, m⟩ calls = some (replies, x) ∧ x.Sound st) := by
  obtain ⟨s, m, hinit, -, -, hsound⟩ := memoryInit_sound st ram cr3 totalMemory
  refine ⟨s, m, hinit, fun hapart calls hspares => ?_⟩
  refine exec_returns (VmState.Sound st) (fun hx hcall => ?_) (hsound hapart) hspares
  obtain ⟨-, reply, x', hstep, hx', -⟩ := hx.step hcall
  exact ⟨reply, x', hstep, hx'⟩

/-- **Mapping, translating and unmapping round-trip** as long as calls spare the kernel's own
data. After every run of such calls, a `vmm_map` of a page that returns 0 makes
`vmm_get_phys` return the given frame; mapping the page again makes it return the
frame given last; and `vmm_unmap` of any address of the page returns 0, after which
`vmm_get_phys` returns 0 for the whole page and a second `vmm_unmap` returns -1 and
changes nothing. -/
theorem vmm_round_trip (st : StaticTables) (ram : Bytes) (cr3 totalMemory : Word) :
    ∃ s m, memoryInit st ⟨ram, cr3, false⟩ totalMemory = some (s, m) ∧
      ((∀ c ∈ st.bytes, c ∉ s.physBytes) → ∀ calls,
        Along (vmStep st) (VmState.Spares st) ⟨s, m⟩ calls →
        ∃ replies x, exec (vmStep st) ⟨s, m⟩ calls = some (replies, x) ∧
          ∀ virt phys flags x₁, virt % pageSize = 0 → phys % pageSize = 0 → PresentFlags flags →
            x.Spares st (.map virt phys flags) →
            vmStep st x (.map virt phys flags) = some (.status 0, x₁) →
            vmmGetPhys Machine.bus st x₁.machine virt = some phys ∧
            (∀ a, a.toNat / 4096 = virt.toNat / 4096 → x₁.Spares st (.unmap a) →
              ∃ x₂, vmStep st x₁ (.unmap a) = some (.status 0, x₂) ∧
                (∀ b, b.toNat / 4096 = virt.toNat / 4096 →
                  vmmGetPhys Machine.bus st x₂.machine b = some 0) ∧
                vmStep st x₂ (.unmap virt) = some (.status (-1), x₂)) ∧
            ∀ phys₂ flags₂, phys₂ % pageSize = 0 → PresentFlags flags₂ →
              x₁.Spares st (.map virt phys₂ flags₂) →
              ∃ x₂, vmStep st x₁ (.map virt phys₂ flags₂) = some (.status 0, x₂) ∧
                vmmGetPhys Machine.bus st x₂.machine virt = some phys₂) := by
  obtain ⟨s, m, hinit, hreturns⟩ := memoryInit_run st ram cr3 totalMemory
  refine ⟨s, m, hinit, fun hapart calls hspares => ?_⟩
  obtain ⟨replies, x, hrun, hx⟩ := hreturns hapart calls hspares
  refine ⟨replies, x, hrun, fun virt phys flags x₁ hvirt hphys hflags hmap hstep => ?_⟩
  obtain ⟨hx₁, hmaps⟩ := hx.map_maps hvirt hphys hflags hmap hstep
  refine ⟨hx₁.getPhys_of_maps hmaps, fun a hpage hunmap => ?_,
    fun phys₂ flags₂ hphys₂ hflags₂ hmap₂ => ?_⟩
  · rw [VmState.spares_unmap_page x₁ hpage] at hunmap
    obtain ⟨x₂, hunmapped, hx₂, hzero, hagain⟩ := hx₁.unmap_of_maps hmaps hunmap
    refine ⟨x₂, ?_, fun b hb => ?_, hagain⟩
    · rw [vmStep_unmap_page x₁ hpage, hunmapped]
    · rw [vmmGetPhys_eq (hx₂.readsTables b), StaticTables.physOf_page hb, hzero]
  · obtain ⟨x₂, hstep₂, -⟩ := hx₁.remap hmaps.directory hvirt hphys₂ hmap₂
    obtain ⟨hx₂, hmaps₂⟩ := hx₁.map_maps hvirt hphys₂ hflags₂ hmap₂ hstep₂
    exact ⟨x₂, hstep₂, hx₂.getPhys_of_maps hmaps₂⟩

/-- With the directory as at boot, the entry of the page 0x7000 maps none of the kernel's own
data. -/
theorem layoutAt64K_spared {s : PmmState} {v v' : Bytes} (hfilled : layoutAt64K.Filled v)
    (hpde : ∀ a, layoutAt64K.pde v' a = layoutAt64K.pde v a) (hsize : s.bitmapSize.toNat = 4096)
    (w : Word) :
    layoutAt64K.Spared v' (layoutAt64K.Demands s v') (layoutAt64K.pageTable v' 0x7000)
      (ptIndex 0x7000) w := by
  intro virt page hdemand hentry
  rw [entry_page_inj (layoutAt64K.pageTable_aligned _ _) (layoutAt64K.pageTable_aligned _ _)
    (ptIndex_lt _) (ptIndex_lt _)] at hentry
  have hseven : ptIndex virt = 7 := hentry.2
  rcases hdemand with _ | ⟨a, hpresent⟩ | ⟨_, haligned, hmem⟩
  · exact absurd hseven (by decide)
  · rw [hpde] at hpresent
    rw [StaticTables.pageTable_congr (hpde a)] at hseven
    obtain ⟨i, hi, -, htable⟩ := hfilled.slot_of_present hpresent
    have hpos := layoutAt64K.toNat_table hi
    have htables : layoutAt64K.tables.toNat = 0x111000 := rfl
    rw [htable, ptIndex] at hseven
    omega
  · have hphys : bitmapPhys.toNat = 0x200000 := rfl
    simp only [PmmState.physBytes, Set.mem_ofPred_eq, hphys, hsize] at hmem
    obtain rfl : page = 0x200000 := by bv_omega
    exact absurd hseven (by decide)

/-- After boot the page 0x7000 is mapped to the frame 0x5000, unmapped through another of its
addresses and then not mapped. -/
theorem vmm_round_trip_once :
    ∃ s m x₁ x₂, memoryInit layoutAt64K ⟨fun _ => 0, 0, false⟩ kmainTotalMemory = some (s, m) ∧
      vmStep layoutAt64K ⟨s, m⟩ (.map 0x7000 0x5000 3) = some (.status 0, x₁) ∧
      vmmGetPhys Machine.bus layoutAt64K x₁.machine 0x7000 = some 0x5000 ∧
      vmStep layoutAt64K x₁ (.unmap 0x7004) = some (.status 0, x₂) ∧
      vmmGetPhys Machine.bus layoutAt64K x₂.machine 0x7008 = some 0 := by
  obtain ⟨s, m, hinit, htrip⟩ := vmm_round_trip layoutAt64K (fun _ => 0) 0 kmainTotalMemory
  obtain ⟨s', m', hinit', hsize, hfilled, hsound⟩ :=
    memoryInit_sound layoutAt64K (fun _ => 0) 0 kmainTotalMemory
  rw [hinit] at hinit'
  obtain ⟨rfl, rfl⟩ := Prod.mk.inj (Option.some.inj hinit')
  have hapart := StaticTables.apart_of_page hsize layoutAt64K_apart
  have hx := hsound hapart
  have hpresent : layoutAt64K.pde m.ram 0x7000 &&& pagePresent ≠ 0 :=
    (@StaticTables.Filled.maps _ _ hfilled 0x7000 0x7000 (by decide) (by decide)
      (Or.inl rfl)).directory
  have hmap : VmState.Spares layoutAt64K ⟨s, m⟩ (.map 0x7000 0x5000 3) :=
    fun _ _ => ⟨fun _ => layoutAt64K_spared hfilled (fun _ => rfl) hsize _,
      fun habsent => absurd habsent hpresent⟩
  obtain ⟨x₁, hstep, hpmm, hpde⟩ := hx.remap hpresent (by decide) (by decide) hmap
  obtain ⟨replies, x, hrun, hpages⟩ := htrip hapart [] trivial
  obtain ⟨-, rfl⟩ : replies = [] ∧ x = ⟨s, m⟩ := by simpa using hrun.symm
  obtain ⟨hphys, hunmap, -⟩ := hpages 0x7000 0x5000 3 x₁ (by decide) (by decide)
    ⟨by decide, by decide⟩ hmap hstep
  obtain ⟨x₂, hunmapped, hzero, -⟩ := hunmap 0x7004 (by decide) (by
    rw [VmState.spares_unmap_page (b := 0x7000) x₁ (by decide)]
    exact fun _ => layoutAt64K_spared hfilled hpde (by rw [hpmm]; exact hsize) 0)
  exact ⟨s, m, x₁, x₂, hinit, hstep, hphys, hunmapped, hzero 0x7008 (by decide)⟩

/-- Mapping the page of the directory itself to another frame returns 0, but `vmm_get_phys`
then does not return that frame. -/
theorem remapped_directory_not_read_back :
    ∃ s m x', memoryInit layoutAt64K ⟨fun _ => 0, 0, false⟩ kmainTotalMemory = some (s, m) ∧
      vmStep layoutAt64K ⟨s, m⟩ (.map 0x110000 0x5000 3) = some (.status 0, x') ∧
      vmmGetPhys Machine.bus layoutAt64K x'.machine 0x110000 = some 0 := by
  obtain ⟨s, m, n, hinit, -, -, hstep, hread⟩ := vmmMap_directoryPage
  refine ⟨s, m, ⟨s, n⟩, hinit, hstep, ?_⟩
  replace hread : Machine.bus.loadWord n (entry layoutAt64K.directory (pdIndex 0x110000)) =
    some 0 := hread
  simp only [vmmGetPhys, pageTableOf, hread, Option.bind_eq_bind, Option.bind_some,
    Option.pure_def]
  rfl

/-- `vmm_get_phys` returns the physical address to which the processor translates an address
through the static directory, or 0 where the processor faults. -/
def VmState.AgreesWithWalk (st : StaticTables) (x : VmState) (a : Word) : Prop :=
  ∃ phys, vmmGetPhys Machine.bus st x.machine a = some phys ∧
    (∀ p, pageWalk x.machine.ram st.directory a = some p → phys = p) ∧
    (pageWalk x.machine.ram st.directory a = none → phys = 0)

/-- The walk of the processor and the one of `vmm_get_phys` read the same entries: both find
nothing, or the processor adds the offset to the frame. -/
theorem StaticTables.pageWalk_cases (st : StaticTables) (v : Bytes) (a : Word) :
    (pageWalk v st.directory a = none ∧ st.physOf v a = 0) ∨
      pageWalk v st.directory a =
        some (st.physOf v a + BitVec.ofNat 32 (a.toNat % 2 ^ 12)) := by
  rw [st.pageWalk_eq, StaticTables.physOf]
  split
  · exact Or.inl ⟨rfl, rfl⟩
  · split
    · exact Or.inl ⟨rfl, rfl⟩
    · exact Or.inr rfl

/-- **`vmm_get_phys` leaves out the offset in the page.** After every run whose calls spare the
kernel's own data, it agrees with the processor at exactly the addresses that start a
page or are not mapped. -/
theorem getPhys_agrees_iff (st : StaticTables) (ram : Bytes) (cr3 totalMemory : Word) :
    ∃ s m, memoryInit st ⟨ram, cr3, false⟩ totalMemory = some (s, m) ∧
      ((∀ c ∈ st.bytes, c ∉ s.physBytes) → ∀ calls,
        Along (vmStep st) (VmState.Spares st) ⟨s, m⟩ calls →
        ∃ replies x, exec (vmStep st) ⟨s, m⟩ calls = some (replies, x) ∧
          ∀ a, x.AgreesWithWalk st a ↔
            a.toNat % 4096 = 0 ∨ pageWalk x.machine.ram st.directory a = none) := by
  obtain ⟨s, m, hinit, hreturns⟩ := memoryInit_run st ram cr3 totalMemory
  refine ⟨s, m, hinit, fun hapart calls hspares => ?_⟩
  obtain ⟨replies, x, hrun, hx⟩ := hreturns hapart calls hspares
  refine ⟨replies, x, hrun, fun a => ?_⟩
  have hphys := vmmGetPhys_eq (hx.readsTables a)
  have hoffset : (BitVec.ofNat 32 (a.toNat % 2 ^ 12)).toNat = a.toNat % 4096 := by
    rw [BitVec.toNat_ofNat]
    omega
  rcases st.pageWalk_cases x.machine.ram a with ⟨hnone, hzero⟩ | hwalk
  · refine iff_of_true ⟨_, hphys, fun p hp => ?_, fun _ => hzero⟩ (Or.inr hnone)
    rw [hnone] at hp
    cases hp
  · simp only [VmState.AgreesWithWalk, hphys, hwalk, Option.some.injEq, exists_eq_left',
      forall_eq', reduceCtorEq, false_implies, and_true, or_false]
    constructor
    · intro heq
      bv_omega
    · intro haligned
      bv_omega

/-- After boot `vmm_get_phys` agrees with the processor at 0x7000. -/
theorem getPhys_agrees_at_page :
    ∃ s m, memoryInit layoutAt64K ⟨fun _ => 0, 0, false⟩ kmainTotalMemory = some (s, m) ∧
      VmState.AgreesWithWalk layoutAt64K ⟨s, m⟩ 0x7000 := by
  obtain ⟨s, m, hinit, hagrees⟩ := getPhys_agrees_iff layoutAt64K (fun _ => 0) 0 kmainTotalMemory
  obtain ⟨s', m', hinit', hsize, -⟩ :=
    memoryInit_sound layoutAt64K (fun _ => 0) 0 kmainTotalMemory
  rw [hinit] at hinit'
  obtain ⟨rfl, rfl⟩ := Prod.mk.inj (Option.some.inj hinit')
  obtain ⟨replies, x, hrun, hiff⟩ :=
    hagrees (StaticTables.apart_of_page hsize layoutAt64K_apart) [] trivial
  obtain ⟨-, rfl⟩ : replies = [] ∧ x = ⟨s, m⟩ := by simpa using hrun.symm
  exact ⟨s, m, hinit, (hiff 0x7000).mpr (Or.inl (by decide))⟩

/-- After boot the processor translates 0x7004 to itself, and `vmm_get_phys` returns
0x7000. -/
theorem getPhys_drops_offset :
    ∃ s m, memoryInit layoutAt64K ⟨fun _ => 0, 0, false⟩ kmainTotalMemory = some (s, m) ∧
      pageWalk m.ram layoutAt64K.directory 0x7004 = some 0x7004 ∧
      vmmGetPhys Machine.bus layoutAt64K m 0x7004 = some 0x7000 := by
  obtain ⟨s, m, hinit, hsize, hfilled, hsound⟩ :=
    memoryInit_sound layoutAt64K (fun _ => 0) 0 kmainTotalMemory
  have hx := hsound (StaticTables.apart_of_page hsize layoutAt64K_apart)
  have hphys := (@StaticTables.Filled.physOf_eq _ _ hfilled 0x7004 0 7 (by decide)
      (Or.inl (by decide)) (by decide)).1
  refine ⟨s, m, hinit, ?_, ?_⟩
  · rw [hfilled.pageWalk_eq]
    rfl
  · rw [vmmGetPhys_eq (hx.readsTables _), hphys]
    rfl

section Failure

variable {M : Type} {bus : Bus M} {st : StaticTables} {s s' : PmmState} {m m' : M}
  {virt phys flags : Word}

/-- `vmm_map` needs a new page table, and the next free page is the one at address 0, which
`pmm_alloc` hands out and `vmm_map` takes for a failure. -/
structure TakesPageZero (bus : Bus M) (st : StaticTables) (s : PmmState) (m : M)
    (virt phys : Word) : Prop where
  /-- The virtual address is aligned. -/
  virt_aligned : virt % pageSize = 0
  /-- The physical address is aligned. -/
  phys_aligned : phys % pageSize = 0
  /-- There is no page table for the address. -/
  no_table : pageTableOf bus st m virt = some none
  /-- The next free page has address 0. -/
  page_zero : ∃ i, findFreePage bus s m = some i ∧ i * pageSize = 0

/-- A `vmm_map` of aligned addresses that fails has found no page table and got address 0
from `pmm_alloc`. -/
theorem vmmMap_failure (hvirt : virt % pageSize = 0) (hphys : phys % pageSize = 0)
    (hfail : vmmMap bus st s m virt phys flags = some (-1, s', m')) :
    pageTableOf bus st m virt = some none ∧ pmmAlloc bus s m = some (0, s', m') := by
  rw [vmmMap_of_aligned hvirt hphys] at hfail
  obtain ⟨⟨table, s₁, m₁⟩, htable, hfail⟩ := Option.bind_eq_some_iff.mp hfail
  cases table with
  | some table =>
    obtain ⟨m₂, -, hfail⟩ := Option.bind_eq_some_iff.mp hfail
    exact absurd (Prod.mk.inj (Option.some.inj hfail)).1 (by decide)
  | none =>
    obtain ⟨rfl, rfl⟩ : s₁ = s' ∧ m₁ = m' := by simpa using hfail
    obtain ⟨found, hfound, htable⟩ := Option.bind_eq_some_iff.mp htable
    cases found with
    | some table => cases htable
    | none =>
      obtain ⟨⟨a, s₂, m₂⟩, halloc, htable⟩ := Option.bind_eq_some_iff.mp htable
      simp only at htable
      split at htable
      · rename_i hzero
        obtain ⟨rfl, rfl⟩ : s₂ = s₁ ∧ m₂ = m₁ := by simpa using htable
        rw [hzero] at halloc
        exact ⟨hfound, halloc⟩
      · obtain ⟨m₃, -, htable⟩ := Option.bind_eq_some_iff.mp htable
        cases htable

/-- **When a failed `vmm_map` changes nothing.** Whatever the state, a call that returns -1
leaves the allocator and the memory as they were exactly unless it was given page 0. -/
theorem vmm_map_atomic_iff (bus : Bus M) (st : StaticTables) (s s' : PmmState) (m m' : M)
    (virt phys flags : Word) (hfail : vmmMap bus st s m virt phys flags = some (-1, s', m')) :
    (s' = s ∧ m' = m) ↔ ¬ TakesPageZero bus st s m virt phys := by
  by_cases haligned : virt % pageSize = 0 ∧ phys % pageSize = 0
  · obtain ⟨hfound, halloc⟩ := vmmMap_failure haligned.1 haligned.2 hfail
    rcases pmmAlloc_cases halloc with ⟨hfull, -, hsame⟩ | ⟨i, hfind, -, hzero, hcount, -⟩
    · refine iff_of_true hsame fun htakes => ?_
      obtain ⟨i, hfind, hzero⟩ := htakes.page_zero
      rw [hfull] at hfind
      obtain rfl := Option.some.inj hfind
      exact absurd hzero (by decide)
    · refine iff_of_false ?_
        (not_not.mpr ⟨haligned.1, haligned.2, hfound, i, hfind, hzero.symm⟩)
      rintro ⟨hsame, -⟩
      have hcounts := congrArg PmmState.allocatedPages (hcount.symm.trans hsame)
      simp only at hcounts
      bv_omega
  · have hrefused : virt % pageSize ≠ 0 ∨ phys % pageSize ≠ 0 := by
      by_contra h
      rw [not_or, not_not, not_not] at h
      exact haligned h
    unfold vmmMap at hfail
    rw [if_pos hrefused] at hfail
    obtain ⟨-, hstate⟩ := Prod.mk.inj (Option.some.inj hfail)
    obtain ⟨rfl, rfl⟩ := Prod.mk.inj hstate
    exact iff_of_true ⟨rfl, rfl⟩ fun htakes => haligned ⟨htakes.virt_aligned, htakes.phys_aligned⟩

end Failure

/-- A `vmm_map` that is refused for its alignment changes nothing. -/
theorem vmm_map_atomic_misaligned :
    ∃ s' m', vmmMap Mem.bus layoutAt64K ⟨0, 0, 0, 0⟩ ⟨fun _ => 0, []⟩ 0x7004 0x5000 3 =
        some (-1, s', m') ∧ s' = ⟨0, 0, 0, 0⟩ ∧ m' = ⟨fun _ => 0, []⟩ := by
  have hfail : vmmMap Mem.bus layoutAt64K ⟨0, 0, 0, 0⟩ ⟨fun _ => 0, []⟩ 0x7004 0x5000 3 =
      some (-1, ⟨0, 0, 0, 0⟩, ⟨fun _ => 0, []⟩) := rfl
  refine ⟨_, _, hfail, (vmm_map_atomic_iff _ _ _ _ _ _ _ _ _ hfail).mpr fun htakes => ?_⟩
  exact absurd htakes.virt_aligned (by decide)

/-- Right after `kmain` has set up memory that was zero, `vmm_map` of a page without a page
table is given page 0 and fails, and one page counts as allocated. -/
theorem vmm_map_failure_takes_page :
    ∃ s m s' m', kmainMemory layoutAt64K ⟨fun _ => 0, 0, false⟩ = some (s, m) ∧
      vmmMap Machine.bus layoutAt64K s m 0x40000000 0x5000 3 = some (-1, s', m') ∧
      s.allocatedPages = 0 ∧ s'.allocatedPages = 1 := by
  obtain ⟨s, m, hinit, hfilled, hx, hholds⟩ := kmainMemory_holds 0 layoutAt64K_apart
  have hnone : s.allocatedPages = 0 := by
    have hcount : s.allocatedPages.toNat = 0 := hholds.2.2.2.allocated_eq
    bv_omega
  have hfind : findFreePage Machine.bus s m = some 0 :=
    hx.findFreePage_eq hholds (Finset.range_zero).symm (by decide)
  have habsent : layoutAt64K.pde m.ram 0x40000000 &&& pagePresent = 0 := by
    rw [StaticTables.pde, hfilled.empty _ (by decide) (by decide) (by decide)]
    rfl
  have htable := hx.pageTableOf_eq 0x40000000
  rw [if_pos habsent] at htable
  obtain ⟨a, s', m', halloc, -⟩ := hx.alloc
  rcases pmmAlloc_cases halloc with ⟨hfull, -⟩ | ⟨i, hfind', -, rfl, rfl, -⟩
  · rw [hfind] at hfull
    exact absurd hfull (by decide)
  · rw [hfind] at hfind'
    obtain rfl := Option.some.inj hfind'
    have hzero : (0 : Word) * pageSize = 0 := by decide
    refine ⟨s, m, { s with allocatedPages := s.allocatedPages + 1 }, m', hinit, ?_, hnone, ?_⟩
    · rw [vmmMap_of_aligned (by decide) (by decide)]
      simp only [vmmMapTable, htable, halloc, if_pos hzero, Option.bind_eq_bind,
        Option.bind_some, Option.pure_def]
    · change s.allocatedPages + 1 = 1
      rw [hnone]
      rfl

end Nimbu
