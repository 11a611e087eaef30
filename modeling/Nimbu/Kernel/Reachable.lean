import Nimbu.Kernel.PageTables
import Nimbu.Mm.PmmRefinement

/-!
# Runs of the memory managers from boot

After `kmain` has set up memory, every run that spares the kernel's own data finds
each page table within reach. `pmm_alloc` hands out frames in order and without
regard to the identity map of the first 16 MB, so a run that holds all frames
there gets a page table that it cannot reach.
-/

namespace Nimbu

/-- The pages of the first 16 MB are mapped by the filled tables, at their own addresses
and from 3 GB on. -/
theorem StaticTables.Filled.maps {st : StaticTables} {v : Bytes} (hfilled : st.Filled v)
    {virt page : Word} (hpage : page.toNat % 4096 = 0) (hlow : page.toNat < 0x1000000)
    (hvirt : virt = page ∨ virt = kernelVirtBase + page) : st.Maps v virt page := by
  have hhigh : (kernelVirtBase + page).toNat = 0xC0000000 + page.toNat := by
    unfold kernelVirtBase
    bv_omega
  have hdir : pdIndex virt = pdIndex page ∨ pdIndex virt = 768 + pdIndex page := by
    rcases hvirt with rfl | rfl
    · exact Or.inl rfl
    · right
      unfold pdIndex
      omega
  have hindex : ptIndex virt = ptIndex page := by
    rcases hvirt with rfl | rfl
    · rfl
    · unfold ptIndex
      omega
  obtain ⟨hpde, hpte⟩ := hfilled.entries (a := virt) (i := pdIndex page)
    (by unfold pdIndex; omega) hdir rfl
  have hn : BitVec.ofNat 32 ((1024 * pdIndex page + ptIndex virt) * 4096) = page := by
    rw [hindex]
    apply BitVec.eq_of_toNat_eq
    rw [BitVec.toNat_ofNat]
    unfold pdIndex ptIndex
    omega
  rw [hn] at hpte
  refine ⟨?_, ?_, ?_⟩
  · rcases hvirt with rfl | rfl
    · exact hpage
    · omega
  · rw [hpde]
    exact entry_present _
  · rw [hpte]
    exact leads_of_presentWrite hpage

/-- After boot the kernel's own data are within reach, if the linker has placed the static
arrays outside the bitmap. -/
theorem StaticTables.Filled.sound {st : StaticTables} {x : VmState}
    (hfilled : st.Filled x.machine.ram) (hpaging : x.machine.paging = true)
    (hcr3 : x.machine.cr3 = st.directory) (hbitmap : x.pmm.bitmap = kernelVirtBase + 0x200000)
    (hpages : x.pmm.totalPages.toNat ≤ 8 * x.pmm.bitmapSize.toNat)
    (hsize : x.pmm.bitmapSize.toNat ≤ 2 ^ 17) (hapart : ∀ c ∈ st.bytes, c ∉ x.pmm.physBytes) :
    x.Sound st := by
  have hdir := st.directory_low
  have htab := st.tables_low
  have hphys : bitmapPhys.toNat = 0x200000 := rfl
  refine ⟨hpaging, hcr3, hbitmap, hpages, hsize, ?_, ?_, ?_⟩
  · rintro virt page (_ | ⟨a, hpresent⟩ | ⟨_, haligned, hmem⟩)
    · exact hfilled.maps st.directory_aligned (by omega) (Or.inl rfl)
    · obtain ⟨i, hi, -, htable⟩ := hfilled.slot_of_present hpresent
      have hpos := st.toNat_table hi
      rw [htable]
      exact hfilled.maps (st.table_aligned hi) (by omega) (Or.inl rfl)
    · simp only [PmmState.physBytes, Set.mem_ofPred_eq, hphys] at hmem
      exact hfilled.maps haligned (by omega) (Or.inr rfl)
  · exact hapart _ (Or.inl ⟨le_rfl, by omega⟩)
  · intro a hpresent
    obtain ⟨i, hi, -, htable⟩ := hfilled.slot_of_present hpresent
    have hpos := st.toNat_table hi
    have hbetween := st.apart
    rw [htable]
    refine ⟨fun heq => ?_, hapart _ (Or.inr ⟨by omega, by omega⟩)⟩
    rw [heq] at hpos
    omega

/-- The state after `pmm_init` and `vmm_init` for any memory size. -/
theorem memoryInit_sound (st : StaticTables) (ram : Bytes) (cr3 totalMemory : Word) :
    ∃ s m, memoryInit st ⟨ram, cr3, false⟩ totalMemory = some (s, m) ∧
      s.bitmapSize.toNat = (totalMemory.toNat / 4096 + 7) / 8 ∧ st.Filled m.ram ∧
      ((∀ c ∈ st.bytes, c ∉ s.physBytes) → VmState.Sound st ⟨s, m⟩) := by
  obtain ⟨s, m, v, hinit, hbitmap, hrep, -, -, hram, -, hpaging, hcr3⟩ :=
    memoryInit_eq st ram cr3 totalMemory
  have hfilled : st.Filled m.ram := hram ▸ st.fill_filled v
  have htotal : s.totalPages.toNat = totalMemory.toNat / 4096 := hrep.total_eq
  have hsize : s.bitmapSize.toNat = (totalMemory.toNat / 4096 + 7) / 8 := hrep.size_eq
  have hlt := totalMemory.isLt
  refine ⟨s, m, hinit, hsize, hfilled, fun hapart => ?_⟩
  exact hfilled.sound (x := ⟨s, m⟩) hpaging hcr3 hbitmap (by simp only; omega)
    (by simp only; omega) hapart

/-- With 128 MB the bitmap is one page. -/
theorem StaticTables.apart_of_page {st : StaticTables} {s : PmmState}
    (hsize : s.bitmapSize.toNat = 4096) (hlayout : bitmapPhys ∉ st.bytes) :
    ∀ c ∈ st.bytes, c ∉ s.physBytes := by
  intro c hc hmem
  have hphys : bitmapPhys.toNat = 0x200000 := rfl
  simp only [PmmState.physBytes, Set.mem_ofPred_eq, hphys, hsize] at hmem
  obtain ⟨k, hk, rfl⟩ : ∃ k < 4096, c = bitmapPhys + BitVec.ofNat 32 k :=
    ⟨c.toNat - 0x200000, by omega, by unfold bitmapPhys; bv_omega⟩
  exact hlayout ((st.page_mem_bytes (by decide) hk).mp hc)

/-- **Page tables stay reachable** as long as calls spare the kernel's own data. After
`kmain` has set up 128 MB, in every run of `pmm_alloc`, `pmm_free`, `vmm_map`,
`vmm_unmap` and `vmm_get_phys` whose calls leave the pages of the directory, the
bitmap and the page tables in use where they are, and create page tables only in
pages that are mapped to themselves, every page-table entry used as a pointer is
mapped to itself when it is used, and every call returns. -/
theorem page_tables_stay_reachable (st : StaticTables) (ram : Bytes) (cr3 : Word)
    (hlayout : bitmapPhys ∉ st.bytes) (calls : List VmCall) :
    ∃ s m, kmainMemory st ⟨ram, cr3, false⟩ = some (s, m) ∧
      (Along (vmStep st) (VmState.Spares st) ⟨s, m⟩ calls →
        Along (vmStep st) (VmState.ReachesTables st) ⟨s, m⟩ calls ∧
        ∃ replies x, exec (vmStep st) ⟨s, m⟩ calls = some (replies, x)) := by
  obtain ⟨s, m, hinit, hsize, -, hsound⟩ := memoryInit_sound st ram cr3 kmainTotalMemory
  have hx := hsound (StaticTables.apart_of_page hsize hlayout)
  refine ⟨s, m, hinit, fun hspares => ⟨?_, ?_⟩⟩
  · refine Along.of_invariant (VmState.Sound st) ?_ (fun hx hspares => (hx.step hspares).1) hx
      hspares
    intro x call reply x' hx hspares hstep
    obtain ⟨-, reply', y, hstep', hy, -⟩ := hx.step hspares
    obtain ⟨-, rfl⟩ : reply' = reply ∧ y = x' := by simpa [hstep'] using hstep
    exact hy
  · obtain ⟨replies, x, hrun, -⟩ := exec_returns (VmState.Sound st)
      (fun hx hspares => by
        obtain ⟨-, reply, x', hstep, hx', -⟩ := hx.step hspares
        exact ⟨reply, x', hstep, hx'⟩) hx hspares
    exact ⟨replies, x, hrun⟩

/-- The record and the bitmap in the machine stand for a set of frames, and only the
bitmap has changed since the state `x₀`. -/
def VmState.Holds (st : StaticTables) (x₀ x : VmState) (F : Frames) : Prop :=
  PmmSimulates
    (fun m => m.paging = true ∧ m.cr3 = st.directory ∧ x₀.pmm.AgreeOutside x₀.machine.ram m.ram)
    (fun m a => m.ram (a - kernelVirtBase)) x₀.pmm.bitmapBytes (x.pmm, x.machine) F

section Allocations

variable {st : StaticTables} {x₀ x : VmState} {F : Frames}

/-- Allocations take the frames in order. -/
theorem VmState.Sound.allocs (hx₀ : x₀.Sound st) (hx : x.Sound st) {first : ℕ} (count : ℕ)
    (hholds : VmState.Holds st x₀ x F) (hheld : F.held = Finset.range first)
    (hroom : first + count ≤ F.total) :
    ∃ replies x' F', exec (vmStep st) x (List.replicate count .alloc) = some (replies, x') ∧
      x'.Sound st ∧ VmState.Holds st x₀ x' F' ∧ F'.held = Finset.range (first + count) ∧
      F'.total = F.total := by
  induction count generalizing x F first with
  | zero => exact ⟨[], x, F, rfl, hx, hholds, hheld, rfl⟩
  | succ count ih =>
    obtain ⟨-, hheld'⟩ := Frames.alloc_of_range (by omega) hheld
    have hsame : F.alloc.2.total = F.total := F.step_total .alloc
    obtain ⟨addr, s, m, halloc, -, hholds', -⟩ := pmmAlloc_simulates hx₀.lawful hholds
    obtain ⟨addr', s', m', halloc', hx', -⟩ := hx.alloc
    rw [halloc] at halloc'
    obtain ⟨rfl, rfl, rfl⟩ : addr = addr' ∧ s = s' ∧ m = m' := by simpa using halloc'
    obtain ⟨replies, x', F', hrun, hx'', hholds'', hheld'', htotal⟩ :=
      ih (x := ⟨s, m⟩) hx' hholds' hheld' (by omega)
    have hstep : vmStep st x .alloc = some (.address addr, ⟨s, m⟩) := by
      simp only [vmStep, halloc, Option.bind_eq_bind, Option.bind_some, Option.pure_def]
    refine ⟨_, x', F', exec_cons_iff.mpr ⟨_, _, replies, hstep, hrun, rfl⟩, hx'', hholds'', ?_,
      htotal.trans hsame⟩
    rw [hheld'', Nat.add_right_comm, Nat.add_assoc]

/-- The next free page after allocations in order. -/
theorem VmState.Sound.findFreePage_eq (hx₀ : x₀.Sound st) (hholds : VmState.Holds st x₀ x F)
    {first : ℕ} (hheld : F.held = Finset.range first) (hroom : first < F.total) :
    findFreePage Machine.bus x.pmm x.machine = some (BitVec.ofNat 32 first) := by
  obtain ⟨hok, -, hS, hrep⟩ := hholds
  rcases Nimbu.findFreePage_eq hx₀.lawful hS hok hrep with
    ⟨hfull, -⟩ | ⟨j, hj, hfree, hbefore, hfind⟩
  · have hmem := hfull first hroom
    simp [hheld] at hmem
  · have hle : first ≤ j := by simpa [hheld] using hfree
    have hge : ¬ first < j := by
      intro hlt
      have hmem := hbefore first hlt
      simp [hheld] at hmem
    rwa [show j = first by omega] at hfind

end Allocations

/-- After `kmain` has set up a machine whose memory is zero, no frame is held. -/
theorem kmainMemory_holds {st : StaticTables} (cr3 : Word) (hlayout : bitmapPhys ∉ st.bytes) :
    ∃ s m, kmainMemory st ⟨fun _ => 0, cr3, false⟩ = some (s, m) ∧ st.Filled m.ram ∧
      VmState.Sound st ⟨s, m⟩ ∧ VmState.Holds st ⟨s, m⟩ ⟨s, m⟩ (Frames.empty 32768) := by
  obtain ⟨s, m, v, hinit, hbitmap, hrep, hclear, hkept, hram, -, hpaging, hcr3⟩ :=
    memoryInit_eq st (fun _ => 0) cr3 kmainTotalMemory
  obtain ⟨s', m', hinit', hsize, hfilled, hsound⟩ :=
    memoryInit_sound st (fun _ => 0) cr3 kmainTotalMemory
  rw [hinit] at hinit'
  obtain ⟨rfl, rfl⟩ := Prod.mk.inj (Option.some.inj hinit')
  have hapart := StaticTables.apart_of_page hsize hlayout
  have hzero : ∀ c, v c = 0 := by
    intro c
    by_cases hc : c ∈ s.bitmapBytes
    · exact hclear c hc
    · exact hkept c hc
  have hsize' : s.bitmapSize.toNat = 4096 := hsize
  refine ⟨s, m, hinit, hfilled, hsound hapart, ⟨hpaging, hcr3, fun c _ => rfl⟩, hbitmap,
    Set.Subset.refl _, hrep.total_eq, hrep.total_lt, hrep.size_eq, hrep.allocated_eq, ?_⟩
  intro i hi
  have hbyte : m.ram (s.bitmap + BitVec.ofNat 32 (i / 8) - kernelVirtBase) = 0 := by
    rw [hram, st.fill_outside v, hzero]
    intro hmem
    apply hapart _ hmem
    have hphys : bitmapPhys.toNat = 0x200000 := rfl
    simp only [PmmState.physBytes, Set.mem_ofPred_eq, hphys, hbitmap, hsize'] at hi ⊢
    have hdiv : i / 8 < 4096 := by omega
    generalize i / 8 = d at hdiv
    unfold kernelVirtBase
    bv_omega
  simp [Bytes.bit, hbyte, Frames.empty]

/-- The static arrays of that layout lie outside the bitmap. -/
theorem layoutAt64K_apart : bitmapPhys ∉ layoutAt64K.bytes := by
  simp [StaticTables.bytes, layoutAt64K, bitmapPhys]

/-- The page table of a page that is not in use as one can be created, if the page is fit
for it. -/
theorem VmState.Sound.spares_create {st : StaticTables} {x : VmState} (hx : x.Sound st)
    {virt phys flags i : Word} (habsent : st.pde x.machine.ram virt &&& pagePresent = 0)
    (hfind : findFreePage Machine.bus x.pmm x.machine = some i)
    (hfit : x.FitForTable st (i * pageSize))
    (hfresh : ∀ a, st.pde x.machine.ram a &&& pagePresent ≠ 0 →
      st.pageTable x.machine.ram a ≠ i * pageSize) : x.Spares st (.map virt phys flags) := by
  refine fun _ _ => ⟨fun hpresent => absurd habsent hpresent, fun _ j hfind' _ _ => ?_⟩
  rw [hfind] at hfind'
  obtain rfl := Option.some.inj hfind'
  refine ⟨hfit, fun a page hdemand hentry => ?_⟩
  have haligned := toNat_mul_pageSize i
  have hpresent : st.pde x.machine.ram a &&& pagePresent ≠ 0 := by
    rcases hdemand with hdemand | ⟨rfl, -⟩
    · exact (hx.mapped hdemand).directory
    · exact (StaticTables.maps_of_linear hfit.self hx.paging hx.cr3_eq haligned).directory
  rw [entry_page_inj (st.pageTable_aligned _ _) haligned (ptIndex_lt a) (ptIndex_lt virt)] at hentry
  exact absurd hentry.1 (hfresh a hpresent)

/-- After one `pmm_alloc` on a machine whose memory was zero at boot, the next free page is
fit for a page table and not in use as one. -/
theorem kmainMemory_alloc :
    ∃ s m replies x, kmainMemory layoutAt64K ⟨fun _ => 0, 0, false⟩ = some (s, m) ∧
      exec (vmStep layoutAt64K) ⟨s, m⟩ [.alloc] = some (replies, x) ∧ x.Sound layoutAt64K ∧
      layoutAt64K.pde x.machine.ram 0x40000000 &&& pagePresent = 0 ∧
      findFreePage Machine.bus x.pmm x.machine = some 1 ∧
      x.FitForTable layoutAt64K (1 * pageSize) ∧
      ∀ a, layoutAt64K.pde x.machine.ram a &&& pagePresent ≠ 0 →
        layoutAt64K.pageTable x.machine.ram a ≠ 1 * pageSize := by
  obtain ⟨s, m, hinit, hfilled, hx₀, hholds₀⟩ := kmainMemory_holds 0 layoutAt64K_apart
  obtain ⟨replies, x, F, hrun, hx, hholds, hheld, htotal⟩ :=
    @VmState.Sound.allocs _ _ _ _ hx₀ hx₀ 0 1 hholds₀ rfl (by decide)
  have htotal' : F.total = 32768 := htotal
  have hfind := hx₀.findFreePage_eq hholds hheld (by omega)
  have hagree := hholds.1.2.2
  have hone : (1 : Word) * pageSize = 0x1000 := by decide
  have hmap := (hx₀.maps_iff hagree).mpr
    (@StaticTables.Filled.maps _ _ hfilled 0x1000 0x1000 (by decide) (by decide) (Or.inl rfl))
  have hself := hmap.linear_eq hx.paging hx.cr3_eq (show 0 < 4096 by decide)
  rw [BitVec.add_zero] at hself
  refine ⟨s, m, replies, x, hinit, hrun, hx, ?_, hfind, ?_, ?_⟩
  · rw [hx₀.pde_eq hagree, StaticTables.pde,
      hfilled.empty (pdIndex 0x40000000) (by decide) (by decide) (by decide)]
    rfl
  · rw [hone]
    refine ⟨hself, by decide, ?_⟩
    simp [PmmState.physBytes, bitmapPhys]
  · rw [hone]
    intro a hpresent heq
    rw [hx₀.pde_eq hagree] at hpresent
    rw [StaticTables.pageTable_congr (hx₀.pde_eq hagree a)] at heq
    obtain ⟨i, hi, -, htable⟩ := hfilled.slot_of_present hpresent
    have hpos := layoutAt64K.toNat_table hi
    rw [← htable, heq] at hpos
    have htables : layoutAt64K.tables.toNat = 0x111000 := rfl
    have hfour : (0x1000 : Word).toNat = 4096 := rfl
    omega

/-- The page table that `vmm_map` creates after one `pmm_alloc` is within reach. -/
theorem page_tables_stay_reachable_two_calls :
    ∃ s m replies x, kmainMemory layoutAt64K ⟨fun _ => 0, 0, false⟩ = some (s, m) ∧
      exec (vmStep layoutAt64K) ⟨s, m⟩ [.alloc, .map 0x40000000 0x5000 3] = some (replies, x) ∧
      Along (vmStep layoutAt64K) (VmState.ReachesTables layoutAt64K) ⟨s, m⟩
        [.alloc, .map 0x40000000 0x5000 3] := by
  obtain ⟨s, m, hinit, hreaches⟩ := page_tables_stay_reachable layoutAt64K (fun _ => 0) 0
    layoutAt64K_apart [.alloc, .map 0x40000000 0x5000 3]
  obtain ⟨s', m', replies, x, hinit', hrun, hx, habsent, hfind, hfit, hfresh⟩ := kmainMemory_alloc
  rw [hinit] at hinit'
  obtain ⟨rfl, rfl⟩ := Prod.mk.inj (Option.some.inj hinit')
  have halong : Along (vmStep layoutAt64K) (VmState.Spares layoutAt64K) ⟨s, m⟩
      ([.alloc] ++ [.map 0x40000000 0x5000 3]) := by
    rw [along_append_iff hrun]
    exact ⟨⟨trivial, fun _ _ _ => trivial⟩, hx.spares_create habsent hfind hfit hfresh,
      fun _ _ _ => trivial⟩
  obtain ⟨hself, replies, x, hrun⟩ := hreaches halong
  exact ⟨s, m, replies, x, hinit, hrun, hself⟩

/-- A page table in a frame beyond the identity map: 4096 allocations take all frames
below 16 MB, and the page table that `vmm_map` then creates at 16 MB is not mapped
when its entry is written. -/
theorem page_table_beyond_identity_map :
    ∃ s m, kmainMemory layoutAt64K ⟨fun _ => 0, 0, false⟩ = some (s, m) ∧
      ¬ Along (vmStep layoutAt64K) (VmState.ReachesTables layoutAt64K) ⟨s, m⟩
        (List.replicate 4096 .alloc ++ [.map 0x40000000 0x5000 3]) := by
  obtain ⟨s, m, hinit, hfilled, hx₀, hholds₀⟩ := kmainMemory_holds 0 layoutAt64K_apart
  obtain ⟨replies, x, F, hrun, hx, hholds, hheld, htotal⟩ :=
    @VmState.Sound.allocs _ _ _ _ hx₀ hx₀ 0 4096 hholds₀ rfl (by decide)
  have htotal' : F.total = 32768 := htotal
  have hfind := hx₀.findFreePage_eq hholds hheld (by omega)
  have hempty : ∀ a : Word, 4 ≤ pdIndex a → pdIndex a < 768 →
      layoutAt64K.pde x.machine.ram a = 0 := by
    intro a hlow hhigh
    rw [hx₀.pde_eq hholds.1.2.2]
    exact hfilled.empty _ (by omega) hlow (Or.inl hhigh)
  have habsent : layoutAt64K.pde x.machine.ram 0x40000000 &&& pagePresent = 0 := by
    rw [hempty _ (by decide) (by decide)]
    rfl
  obtain ⟨a, t, n, halloc, hsound, hagree, -⟩ := hx.alloc
  obtain rfl : a = 0x1000000 := by
    rcases pmmAlloc_cases halloc with ⟨hnone, -⟩ | ⟨i, hsome, -, rfl, -⟩
    · rw [hfind] at hnone
      exact absurd hnone (by decide)
    · rw [hfind] at hsome
      obtain rfl := Option.some.inj hsome
      decide
  have habsent' : layoutAt64K.pde n.ram 0x40000000 &&& pagePresent = 0 := by
    rw [hx.pde_eq hagree]
    exact habsent
  obtain ⟨m', hstore, hkeeps, hram⟩ :=
    hsound.storeAbsent (0x1000000 ||| presentWrite) habsent' hsound.mapped .directory
  have htable : vmmMapTable Machine.bus layoutAt64K x.pmm x.machine 0x40000000 =
      some (some 0x1000000, t, m') := by
    have hnone := hx.pageTableOf_eq 0x40000000
    rw [if_pos habsent] at hnone
    have hzero : (0x1000000 : Word) ≠ 0 := by decide
    simp only [vmmMapTable, hnone, halloc, if_neg hzero, hstore, Option.bind_eq_bind,
      Option.bind_some, Option.pure_def]
  have hfault : m'.linear 0x1000000 = none := by
    unfold Machine.linear
    rw [if_pos hkeeps.paging, hkeeps.cr3_eq]
    apply pageWalk_of_empty layoutAt64K.directory_aligned
    rw [hram]
    refine (layoutAt64K.pde_putWord _ _ _ _).trans ?_
    rw [if_neg (by decide)]
    exact (hx.pde_eq hagree _).trans (hempty _ (by decide) (by decide))
  refine ⟨s, m, hinit, fun hreaches => ?_⟩
  rw [along_append_iff hrun] at hreaches
  obtain ⟨table, t', n', htable', hself⟩ := hreaches.2.1 (by decide) (by decide)
  rw [htable] at htable'
  obtain ⟨rfl, rfl, rfl⟩ : some 0x1000000 = table ∧ t = t' ∧ m' = n' := by simpa using htable'
  have hfirst : m'.linear 0x1000000 = some 0x1000000 := hself _ rfl 0 (by decide)
  rw [hfault] at hfirst
  cases hfirst

end Nimbu
