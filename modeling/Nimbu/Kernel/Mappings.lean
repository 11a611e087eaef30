import Nimbu.Kernel.Reachable

/-!
# Independent mappings

Page tables in use are different for different 4 MB regions, but for the four
static tables, which the boot mapping uses twice. A call on one page then leaves
what `vmm_get_phys` returns for every other page alone, as long as the directory
and the tables stay where the code looks for them.
-/

namespace Nimbu

/-- The frame for a new page table is not in use as a page table. -/
def VmState.Fresh (st : StaticTables) (x : VmState) : VmCall → Prop
  | .map virt _ _ => st.pde x.machine.ram virt &&& pagePresent = 0 → ∀ i,
      findFreePage Machine.bus x.pmm x.machine = some i → i ≠ 0xFFFFFFFF → i * pageSize ≠ 0 →
        ∀ a, st.pde x.machine.ram a &&& pagePresent ≠ 0 →
          st.pageTable x.machine.ram a ≠ i * pageSize
  | _ => True

/-- Two addresses are 3 GB apart, the lower one below 16 MB, up to their offsets in a page. -/
def Aliases (p q : Word) : Prop :=
  p.toNat < 0x1000000 ∧ q.toNat / 4096 = 0xC0000 + p.toNat / 4096

/-- Two directory slots share a static table. -/
def AliasSlots (p q : Word) : Prop := pdIndex p < 4 ∧ pdIndex q = 768 + pdIndex p

/-- Different directory slots lead to different page tables, but for those that share a
static table. -/
def StaticTables.Separate (st : StaticTables) (v : Bytes) : Prop :=
  ∀ p q, st.pde v p &&& pagePresent ≠ 0 → st.pde v q &&& pagePresent ≠ 0 →
    st.pageTable v p = st.pageTable v q → pdIndex p = pdIndex q ∨ AliasSlots p q ∨ AliasSlots q p

/-- The directory index, the table index and the offset make up an address. -/
theorem page_eq_of_indices {p q : Word} (hpd : pdIndex p = pdIndex q)
    (hpt : ptIndex p = ptIndex q) : p.toNat / 4096 = q.toNat / 4096 := by
  unfold pdIndex ptIndex at *
  omega

/-- Slots that share a table share it page by page. -/
theorem AliasSlots.aliases {p q : Word} (hslots : AliasSlots p q) (hpt : ptIndex p = ptIndex q) :
    Aliases p q := by
  obtain ⟨hlow, hhigh⟩ := hslots
  unfold Aliases
  unfold pdIndex ptIndex at *
  omega

/-- After `vmm_init` the slots are separate. -/
theorem StaticTables.Filled.separate {st : StaticTables} {v : Bytes} (hfilled : st.Filled v) :
    st.Separate v := by
  intro p q hp hq hsame
  obtain ⟨i, hi, hslot, htable⟩ := hfilled.slot_of_present hp
  obtain ⟨j, hj, hslot', htable'⟩ := hfilled.slot_of_present hq
  have hpos := st.toNat_table hi
  have hpos' := st.toNat_table hj
  rw [← htable, hsame, htable'] at hpos
  unfold AliasSlots
  omega

section Effects

variable {st : StaticTables} {x : VmState} {call : VmCall} {v : Bytes}

/-- A call keeps the directory, or it fills one absent entry. -/
theorem VmState.Sound.pde_cases (hx : x.Sound st) (heffect : VmState.Effect st x call v) :
    (∀ a, st.pde v a = st.pde x.machine.ram a) ∨
    ∃ virt phys flags i, call = .map virt phys flags ∧
      st.pde x.machine.ram virt &&& pagePresent = 0 ∧
      findFreePage Machine.bus x.pmm x.machine = some i ∧ i ≠ 0xFFFFFFFF ∧ i * pageSize ≠ 0 ∧
      ∀ a, st.pde v a = if pdIndex a = pdIndex virt then i * pageSize ||| presentWrite
        else st.pde x.machine.ram a := by
  cases heffect with
  | bitmap hagree => exact Or.inl (hx.pde_eq hagree)
  | map hpresent =>
    exact Or.inl (st.pde_putTable (st.pageTable_aligned _ _) (hx.tables_apart hpresent).1 _ _ _)
  | unmap hpresent =>
    exact Or.inl (st.pde_putTable (st.pageTable_aligned _ _) (hx.tables_apart hpresent).1 _ _ _)
  | @create virt phys flags i v habsent hfind hsome hzero hfit hagree =>
    refine Or.inr ⟨virt, phys, flags, i, rfl, habsent, hfind, hsome, hzero, fun a => ?_⟩
    have haligned := toNat_mul_pageSize i
    rw [st.pde_putTable haligned hfit.ne_directory, st.pde_putWord, hx.pde_eq hagree]

/-- Calls on fresh frames keep the slots separate. -/
theorem VmState.Sound.separate (hx : x.Sound st) (hfresh : x.Fresh st call)
    (hseparate : st.Separate x.machine.ram) (heffect : VmState.Effect st x call v) :
    st.Separate v := by
  rcases hx.pde_cases heffect with hpde |
    ⟨virt, phys, flags, i, rfl, habsent, hfind, hsome, hzero, hpde⟩
  · intro p q hp hq hsame
    rw [StaticTables.pageTable, StaticTables.pageTable] at hsame
    rw [hpde] at hp hq
    rw [hpde, hpde] at hsame
    exact hseparate p q hp hq hsame
  · have hfresh' := hfresh habsent i hfind hsome hzero
    have haligned := toNat_mul_pageSize i
    have htable : ∀ a, st.pde v a &&& pagePresent ≠ 0 →
        (pdIndex a = pdIndex virt ∧ st.pageTable v a = i * pageSize) ∨
        (st.pde x.machine.ram a &&& pagePresent ≠ 0 ∧
          st.pageTable v a = st.pageTable x.machine.ram a) := by
      intro a ha
      unfold StaticTables.pageTable
      rw [hpde] at ha ⊢
      by_cases hslot : pdIndex a = pdIndex virt
      · rw [if_pos hslot]
        exact Or.inl ⟨hslot, frame_of_entry haligned⟩
      · rw [if_neg hslot] at ha ⊢
        exact Or.inr ⟨ha, rfl⟩
    intro p q hp hq hsame
    rcases htable p hp with ⟨hslot, hnew⟩ | ⟨hold, hkept⟩
    · rcases htable q hq with ⟨hslot', -⟩ | ⟨hold', hkept'⟩
      · exact Or.inl (hslot.trans hslot'.symm)
      · exact absurd (hkept'.symm.trans (hsame.symm.trans hnew)) (hfresh' q hold')
    · rcases htable q hq with ⟨-, hnew'⟩ | ⟨hold', hkept'⟩
      · exact absurd (hkept.symm.trans (hsame.trans hnew')) (hfresh' p hold)
      · exact hseparate p q hold hold' (hkept.symm.trans (hsame.trans hkept'))

/-- Both entries of an address are as before, the second one if there was a page table. -/
structure StaticTables.SameEntries (st : StaticTables) (v v' : Bytes) (q : Word) : Prop where
  /-- The entry in the directory. -/
  directory : st.pde v' q = st.pde v q
  /-- The entry in the page table. -/
  table : st.pde v q &&& pagePresent ≠ 0 →
    v'.word (entry (st.pageTable v q) (ptIndex q)) = v.word (entry (st.pageTable v q) (ptIndex q))

/-- The physical page of an address depends on its two entries only. -/
theorem StaticTables.SameEntries.physOf_eq {v v' : Bytes} {q : Word}
    (hsame : st.SameEntries v v' q) : st.physOf v' q = st.physOf v q := by
  unfold StaticTables.physOf StaticTables.pte
  rw [hsame.directory, StaticTables.pageTable_congr hsame.directory]
  by_cases hpresent : st.pde v q &&& pagePresent = 0
  · rw [if_pos hpresent, if_pos hpresent]
  · rw [hsame.table hpresent]

/-- A change of the bitmap leaves every page alone. -/
theorem VmState.Sound.sameEntries_of_agree (hx : x.Sound st)
    (hagree : x.pmm.AgreeOutside x.machine.ram v) (q : Word) :
    st.SameEntries x.machine.ram v q where
  directory := hx.pde_eq hagree q
  table hq := hagree.word_eq hx.size_le (st.pageTable_aligned _ _) (hx.tables_apart hq).2
    (ptIndex_lt q)

/-- Replacing the entry of one page leaves every other page alone. -/
theorem VmState.Sound.sameEntries_putWord (hx : x.Sound st)
    (hseparate : st.Separate x.machine.ram) {p q : Word}
    (hp : st.pde x.machine.ram p &&& pagePresent ≠ 0) (hne : p.toNat / 4096 ≠ q.toNat / 4096)
    (hpq : ¬ Aliases p q) (hqp : ¬ Aliases q p) (w : Word) :
    st.SameEntries x.machine.ram
      (x.machine.ram.putWord (entry (st.pageTable x.machine.ram p) (ptIndex p)) w) q := by
  have haligned := st.pageTable_aligned x.machine.ram p
  constructor
  · exact Bytes.putWord_entry_of_ne w st.directory_aligned haligned (pdIndex_lt q) (ptIndex_lt p)
      (Or.inl (hx.tables_apart hp).1.symm)
  · intro hq
    apply Bytes.putWord_entry_of_ne w (st.pageTable_aligned x.machine.ram q) haligned
      (ptIndex_lt q) (ptIndex_lt p)
    by_contra hboth
    rw [not_or, not_not, not_not] at hboth
    rcases hseparate p q hp hq hboth.1.symm with hslot | hslots | hslots
    · exact hne (page_eq_of_indices hslot hboth.2.symm)
    · exact hpq (hslots.aliases hboth.2.symm)
    · exact hqp (hslots.aliases hboth.2)

/-- A call on one page leaves every other page alone. -/
theorem VmState.Sound.sameEntries (hx : x.Sound st) (hseparate : st.Separate x.machine.ram)
    (hfresh : x.Fresh st call) (heffect : VmState.Effect st x call v) {p q : Word}
    (hcall : (∃ phys flags, call = .map p phys flags) ∨ call = .unmap p)
    (hne : p.toNat / 4096 ≠ q.toNat / 4096) (hpq : ¬ Aliases p q) (hqp : ¬ Aliases q p)
    (hslot : pdIndex q ≠ pdIndex p ∨ st.pde x.machine.ram p &&& pagePresent ≠ 0) :
    st.SameEntries x.machine.ram v q := by
  cases heffect with
  | bitmap hagree => exact hx.sameEntries_of_agree hagree q
  | map hpresent =>
    obtain ⟨phys, flags, hcall⟩ | hcall := hcall
    · cases hcall
      exact hx.sameEntries_putWord hseparate hpresent hne hpq hqp _
    · cases hcall
  | unmap hpresent =>
    obtain ⟨phys, flags, hcall⟩ | hcall := hcall
    · cases hcall
    · cases hcall
      exact hx.sameEntries_putWord hseparate hpresent hne hpq hqp _
  | @create virt phys flags i v habsent hfind hsome hzero hfit hagree =>
    obtain ⟨phys', flags', hcall⟩ | hcall := hcall
    · cases hcall
      have hother : pdIndex q ≠ pdIndex p := hslot.resolve_right fun h => h habsent
      have haligned := toNat_mul_pageSize i
      constructor
      · refine (Bytes.putWord_entry_of_ne _ st.directory_aligned haligned (pdIndex_lt q)
          (ptIndex_lt p) (Or.inl hfit.ne_directory.symm)).trans ?_
        refine (st.pde_putWord _ _ _ q).trans ?_
        rw [if_neg hother, hx.pde_eq hagree]
      · intro hq
        have htable := st.pageTable_aligned x.machine.ram q
        rw [Bytes.putWord_entry_of_ne _ htable haligned (ptIndex_lt q) (ptIndex_lt p)
            (Or.inl (hfresh habsent i hfind hsome hzero q hq)),
          Bytes.putWord_entry_of_ne _ htable st.directory_aligned (ptIndex_lt q) (pdIndex_lt p)
            (Or.inl (hx.tables_apart hq).1)]
        exact (hx.sameEntries_of_agree hagree q).table hq
    · cases hcall

/-- A call on one page leaves what is read for every other page alone. -/
theorem VmState.Sound.physOf_eq (hx : x.Sound st) (hseparate : st.Separate x.machine.ram)
    (hfresh : x.Fresh st call) (heffect : VmState.Effect st x call v) {p q : Word}
    (hcall : (∃ phys flags, call = .map p phys flags) ∨ call = .unmap p)
    (hne : p.toNat / 4096 ≠ q.toNat / 4096) (hpq : ¬ Aliases p q) (hqp : ¬ Aliases q p)
    (hslot : pdIndex q ≠ pdIndex p ∨ st.pde x.machine.ram p &&& pagePresent ≠ 0) :
    st.physOf v q = st.physOf x.machine.ram q :=
  (hx.sameEntries hseparate hfresh heffect hcall hne hpq hqp hslot).physOf_eq

end Effects

/-- **Mappings are independent** as long as calls spare the kernel's own data. After
`pmm_init` and `vmm_init`, in every run whose calls leave the pages of the
directory, the bitmap and the page tables in use where they are, and create page
tables only in fresh frames that are mapped to themselves: `vmm_map` or `vmm_unmap`
on one page leaves what `vmm_get_phys` returns for every other page alone, but for
the page it shares its entry with, if the other page lies in another 4 MB region or
the page table was there before. -/
theorem mappings_independent (st : StaticTables) (ram : Bytes) (cr3 totalMemory : Word) :
    ∃ s m, memoryInit st ⟨ram, cr3, false⟩ totalMemory = some (s, m) ∧
      ((∀ c ∈ st.bytes, c ∉ s.physBytes) → ∀ calls call,
        Along (vmStep st) (fun x call => x.Spares st call ∧ x.Fresh st call) ⟨s, m⟩
          (calls ++ [call]) →
        ∃ replies x reply x', exec (vmStep st) ⟨s, m⟩ calls = some (replies, x) ∧
          vmStep st x call = some (reply, x') ∧
          ∀ p q, ((∃ phys flags, call = .map p phys flags) ∨ call = .unmap p) →
            p.toNat / 4096 ≠ q.toNat / 4096 → ¬ Aliases p q → ¬ Aliases q p →
            (pdIndex q ≠ pdIndex p ∨ st.pde x.machine.ram p &&& pagePresent ≠ 0) →
            ∃ phys, vmmGetPhys Machine.bus st x.machine q = some phys ∧
              vmmGetPhys Machine.bus st x'.machine q = some phys) := by
  obtain ⟨s, m, hinit, -, hfilled, hsound⟩ := memoryInit_sound st ram cr3 totalMemory
  refine ⟨s, m, hinit, fun hapart calls call halong => ?_⟩
  obtain ⟨replies, x, hrun, hx, hseparate⟩ := exec_returns
    (fun x : VmState => x.Sound st ∧ st.Separate x.machine.ram)
    (fun hinv hcall => by
      obtain ⟨-, reply, x', hstep, hx', heffect⟩ := hinv.1.step hcall.1
      exact ⟨reply, x', hstep, hx', hinv.1.separate hcall.2 hinv.2 heffect⟩)
    ⟨hsound hapart, hfilled.separate⟩ halong.of_append
  obtain ⟨-, ⟨hspares, hfresh⟩, -⟩ := (along_append_iff hrun).mp halong
  obtain ⟨-, reply, x', hstep, hx', heffect⟩ := hx.step hspares
  refine ⟨replies, x, reply, x', hrun, hstep, fun p q hcall hne hpq hqp hslot => ?_⟩
  refine ⟨st.physOf x.machine.ram q, vmmGetPhys_eq (hx.readsTables q), ?_⟩
  rw [vmmGetPhys_eq (hx'.readsTables q),
    hx.physOf_eq hseparate hfresh heffect hcall hne hpq hqp hslot]

/-- Creating a page table after one `pmm_alloc` leaves the page at 0x7000 alone. -/
theorem mappings_independent_two_calls :
    ∃ s m replies x reply x',
      memoryInit layoutAt64K ⟨fun _ => 0, 0, false⟩ kmainTotalMemory = some (s, m) ∧
      exec (vmStep layoutAt64K) ⟨s, m⟩ [.alloc] = some (replies, x) ∧
      vmStep layoutAt64K x (.map 0x40000000 0x5000 3) = some (reply, x') ∧
      ∃ phys, vmmGetPhys Machine.bus layoutAt64K x.machine 0x7000 = some phys ∧
        vmmGetPhys Machine.bus layoutAt64K x'.machine 0x7000 = some phys := by
  obtain ⟨s, m, hinit, hindependent⟩ :=
    mappings_independent layoutAt64K (fun _ => 0) 0 kmainTotalMemory
  obtain ⟨s', m', replies, x, hinit', hrun, hx, habsent, hfind, hfit, hfresh⟩ := kmainMemory_alloc
  obtain ⟨s'', m'', hinit'', hsize, -⟩ :=
    memoryInit_sound layoutAt64K (fun _ => 0) 0 kmainTotalMemory
  replace hinit' : memoryInit layoutAt64K ⟨fun _ => 0, 0, false⟩ kmainTotalMemory =
    some (s', m') := hinit'
  rw [hinit] at hinit' hinit''
  obtain ⟨rfl, rfl⟩ := Prod.mk.inj (Option.some.inj hinit')
  obtain ⟨rfl, rfl⟩ := Prod.mk.inj (Option.some.inj hinit'')
  have halong : Along (vmStep layoutAt64K)
      (fun x call => x.Spares layoutAt64K call ∧ x.Fresh layoutAt64K call) ⟨s, m⟩
      ([.alloc] ++ [.map 0x40000000 0x5000 3]) := by
    rw [along_append_iff hrun]
    refine ⟨⟨⟨trivial, trivial⟩, fun _ _ _ => trivial⟩,
      ⟨hx.spares_create habsent hfind hfit hfresh, fun _ i hfind' _ _ => ?_⟩, fun _ _ _ => trivial⟩
    rw [hfind] at hfind'
    obtain rfl := Option.some.inj hfind'
    exact hfresh
  obtain ⟨replies', y, reply, x', hrun', hstep, hkept⟩ := hindependent
    (StaticTables.apart_of_page hsize layoutAt64K_apart) [.alloc] (.map 0x40000000 0x5000 3) halong
  exact ⟨s, m, replies', y, reply, x', hinit, hrun', hstep,
    hkept 0x40000000 0x7000 (Or.inl ⟨_, _, rfl⟩) (by decide) (by simp [Aliases]) (by simp [Aliases])
      (Or.inl (by decide))⟩

/-- The page table of the first 4 MB, with the static arrays at 0x110000. -/
theorem layoutAt64K_pageTable {v : Bytes} (hfilled : layoutAt64K.Filled v) {a : Word}
    (ha : pdIndex a = 0) : layoutAt64K.pageTable v a = 0x111000 := by
  obtain ⟨hpde, -⟩ := @StaticTables.Filled.entries _ _ hfilled a 0 _ (by decide) (Or.inl ha) rfl
  rw [StaticTables.pageTable, hpde, frame_of_entry (layoutAt64K.table_aligned (by decide))]
  decide

/-- Memory that was zero at boot is zero below the static arrays at 0x110000 afterwards. -/
theorem memoryInit_zero_below {s : PmmState} {m : Machine}
    (hinit : memoryInit layoutAt64K ⟨fun _ => 0, 0, false⟩ kmainTotalMemory = some (s, m))
    {c : Word} (hc : c.toNat < 0x110000) : m.ram c = 0 := by
  obtain ⟨s', m', v, hinit', -, -, hclear, hkept, hram, -⟩ :=
    memoryInit_eq layoutAt64K (fun _ => 0) 0 kmainTotalMemory
  rw [hinit] at hinit'
  obtain ⟨rfl, rfl⟩ := Prod.mk.inj (Option.some.inj hinit')
  have hout : c ∉ layoutAt64K.bytes := by
    have hdir : layoutAt64K.directory.toNat = 0x110000 := rfl
    have htab : layoutAt64K.tables.toNat = 0x111000 := rfl
    simp only [StaticTables.bytes, Set.mem_ofPred_eq, hdir, htab]
    omega
  rw [hram, layoutAt64K.fill_outside v hout]
  by_cases hmem : c ∈ s.bitmapBytes
  · exact hclear c hmem
  · exact hkept c hmem

/-- The entry for the page of the directory itself can be written: the page of the table
that holds it stays mapped. -/
theorem VmState.Sound.storeDirectoryPage {x : VmState} (hx : x.Sound layoutAt64K)
    (hfilled : layoutAt64K.Filled x.machine.ram) (w : Word) :
    ∃ n : Machine, Machine.bus.storeWord x.machine (entry 0x111000 0x110) w = some n ∧
      n.paging = true ∧ n.cr3 = layoutAt64K.directory ∧
      n.ram = x.machine.ram.putWord (entry 0x111000 0x110) w := by
  have hself := @StaticTables.Filled.maps _ _ hfilled 0x111000 0x111000 (by decide) (by decide)
    (Or.inl rfl)
  have hkeeps : x.machine.Keeps layoutAt64K.directory
      (layoutAt64K.entriesOf x.machine.ram fun a page => a = 0x111000 ∧ page = 0x111000) := by
    apply hx.keeps
    rintro a page ⟨rfl, rfl⟩
    exact hself
  have hother : ∀ p, (entry 0x111000 0x110, p) ∈ layoutAt64K.entriesOf x.machine.ram
      (fun a page => a = 0x111000 ∧ page = 0x111000) → Leads w p := by
    rintro p ⟨a, page, ⟨rfl, rfl⟩, heq | heq⟩
    · exact absurd (Prod.mk.inj heq).1 (by decide)
    · have hentry := (Prod.mk.inj heq).1
      rw [layoutAt64K_pageTable hfilled (by decide)] at hentry
      exact absurd hentry (by decide)
  obtain ⟨n, hstore, hn, hram⟩ := hkeeps.storeWord
    (fun e he => ⟨_, _, ⟨rfl, rfl⟩, he⟩) (by decide) (by decide) hother
  exact ⟨n, hstore, hn.paging, hn.cr3_eq, hram⟩

/-- After `vmm_map` of the page of the directory to a frame of zeros, the code reads that
frame as the directory. -/
theorem vmmMap_directoryPage :
    ∃ s m n, memoryInit layoutAt64K ⟨fun _ => 0, 0, false⟩ kmainTotalMemory = some (s, m) ∧
      layoutAt64K.Filled m.ram ∧ VmState.Sound layoutAt64K ⟨s, m⟩ ∧
      vmStep layoutAt64K ⟨s, m⟩ (.map 0x110000 0x5000 3) = some (.status 0, ⟨s, n⟩) ∧
      Machine.bus.loadWord n (entry layoutAt64K.directory 0) = some 0 := by
  obtain ⟨s, m, hinit, hfilled, hx, -⟩ := kmainMemory_holds 0 layoutAt64K_apart
  replace hinit : memoryInit layoutAt64K ⟨fun _ => 0, 0, false⟩ kmainTotalMemory =
    some (s, m) := hinit
  have hdirectory := hx.mapped .directory
  have htable : layoutAt64K.pageTable m.ram 0x110000 = 0x111000 :=
    layoutAt64K_pageTable hfilled (by decide)
  obtain ⟨n, hstore, hpaging, hcr3, hram⟩ := hx.storeDirectoryPage hfilled 0x5003
  have hpde : layoutAt64K.pde n.ram 0x110000 = layoutAt64K.pde m.ram 0x110000 := by
    rw [hram]
    exact layoutAt64K.pde_putTable (by decide) (by decide) _ 0x110000 _ _
  have hmaps : layoutAt64K.Maps n.ram 0x110000 0x5000 := by
    refine ⟨by decide, ?_, ?_⟩
    · rw [hpde]
      exact hdirectory.directory
    · rw [StaticTables.pte, StaticTables.pageTable_congr hpde, htable, hram,
        show ptIndex 0x110000 = 0x110 by decide, Bytes.word_putWord_self]
      exact ⟨by decide, by decide⟩
  have hzero : ∀ c : Word, c.toNat < 0x110000 → n.ram c = 0 := by
    intro c hc
    have hentry : (entry 0x111000 0x110).toNat = 0x111440 := by decide
    rw [hram, Bytes.putWord_outside _ (by omega) (by omega)]
    exact memoryInit_zero_below hinit hc
  refine ⟨s, m, n, hinit, hfilled, hx, ?_, ?_⟩
  · have hmap : vmmMap Machine.bus layoutAt64K s m 0x110000 0x5000 3 = some (0, s, n) := by
      rw [vmmMap_of_present (by decide) (by decide) (hx.readsTables 0x110000).directory
        hdirectory.directory, htable]
      exact congrArg (fun r => r.bind fun m => some ((0 : ℤ), s, m)) hstore
    simp only [vmStep, hmap, Option.bind_eq_bind, Option.bind_some, Option.pure_def]
  · have hword : n.ram.word 0x5000 = 0 := by
      unfold Bytes.word
      rw [hzero _ (by decide), hzero _ (by decide), hzero _ (by decide), hzero _ (by decide)]
      rfl
    rw [← hword]
    exact Machine.loadWord_of_linear fun j hj => hmaps.linear_eq hpaging hcr3 (by omega)

/-- Mapping the page of the directory to another frame changes what `vmm_get_phys` returns
for a page of the same region whose page table was there before: the code then reads
the other frame as the directory. -/
theorem remapped_directory_changes_others :
    ∃ s m x', memoryInit layoutAt64K ⟨fun _ => 0, 0, false⟩ kmainTotalMemory = some (s, m) ∧
      layoutAt64K.pde m.ram 0x110000 &&& pagePresent ≠ 0 ∧
      vmStep layoutAt64K ⟨s, m⟩ (.map 0x110000 0x5000 3) = some (.status 0, x') ∧
      vmmGetPhys Machine.bus layoutAt64K m 0x7000 = some 0x7000 ∧
      vmmGetPhys Machine.bus layoutAt64K x'.machine 0x7000 = some 0 := by
  obtain ⟨s, m, n, hinit, hfilled, hx, hstep, hread⟩ := vmmMap_directoryPage
  refine ⟨s, m, ⟨s, n⟩, hinit, (hx.mapped .directory).directory, hstep, ?_, ?_⟩
  · rw [vmmGetPhys_eq (hx.readsTables _)]
    obtain ⟨hphys, -⟩ := @StaticTables.Filled.physOf_eq _ _ hfilled 0x7000 0 7 (by decide)
      (Or.inl (by decide)) (by decide)
    rw [hphys]
    rfl
  · replace hread : Machine.bus.loadWord n (entry layoutAt64K.directory (pdIndex 0x7000)) =
      some 0 := hread
    simp only [vmmGetPhys, pageTableOf, hread, Option.bind_eq_bind, Option.bind_some,
      Option.pure_def]
    rfl

end Nimbu
