import Nimbu.Kernel.Boot
import Nimbu.Machine.Run
import Nimbu.Machine.Walks
import Nimbu.Mm.VmmMap

/-!
# Page tables behind the paging they define

With paging on, `vmm.c` uses the physical address of a page table as a pointer,
and `pmm.c` reaches its bitmap from 3 GB on. The calls below therefore run on the
machine itself. A call keeps the kernel's own data within reach when it leaves
the pages of the directory, the bitmap and the page tables in use mapped as they
are, and when a new page table lies in a page that is mapped to itself.
-/

namespace Nimbu

/-- The state of the two memory managers: the record of `pmm.c` and the machine. -/
structure VmState where
  /-- The record of the frame allocator. -/
  pmm : PmmState
  /-- The machine with the page tables in its memory. -/
  machine : Machine

/-- A call to one of the memory managers. -/
inductive VmCall where
  /-- `pmm_alloc()`. -/
  | alloc
  /-- `pmm_free(addr)`. -/
  | free (addr : Word)
  /-- `vmm_map(virt, phys, flags)`. -/
  | map (virt phys flags : Word)
  /-- `vmm_unmap(virt)`. -/
  | unmap (virt : Word)
  /-- `vmm_get_phys(virt)`. -/
  | getPhys (virt : Word)

/-- The result of a call. -/
inductive VmReply where
  /-- The address returned by `pmm_alloc` or `vmm_get_phys`. -/
  | address (addr : Word)
  /-- The status returned by the other functions. -/
  | status (ret : ℤ)
  deriving DecidableEq

/-- One call. It has no result when an access faults. -/
def vmStep (st : StaticTables) (x : VmState) : VmCall → Option (VmReply × VmState)
  | .alloc => do
    let (addr, s, m) ← pmmAlloc Machine.bus x.pmm x.machine
    return (.address addr, ⟨s, m⟩)
  | .free addr => do
    let (ret, s, m) ← pmmFree Machine.bus x.pmm x.machine addr
    return (.status ret, ⟨s, m⟩)
  | .map virt phys flags => do
    let (ret, s, m) ← vmmMap Machine.bus st x.pmm x.machine virt phys flags
    return (.status ret, ⟨s, m⟩)
  | .unmap virt => do
    let (ret, m) ← vmmUnmap Machine.bus st x.machine virt
    return (.status ret, ⟨x.pmm, m⟩)
  | .getPhys virt => do
    let phys ← vmmGetPhys Machine.bus st x.machine virt
    return (.address phys, x)

/-- The physical bytes of the bitmap under the boot mapping. -/
def PmmState.physBytes (s : PmmState) : Set Word :=
  {p | bitmapPhys.toNat ≤ p.toNat ∧ p.toNat < bitmapPhys.toNat + s.bitmapSize.toNat}

/-- The tables in a memory map a virtual page to a physical one. -/
structure StaticTables.Maps (st : StaticTables) (v : Bytes) (virt page : Word) : Prop where
  /-- The virtual page starts on a page boundary. -/
  aligned : virt.toNat % 4096 = 0
  /-- The directory entry is present. -/
  directory : st.pde v virt &&& pagePresent ≠ 0
  /-- The table entry leads to the physical page. -/
  table : Leads (st.pte v virt) page

/-- The virtual pages at which the kernel reaches its own data, each with the physical
page it has to be mapped to. -/
inductive StaticTables.Demands (st : StaticTables) (s : PmmState) (v : Bytes) : Word → Word → Prop
  /-- The directory at its own address. -/
  | directory : Demands st s v st.directory st.directory
  /-- Each page table in use at its own address. -/
  | table (virt : Word) : st.pde v virt &&& pagePresent ≠ 0 →
      Demands st s v (st.pageTable v virt) (st.pageTable v virt)
  /-- The bitmap from 3 GB on. -/
  | bitmap (page : Word) : page.toNat % 4096 = 0 → page ∈ s.physBytes →
      Demands st s v (kernelVirtBase + page) page

/-- Storing a word in an entry of a table leaves the demanded pages where they are: the
entry maps none of them, or the word leads to the same page. -/
def StaticTables.Spared (st : StaticTables) (v : Bytes) (demands : Word → Word → Prop)
    (table : Word) (index : ℕ) (w : Word) : Prop :=
  ∀ virt page, demands virt page →
    entry (st.pageTable v virt) (ptIndex virt) = entry table index → Leads w page

/-- The demanded pages and one more at its own address. -/
def withTable (demands : Word → Word → Prop) (table : Word) : Word → Word → Prop :=
  fun virt page => demands virt page ∨ virt = table ∧ page = table

/-- A page is fit for a new page table: it is mapped to itself and is neither the
directory nor part of the bitmap. -/
structure VmState.FitForTable (st : StaticTables) (x : VmState) (table : Word) : Prop where
  /-- The page is mapped to itself. -/
  self : x.machine.linear table = some table
  /-- It is not the directory. -/
  ne_directory : table ≠ st.directory
  /-- It holds no byte of the bitmap. -/
  not_bitmap : table ∉ x.pmm.physBytes

/-- The call keeps the kernel's own data within reach. -/
def VmState.Spares (st : StaticTables) (x : VmState) : VmCall → Prop
  | .map virt phys flags => virt % pageSize = 0 → phys % pageSize = 0 →
    (st.pde x.machine.ram virt &&& pagePresent ≠ 0 →
      st.Spared x.machine.ram (st.Demands x.pmm x.machine.ram) (st.pageTable x.machine.ram virt)
        (ptIndex virt) (phys ||| flags)) ∧
    (st.pde x.machine.ram virt &&& pagePresent = 0 → ∀ i,
      findFreePage Machine.bus x.pmm x.machine = some i → i ≠ 0xFFFFFFFF → i * pageSize ≠ 0 →
        x.FitForTable st (i * pageSize) ∧
        st.Spared x.machine.ram
          (withTable (st.Demands x.pmm x.machine.ram) (i * pageSize)) (i * pageSize)
          (ptIndex virt) (phys ||| flags))
  | .unmap virt => st.pde x.machine.ram virt &&& pagePresent ≠ 0 →
    st.Spared x.machine.ram (st.Demands x.pmm x.machine.ram) (st.pageTable x.machine.ram virt)
      (ptIndex virt) 0
  | _ => True

/-- The four bytes of a table entry are mapped to themselves. -/
def Machine.ReachesEntry (m : Machine) (table : Word) (index : ℕ) : Prop :=
  ∀ j < 4, m.linear (entry table index + BitVec.ofNat 32 j) =
    some (entry table index + BitVec.ofNat 32 j)

/-- Every page-table entry that the call uses as a pointer is mapped to itself when it
does so: for `vmm_map` once the table is found or created. -/
def VmState.ReachesTables (st : StaticTables) (x : VmState) : VmCall → Prop
  | .map virt phys _ => virt % pageSize = 0 → phys % pageSize = 0 →
    ∃ table s m, vmmMapTable Machine.bus st x.pmm x.machine virt = some (table, s, m) ∧
      ∀ t, table = some t → m.ReachesEntry t (ptIndex virt)
  | .unmap virt => ∃ table, pageTableOf Machine.bus st x.machine virt = some table ∧
      ∀ t, table = some t → x.machine.ReachesEntry t (ptIndex virt)
  | .getPhys virt => ∃ table, pageTableOf Machine.bus st x.machine virt = some table ∧
      ∀ t, table = some t → x.machine.ReachesEntry t (ptIndex virt)
  | _ => True

/-- The kernel's own data are within reach. -/
structure VmState.Sound (st : StaticTables) (x : VmState) : Prop where
  /-- Paging is on. -/
  paging : x.machine.paging = true
  /-- The static directory is in force. -/
  cr3_eq : x.machine.cr3 = st.directory
  /-- The bitmap is where `pmm_init` puts it. -/
  bitmap_eq : x.pmm.bitmap = kernelVirtBase + 0x200000
  /-- The bitmap has a bit for each page. -/
  pages_le : x.pmm.totalPages.toNat ≤ 8 * x.pmm.bitmapSize.toNat
  /-- The bitmap has at most a bit for each page of the address space. -/
  size_le : x.pmm.bitmapSize.toNat ≤ 2 ^ 17
  /-- Every demanded page is mapped as demanded. -/
  mapped : ∀ {virt page}, st.Demands x.pmm x.machine.ram virt page →
    st.Maps x.machine.ram virt page
  /-- The directory holds no byte of the bitmap. -/
  directory_apart : st.directory ∉ x.pmm.physBytes
  /-- No page table in use is the directory or holds a byte of the bitmap. -/
  tables_apart : ∀ {virt}, st.pde x.machine.ram virt &&& pagePresent ≠ 0 →
    st.pageTable x.machine.ram virt ≠ st.directory ∧
      st.pageTable x.machine.ram virt ∉ x.pmm.physBytes

/-- The entries by which demanded pages are mapped. -/
def StaticTables.entriesOf (st : StaticTables) (v : Bytes) (demands : Word → Word → Prop) :
    Set (Word × Word) :=
  {n | ∃ virt page, demands virt page ∧
    n ∈ walkEntries st.directory virt (st.pageTable v virt) page}

section Entries

variable {st : StaticTables} {v : Bytes} {demands : Word → Word → Prop} {m : Machine}

/-- The tables that directory entries name start on page boundaries. -/
theorem StaticTables.pageTable_aligned (st : StaticTables) (v : Bytes) (virt : Word) :
    (st.pageTable v virt).toNat % 4096 = 0 :=
  frame_toNat_mod _

/-- A memory that maps the demanded pages keeps the entries by which it does. -/
theorem StaticTables.keeps_entriesOf
    (hmaps : ∀ {virt page}, demands virt page → st.Maps v virt page) :
    v.Keeps (st.entriesOf v demands) := by
  rintro n ⟨virt, page, hdemand, hn⟩
  have hmap := hmaps hdemand
  rcases hn with rfl | rfl
  · have hentry := toNat_entry_page st.directory_aligned (pdIndex_lt virt)
    have haligned := st.directory_aligned
    exact ⟨by simp only; omega, hmap.directory, rfl⟩
  · have hentry := toNat_entry_page (st.pageTable_aligned v virt) (ptIndex_lt virt)
    have haligned := st.pageTable_aligned v virt
    exact ⟨by simp only; omega, hmap.table⟩

/-- A machine that keeps these entries maps the demanded pages, by the same tables. -/
theorem Machine.Keeps.maps (hm : m.Keeps st.directory (st.entriesOf v demands))
    {virt page : Word} (hdemand : demands virt page) (hvirt : virt.toNat % 4096 = 0) :
    st.pageTable m.ram virt = st.pageTable v virt ∧ st.Maps m.ram virt page := by
  have hpde := (hm.ram _ ⟨virt, page, hdemand, Or.inl rfl⟩).2
  have hpte := (hm.ram _ ⟨virt, page, hdemand, Or.inr rfl⟩).2
  have htable : st.pageTable m.ram virt = st.pageTable v virt := hpde.frame
  refine ⟨htable, hvirt, hpde.present, ?_⟩
  unfold StaticTables.pte
  rw [htable]
  exact hpte

/-- Addresses of a page that the tables map are translated to the physical page. -/
theorem StaticTables.Maps.linear_eq {virt page : Word} (hmap : st.Maps m.ram virt page)
    (hpaging : m.paging = true) (hcr3 : m.cr3 = st.directory) {k : ℕ} (hk : k < 4096) :
    m.linear (virt + BitVec.ofNat 32 k) = some (page + BitVec.ofNat 32 k) := by
  have hkeeps : m.ram.Keeps (st.entriesOf m.ram fun a p => a = virt ∧ p = page) :=
    StaticTables.keeps_entriesOf (by rintro a p ⟨rfl, rfl⟩; exact hmap)
  have hm : m.Keeps st.directory (st.entriesOf m.ram fun a p => a = virt ∧ p = page) :=
    ⟨hpaging, hcr3, st.directory_aligned, hkeeps⟩
  exact hm.linear_eq (fun n hn => ⟨virt, page, ⟨rfl, rfl⟩, hn⟩) hmap.aligned hk

/-- The entries of a page that the tables map to itself are within reach. -/
theorem StaticTables.Maps.reachesEntry {table : Word} (hmap : st.Maps m.ram table table)
    (hpaging : m.paging = true) (hcr3 : m.cr3 = st.directory) {index : ℕ} (hindex : index < 1024) :
    m.ReachesEntry table index := by
  intro j hj
  have hoffset : entry table index + BitVec.ofNat 32 j =
      table + BitVec.ofNat 32 (4 * index + j) := by
    rw [entry, BitVec.add_assoc, ← BitVec.ofNat_add]
  rw [hoffset]
  exact hmap.linear_eq hpaging hcr3 (by omega)

/-- A page that is mapped to itself by the tables of the machine. -/
theorem StaticTables.maps_of_linear {page : Word} (hself : m.linear page = some page)
    (hpaging : m.paging = true) (hcr3 : m.cr3 = st.directory) (hpage : page.toNat % 4096 = 0) :
    st.Maps m.ram page page := by
  have hoffset : page.toNat % 2 ^ 12 = 0 := hpage
  unfold Machine.linear pageWalk at hself
  rw [if_pos hpaging, hcr3, frame_of_aligned st.directory_aligned, hoffset] at hself
  simp only at hself
  split at hself
  · cases hself
  · rename_i hpde
    split at hself
    · cases hself
    · rename_i hpte
      have hframe := Option.some.inj hself
      rw [BitVec.add_zero] at hframe
      exact ⟨hpage, hpde, hpte, hframe⟩

end Entries

section Reach

variable {st : StaticTables} {x : VmState}

/-- The machine keeps the entries of any pages that it maps. -/
theorem VmState.Sound.keeps (hx : x.Sound st) {demands : Word → Word → Prop}
    (hmaps : ∀ {virt page}, demands virt page → st.Maps x.machine.ram virt page) :
    x.machine.Keeps st.directory (st.entriesOf x.machine.ram demands) :=
  ⟨hx.paging, hx.cr3_eq, st.directory_aligned, StaticTables.keeps_entriesOf hmaps⟩

/-- Every entry of the directory is within reach. -/
theorem VmState.Sound.reachesDirectory (hx : x.Sound st) {index : ℕ} (hindex : index < 1024) :
    x.machine.ReachesEntry st.directory index :=
  (hx.mapped .directory).reachesEntry hx.paging hx.cr3_eq hindex

/-- Every entry of a page table in use is within reach. -/
theorem VmState.Sound.reachesTable (hx : x.Sound st) {virt : Word}
    (hpresent : st.pde x.machine.ram virt &&& pagePresent ≠ 0) :
    x.machine.ReachesEntry (st.pageTable x.machine.ram virt) (ptIndex virt) :=
  (hx.mapped (.table virt hpresent)).reachesEntry hx.paging hx.cr3_eq (ptIndex_lt virt)

/-- The machine reads its own tables. -/
theorem VmState.Sound.readsTables (hx : x.Sound st) (virt : Word) :
    ReadsTables Machine.bus st x.machine x.machine.ram virt where
  directory := Machine.loadWord_of_linear (hx.reachesDirectory (pdIndex_lt virt))
  table hpresent := Machine.loadWord_of_linear (hx.reachesTable hpresent)

/-- Where `vmm.c` finds the page table of an address. -/
theorem VmState.Sound.pageTableOf_eq (hx : x.Sound st) (virt : Word) :
    pageTableOf Machine.bus st x.machine virt =
      some (if st.pde x.machine.ram virt &&& pagePresent = 0 then none
        else some (st.pageTable x.machine.ram virt)) :=
  Nimbu.pageTableOf_eq (hx.readsTables virt).directory

/-- An entry of the directory or of a page table in use lies outside the bitmap. -/
theorem PmmState.entry_not_mem_physBytes {s : PmmState} (hsize : s.bitmapSize.toNat ≤ 2 ^ 17)
    {page : Word} (hpage : page.toNat % 4096 = 0) (hout : page ∉ s.physBytes) {c : Word}
    (hlo : page.toNat ≤ c.toNat) (hhi : c.toNat < page.toNat + 4096) : c ∉ s.physBytes := by
  have hphys : bitmapPhys.toNat = 0x200000 := rfl
  simp only [physBytes, Set.mem_ofPred_eq, hphys] at hout ⊢
  omega

/-- Two memories agree outside the bitmap. -/
def PmmState.AgreeOutside (s : PmmState) (v v' : Bytes) : Prop :=
  ∀ c ∉ s.physBytes, v' c = v c

/-- A word of a page outside the bitmap is the same in two memories that agree there. -/
theorem PmmState.AgreeOutside.word_eq {s : PmmState} {v v' : Bytes} (hagree : s.AgreeOutside v v')
    (hsize : s.bitmapSize.toNat ≤ 2 ^ 17) {page : Word} (hpage : page.toNat % 4096 = 0)
    (hout : page ∉ s.physBytes) {i : ℕ} (hi : i < 1024) :
    v'.word (entry page i) = v.word (entry page i) := by
  have hentry := toNat_entry_page hpage hi
  have hlt := page.isLt
  apply Bytes.word_eq_of_inside (by omega)
  intro c hlo hhi
  exact hagree c (s.entry_not_mem_physBytes hsize hpage hout (by omega) (by omega))

section Agree

variable {v' : Bytes}

/-- Changes of the bitmap leave the directory alone. -/
theorem VmState.Sound.pde_eq (hx : x.Sound st) (hagree : x.pmm.AgreeOutside x.machine.ram v')
    (virt : Word) : st.pde v' virt = st.pde x.machine.ram virt :=
  hagree.word_eq hx.size_le st.directory_aligned hx.directory_apart (pdIndex_lt virt)

/-- Changes of the bitmap leave the page tables in use alone. -/
theorem VmState.Sound.pte_eq (hx : x.Sound st) (hagree : x.pmm.AgreeOutside x.machine.ram v')
    {virt : Word} (hpresent : st.pde x.machine.ram virt &&& pagePresent ≠ 0) :
    st.pte v' virt = st.pte x.machine.ram virt := by
  unfold StaticTables.pte StaticTables.pageTable
  rw [hx.pde_eq hagree]
  exact hagree.word_eq hx.size_le (st.pageTable_aligned _ _) (hx.tables_apart hpresent).2
    (ptIndex_lt virt)

/-- Changes of the bitmap leave every mapping alone. -/
theorem VmState.Sound.maps_iff (hx : x.Sound st) (hagree : x.pmm.AgreeOutside x.machine.ram v')
    {virt page : Word} : st.Maps v' virt page ↔ st.Maps x.machine.ram virt page := by
  constructor
  · rintro ⟨haligned, hpde, hpte⟩
    rw [hx.pde_eq hagree] at hpde
    rw [hx.pte_eq hagree hpde] at hpte
    exact ⟨haligned, hpde, hpte⟩
  · rintro ⟨haligned, hpde, hpte⟩
    refine ⟨haligned, ?_, ?_⟩
    · rwa [hx.pde_eq hagree]
    · rwa [hx.pte_eq hagree hpde]

/-- Changes of the bitmap leave the demands alone. -/
theorem VmState.Sound.demands_iff (hx : x.Sound st)
    (hagree : x.pmm.AgreeOutside x.machine.ram v') (count : Word) {virt page : Word} :
    st.Demands { x.pmm with allocatedPages := count } v' virt page ↔
      st.Demands x.pmm x.machine.ram virt page := by
  have htable : ∀ a, st.pageTable v' a = st.pageTable x.machine.ram a :=
    fun a => StaticTables.pageTable_congr (hx.pde_eq hagree a)
  constructor
  · rintro (_ | ⟨a, hpresent⟩ | ⟨_, haligned, hmem⟩)
    · exact .directory
    · rw [hx.pde_eq hagree] at hpresent
      rw [htable]
      exact .table a hpresent
    · exact .bitmap page haligned hmem
  · rintro (_ | ⟨a, hpresent⟩ | ⟨_, haligned, hmem⟩)
    · exact .directory
    · rw [← htable]
      exact .table a (by rwa [hx.pde_eq hagree])
    · exact .bitmap page haligned hmem

/-- A change of the bitmap and of the counter keeps everything within reach. -/
theorem VmState.Sound.of_agree (hx : x.Sound st) {m : Machine} (hpaging : m.paging = true)
    (hcr3 : m.cr3 = st.directory) (hagree : x.pmm.AgreeOutside x.machine.ram m.ram)
    (count : Word) : VmState.Sound st ⟨{ x.pmm with allocatedPages := count }, m⟩ where
  paging := hpaging
  cr3_eq := hcr3
  bitmap_eq := hx.bitmap_eq
  pages_le := hx.pages_le
  size_le := hx.size_le
  mapped hdemand := (hx.maps_iff hagree).mpr (hx.mapped ((hx.demands_iff hagree count).mp hdemand))
  directory_apart := hx.directory_apart
  tables_apart := by
    intro virt hpresent
    rw [hx.pde_eq hagree] at hpresent
    simp only [StaticTables.pageTable, hx.pde_eq hagree]
    exact hx.tables_apart hpresent

end Agree

/-- On the bitmap the machine is plain memory, and no other byte changes. -/
theorem VmState.Sound.lawful (hx : x.Sound st) :
    Machine.bus.Lawful
      (fun m => m.paging = true ∧ m.cr3 = st.directory ∧
        x.pmm.AgreeOutside x.machine.ram m.ram)
      (fun m a => m.ram (a - kernelVirtBase)) x.pmm.bitmapBytes := by
  have hlinear : ∀ m : Machine, m.paging = true → m.cr3 = st.directory →
      x.pmm.AgreeOutside x.machine.ram m.ram → ∀ a ∈ x.pmm.bitmapBytes,
      m.linear a = some (a - kernelVirtBase) ∧ a - kernelVirtBase ∈ x.pmm.physBytes := by
    intro m hpaging hcr3 hagree a ha
    have hoffset : (a - x.pmm.bitmap).toNat < x.pmm.bitmapSize.toNat := ha
    have hsize := hx.size_le
    have hphys : bitmapPhys.toNat = 0x200000 := rfl
    rw [hx.bitmap_eq] at hoffset
    obtain ⟨page, k, hk, haligned, hmem, heq⟩ : ∃ (page : Word) (k : ℕ), k < 4096 ∧
        page.toNat % 4096 = 0 ∧ page ∈ x.pmm.physBytes ∧
        a = kernelVirtBase + page + BitVec.ofNat 32 k := by
      refine ⟨BitVec.ofNat 32 (0x200000 + (a - (kernelVirtBase + 0x200000)).toNat / 4096 * 4096),
        (a - (kernelVirtBase + 0x200000)).toNat % 4096, Nat.mod_lt _ (by decide), ?_, ?_, ?_⟩
      · bv_omega
      · simp only [PmmState.physBytes, Set.mem_ofPred_eq, hphys]
        bv_omega
      · bv_omega
    have hmap := (hx.maps_iff hagree).mpr (hx.mapped (.bitmap page haligned hmem))
    have hsub : a - kernelVirtBase = page + BitVec.ofNat 32 k := by
      rw [heq]
      bv_omega
    refine ⟨?_, ?_⟩
    · rw [hsub, heq]
      exact hmap.linear_eq hpaging hcr3 hk
    · simp only [PmmState.physBytes, Set.mem_ofPred_eq, hphys]
      unfold kernelVirtBase at hoffset ⊢
      bv_omega
  constructor
  · rintro m a ⟨hpaging, hcr3, hagree⟩ ha
    simp only [Machine.bus, (hlinear m hpaging hcr3 hagree a ha).1, Option.map_some]
  · rintro m a b ⟨hpaging, hcr3, hagree⟩ ha
    obtain ⟨htranslate, hmem⟩ := hlinear m hpaging hcr3 hagree a ha
    refine ⟨{ m with ram := m.ram.put (a - kernelVirtBase) b }, ?_, ⟨hpaging, hcr3, ?_⟩, ?_⟩
    · simp only [Machine.bus, htranslate, Option.map_some]
    · intro c hc
      rw [← hagree c hc]
      exact Bytes.put_of_ne _ fun h => hc (h ▸ hmem)
    · funext c
      have hsame : c - kernelVirtBase = a - kernelVirtBase ↔ c = a := by
        constructor <;> intro h <;> bv_omega
      simp only [Bytes.put_apply, hsame]

/-- The directory after a store in one of its entries. -/
theorem StaticTables.pde_putWord (st : StaticTables) (v : Bytes) (virt w a : Word) :
    st.pde (v.putWord (entry st.directory (pdIndex virt)) w) a =
      if pdIndex a = pdIndex virt then w else st.pde v a := by
  unfold StaticTables.pde
  split
  · rename_i heq
    rw [heq]
    exact Bytes.word_putWord_self _ _ _
  · rename_i hother
    exact Bytes.putWord_entry_of_ne _ st.directory_aligned st.directory_aligned (pdIndex_lt a)
      (pdIndex_lt virt) (Or.inr hother)

/-- An entry of a page table that is not the directory leaves the directory alone. -/
theorem StaticTables.pde_putTable (st : StaticTables) {table : Word}
    (haligned : table.toNat % 4096 = 0) (hne : table ≠ st.directory) (v : Bytes) (virt w a : Word) :
    st.pde (v.putWord (entry table (ptIndex virt)) w) a = st.pde v a :=
  Bytes.putWord_entry_of_ne w st.directory_aligned haligned (pdIndex_lt a) (ptIndex_lt virt)
    (Or.inl hne.symm)

/-- The entry of an address after a store in it. -/
theorem StaticTables.pte_putTable (st : StaticTables) {v : Bytes} {virt : Word}
    (hne : st.pageTable v virt ≠ st.directory) (w : Word) :
    st.pte (v.putWord (entry (st.pageTable v virt) (ptIndex virt)) w) virt = w := by
  have hpde := st.pde_putTable (st.pageTable_aligned v virt) hne v virt w virt
  unfold StaticTables.pte
  rw [StaticTables.pageTable_congr hpde]
  exact Bytes.word_putWord_self _ _ _

/-- After a store in its entry the page table of an address is the same, and the word is read
back. -/
theorem VmState.Sound.pte_stored (hx : x.Sound st) {virt : Word}
    (hpresent : st.pde x.machine.ram virt &&& pagePresent ≠ 0) (w : Word) {ram : Bytes}
    (hram : ram =
      x.machine.ram.putWord (entry (st.pageTable x.machine.ram virt) (ptIndex virt)) w) :
    st.pde ram virt &&& pagePresent ≠ 0 ∧ st.pte ram virt = w := by
  have hne := (hx.tables_apart hpresent).1
  rw [hram, st.pde_putTable (st.pageTable_aligned _ _) hne, st.pte_putTable hne]
  exact ⟨hpresent, rfl⟩

/-- A spared word leads on wherever it replaces an entry that the kernel needs. -/
theorem VmState.Sound.leads_of_spared (hx : x.Sound st) {virt w : Word}
    (hpresent : st.pde x.machine.ram virt &&& pagePresent ≠ 0)
    (hspared : st.Spared x.machine.ram (st.Demands x.pmm x.machine.ram)
      (st.pageTable x.machine.ram virt) (ptIndex virt) w) :
    ∀ p, (entry (st.pageTable x.machine.ram virt) (ptIndex virt), p) ∈
      st.entriesOf x.machine.ram (st.Demands x.pmm x.machine.ram) → Leads w p := by
  rintro p ⟨a, page, hdemand, heq | heq⟩
  · have hentry := (Prod.mk.inj heq).1
    rw [entry_page_inj (st.pageTable_aligned _ _) st.directory_aligned (ptIndex_lt virt)
      (pdIndex_lt a)] at hentry
    exact absurd hentry.1 (hx.tables_apart hpresent).1
  · obtain ⟨hentry, rfl⟩ := Prod.mk.inj heq
    exact hspared a p hdemand hentry.symm

/-- A word stored in an entry of a page table in use that leaves the demanded pages
where they are. -/
theorem VmState.Sound.storeTable (hx : x.Sound st) {virt w : Word}
    (hpresent : st.pde x.machine.ram virt &&& pagePresent ≠ 0)
    (hspared : st.Spared x.machine.ram (st.Demands x.pmm x.machine.ram)
      (st.pageTable x.machine.ram virt) (ptIndex virt) w) :
    ∃ m', Machine.bus.storeWord x.machine
        (entry (st.pageTable x.machine.ram virt) (ptIndex virt)) w = some m' ∧
      m'.ram = x.machine.ram.putWord (entry (st.pageTable x.machine.ram virt) (ptIndex virt)) w ∧
      VmState.Sound st ⟨x.pmm, m'⟩ := by
  have haligned := st.pageTable_aligned x.machine.ram virt
  have hne := (hx.tables_apart hpresent).1
  obtain ⟨m', hstore, hm', hram⟩ := (hx.keeps hx.mapped).storeWord
    (fun n hn => ⟨_, _, .table virt hpresent, hn⟩) haligned (ptIndex_lt virt)
    (hx.leads_of_spared hpresent hspared)
  have hpde : ∀ a, st.pde m'.ram a = st.pde x.machine.ram a := by
    intro a
    rw [hram]
    exact st.pde_putTable haligned hne _ _ _ _
  have htable : ∀ a, st.pageTable m'.ram a = st.pageTable x.machine.ram a :=
    fun a => StaticTables.pageTable_congr (hpde a)
  refine ⟨m', hstore, hram, hm'.paging, hm'.cr3_eq, hx.bitmap_eq, hx.pages_le, hx.size_le, ?_,
    hx.directory_apart, ?_⟩
  · intro a page hdemand
    have hold : st.Demands x.pmm x.machine.ram a page := by
      rcases hdemand with _ | ⟨b, hpresent'⟩ | ⟨_, hpage, hmem⟩
      · exact .directory
      · rw [htable]
        exact .table b (by rwa [← hpde])
      · exact .bitmap page hpage hmem
    exact (hm'.maps hold (hx.mapped hold).aligned).2
  · intro a hpresent'
    rw [htable]
    exact hx.tables_apart (by rwa [← hpde])

/-- No entry that the kernel needs is replaced by a store in an absent directory entry. -/
theorem VmState.Sound.leads_of_absent (hx : x.Sound st) {virt w : Word}
    (habsent : st.pde x.machine.ram virt &&& pagePresent = 0) {demands : Word → Word → Prop}
    (hmaps : ∀ {a page}, demands a page → st.Maps x.machine.ram a page) :
    ∀ p, (entry st.directory (pdIndex virt), p) ∈ st.entriesOf x.machine.ram demands →
      Leads w p := by
  rintro p ⟨a, page, hdemand, heq | heq⟩
  · have hentry := (Prod.mk.inj heq).1
    rw [entry_page_inj st.directory_aligned st.directory_aligned (pdIndex_lt virt)
      (pdIndex_lt a)] at hentry
    rw [StaticTables.pde, hentry.2] at habsent
    exact absurd habsent (hmaps hdemand).directory
  · have hentry := (Prod.mk.inj heq).1
    rw [entry_page_inj st.directory_aligned (st.pageTable_aligned _ _) (pdIndex_lt virt)
      (ptIndex_lt a)] at hentry
    exact absurd hentry.1.symm (hx.tables_apart (hmaps hdemand).directory).1

/-- A word stored in an absent directory entry, as long as the directory itself is among
the pages that stay mapped. -/
theorem VmState.Sound.storeAbsent (hx : x.Sound st) {virt : Word} (w : Word)
    (habsent : st.pde x.machine.ram virt &&& pagePresent = 0) {demands : Word → Word → Prop}
    (hmaps : ∀ {a page}, demands a page → st.Maps x.machine.ram a page)
    (hself : demands st.directory st.directory) :
    ∃ m', Machine.bus.storeWord x.machine (entry st.directory (pdIndex virt)) w = some m' ∧
      m'.Keeps st.directory (st.entriesOf x.machine.ram demands) ∧
      m'.ram = x.machine.ram.putWord (entry st.directory (pdIndex virt)) w :=
  (hx.keeps hmaps).storeWord (fun _ hn => ⟨_, _, hself, hn⟩) st.directory_aligned
    (pdIndex_lt virt) (hx.leads_of_absent habsent hmaps)

/-- The directory entry of a new page table, in a page fit for it. -/
theorem VmState.Sound.storeDirectory (hx : x.Sound st) {virt table : Word}
    (habsent : st.pde x.machine.ram virt &&& pagePresent = 0)
    (hself : st.Maps x.machine.ram table table) (hne : table ≠ st.directory)
    (hout : table ∉ x.pmm.physBytes) :
    ∃ m', Machine.bus.storeWord x.machine (entry st.directory (pdIndex virt))
        (table ||| presentWrite) = some m' ∧
      m'.ram = x.machine.ram.putWord (entry st.directory (pdIndex virt)) (table ||| presentWrite) ∧
      VmState.Sound st ⟨x.pmm, m'⟩ ∧
      ∀ a page, st.Demands x.pmm m'.ram a page →
        withTable (st.Demands x.pmm x.machine.ram) table a page ∧
          st.pageTable m'.ram a = st.pageTable x.machine.ram a := by
  have hmaps : ∀ {a page}, withTable (st.Demands x.pmm x.machine.ram) table a page →
      st.Maps x.machine.ram a page := by
    rintro a page (hdemand | ⟨rfl, rfl⟩)
    · exact hx.mapped hdemand
    · exact hself
  obtain ⟨m', hstore, hm', hram⟩ :=
    hx.storeAbsent (table ||| presentWrite) habsent hmaps (Or.inl .directory)
  have hpde : ∀ a, st.pde m'.ram a =
      if pdIndex a = pdIndex virt then table ||| presentWrite else st.pde x.machine.ram a := by
    intro a
    rw [hram]
    exact st.pde_putWord _ _ _ _
  have htable : ∀ a, st.pde m'.ram a &&& pagePresent ≠ 0 → st.pageTable m'.ram a = table ∨
      st.pde x.machine.ram a &&& pagePresent ≠ 0 ∧
        st.pageTable m'.ram a = st.pageTable x.machine.ram a := by
    intro a hpresent
    unfold StaticTables.pageTable
    rw [hpde] at hpresent ⊢
    split at hpresent
    · rename_i heq
      rw [if_pos heq]
      exact Or.inl (frame_of_entry hself.aligned)
    · rename_i hother
      rw [if_neg hother]
      exact Or.inr ⟨hpresent, rfl⟩
  have hdemands : ∀ a page, st.Demands x.pmm m'.ram a page →
      withTable (st.Demands x.pmm x.machine.ram) table a page := by
    rintro a page (_ | ⟨b, hpresent⟩ | ⟨_, hpage, hmem⟩)
    · exact Or.inl .directory
    · rcases htable b hpresent with heq | ⟨hold, heq⟩
      · exact Or.inr ⟨heq, heq⟩
      · rw [heq]
        exact Or.inl (.table b hold)
    · exact Or.inl (.bitmap page hpage hmem)
  refine ⟨m', hstore, hram, ⟨hm'.paging, hm'.cr3_eq, hx.bitmap_eq, hx.pages_le, hx.size_le, ?_,
    hx.directory_apart, ?_⟩, fun a page hdemand => ?_⟩
  · intro a page hdemand
    exact (hm'.maps (hdemands a page hdemand) (hmaps (hdemands a page hdemand)).aligned).2
  · intro a hpresent
    rcases htable a hpresent with heq | ⟨hold, heq⟩
    · rw [heq]
      exact ⟨hne, hout⟩
    · rw [heq]
      exact hx.tables_apart hold
  · have hdemand' := hdemands a page hdemand
    exact ⟨hdemand', (hm'.maps hdemand' (hmaps hdemand').aligned).1⟩

/-- What a call can do to memory: change the bitmap, replace one entry of a page table in
use, or create a page table with one entry. -/
inductive VmState.Effect (st : StaticTables) (x : VmState) : VmCall → Bytes → Prop
  /-- Nothing but the bitmap has changed. -/
  | bitmap {call : VmCall} {v : Bytes} : x.pmm.AgreeOutside x.machine.ram v → Effect st x call v
  /-- `vmm_map` has replaced an entry. -/
  | map {virt phys flags : Word} : st.pde x.machine.ram virt &&& pagePresent ≠ 0 →
      Effect st x (.map virt phys flags)
        (x.machine.ram.putWord (entry (st.pageTable x.machine.ram virt) (ptIndex virt))
          (phys ||| flags))
  /-- `vmm_unmap` has cleared an entry. -/
  | unmap {virt : Word} : st.pde x.machine.ram virt &&& pagePresent ≠ 0 →
      Effect st x (.unmap virt)
        (x.machine.ram.putWord (entry (st.pageTable x.machine.ram virt) (ptIndex virt)) 0)
  /-- `vmm_map` has created a page table in the next free page. -/
  | create {virt phys flags i : Word} {v : Bytes} :
      st.pde x.machine.ram virt &&& pagePresent = 0 →
      findFreePage Machine.bus x.pmm x.machine = some i → i ≠ 0xFFFFFFFF → i * pageSize ≠ 0 →
      x.FitForTable st (i * pageSize) → x.pmm.AgreeOutside x.machine.ram v →
      Effect st x (.map virt phys flags)
        ((v.putWord (entry st.directory (pdIndex virt)) (i * pageSize ||| presentWrite)).putWord
          (entry (i * pageSize) (ptIndex virt)) (phys ||| flags))

/-- `pmm_alloc` returns and changes only the bitmap. -/
theorem VmState.Sound.alloc (hx : x.Sound st) :
    ∃ a s m, pmmAlloc Machine.bus x.pmm x.machine = some (a, s, m) ∧
      VmState.Sound st ⟨s, m⟩ ∧ x.pmm.AgreeOutside x.machine.ram m.ram ∧
      ∃ count, s = { x.pmm with allocatedPages := count } := by
  obtain ⟨a, count, m, halloc, hpaging, hcr3, hagree⟩ := pmmAlloc_returns hx.lawful
    (show _ ∧ _ ∧ _ from ⟨hx.paging, hx.cr3_eq, fun c _ => rfl⟩)
    (fun _ => PmmState.page_mem_bitmapBytes hx.pages_le)
  exact ⟨a, _, m, halloc, hx.of_agree hpaging hcr3 hagree count, hagree, count, rfl⟩

/-- `pmm_free` returns and changes only the bitmap. -/
theorem VmState.Sound.free (hx : x.Sound st) (addr : Word) :
    ∃ ret s m, pmmFree Machine.bus x.pmm x.machine addr = some (ret, s, m) ∧
      VmState.Sound st ⟨s, m⟩ ∧ x.pmm.AgreeOutside x.machine.ram m.ram := by
  obtain ⟨ret, count, m, hfree, hpaging, hcr3, hagree⟩ := pmmFree_returns hx.lawful
    (show _ ∧ _ ∧ _ from ⟨hx.paging, hx.cr3_eq, fun c _ => rfl⟩)
    (fun _ => PmmState.page_mem_bitmapBytes hx.pages_le) addr
  exact ⟨ret, _, m, hfree, hx.of_agree hpaging hcr3 hagree count, hagree⟩

/-- The part of `vmm_map` that finds or creates the page table: it stays as it is, there is
none, or it is in the next free page. -/
theorem VmState.Sound.mapTable (hx : x.Sound st) {virt : Word}
    (habsent : st.pde x.machine.ram virt &&& pagePresent = 0)
    (hfit : ∀ i, findFreePage Machine.bus x.pmm x.machine = some i → i ≠ 0xFFFFFFFF →
      i * pageSize ≠ 0 → x.FitForTable st (i * pageSize)) :
    (∃ s m, vmmMapTable Machine.bus st x.pmm x.machine virt = some (none, s, m) ∧
      VmState.Sound st ⟨s, m⟩ ∧ x.pmm.AgreeOutside x.machine.ram m.ram) ∨
    ∃ i v s m, findFreePage Machine.bus x.pmm x.machine = some i ∧ i ≠ 0xFFFFFFFF ∧
      i * pageSize ≠ 0 ∧ x.pmm.AgreeOutside x.machine.ram v ∧
      vmmMapTable Machine.bus st x.pmm x.machine virt = some (some (i * pageSize), s, m) ∧
      m.ram = v.putWord (entry st.directory (pdIndex virt)) (i * pageSize ||| presentWrite) ∧
      VmState.Sound st ⟨s, m⟩ ∧
      ∀ a page, st.Demands s m.ram a page →
        withTable (st.Demands x.pmm x.machine.ram) (i * pageSize) a page ∧
          st.pageTable m.ram a = st.pageTable x.machine.ram a := by
  have htable := hx.pageTableOf_eq virt
  rw [if_pos habsent] at htable
  obtain ⟨a, s, m, halloc, hsound, hagree, count, rfl⟩ := hx.alloc
  by_cases hzero : a = 0
  · left
    refine ⟨_, m, ?_, hsound, hagree⟩
    simp only [vmmMapTable, htable, halloc, if_pos hzero, Option.bind_eq_bind, Option.bind_some,
      Option.pure_def]
  · right
    rcases pmmAlloc_cases halloc with ⟨-, rfl, -⟩ | ⟨i, hfind, hsome, rfl, -⟩
    · exact absurd rfl hzero
    · have hfits := hfit i hfind hsome hzero
      have haligned := toNat_mul_pageSize i
      have hself := (hx.maps_iff hagree).mpr
        (StaticTables.maps_of_linear hfits.self hx.paging hx.cr3_eq haligned)
      have habsent' : st.pde m.ram virt &&& pagePresent = 0 := by
        rw [hx.pde_eq hagree]
        exact habsent
      obtain ⟨m', hstore, hram, hsound', hdemands⟩ :=
        hsound.storeDirectory habsent' hself hfits.ne_directory hfits.not_bitmap
      refine ⟨i, m.ram, _, m', hfind, hsome, hzero, hagree, ?_, hram, hsound', ?_⟩
      · simp only [vmmMapTable, htable, halloc, if_neg hzero, hstore, Option.bind_eq_bind,
          Option.bind_some, Option.pure_def]
      · intro b page hdemand
        obtain ⟨hdemand', hsame⟩ := hdemands b page hdemand
        exact ⟨hdemand'.imp (hx.demands_iff hagree count).mp id,
          hsame.trans (StaticTables.pageTable_congr (hx.pde_eq hagree b))⟩

/-- A new page table is the one in the directory. -/
theorem StaticTables.pageTable_new {st : StaticTables} {v ram : Bytes} {virt i : Word}
    (hram : ram = v.putWord (entry st.directory (pdIndex virt)) (i * pageSize ||| presentWrite)) :
    st.pde ram virt &&& pagePresent ≠ 0 ∧ st.pageTable ram virt = i * pageSize := by
  have hpde : st.pde ram virt = i * pageSize ||| presentWrite := by
    rw [hram]
    exact Bytes.word_putWord_self _ _ _
  rw [StaticTables.pageTable, hpde]
  exact ⟨entry_present _, frame_of_entry (toNat_mul_pageSize i)⟩

/-- `vmm_map` on aligned addresses. When it returns 0, the entry of the address is in its
page table. -/
theorem VmState.Sound.map (hx : x.Sound st) {virt phys flags : Word}
    (hvirt : virt % pageSize = 0) (hphys : phys % pageSize = 0)
    (hspares : x.Spares st (.map virt phys flags)) :
    x.ReachesTables st (.map virt phys flags) ∧
      ∃ ret s m, vmmMap Machine.bus st x.pmm x.machine virt phys flags = some (ret, s, m) ∧
        VmState.Sound st ⟨s, m⟩ ∧ VmState.Effect st x (.map virt phys flags) m.ram ∧
        (ret = 0 → st.pde m.ram virt &&& pagePresent ≠ 0 ∧ st.pte m.ram virt = phys ||| flags) := by
  obtain ⟨hold, hnew⟩ := hspares hvirt hphys
  by_cases hpresent : st.pde x.machine.ram virt &&& pagePresent = 0
  · have hfit := fun i hfind hsome hzero => (hnew hpresent i hfind hsome hzero).1
    rcases hx.mapTable hpresent hfit with
      ⟨s, m, htable, hsound, hagree⟩ |
      ⟨i, v, s, m, hfind, hsome, hzero, hagree, htable, hram, hsound, hdemands⟩
    · refine ⟨fun _ _ => ⟨none, s, m, htable, fun t ht => by cases ht⟩, -1, s, m, ?_, hsound,
        .bitmap hagree, fun hret => absurd hret (by decide)⟩
      simp only [vmmMap_of_aligned hvirt hphys, htable, Option.bind_eq_bind, Option.bind_some,
        Option.pure_def]
    · obtain ⟨hfits, hspared⟩ := hnew hpresent i hfind hsome hzero
      obtain ⟨hpresent', htable'⟩ := StaticTables.pageTable_new hram
      obtain ⟨m', hstore, hram', hsound'⟩ := hsound.storeTable hpresent' (w := phys ||| flags) (by
        intro a page hdemand hentry
        obtain ⟨hdemand', hsame⟩ := hdemands a page hdemand
        simp only [hsame, htable'] at hentry
        exact hspared a page hdemand' hentry)
      have hreach := hsound.reachesTable hpresent'
      have hwritten := hsound.pte_stored hpresent' _ hram'
      simp only [htable'] at hstore hram' hreach
      refine ⟨fun _ _ => ⟨_, s, m, htable, fun t ht => ?_⟩, 0, s, m', ?_, hsound', ?_,
        fun _ => hwritten⟩
      · obtain rfl := Option.some.inj ht
        exact hreach
      · simp only [vmmMap_of_aligned hvirt hphys, htable, hstore, Option.bind_eq_bind,
          Option.bind_some, Option.pure_def]
      · rw [hram', hram]
        exact .create hpresent hfind hsome hzero hfits hagree
  · have htable := hx.pageTableOf_eq virt
    rw [if_neg hpresent] at htable
    have hmapTable : vmmMapTable Machine.bus st x.pmm x.machine virt =
        some (some (st.pageTable x.machine.ram virt), x.pmm, x.machine) := by
      simp only [vmmMapTable, htable, Option.bind_eq_bind, Option.bind_some, Option.pure_def]
    obtain ⟨m', hstore, hram, hsound⟩ := hx.storeTable hpresent (hold hpresent)
    refine ⟨fun _ _ => ⟨_, _, _, hmapTable, fun t ht => ?_⟩, 0, x.pmm, m', ?_, hsound, ?_,
      fun _ => hx.pte_stored hpresent _ hram⟩
    · obtain rfl := Option.some.inj ht
      exact hx.reachesTable hpresent
    · rw [vmmMap_of_present hvirt hphys (hx.readsTables virt).directory hpresent, hstore]
      rfl
    · rw [hram]
      exact .map hpresent

/-- `vmm_unmap`. -/
theorem VmState.Sound.unmap (hx : x.Sound st) {virt : Word} (hspares : x.Spares st (.unmap virt)) :
    ∃ ret m, vmmUnmap Machine.bus st x.machine virt = some (ret, m) ∧
      VmState.Sound st ⟨x.pmm, m⟩ ∧ VmState.Effect st x (.unmap virt) m.ram := by
  have hread := hx.readsTables virt
  by_cases hmapped : st.pde x.machine.ram virt &&& pagePresent = 0 ∨
      st.pte x.machine.ram virt &&& pagePresent = 0
  · exact ⟨-1, x.machine, vmmUnmap_of_unmapped hread hmapped, hx, .bitmap fun _ _ => rfl⟩
  · rw [not_or] at hmapped
    obtain ⟨m', hstore, hram, hsound⟩ := hx.storeTable hmapped.1 (hspares hmapped.1)
    refine ⟨0, m', ?_, hsound, ?_⟩
    · rw [vmmUnmap_of_mapped hread hmapped.1 hmapped.2, hstore]
      rfl
    · rw [hram]
      exact .unmap hmapped.1

/-- Every call finds the page table it uses within reach. -/
theorem VmState.Sound.reaches_pageTableOf (hx : x.Sound st) (virt : Word) :
    ∃ table, pageTableOf Machine.bus st x.machine virt = some table ∧
      ∀ t, table = some t → x.machine.ReachesEntry t (ptIndex virt) := by
  refine ⟨_, hx.pageTableOf_eq virt, fun t ht => ?_⟩
  split at ht
  · cases ht
  · rename_i hpresent
    obtain rfl := Option.some.inj ht
    exact hx.reachesTable hpresent

/-- A call that keeps the kernel's own data within reach finds them there, returns and
has one of the effects above. -/
theorem VmState.Sound.step (hx : x.Sound st) {call : VmCall} (hspares : x.Spares st call) :
    x.ReachesTables st call ∧ ∃ reply x', vmStep st x call = some (reply, x') ∧
      x'.Sound st ∧ VmState.Effect st x call x'.machine.ram := by
  cases call with
  | alloc =>
    obtain ⟨a, s, m, halloc, hsound, hagree, -⟩ := hx.alloc
    refine ⟨trivial, .address a, ⟨s, m⟩, ?_, hsound, .bitmap hagree⟩
    simp only [vmStep, halloc, Option.bind_eq_bind, Option.bind_some, Option.pure_def]
  | free addr =>
    obtain ⟨ret, s, m, hfree, hsound, hagree⟩ := hx.free addr
    refine ⟨trivial, .status ret, ⟨s, m⟩, ?_, hsound, .bitmap hagree⟩
    simp only [vmStep, hfree, Option.bind_eq_bind, Option.bind_some, Option.pure_def]
  | map virt phys flags =>
    by_cases haligned : virt % pageSize = 0 ∧ phys % pageSize = 0
    · obtain ⟨hreach, ret, s, m, hmap, hsound, heffect, -⟩ := hx.map haligned.1 haligned.2 hspares
      refine ⟨hreach, .status ret, ⟨s, m⟩, ?_, hsound, heffect⟩
      simp only [vmStep, hmap, Option.bind_eq_bind, Option.bind_some, Option.pure_def]
    · have hrefused : virt % pageSize ≠ 0 ∨ phys % pageSize ≠ 0 := by
        by_contra h
        rw [not_or, not_not, not_not] at h
        exact haligned h
      refine ⟨fun hvirt hphys => absurd ⟨hvirt, hphys⟩ haligned, .status (-1), x, ?_, hx,
        .bitmap fun _ _ => rfl⟩
      simp only [vmStep, vmmMap, if_pos hrefused, Option.bind_eq_bind, Option.bind_some,
        Option.pure_def]
  | unmap virt =>
    obtain ⟨ret, m, hunmap, hsound, heffect⟩ := hx.unmap hspares
    refine ⟨hx.reaches_pageTableOf virt, .status ret, ⟨x.pmm, m⟩, ?_, hsound, heffect⟩
    simp only [vmStep, hunmap, Option.bind_eq_bind, Option.bind_some, Option.pure_def]
  | getPhys virt =>
    refine ⟨hx.reaches_pageTableOf virt, .address (st.physOf x.machine.ram virt), x, ?_, hx,
      .bitmap fun _ _ => rfl⟩
    simp only [vmStep, vmmGetPhys_eq (hx.readsTables virt), Option.bind_eq_bind, Option.bind_some,
      Option.pure_def]

end Reach

end Nimbu
