import Nimbu.Kernel.Hosted

/-!
# The kernel behind its page tables

The heap, the bitmap and the processes were looked at in one flat memory. Behind
`vmm_init` the same code runs through the page tables, and these lie in the memory that
it writes to. As long as it writes to none of their bytes, nobody can tell: every call
returns what it returns in flat memory. The code and the records of the kernel lie outside
the memory of both kernels, though blocks of the heap share their addresses with the
image.
-/

namespace Nimbu

section Machine

variable {st : StaticTables} {ram v v' : Bytes} {limit : ℕ} {S : Set Word}

/-- The entries are those of any memory with the same bytes in the two arrays. -/
theorem StaticTables.Filled.congr (hfilled : st.Filled v) (hsame : ∀ c ∈ st.bytes, v' c = v c) :
    st.Filled v' := by
  have hlow := st.directory_low
  have hlow' := st.tables_low
  have hdirectory : ∀ i < 1024, v'.word (entry st.directory i) = v.word (entry st.directory i) := by
    intro i hi
    have hentry := st.toNat_directory_entry hi
    exact Bytes.word_eq_of_inside (by omega) fun c hlo hhi => hsame c (Or.inl (by omega))
  have htables : ∀ i < 4096, v'.word (entry st.tables i) = v.word (entry st.tables i) := by
    intro i hi
    have hentry := st.toNat_tables_entry hi
    exact Bytes.word_eq_of_inside (by omega) fun c hlo hhi => hsame c (Or.inr (by omega))
  constructor
  · exact fun i hi => (hdirectory i (by omega)).trans (hfilled.low i hi)
  · exact fun i hi => (hdirectory (768 + i) (by omega)).trans (hfilled.high i hi)
  · exact fun i hi h4 hi' => (hdirectory i hi).trans (hfilled.empty i hi h4 hi')
  · exact fun i hi => (htables i hi).trans (hfilled.pages i hi)

/-- The machine behind the boot mapping that shows a flat memory at the kernel's addresses;
behind the first 16 MB its memory is `ram`. -/
def StaticTables.machineOf (st : StaticTables) (ram : Bytes) (m : Mem) : Machine where
  ram p := if p.toNat < 0x1000000 then m.bytes (kernelVirtBase + p) else ram p
  cr3 := st.directory
  paging := true

/-- The addresses of the kernel half that are mapped and do not lead to the page tables. -/
def StaticTables.spared (st : StaticTables) : Set Word :=
  {a | 0xC0000000 ≤ a.toNat ∧ a.toNat < 0xC1000000 ∧ a - kernelVirtBase ∉ st.bytes}

/-- The machine shows the flat memory: its tables are filled, and it has the same bytes behind
the first 16 MB. -/
structure StaticTables.Backs (st : StaticTables) (ram : Bytes) (m : Mem) : Prop where
  /-- The tables hold the boot mapping. -/
  filled : st.Filled (st.machineOf ram m).ram
  /-- The bytes that are not mapped are the same. -/
  above : ∀ a : Word, 0x1000000 ≤ (a - kernelVirtBase).toNat →
    m.bytes a = ram (a - kernelVirtBase)

/-- The physical address behind an address of the kernel half. -/
theorem bootMap_kernelHalf {a : Word} (hlo : 0xC0000000 ≤ a.toNat) (hhi : a.toNat < 0xC1000000) :
    bootMap a = some (a - kernelVirtBase) ∧ (a - kernelVirtBase).toNat < 0x1000000 ∧
      kernelVirtBase + (a - kernelVirtBase) = a := by
  have hbase : kernelVirtBase.toNat = 0xC0000000 := rfl
  refine ⟨?_, by bv_omega, by bv_omega⟩
  unfold bootMap
  rw [if_neg (by omega), if_pos (by omega)]

namespace StaticTables

variable {m m' : Mem} {a : Word}

/-- With the tables filled the machine is behind the boot mapping. -/
theorem machineOf_linear (hm : st.Filled (st.machineOf ram m).ram) (a : Word) :
    (st.machineOf ram m).linear a = bootMap a :=
  hm.pageWalk_eq a

/-- The machine reads at an address of the kernel half what the flat memory holds. -/
theorem machineOf_load (hm : st.Filled (st.machineOf ram m).ram) (hlo : 0xC0000000 ≤ a.toNat)
    (hhi : a.toNat < 0xC1000000) :
    Machine.bus.load (st.machineOf ram m) a = some (m.bytes a) := by
  obtain ⟨hmap, hlow, hback⟩ := bootMap_kernelHalf hlo hhi
  have hbyte : (st.machineOf ram m).ram (a - kernelVirtBase) = m.bytes a := by
    simp only [machineOf, if_pos hlow, hback]
  simp only [Machine.bus, machineOf_linear hm, hmap, Option.map_some, hbyte]

/-- It stores there what the flat memory stores. -/
theorem machineOf_store (hm : st.Filled (st.machineOf ram m).ram) (hlo : 0xC0000000 ≤ a.toNat)
    (hhi : a.toNat < 0xC1000000) (b : Byte) :
    Machine.bus.store (st.machineOf ram m) a b = some (st.machineOf ram (m.put a b)) := by
  obtain ⟨hmap, hlow, hback⟩ := bootMap_kernelHalf hlo hhi
  have hram : (st.machineOf ram m).ram.put (a - kernelVirtBase) b =
      (st.machineOf ram (m.put a b)).ram := by
    funext p
    simp only [Bytes.put_apply, machineOf, Mem.bytes_put]
    by_cases hp : p = a - kernelVirtBase
    · rw [if_pos hp, hp, if_pos hlow, if_pos hback]
    · have hne : kernelVirtBase + p ≠ a := by bv_omega
      rw [if_neg hp, if_neg hne]
  rw [Machine.bus]
  simp only [machineOf_linear hm, hmap, Option.map_some, hram]
  rfl

/-- Behind the kernel half it reads alike where the flat memories agree. -/
theorem Backs.load_congr (hm : st.Backs ram m) (hm' : st.Backs ram m') (ha : 0xC0000000 ≤ a.toNat)
    (hsame : m'.bytes a = m.bytes a) :
    Machine.bus.load (st.machineOf ram m') a = Machine.bus.load (st.machineOf ram m) a := by
  by_cases hhi : a.toNat < 0xC1000000
  · rw [machineOf_load hm.filled ha hhi, machineOf_load hm'.filled ha hhi, hsame]
  · have hnone : bootMap a = none := by
      unfold bootMap
      rw [if_neg (by omega), if_neg (by omega)]
    simp only [Machine.bus, machineOf_linear hm.filled, machineOf_linear hm'.filled, hnone,
      Option.map_none]

/-- It goes on showing a flat memory that changes outside of the tables. -/
theorem Backs.kept (hm : st.Backs ram m) (hkept : ∀ c ∉ st.spared, m'.bytes c = m.bytes c) :
    st.Backs ram m' := by
  constructor
  · refine hm.filled.congr fun c hc => ?_
    have hoff : kernelVirtBase + c - kernelVirtBase = c := by bv_omega
    have houtside : kernelVirtBase + c ∉ st.spared := by
      rintro ⟨-, -, hspared⟩
      rw [hoff] at hspared
      exact hspared hc
    simp only [machineOf, hkept _ houtside]
  · intro a ha
    have hbase : kernelVirtBase.toNat = 0xC0000000 := rfl
    have houtside : a ∉ st.spared := by
      rintro ⟨hlo, hhi, -⟩
      bv_omega
    rw [hkept _ houtside]
    exact hm.above a ha

/-- The machine hosts the kernel at all bytes that are not those of the tables. -/
theorem machineOf_hosts : Hosts Machine.bus (st.machineOf ram) (st.Backs ram) st.spared where
  embeds := by
    constructor
    · rintro m a hm ⟨hlo, hhi, -⟩
      exact machineOf_load hm.filled hlo hhi
    · rintro m a b hm ⟨hlo, hhi, -⟩
      exact machineOf_store hm.filled hlo hhi b
  kept := Backs.kept

end StaticTables

end Machine

/-- The parts of `kmain` that set up the memory, the heap and the processes, behind the page
tables. -/
def kmainPaged (st : StaticTables) (m : Machine) : Option (Kernel Machine) := do
  let (pmm, m) ← kmainMemory st m
  return Kernel.init pmm (heapInit kmainHeapStart kmainHeapSize) m

/-- The flat memory that is seen at the kernel's addresses. -/
def Machine.kernelView (m : Machine) : Mem := ⟨fun a => m.ram (a - kernelVirtBase), []⟩

/-- The kernel as it is seen from the kernel half. -/
def Kernel.view (k : Kernel Machine) : Kernel Mem := k.map Machine.kernelView

/-- What is seen from the kernel half of the machine is the flat memory. -/
theorem StaticTables.Backs.view {st : StaticTables} {ram : Bytes} {m : Mem}
    (hm : st.Backs ram m) : (st.machineOf ram m).kernelView = ⟨m.bytes, []⟩ := by
  simp only [Machine.kernelView, machineOf, Mem.mk.injEq, and_true]
  funext a
  split
  · rw [show kernelVirtBase + (a - kernelVirtBase) = a by bv_omega]
  · rename_i habove
    exact (hm.above a (not_lt.mp habove)).symm

/-- What is seen of the kernel is the flat kernel, but for the list of writes. -/
theorem StaticTables.Backs.kernel_view {st : StaticTables} {ram : Bytes} {k : Kernel Mem}
    (hm : st.Backs ram k.mem) :
    (k.map (st.machineOf ram)).view = { k with mem := ⟨k.mem.bytes, []⟩ } := by
  rw [Kernel.view, Kernel.map, Kernel.map, hm.view]

/-- At boot the physical page of the bitmap holds zeros, and it is not a page of the static page
tables. -/
def StaticTables.BitmapClear (st : StaticTables) (ram : Bytes) : Prop :=
  bitmapPhys ∉ st.bytes ∧ ∀ k < 4096, ram (bitmapPhys + BitVec.ofNat 32 k) = 0

/-- Then no byte of the bitmap leads to the page tables. -/
theorem StaticTables.BitmapClear.spared {st : StaticTables} {ram : Bytes}
    (hclear : st.BitmapClear ram) {a : Word} (hlo : bitmapStart ≤ a.toNat)
    (hhi : a.toNat < bitmapStart + 4096) : a ∈ st.spared := by
  unfold bitmapStart at hlo hhi
  refine ⟨by omega, by omega, ?_⟩
  have hpage : a - kernelVirtBase = bitmapPhys + BitVec.ofNat 32 (a.toNat - 0xC0200000) := by
    unfold kernelVirtBase bitmapPhys
    bv_omega
  rw [hpage, st.page_mem_bytes (by decide) (by omega)]
  exact hclear.1

/-- An empty heap and the bitmap do not lead to the page tables. -/
theorem Kernel.Sound.soundIn_empty {st : StaticTables} {ram : Bytes} {k : Kernel Mem} {F : Frames}
    (hk : k.Sound F []) (hclear : st.BitmapClear ram) : k.SoundIn st.spared F [] := by
  refine ⟨hk, ?_, fun a ha => ?_⟩
  · rintro a ⟨o, b, j, hb, -⟩
    cases hb
  · obtain ⟨hlo, hhi⟩ := hk.mem_bitmapBytes_iff.mp ha
    exact hclear.spared hlo hhi

/-- The record that `pmm_init` leaves. -/
theorem pmmInit_state {bus : Bus M} {m m' : M} {totalMemory : Word} {s : PmmState}
    (hinit : pmmInit bus m totalMemory = some (s, m')) :
    s = ⟨kernelVirtBase + 0x200000, totalMemory / pageSize, 0,
      (totalMemory / pageSize + 7) / 8⟩ := by
  obtain ⟨m₁, -, hresult⟩ := Option.bind_eq_some_iff.mp hinit
  exact (Prod.mk.inj (Option.some.inj hresult)).1.symm

/-- After boot the machine shows the kernel that `kmain` sets up in flat memory. -/
theorem kmainPaged_shown (st : StaticTables) (ram : Bytes) (cr3 : Word)
    (hclear : st.BitmapClear ram) :
    ∃ k₀ x₀, kmainPaged st ⟨ram, cr3, false⟩ = some k₀ ∧
      kmainWorkload k₀.mem.kernelView = some x₀ ∧ x₀.Settled (Frames.empty 32768) [] ∧
      st.Backs k₀.mem.ram x₀.system.client.mem ∧
      k₀ = x₀.system.kernel.map (st.machineOf k₀.mem.ram) := by
  obtain ⟨s, m, v, hboot, hbitmap, -, -, hkept, hram, -, hpaging, hcr3⟩ :=
    memoryInit_eq st ram cr3 kmainTotalMemory
  obtain ⟨s', mem, hflat, -, hbitmap', hrep', hzeros, hsame⟩ :=
    pmmInit_eq Mem.lawful kmainTotalMemory (Set.subset_univ _) (m := m.kernelView) trivial
  have hstate : s' = s := by
    have hcalls := hboot
    simp only [memoryInit, Option.bind_eq_bind, Option.bind_eq_some_iff, Option.pure_def,
      Option.some.injEq, Prod.exists, Prod.mk.injEq] at hcalls
    obtain ⟨s₁, m₁, hpmm, m₂, -, rfl, -⟩ := hcalls
    exact (pmmInit_state hflat).trans (pmmInit_state hpmm).symm
  obtain rfl := hstate
  obtain ⟨x₀, hinit, hsettled⟩ := kmainWorkload_settled m.kernelView
  have hx₀ : x₀ = ⟨⟨s', procInit Procs.static,
      ⟨heapInit kmainHeapStart kmainHeapSize, mem, [], []⟩⟩, ∅, []⟩ := by
    simp only [kmainWorkload, kmainSystem, kmainKernel, hflat, Option.bind_eq_bind,
      Option.bind_some, Option.pure_def, Option.some.injEq] at hinit
    exact hinit.symm
  obtain rfl := hx₀
  have hbytes : ∀ a : Word, a ∈ s'.bitmapBytes ↔
      bitmapStart ≤ a.toNat ∧ a.toNat < bitmapStart + 4096 :=
    fun a => hsettled.low.sound.mem_bitmapBytes_iff
  -- The machine is the one that shows the flat memory: the bitmap is clear in both.
  have hmachine : st.machineOf m.ram mem = m := by
    have hmem : ∀ p : Word, p.toNat < 0x1000000 → mem.bytes (kernelVirtBase + p) = m.ram p := by
      intro p hp
      have hoff : kernelVirtBase + p - kernelVirtBase = p := by bv_omega
      by_cases hin : kernelVirtBase + p ∈ s'.bitmapBytes
      · obtain ⟨hlo, hhi⟩ := (hbytes _).mp hin
        have hout : p ∉ st.bytes := by
          obtain ⟨-, -, hapart⟩ := hclear.spared hlo hhi
          rwa [hoff] at hapart
        have hphys : p ∉ s'.bitmapBytes := by
          rw [hbytes]
          unfold bitmapStart
          omega
        unfold bitmapStart kernelVirtBase at hlo hhi
        have hpage : p = bitmapPhys + BitVec.ofNat 32 (p.toNat - 0x200000) := by
          unfold bitmapPhys
          bv_omega
        rw [hzeros _ hin, hram, st.fill_outside v hout, hkept p hphys, hpage]
        exact (hclear.2 _ (by bv_omega)).symm
      · rw [hsame _ hin, Machine.kernelView]
        simp only [hoff]
    obtain ⟨mram, cr3', paging⟩ := m
    simp only [StaticTables.machineOf, Machine.mk.injEq]
    refine ⟨?_, hcr3.symm, hpaging.symm⟩
    funext p
    split_ifs with hp
    · exact hmem p hp
    · rfl
  have habove : ∀ a : Word, 0x1000000 ≤ (a - kernelVirtBase).toNat →
      mem.bytes a = m.ram (a - kernelVirtBase) := by
    intro a ha
    have hout : a ∉ s'.bitmapBytes := by
      rw [hbytes]
      unfold bitmapStart
      unfold kernelVirtBase at ha
      bv_omega
    rw [hsame a hout]
    rfl
  refine ⟨Kernel.init s' (heapInit kmainHeapStart kmainHeapSize) m, _, ?_, hinit, hsettled,
    ⟨?_, habove⟩, ?_⟩
  · simp only [kmainPaged, show kmainMemory st ⟨ram, cr3, false⟩ = some (s', m) from hboot,
      Option.bind_eq_bind, Option.bind_some, Option.pure_def]
  · show st.Filled (st.machineOf m.ram mem).ram
    rw [hmachine, hram]
    exact st.fill_filled v
  · simp only [Kernel.map, System.kernel, Kernel.init, hmachine]

/-- The first bytes of the heap and the bytes of the bitmap, where `kmain` puts them. -/
def kernelBytes (limit : ℕ) : Set Word :=
  {a | (0xC0100000 ≤ a.toNat ∧ a.toNat < 0xC0100000 + limit) ∨
    (bitmapStart ≤ a.toNat ∧ a.toNat < bitmapStart + 4096)}

/-- A request of `n` bytes that is served has its place in the first bytes of the heap. -/
def System.FitsWithin (limit : ℕ) (x : System) (n : Word) : Prop :=
  ∀ bs o, x.client.heap.Tiled x.client.mem.bytes bs → x.client.heap.placeFor bs n = some o →
    o + requestSize n.toNat ≤ limit

/-- The block an action is served with, if any, lies in the first bytes of the heap. -/
def Workload.ServedWithin (limit : ℕ) (x : Workload) : WorkloadCall → Prop
  | .system (.heap (.kmalloc n)) => x.system.FitsWithin limit n
  | .system (.create _ _) =>
    x.system.procs.nextPid.toNat < 256 → x.system.TwoFrames → x.system.FitsWithin limit contextSize
  | _ => True

/-- No byte of the heap's first bytes or of the bitmap is one of the page tables. -/
def StaticTables.ClearOf (st : StaticTables) (limit : ℕ) : Prop :=
  ∀ a ∈ kernelBytes limit, a - kernelVirtBase ∉ st.bytes

namespace Workload

/-- The workload is settled and its heap has not grown past the first bytes. -/
structure SettledWithin (limit : ℕ) (x : Workload) (F : Frames) (bs : List Block) : Prop
    extends Settled x F bs where
  /-- The heap reaches no further. -/
  used_within : x.system.client.heap.used.toNat ≤ limit

variable {limit : ℕ} {x x' : Workload} {F : Frames} {bs : List Block} {call : WorkloadCall}
  {o j : ℕ} {n a : Word}

/-- A heap whose first bytes end before the bitmap serves before the bitmap. -/
theorem ServedWithin.below (hlimit : limit ≤ bitmapOffset) (hserved : x.ServedWithin limit call) :
    x.ServedBelow call := by
  have hroom : ∀ {n : Word}, x.system.FitsWithin limit n → x.system.RoomBelow n := by
    intro n hfits bs o ht hplace
    have hle := hfits bs o ht hplace
    unfold requestSize at hle
    omega
  cases call with
  | system call =>
    cases call with
    | heap call =>
      cases call with
      | kmalloc n => exact hroom hserved
      | _ => trivial
    | create entryPoint priority => exact fun hnext htwo => hroom (hserved hnext htwo)
  | _ => trivial

/-- The first bytes of the heap by their offsets. -/
theorem SettledWithin.addr_mem (hx : x.SettledWithin limit F bs) (hlimit : limit ≤ bitmapOffset)
    (ho : o < limit) : x.system.client.heap.addr o ∈ kernelBytes limit := by
  unfold bitmapOffset at hlimit
  have haddr := hx.low.toNat_addr (show o < 0x3FF00000 by omega)
  exact Or.inl (by omega)

/-- The bytes of held blocks lie there. -/
theorem SettledWithin.payload_mem (hx : x.SettledWithin limit F bs) {e : Word × Word}
    (he : e ∈ x.system.client.held) (ha : InPayload e a) : a ∈ kernelBytes limit := by
  obtain ⟨o, b, hserves, -⟩ := hx.low.owned.held_in_use e he
  obtain ⟨hlo, hhi⟩ := hserves.bounds hx.low.tiled
  have hused := hx.used_within
  have hstart : x.system.client.heap.start.toNat = 0xC0100000 := by
    rw [hx.low.start]
    rfl
  obtain ⟨hfirst, hlast⟩ := ha
  exact Or.inl (by omega)

/-- The headers and the bitmap lie there. -/
theorem SettledWithin.soundIn (hx : x.SettledWithin limit F bs) (hlimit : limit ≤ bitmapOffset) :
    x.system.kernel.SoundIn (kernelBytes limit) F bs := by
  refine ⟨hx.low.sound, ?_, fun c hc => Or.inr (hx.low.sound.mem_bitmapBytes_iff.mp hc)⟩
  rintro c ⟨o, b, j, hb, hj, rfl⟩
  have hend := hx.low.tiled.block_le hb
  have hused := hx.used_within
  exact hx.addr_mem hlimit (by omega)

/-- What is stored for a request that fits lies there. -/
theorem SettledWithin.placesIn (hx : x.SettledWithin limit F bs) (hlimit : limit ≤ bitmapOffset)
    (hfits : x.system.FitsWithin limit n) {len : ℕ} (hlen : len ≤ requestSize n.toNat) :
    x.system.kernel.PlacesIn (kernelBytes limit) n len := by
  intro bs o ht ho j hj
  have hle := hfits bs o ht ho
  exact hx.addr_mem hlimit (by omega)

/-- What a permitted call stores lies there. -/
theorem SettledWithin.storesIn (hx : x.SettledWithin limit F bs) (hlimit : limit ≤ bitmapOffset)
    (hheld : x.HeldOnly call) (hserved : x.ServedWithin limit call) :
    x.StoresIn (kernelBytes limit) call := by
  cases call with
  | system call =>
    cases call with
    | heap call =>
      cases call with
      | kmalloc n => exact hx.placesIn hlimit hserved (by unfold requestSize; omega)
      | write a byte =>
        obtain ⟨e, he, hpayload⟩ := hheld.1
        exact hx.payload_mem he hpayload
      | kfree p => trivial
    | create entryPoint priority =>
      exact fun hnext htwo => hx.placesIn hlimit (hserved hnext htwo) (by decide)
  | _ => trivial

/-- A permitted call keeps the heap within its first bytes. -/
theorem SettledWithin.call_used (hx : x.SettledWithin limit F bs)
    (hserved : x.ServedWithin limit call) {reply : WorkloadReply} {k : Kernel Mem}
    (hcall : kernelCall Mem.bus x.system.kernel call = some (reply, k)) :
    k.heap.used.toNat ≤ limit := by
  have hused : x.system.kernel.heap.used.toNat ≤ limit := hx.used_within
  cases call with
  | system call =>
    cases call with
    | heap call =>
      cases call with
      | kmalloc n =>
        obtain ⟨⟨p, heap, mem⟩, hkmalloc, hresult⟩ := Option.bind_eq_some_iff.mp hcall
        obtain ⟨-, rfl⟩ := Prod.mk.inj (Option.some.inj hresult)
        have ht := hx.low.sound.tiled
        rcases kmalloc_placed ht n with ⟨-, hnone⟩ |
          ⟨o, heap', mem', bs', hplace, -, hplaced, -, -, -, ⟨heq, -⟩ | ⟨rfl, heq⟩, -⟩
        · rw [hkmalloc] at hnone
          obtain ⟨-, rfl, -⟩ : p = 0 ∧ heap = x.system.kernel.heap ∧ _ := by simpa using hnone
          exact hused
        all_goals
          rw [hkmalloc] at hplaced
          obtain ⟨-, rfl, -⟩ : _ ∧ heap = heap' ∧ _ := by simpa using hplaced
        · rwa [heq]
        · rw [heq]
          exact hserved bs _ ht hplace
      | kfree p =>
        obtain ⟨r, -, hresult⟩ := Option.bind_eq_some_iff.mp hcall
        obtain ⟨-, rfl⟩ := Prod.mk.inj (Option.some.inj hresult)
        exact hused
      | write a byte =>
        obtain ⟨-, rfl⟩ := Prod.mk.inj (Option.some.inj hcall)
        exact hused
    | create entryPoint priority =>
      obtain ⟨⟨ret, k'⟩, hcreate, hresult⟩ := Option.bind_eq_some_iff.mp hcall
      obtain ⟨-, rfl⟩ := Prod.mk.inj (Option.some.inj hresult)
      rcases hx.low.sound.create entryPoint priority with ⟨-, hrefused⟩ |
        ⟨hnext, a, b, pmm, m, -, ha, hb, -, -, -,
          ⟨-, procs, hfailed, -⟩ | ⟨ha0, hb0, o, k₁, bs', hcreated, hc⟩⟩
      · rw [hcreate] at hrefused
        obtain ⟨-, rfl⟩ := Prod.mk.inj (Option.some.inj hrefused)
        exact hused
      · rw [hcreate] at hfailed
        obtain ⟨-, rfl⟩ := Prod.mk.inj (Option.some.inj hfailed)
        exact hused
      · rw [hcreate] at hcreated
        obtain ⟨-, rfl⟩ := Prod.mk.inj (Option.some.inj hcreated)
        rcases hc.used with ⟨heq, -⟩ | ⟨rfl, heq⟩
        · rwa [heq]
        · rw [heq]
          exact hserved hnext ((hx.low.sound.twoFrames_iff ha hb).mpr ⟨ha0, hb0⟩) bs _
            hx.low.sound.tiled hc.place
  | alloc | free addr =>
    obtain ⟨r, -, hresult⟩ := Option.bind_eq_some_iff.mp hcall
    obtain ⟨-, rfl⟩ := Prod.mk.inj (Option.some.inj hresult)
    exact hused
  | exit pid | block resource | unblock pid | tick context =>
    obtain ⟨-, rfl⟩ := Prod.mk.inj (Option.some.inj hcall)
    exact hused

/-- The kernel of a workload in another memory. -/
def ShownBy (g : Mem → N) (ok : Mem → Prop) (limit : ℕ) (x : Workload) (k : Kernel N) : Prop :=
  ∃ F bs, x.SettledWithin limit F bs ∧ ok x.system.client.mem ∧ k = x.system.kernel.map g

/-- Every permitted call returns on the other memory what it returns on the flat one, and the
other memory shows the flat one again. -/
theorem ShownBy.step {bus : Bus N} {g : Mem → N} {ok : Mem → Prop} {k : Kernel N}
    (h : Hosts bus g ok (kernelBytes limit)) (hlimit : limit ≤ bitmapOffset)
    (hx : ShownBy g ok limit x k) (hcall : x.HeldOnly call ∧ x.ServedWithin limit call) :
    ∃ reply x' k', x.step call = some (reply, x') ∧ kernelCall bus k call = some (reply, k') ∧
      ShownBy g ok limit x' k' := by
  obtain ⟨F, bs, hx, hm, rfl⟩ := hx
  obtain ⟨hheld, hserved⟩ := hcall
  obtain ⟨reply, x', F', bs', hstep, hx'⟩ := hx.toSettled.step hheld (hserved.below hlimit)
  have hflat := kernelCall_eq hstep
  have hsound := hx.soundIn hlimit
  have hstores := hx.storesIn hlimit hheld hserved
  have hsystem : ∀ c, call = .system c → x.system.HeldOnly c := by
    rintro c rfl
    exact hheld.1
  have hkeeps := call_keepsIn hx.low hsound hsystem hstores hflat
  refine ⟨reply, x', _, hstep, ?_, F', bs', ⟨hx', hx.call_used hserved hflat⟩,
    h.kept hm hkeeps.bytes, rfl⟩
  rw [call_embeds hx.low hsound h hm hsystem hstores, hflat]
  rfl

end Workload

/-- Such addresses of the kernel half do not lead to the page tables. -/
theorem StaticTables.ClearOf.kernelBytes_subset {st : StaticTables} {limit : ℕ}
    (hclear : st.ClearOf limit) (hlimit : limit ≤ bitmapOffset) :
    kernelBytes limit ⊆ st.spared := by
  intro a ha
  have hrange : 0xC0000000 ≤ a.toNat ∧ a.toNat < 0xC1000000 := by
    unfold bitmapOffset at hlimit
    rcases ha with ⟨hlo, hhi⟩ | ⟨hlo, hhi⟩
    · omega
    · unfold bitmapStart at hlo hhi
      omega
  exact ⟨hrange.1, hrange.2, hclear a ha⟩

/-- **Paging does not show.** With the bitmap's frame zero at boot, and the heap's blocks within
first bytes that no page table shares: in every run of the workload that `kmain` sets up, the
kernel behind its page tables answers every call as the one in flat memory does. The heap, the
frames and the processes come out the same, every address translates as it did at boot, and
the kernel half reads as the flat memory. The code and the static records of the kernel are
taken to lie outside of both memories. -/
theorem paging_transparent (st : StaticTables) (ram : Bytes) (cr3 : Word) {limit : ℕ}
    (hlimit : limit ≤ bitmapOffset) (hclear : st.ClearOf limit)
    (hzero : ∀ k < 4096, ram (bitmapPhys + BitVec.ofNat 32 k) = 0) :
    ∃ k₀ x₀, kmainPaged st ⟨ram, cr3, false⟩ = some k₀ ∧
      kmainWorkload k₀.mem.kernelView = some x₀ ∧
      ∀ calls, Along Workload.step (fun x call => x.HeldOnly call ∧ x.ServedWithin limit call)
          x₀ calls →
        ∃ replies x k, exec Workload.step x₀ calls = some (replies, x) ∧
          exec (kernelCall Machine.bus) k₀ calls = some (replies, k) ∧
          k.pmm = x.system.pmm ∧ k.heap = x.system.client.heap ∧ k.procs = x.system.procs ∧
          (∀ a, k.mem.linear a = bootMap a) ∧
          ∀ a : Word, 0xC0000000 ≤ a.toNat → a.toNat < 0xC1000000 →
            Machine.bus.load k.mem a = some (x.system.client.mem.bytes a) := by
  have hout : bitmapPhys ∉ st.bytes := hclear 0xC0200000 (Or.inr ⟨by decide, by decide⟩)
  obtain ⟨k₀, x₀, hboot, hinit, hsettled, hbacks, hk₀⟩ := kmainPaged_shown st ram cr3 ⟨hout, hzero⟩
  have hused : x₀.system.client.heap.used.toNat ≤ limit := by
    rw [← hsettled.low.tiled.span_eq]
    exact Nat.zero_le _
  have hshown : x₀.ShownBy (st.machineOf k₀.mem.ram) (st.Backs k₀.mem.ram) limit k₀ :=
    ⟨_, _, ⟨hsettled, hused⟩, hbacks, hk₀⟩
  have hhosts : Hosts Machine.bus (st.machineOf k₀.mem.ram) (st.Backs k₀.mem.ram)
      (kernelBytes limit) := StaticTables.machineOf_hosts.mono (hclear.kernelBytes_subset hlimit)
  refine ⟨k₀, x₀, hboot, hinit, fun calls hpermitted => ?_⟩
  obtain ⟨replies, x, k, hrun, hpaged, F, bs, -, hm, rfl⟩ :=
    exec_of_agreement (fun hx hcall => hx.step hhosts hlimit hcall) hshown hpermitted
  exact ⟨replies, x, _, hrun, hpaged, rfl, rfl, rfl, StaticTables.machineOf_linear hm.filled,
    fun _ hlo hhi => StaticTables.machineOf_load hm.filled hlo hhi⟩

/-- The page tables of that layout are clear of the first 4 KB of the heap. -/
theorem layoutAt64K_clear : layoutAt64K.ClearOf 0x1000 := by
  intro a ha hbytes
  unfold kernelBytes bitmapStart at ha
  unfold StaticTables.bytes layoutAt64K kernelVirtBase at hbytes
  simp only [Set.mem_ofPred_eq] at ha hbytes
  bv_omega

/-- In memory of zeros the bitmap of that layout is clear. -/
theorem layoutAt64K_bitmapClear : layoutAt64K.BitmapClear fun _ => 0 :=
  ⟨layoutAt64K_clear 0xC0200000 (Or.inr ⟨by decide, by decide⟩), fun _ _ => rfl⟩

/-- What is stored at the start of an empty heap spares the page tables of that layout. -/
theorem Kernel.Sound.placesIn_empty {k : Kernel Mem} {F : Frames} (hk : k.Sound F []) {n : Word}
    (hpos : n ≠ 0) (hn : n.toNat ≤ 0x7FFFE0) {len : ℕ} (hlen : len ≤ 0x1000) :
    k.PlacesIn layoutAt64K.spared n len := by
  intro bs o ht ho j hj
  obtain rfl := hk.tiled.unique ht
  obtain rfl : 0 = o := Option.some.inj ((hk.placeFor_empty hpos hn).symm.trans ho)
  have haddr := HeapState.toNat_addr_kmain hk.start (show 0 + j < 0x3FF00000 by omega)
  exact layoutAt64K_clear.kernelBytes_subset (by decide) (Or.inl (by omega))

/-- A block and a frame taken behind the page tables are those taken in flat memory. -/
theorem paging_transparent_two_calls :
    ∃ k₀ x₀ replies x k, kmainPaged layoutAt64K ⟨fun _ => 0, 0, false⟩ = some k₀ ∧
      kmainWorkload k₀.mem.kernelView = some x₀ ∧
      exec Workload.step x₀ [.system (.heap (.kmalloc 20)), .alloc] = some (replies, x) ∧
      exec (kernelCall Machine.bus) k₀ [.system (.heap (.kmalloc 20)), .alloc] =
        some (replies, k) ∧ k.heap = x.system.client.heap := by
  obtain ⟨k₀, x₀, hboot, hinit, hruns⟩ := paging_transparent layoutAt64K (fun _ => 0) 0
    (show 0x1000 ≤ bitmapOffset by decide) layoutAt64K_clear fun _ _ => rfl
  obtain ⟨x₀', hinit', hx₀⟩ := kmainWorkload_settled k₀.mem.kernelView
  obtain rfl : x₀ = x₀' := Option.some.inj (hinit.symm.trans hinit')
  have hfits : x₀.system.FitsWithin 0x1000 20 := by
    intro bs o ht hplace
    obtain rfl := hx₀.low.tiled.unique ht
    rw [hx₀.low.placeFor_empty (by decide) (by decide)] at hplace
    obtain rfl := Option.some.inj hplace
    decide
  obtain ⟨replies, x, k, hrun, hpaged, -, hheap, -⟩ := hruns [.system (.heap (.kmalloc 20)), .alloc]
    ⟨⟨⟨trivial, fun _ h => by cases h⟩, hfits⟩, fun _ _ _ => ⟨⟨trivial, trivial⟩,
      fun _ _ _ => trivial⟩⟩
  exact ⟨k₀, x₀, replies, x, k, hboot, hinit, hrun, hpaged, hheap⟩

end Nimbu
