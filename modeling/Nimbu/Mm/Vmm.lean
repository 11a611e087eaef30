import Nimbu.Machine.Paging
import Nimbu.Mm.Pmm

/-!
# The boot mapping

`vmm_init` fills the static page directory and the four static page tables of
`vmm.c`, loads the directory into CR3 and turns paging on. The first 16 MB of
physical memory are then seen twice, at their own addresses and from 3 GB on,
and no other address is mapped.
-/

namespace Nimbu

/-- Where the linker puts `kernel_page_directory` and `kernel_page_tables`: two
page-aligned arrays below 16 MB that do not overlap. -/
structure StaticTables where
  /-- Address of `kernel_page_directory`. -/
  directory : Word
  /-- Address of `kernel_page_tables`. -/
  tables : Word
  /-- The directory has `__attribute__((aligned(PAGE_SIZE)))`. -/
  directory_aligned : directory.toNat % 4096 = 0
  /-- The tables have `__attribute__((aligned(PAGE_SIZE)))`. -/
  tables_aligned : tables.toNat % 4096 = 0
  /-- The directory's 1024 entries lie below 16 MB. -/
  directory_low : directory.toNat + 4096 ≤ 0x1000000
  /-- The tables' 4096 entries lie below 16 MB. -/
  tables_low : tables.toNat + 16384 ≤ 0x1000000
  /-- The two arrays are different objects. -/
  apart : directory.toNat + 4096 ≤ tables.toNat ∨ tables.toNat + 16384 ≤ directory.toNat

/-- The address of `kernel_page_tables[i]`. -/
def StaticTables.table (st : StaticTables) (i : ℕ) : Word := entry st.tables (1024 * i)

variable {M : Type} (bus : Bus M)

/-- The stores of `vmm_init`, with `kernel_page_tables` as one contiguous array:
the identity loop runs through all four tables by the index of the first. -/
def vmmInitTables (st : StaticTables) (m : M) : Option M := do
  let m ← (List.range 1024).foldlM (fun m i => bus.storeWord m (entry st.directory i) 0) m
  let m ← (List.range 4).foldlM
    (fun m i => (List.range 1024).foldlM (fun m j => bus.storeWord m (entry (st.table i) j) 0) m) m
  let m ← (List.range 0x1000).foldlM
    (fun m i => bus.storeWord m (entry st.tables i) (BitVec.ofNat 32 i * pageSize ||| presentWrite))
    m
  let m ← bus.storeWord m (entry st.directory 0) (st.table 0 ||| presentWrite)
  let m ← bus.storeWord m (entry st.directory 1) (st.table 1 ||| presentWrite)
  let m ← bus.storeWord m (entry st.directory 2) (st.table 2 ||| presentWrite)
  let m ← bus.storeWord m (entry st.directory 3) (st.table 3 ||| presentWrite)
  let higherHalfIndex := 768
  (List.range 4).foldlM (fun m i => bus.storeWord m (entry st.directory (higherHalfIndex + i))
    (st.table i ||| presentWrite)) m

/-- `vmm_init`: fill the tables, load CR3 and set the bit PG of CR0. The function
always returns 1. -/
def vmmInit (st : StaticTables) (m : Machine) : Option Machine := do
  let m ← vmmInitTables Machine.bus st m
  return { m with cr3 := st.directory, paging := true }

/-- The entries `vmm_init` leaves in memory. -/
structure StaticTables.Filled (st : StaticTables) (v : Bytes) : Prop where
  /-- The first four directory entries point to the four tables. -/
  low : ∀ i < 4, v.word (entry st.directory i) = st.table i ||| presentWrite
  /-- So do the four entries from 3 GB on. -/
  high : ∀ i < 4, v.word (entry st.directory (768 + i)) = st.table i ||| presentWrite
  /-- All other directory entries are empty. -/
  empty : ∀ i < 1024, 4 ≤ i → i < 768 ∨ 772 ≤ i → v.word (entry st.directory i) = 0
  /-- Entry `i` of the tables maps page `i`. -/
  pages : ∀ i < 4096, v.word (entry st.tables i) = BitVec.ofNat 32 (i * 4096) ||| presentWrite

/-- The bytes of the two static arrays. -/
def StaticTables.bytes (st : StaticTables) : Set Word :=
  {c | (st.directory.toNat ≤ c.toNat ∧ c.toNat < st.directory.toNat + 4096) ∨
    (st.tables.toNat ≤ c.toNat ∧ c.toNat < st.tables.toNat + 16384)}

/-- An entry counted from another entry. -/
theorem entry_entry (base : Word) (i j : ℕ) : entry (entry base i) j = entry base (i + j) := by
  rw [entry, entry, entry, BitVec.add_assoc, ← BitVec.ofNat_add, ← Nat.mul_add]

namespace StaticTables

variable (st : StaticTables)

theorem toNat_directory_entry {i : ℕ} (hi : i < 1024) :
    (entry st.directory i).toNat = st.directory.toNat + 4 * i := by
  have := st.directory_low
  exact toNat_entry (by omega)

theorem toNat_tables_entry {i : ℕ} (hi : i < 4096) :
    (entry st.tables i).toNat = st.tables.toNat + 4 * i := by
  have := st.tables_low
  exact toNat_entry (by omega)

theorem toNat_table {i : ℕ} (hi : i < 4) : (st.table i).toNat = st.tables.toNat + 4096 * i := by
  rw [table, st.toNat_tables_entry (by omega)]
  omega

/-- Clearing the four tables leaves the bytes around them alone. -/
theorem fillTables_outside {v : Bytes} {n : ℕ} (hn : n ≤ 4) {c : Word}
    (hc : c.toNat < st.tables.toNat ∨ st.tables.toNat + 16384 ≤ c.toNat) :
    (List.range n).foldl (fun v i => v.fillWords (st.table i) (fun _ => 0) 1024) v c = v c := by
  induction n with
  | zero => rfl
  | succ n ih =>
    have htable := st.toNat_table (show n < 4 by omega)
    have hlow := st.tables_low
    rw [List.range_succ, List.foldl_append]
    simp only [List.foldl_cons, List.foldl_nil]
    rw [Bytes.fillWords_outside (by omega) (by omega)]
    exact ih (by omega)

end StaticTables

/-- The memory after the stores of `vmm_init`. -/
def StaticTables.fill (st : StaticTables) (v : Bytes) : Bytes :=
  let v := v.fillWords st.directory (fun _ => 0) 1024
  let v := (List.range 4).foldl (fun v i => v.fillWords (st.table i) (fun _ => 0) 1024) v
  let v := v.fillWords st.tables (fun i => BitVec.ofNat 32 (i * 4096) ||| presentWrite) 0x1000
  let v := v.fillWords st.directory (fun i => st.table i ||| presentWrite) 4
  v.fillWords (entry st.directory 768) (fun i => st.table i ||| presentWrite) 4

variable {bus} {ok : M → Prop} {view : M → Bytes}

/-- On plain memory `vmm_init` performs exactly these stores. -/
theorem vmmInitTables_eq (hbus : bus.Lawful ok view Set.univ) (st : StaticTables) {m : M}
    (hm : ok m) :
    ∃ m', vmmInitTables bus st m = some m' ∧ ok m' ∧ view m' = st.fill (view m) := by
  obtain ⟨m₁, hs₁, hm₁, hv₁⟩ := hbus.foldlM_storeWord st.directory (fun _ => 0) 1024 hm
  obtain ⟨m₂, hs₂, hm₂, hv₂⟩ := Bus.foldlM_eq
    (fun m i => (List.range 1024).foldlM (fun m j => bus.storeWord m (entry (st.table i) j) 0) m)
    (fun v i => v.fillWords (st.table i) (fun _ => 0) 1024)
    (fun i (_ : i ∈ List.range 4) _ hk =>
      hbus.foldlM_storeWord (st.table i) (fun _ => 0) 1024 hk) hm₁
  obtain ⟨m₃, hs₃, hm₃, hv₃⟩ := hbus.foldlM_storeWord st.tables
    (fun i => BitVec.ofNat 32 i * pageSize ||| presentWrite) 0x1000 hm₂
  obtain ⟨m₄, hs₄, hm₄, hv₄⟩ := hbus.storeWord_univ hm₃ (entry st.directory 0)
    (st.table 0 ||| presentWrite)
  obtain ⟨m₅, hs₅, hm₅, hv₅⟩ := hbus.storeWord_univ hm₄ (entry st.directory 1)
    (st.table 1 ||| presentWrite)
  obtain ⟨m₆, hs₆, hm₆, hv₆⟩ := hbus.storeWord_univ hm₅ (entry st.directory 2)
    (st.table 2 ||| presentWrite)
  obtain ⟨m₇, hs₇, hm₇, hv₇⟩ := hbus.storeWord_univ hm₆ (entry st.directory 3)
    (st.table 3 ||| presentWrite)
  obtain ⟨m₈, hs₈, hm₈, hv₈⟩ := hbus.foldlM_storeWord (entry st.directory 768)
    (fun i => st.table i ||| presentWrite) 4 hm₇
  simp only [entry_entry] at hs₈
  refine ⟨m₈, ?_, hm₈, ?_⟩
  · simp only [vmmInitTables, hs₁, hs₂, hs₃, hs₄, hs₅, hs₆, hs₇, hs₈, Option.bind_eq_bind,
      Option.bind_some]
  · have hpage : ∀ i, BitVec.ofNat 32 i * pageSize = BitVec.ofNat 32 (i * 4096) := by
      intro i
      rw [BitVec.ofNat_mul]
      rfl
    simp only [hpage] at hv₃
    rw [hv₈, hv₇, hv₆, hv₅, hv₄, hv₃, hv₂, hv₁]
    rfl

namespace StaticTables

variable (st : StaticTables) (v : Bytes)

/-- The stores of `vmm_init` stay within the two static arrays. -/
theorem fill_outside {c : Word} (hc : c ∉ st.bytes) : st.fill v c = v c := by
  have hdir := st.directory_low
  have htab := st.tables_low
  have hentry := st.toNat_directory_entry (show 768 < 1024 by decide)
  have hout : (c.toNat < st.directory.toNat ∨ st.directory.toNat + 4096 ≤ c.toNat) ∧
      (c.toNat < st.tables.toNat ∨ st.tables.toNat + 16384 ≤ c.toNat) := by
    simp only [bytes, Set.mem_ofPred_eq, not_or, not_and, not_lt] at hc
    omega
  unfold fill
  rw [Bytes.fillWords_outside (by omega) (by omega),
    Bytes.fillWords_outside (by omega) (by omega),
    Bytes.fillWords_outside (by omega) (by omega), st.fillTables_outside le_rfl hout.2,
    Bytes.fillWords_outside (by omega) (by omega)]

/-- After the stores of `vmm_init` the two static arrays are filled. -/
theorem fill_filled : st.Filled (st.fill v) := by
  have hdir := st.directory_low
  have htab := st.tables_low
  have hapart := st.apart
  have hbase := st.toNat_directory_entry (show 768 < 1024 by decide)
  refine ⟨?_, ?_, ?_, ?_⟩
  · intro i hi
    have hentry := st.toNat_directory_entry (show i < 1024 by omega)
    unfold fill
    rw [Bytes.fillWords_word_outside (by omega) (by omega) (by omega),
      Bytes.fillWords_entry (by omega) hi]
  · intro i hi
    unfold fill
    rw [← entry_entry, Bytes.fillWords_entry (by omega) hi]
  · intro i hi hlow hhigh
    have hentry := st.toNat_directory_entry hi
    unfold fill
    rw [Bytes.fillWords_word_outside (by omega) (by omega) (by omega),
      Bytes.fillWords_word_outside (by omega) (by omega) (by omega),
      Bytes.fillWords_word_outside (by omega) (by omega) (by omega)]
    have hkept : ∀ v : Bytes,
        ((List.range 4).foldl (fun v i => v.fillWords (st.table i) (fun _ => 0) 1024) v).word
          (entry st.directory i) = v.word (entry st.directory i) := by
      intro v
      apply Bytes.word_eq_of_inside (by omega)
      intro c hlo hhi
      exact st.fillTables_outside le_rfl (by omega)
    rw [hkept, Bytes.fillWords_entry (by omega) hi]
  · intro i hi
    have hentry := st.toNat_tables_entry hi
    unfold fill
    rw [Bytes.fillWords_word_outside (by omega) (by omega) (by omega),
      Bytes.fillWords_word_outside (by omega) (by omega) (by omega),
      Bytes.fillWords_entry (by omega) hi]

end StaticTables

/-- A page lies in the static arrays as a whole or not at all. -/
theorem StaticTables.page_mem_bytes (st : StaticTables) {p : Word} (hp : p.toNat % 4096 = 0)
    {k : ℕ} (hk : k < 4096) : p + BitVec.ofNat 32 k ∈ st.bytes ↔ p ∈ st.bytes := by
  have hpos : (p + BitVec.ofNat 32 k).toNat = p.toNat + k := by
    have := p.isLt
    bv_omega
  have hdir := st.directory_aligned
  have htab := st.tables_aligned
  simp only [bytes, Set.mem_ofPred_eq, hpos]
  omega

/-- Every page of the filled static arrays starts with an entry that is present. -/
theorem StaticTables.Filled.first_byte {st : StaticTables} {v : Bytes} (hfilled : st.Filled v)
    {p : Word} (hp : p.toNat % 4096 = 0) (hmem : p ∈ st.bytes) : v p ≠ 0 := by
  have hdir := st.directory_aligned
  have htab := st.tables_aligned
  have hlow := st.directory_low
  have hlow' := st.tables_low
  simp only [bytes, Set.mem_ofPred_eq] at hmem
  rcases hmem with ⟨hlo, hhi⟩ | ⟨hlo, hhi⟩
  · have hpage : p = entry st.directory 0 := by
      apply BitVec.eq_of_toNat_eq
      rw [st.toNat_directory_entry (by decide)]
      omega
    rw [hpage]
    exact first_byte_ne_zero (hfilled.low 0 (by decide))
  · have hindex : (p.toNat - st.tables.toNat) / 4 < 4096 := by omega
    have hpage : p = entry st.tables ((p.toNat - st.tables.toNat) / 4) := by
      apply BitVec.eq_of_toNat_eq
      rw [st.toNat_tables_entry hindex]
      omega
    rw [hpage]
    exact first_byte_ne_zero (hfilled.pages _ hindex)

/-- The boot mapping: 16 MB at their own addresses and again from 3 GB on. -/
def bootMap (a : Word) : Option Word :=
  if a.toNat < 0x1000000 then some a
  else if 0xC0000000 ≤ a.toNat ∧ a.toNat < 0xC1000000 then some (a - kernelVirtBase)
  else none

/-- **The boot mapping.** Through the filled tables the processor maps every
address as `bootMap` does. -/
theorem StaticTables.Filled.pageWalk_eq {st : StaticTables} {v : Bytes} (hfilled : st.Filled v)
    (a : Word) : pageWalk v st.directory a = bootMap a := by
  have halt := a.isLt
  have hpages : ∀ i < 4, ∀ p < 4096, p / 1024 = i → ptIndex a = p % 1024 →
      v.word (entry (st.table i) (ptIndex a)) = BitVec.ofNat 32 (p * 4096) ||| presentWrite := by
    intro i _ p hp hi hindex
    rw [table, entry_entry, hindex, show 1024 * i + p % 1024 = p by omega]
    exact hfilled.pages p hp
  have haligned : ∀ i < 4, (st.table i).toNat % 4096 = 0 := by
    intro i hi
    have := st.tables_aligned
    rw [st.toNat_table hi]
    omega
  have hframe : ∀ p, (BitVec.ofNat 32 (p * 4096)).toNat % 4096 = 0 := by
    intro p
    rw [BitVec.toNat_ofNat]
    omega
  unfold bootMap
  split
  · rename_i hlow
    have hindex : pdIndex a < 4 := by unfold pdIndex; omega
    rw [pageWalk_of_entries st.directory_aligned (haligned _ hindex) (hframe (a.toNat / 4096))
      (hfilled.low _ hindex)
      (hpages _ hindex _ (by omega) (by unfold pdIndex; omega) (by unfold ptIndex; omega))]
    congr 1
    bv_omega
  · split
    · rename_i hhigh
      obtain ⟨i, hi, hindex⟩ : ∃ i < 4, pdIndex a = 768 + i :=
        ⟨pdIndex a - 768, by unfold pdIndex; omega, by unfold pdIndex; omega⟩
      have hpde := hfilled.high i hi
      rw [← hindex] at hpde
      rw [pageWalk_of_entries st.directory_aligned (haligned i hi)
        (hframe ((a.toNat - 0xC0000000) / 4096)) hpde
        (hpages i hi _ (by omega) (by unfold pdIndex at hindex; omega)
          (by unfold ptIndex; omega))]
      congr 1
      unfold kernelVirtBase
      bv_omega
    · rename_i hlow hhigh
      apply pageWalk_of_empty st.directory_aligned
      apply hfilled.empty <;> unfold pdIndex <;> omega

/-- From a machine with paging off, `vmm_init` returns; it fills the static
arrays and translates addresses by the boot mapping. -/
theorem vmmInit_eq (st : StaticTables) {m : Machine} (hoff : m.paging = false) :
    ∃ m', vmmInit st m = some m' ∧ m'.ram = st.fill m.ram ∧ m'.linear = bootMap := by
  obtain ⟨m₁, hinit, -, hview⟩ := vmmInitTables_eq (Machine.lawful m.cr3) st ⟨hoff, rfl⟩
  refine ⟨{ m₁ with cr3 := st.directory, paging := true }, ?_, hview, ?_⟩
  · simp only [vmmInit, hinit, Option.bind_eq_bind, Option.bind_some, Option.pure_def]
  · funext a
    simp only [Machine.linear, if_true, hview]
    exact (st.fill_filled m.ram).pageWalk_eq a

/-- `vmm_init` leaves paging on and the static directory in force. -/
theorem vmmInit_registers {st : StaticTables} {m m' : Machine} (hinit : vmmInit st m = some m') :
    m'.paging = true ∧ m'.cr3 = st.directory := by
  unfold vmmInit at hinit
  obtain ⟨m₁, -, hinit⟩ := Option.bind_eq_some_iff.mp hinit
  obtain rfl := Option.some.inj hinit
  exact ⟨rfl, rfl⟩

end Nimbu
