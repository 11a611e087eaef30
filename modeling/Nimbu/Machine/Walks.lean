import Nimbu.Machine.Paging

/-!
# Translations that survive stores

With paging on, a store may change the very entries by which later accesses are
translated. This file follows a set of entries, each of which is present and
leads to a given page. A word that leads to the same page wherever it replaces
one of them keeps them all, at each of the four byte stores it consists of.
-/

namespace Nimbu

/-- A directory or table entry is present and leads to a page. -/
structure Leads (x page : Word) : Prop where
  /-- The present bit is set. -/
  present : x &&& 1 ≠ 0
  /-- The frame is the page. -/
  frame : x &&& frameMask = page

/-- The pages that entries lead to start on page boundaries. -/
theorem Leads.aligned {x page : Word} (h : Leads x page) : page.toNat % 4096 = 0 := by
  rw [← h.frame]
  exact frame_toNat_mod x

/-- An entry with the flags or-ed in leads to its page. -/
theorem leads_of_presentWrite {x : Word} (hx : x.toNat % 4096 = 0) :
    Leads (x ||| presentWrite) x :=
  ⟨entry_present x, frame_of_entry hx⟩

/-- The present bit is the lowest bit. -/
theorem present_iff (x : Word) : x &&& 1 ≠ 0 ↔ x.getLsbD 0 = true := by
  have hone : ∀ j < 32, (1 : Word).getLsbD j = decide (j = 0) := by decide
  constructor
  · intro h
    by_contra hzero
    apply h
    apply BitVec.eq_of_getLsbD_eq
    intro i hi
    rw [BitVec.getLsbD_and, hone i hi]
    by_cases hi0 : i = 0
    · subst hi0
      simpa using hzero
    · simp [hi0]
  · intro h hzero
    have hbit : (x &&& 1).getLsbD 0 = false := by
      rw [hzero]
      rfl
    rw [BitVec.getLsbD_and, h, hone 0 (by decide)] at hbit
    simp at hbit

/-- The bits of an entry that decide where it leads. -/
theorem leads_iff {x page : Word} : Leads x page ↔
    x.getLsbD 0 = true ∧ ∀ i < 32, page.getLsbD i = (x.getLsbD i && decide (12 ≤ i)) := by
  constructor
  · rintro ⟨hpresent, rfl⟩
    refine ⟨(present_iff x).mp hpresent, fun i hi => ?_⟩
    rw [BitVec.getLsbD_and, getLsbD_frameMask hi]
  · rintro ⟨hpresent, hbits⟩
    refine ⟨(present_iff x).mpr hpresent, ?_⟩
    apply BitVec.eq_of_getLsbD_eq
    intro i hi
    rw [BitVec.getLsbD_and, getLsbD_frameMask hi, hbits i hi]

/-- One byte of a word replaced by the byte of another that leads to the same page. -/
theorem Leads.put {v : Bytes} {a w page : Word} (hold : Leads (v.word a) page)
    (hnew : Leads w page) {j : ℕ} (hj : j < 4) :
    Leads ((v.put (a + BitVec.ofNat 32 j) (w.extractLsb' (8 * j) 8)).word a) page := by
  rw [leads_iff] at hold hnew ⊢
  have hbit : ∀ i < 32,
      ((v.put (a + BitVec.ofNat 32 j) (w.extractLsb' (8 * j) 8)).word a).getLsbD i =
        if i / 8 = j then w.getLsbD i else (v.word a).getLsbD i := by
    intro i hi
    have hsame := @offset_inj a (i / 8) j (by omega) (by omega)
    rw [Bytes.getLsbD_word _ _ hi, Bytes.put_apply]
    by_cases hbyte : i / 8 = j
    · rw [if_pos (hsame.mpr hbyte), if_pos hbyte, BitVec.getLsbD_extractLsb',
        show 8 * j + i % 8 = i by omega, decide_eq_true (Nat.mod_lt i (by decide)), Bool.true_and]
    · rw [if_neg (fun h => hbyte (hsame.mp h)), if_neg hbyte, Bytes.getLsbD_word _ _ hi]
  constructor
  · rw [hbit 0 (by decide)]
    split
    · exact hnew.1
    · exact hold.1
  · intro i hi
    rw [hbit i hi]
    split
    · exact hnew.2 i hi
    · exact hold.2 i hi

/-- A walk through two entries that lead on. -/
theorem pageWalk_of_leads {ram : Bytes} {cr3 v table page : Word} (hcr3 : cr3.toNat % 4096 = 0)
    (hpde : Leads (ram.word (entry cr3 (pdIndex v))) table)
    (hpte : Leads (ram.word (entry table (ptIndex v))) page) :
    pageWalk ram cr3 v = some (page + BitVec.ofNat 32 (v.toNat % 2 ^ 12)) := by
  unfold pageWalk
  rw [frame_of_aligned hcr3]
  simp only [if_neg hpde.present, hpde.frame, if_neg hpte.present, hpte.frame]

/-- The entries that a memory keeps: each starts on a word boundary, is present and
leads to its page. -/
def Bytes.Keeps (v : Bytes) (entries : Set (Word × Word)) : Prop :=
  ∀ n ∈ entries, n.1.toNat % 4 = 0 ∧ Leads (v.word n.1) n.2

/-- One byte store of a word that leads to the same page wherever it replaces an entry. -/
theorem Bytes.Keeps.put {v : Bytes} {entries : Set (Word × Word)} (hv : v.Keeps entries)
    {a w : Word} (ha : a.toNat % 4 = 0) (hw : ∀ page, (a, page) ∈ entries → Leads w page) {j : ℕ}
    (hj : j < 4) : (v.put (a + BitVec.ofNat 32 j) (w.extractLsb' (8 * j) 8)).Keeps entries := by
  rintro ⟨e, page⟩ hmem
  obtain ⟨he, hleads⟩ := hv _ hmem
  simp only at he hleads
  refine ⟨he, ?_⟩
  simp only
  by_cases heq : e = a
  · subst heq
    exact hleads.put (hw page hmem) hj
  · have hsame : (v.put (a + BitVec.ofNat 32 j) (w.extractLsb' (8 * j) 8)).word e = v.word e := by
      have halt := a.isLt
      have helt := e.isLt
      have hnat : e.toNat ≠ a.toNat := fun h => heq (BitVec.eq_of_toNat_eq h)
      have hpos : (a + BitVec.ofNat 32 j).toNat = a.toNat + j := by bv_omega
      apply Bytes.word_eq_of_inside (by omega)
      intro c hlo hhi
      apply Bytes.put_of_ne
      intro hc
      rw [hc] at hlo hhi
      omega
    rwa [hsame]

/-- A machine that translates by the directory at `cr3` and keeps a set of entries. -/
structure Machine.Keeps (m : Machine) (cr3 : Word) (entries : Set (Word × Word)) : Prop where
  /-- Paging is on. -/
  paging : m.paging = true
  /-- The directory is the one in `cr3`. -/
  cr3_eq : m.cr3 = cr3
  /-- The directory starts on a page boundary. -/
  aligned : cr3.toNat % 4096 = 0
  /-- The entries are kept. -/
  ram : m.ram.Keeps entries

/-- The two entries by which a page is mapped. -/
def walkEntries (cr3 virt table page : Word) : Set (Word × Word) :=
  {(entry cr3 (pdIndex virt), table), (entry table (ptIndex virt), page)}

section Store

variable {m : Machine} {cr3 : Word} {entries : Set (Word × Word)}

/-- Addresses of a page are translated by the entries of the page. -/
theorem Machine.Keeps.linear_eq (hm : m.Keeps cr3 entries) {virt table page : Word}
    (hwalk : walkEntries cr3 virt table page ⊆ entries) (hvirt : virt.toNat % 4096 = 0) {k : ℕ}
    (hk : k < 4096) : m.linear (virt + BitVec.ofNat 32 k) = some (page + BitVec.ofNat 32 k) := by
  have hlt := virt.isLt
  have hpos : (virt + BitVec.ofNat 32 k).toNat = virt.toNat + k := by bv_omega
  have hpd : pdIndex (virt + BitVec.ofNat 32 k) = pdIndex virt := by
    unfold pdIndex
    omega
  have hpt : ptIndex (virt + BitVec.ofNat 32 k) = ptIndex virt := by
    unfold ptIndex
    omega
  have hpde := (hm.ram _ (hwalk (Or.inl rfl))).2
  have hpte := (hm.ram _ (hwalk (Or.inr rfl))).2
  simp only at hpde hpte
  unfold Machine.linear
  rw [if_pos hm.paging, hm.cr3_eq, pageWalk_of_leads hm.aligned (by rwa [hpd]) (by rwa [hpt]), hpos,
    show (virt.toNat + k) % 2 ^ 12 = k by omega]

/-- One byte of a word stored at an address that the kept entries map to itself. -/
theorem Machine.Keeps.store (hm : m.Keeps cr3 entries) {a w : Word} (ha : a.toNat % 4 = 0)
    (hw : ∀ page, (a, page) ∈ entries → Leads w page) {j : ℕ} (hj : j < 4)
    (hself : m.linear (a + BitVec.ofNat 32 j) = some (a + BitVec.ofNat 32 j)) :
    ∃ m' : Machine, Machine.bus.store m (a + BitVec.ofNat 32 j) (w.extractLsb' (8 * j) 8) =
        some m' ∧ m'.Keeps cr3 entries ∧
      m'.ram = m.ram.put (a + BitVec.ofNat 32 j) (w.extractLsb' (8 * j) 8) := by
  refine ⟨{ m with ram := m.ram.put (a + BitVec.ofNat 32 j) (w.extractLsb' (8 * j) 8) }, ?_,
    ⟨hm.paging, hm.cr3_eq, hm.aligned, hm.ram.put ha hw hj⟩, rfl⟩
  simp only [Machine.bus, hself, Option.map_some]

/-- The bytes of a word in a page that the kept entries map to itself. -/
theorem Machine.Keeps.linear_entry (hm : m.Keeps cr3 entries) {page table : Word} {i : ℕ}
    (hwalk : walkEntries cr3 page table page ⊆ entries) (hpage : page.toNat % 4096 = 0)
    (hi : i < 1024) {j : ℕ} (hj : j < 4) :
    m.linear (entry page i + BitVec.ofNat 32 j) = some (entry page i + BitVec.ofNat 32 j) := by
  have hoffset : entry page i + BitVec.ofNat 32 j = page + BitVec.ofNat 32 (4 * i + j) := by
    rw [entry, BitVec.add_assoc, ← BitVec.ofNat_add]
  rw [hoffset]
  exact hm.linear_eq hwalk hpage (by omega)

/-- A word stored in a page that the kept entries map to itself. -/
theorem Machine.Keeps.storeWord (hm : m.Keeps cr3 entries) {page table w : Word} {i : ℕ}
    (hwalk : walkEntries cr3 page table page ⊆ entries) (hpage : page.toNat % 4096 = 0)
    (hi : i < 1024) (hw : ∀ p, (entry page i, p) ∈ entries → Leads w p) :
    ∃ m' : Machine, Machine.bus.storeWord m (entry page i) w = some m' ∧ m'.Keeps cr3 entries ∧
      m'.ram = m.ram.putWord (entry page i) w := by
  have hentry := toNat_entry_page hpage hi
  have ha : (entry page i).toNat % 4 = 0 := by omega
  have hself : ∀ m' : Machine, m'.Keeps cr3 entries → ∀ j < 4,
      m'.linear (entry page i + BitVec.ofNat 32 j) = some (entry page i + BitVec.ofNat 32 j) :=
    fun m' hm' j hj => hm'.linear_entry hwalk hpage hi hj
  obtain ⟨m₀, hs₀, hm₀, hr₀⟩ := hm.store ha hw (show 0 < 4 by decide) (hself m hm 0 (by decide))
  obtain ⟨m₁, hs₁, hm₁, hr₁⟩ := hm₀.store ha hw (show 1 < 4 by decide) (hself _ hm₀ 1 (by decide))
  obtain ⟨m₂, hs₂, hm₂, hr₂⟩ := hm₁.store ha hw (show 2 < 4 by decide) (hself _ hm₁ 2 (by decide))
  obtain ⟨m₃, hs₃, hm₃, hr₃⟩ := hm₂.store ha hw (show 3 < 4 by decide) (hself _ hm₂ 3 (by decide))
  rw [show entry page i + BitVec.ofNat 32 0 = entry page i by simp] at hs₀ hr₀
  replace hs₀ : Machine.bus.store m (entry page i) (w.extractLsb' 0 8) = some m₀ := hs₀
  replace hs₁ : Machine.bus.store m₀ (entry page i + 1) (w.extractLsb' 8 8) = some m₁ := hs₁
  replace hs₂ : Machine.bus.store m₁ (entry page i + 2) (w.extractLsb' 16 8) = some m₂ := hs₂
  replace hs₃ : Machine.bus.store m₂ (entry page i + 3) (w.extractLsb' 24 8) = some m₃ := hs₃
  refine ⟨m₃, ?_, hm₃, ?_⟩
  · simp only [Bus.storeWord, hs₀, hs₁, hs₂, hs₃, Option.bind_eq_bind, Option.bind_some]
  · rw [hr₃, hr₂, hr₁, hr₀]
    rfl

end Store

end Nimbu
