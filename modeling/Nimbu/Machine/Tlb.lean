import Nimbu.Machine.Embedding
import Nimbu.Machine.Walks

/-!
# Translations the processor remembers

The processor walks the page tables when it meets a page for the first time, and
keeps the frame in its translation lookaside buffer. It may drop a frame at any time;
it does not notice that an entry in memory has changed.
-/

namespace Nimbu

/-- The first address of the page of an address. -/
def pageOf (v : Word) : Word := v &&& frameMask

theorem pageOf_toNat (v : Word) : (pageOf v).toNat = v.toNat / 4096 * 4096 := by
  have hmod := frame_toNat_mod v
  have hdiv : (pageOf v).toNat / 4096 = v.toNat / 4096 := by
    have hbits : pageOf v >>> 12 = v >>> 12 := by
      apply BitVec.eq_of_getLsbD_eq
      intro i hi
      rw [BitVec.getLsbD_ushiftRight, BitVec.getLsbD_ushiftRight, pageOf, BitVec.getLsbD_and]
      by_cases hlt : 12 + i < 32
      · rw [getLsbD_frameMask hlt, decide_eq_true (by omega), Bool.and_true]
      · rw [BitVec.getLsbD_of_ge v _ (by omega), Bool.false_and]
    have hnat := congrArg BitVec.toNat hbits
    rw [BitVec.toNat_ushiftRight, BitVec.toNat_ushiftRight, Nat.shiftRight_eq_div_pow,
      Nat.shiftRight_eq_div_pow] at hnat
    exact hnat
  unfold pageOf at *
  omega

/-- Two addresses are in one page when their quotients by the page size agree. -/
theorem pageOf_eq_iff {v w : Word} : pageOf v = pageOf w ↔ v.toNat / 4096 = w.toNat / 4096 := by
  rw [← BitVec.toNat_inj, pageOf_toNat, pageOf_toNat]
  omega

theorem pageOf_of_aligned {v : Word} (hv : v.toNat % 4096 = 0) : pageOf v = v :=
  frame_of_aligned hv

/-- An offset stays within its page. -/
theorem pageOf_add {v : Word} (hv : v.toNat % 4096 = 0) {k : ℕ} (hk : k < 4096) :
    pageOf (v + BitVec.ofNat 32 k) = v := by
  have hlt := v.isLt
  apply BitVec.eq_of_toNat_eq
  rw [pageOf_toNat]
  bv_omega

/-- A walk translates the page, and the offset in the page stays. -/
theorem pageWalk_pageOf (ram : Bytes) (cr3 v : Word) : pageWalk ram cr3 v =
    (pageWalk ram cr3 (pageOf v)).map (· + BitVec.ofNat 32 (v.toNat % 2 ^ 12)) := by
  have hpage := pageOf_toNat v
  have hpd : pdIndex (pageOf v) = pdIndex v := by
    unfold pdIndex
    omega
  have hpt : ptIndex (pageOf v) = ptIndex v := by
    unfold ptIndex
    omega
  have hoffset : (pageOf v).toNat % 2 ^ 12 = 0 := by omega
  unfold pageWalk
  rw [hpd, hpt, hoffset]
  simp only
  split
  · rfl
  · split
    · rfl
    · simp only [BitVec.add_zero, Option.map_some]

/-- A machine and the frames its processor remembers for pages. -/
structure TlbMachine where
  /-- Memory and control registers. -/
  machine : Machine
  /-- The remembered frame of a page. -/
  tlb : Word → Option Word

namespace TlbMachine

/-- The physical address of a linear one: a remembered frame is used without a walk. -/
def linear (t : TlbMachine) (v : Word) : Option Word :=
  if t.machine.paging then
    match t.tlb (pageOf v) with
    | some frame => some (frame + BitVec.ofNat 32 (v.toNat % 2 ^ 12))
    | none => pageWalk t.machine.ram t.machine.cr3 v
  else some v

/-- The memory bus behind the buffer. -/
def bus : Bus TlbMachine where
  load t v := (t.linear v).map t.machine.ram
  store t v b := (t.linear v).map fun p =>
    { t with machine := { t.machine with ram := t.machine.ram.put p b } }

/-- The processor walks the tables for an address and remembers what it finds. -/
def fill (t : TlbMachine) (v : Word) : TlbMachine :=
  let frame := pageWalk t.machine.ram t.machine.cr3 (pageOf v)
  { t with tlb := Function.update t.tlb (pageOf v) frame }

/-- The frame of a page is dropped: `invlpg`, or the processor makes room. -/
def invlpg (t : TlbMachine) (v : Word) : TlbMachine :=
  { t with tlb := Function.update t.tlb (pageOf v) none }

/-- Every remembered frame is what a walk would find now. -/
def Coherent (t : TlbMachine) : Prop :=
  ∀ page frame, t.tlb page = some frame →
    page.toNat % 4096 = 0 ∧ pageWalk t.machine.ram t.machine.cr3 page = some frame

variable {t : TlbMachine} {m : Machine} {tlb : Word → Option Word}

/-- Nothing remembered, nothing wrong: a load of `cr3` leaves the buffer so. -/
theorem coherent_empty (m : Machine) : Coherent ⟨m, fun _ => none⟩ := by
  intro page frame hpage
  exact absurd hpage (by simp)

/-- A walk brings nothing wrong into the buffer. -/
theorem Coherent.fill (ht : t.Coherent) (v : Word) : (t.fill v).Coherent := by
  intro page frame hpage
  simp only [TlbMachine.fill, Function.update_apply] at hpage ⊢
  split at hpage
  · rename_i hsame
    rw [hsame]
    exact ⟨frame_toNat_mod v, hpage⟩
  · exact ht page frame hpage

/-- Forgetting is never wrong. -/
theorem Coherent.invlpg (ht : t.Coherent) (v : Word) : (t.invlpg v).Coherent := by
  intro page frame hpage
  simp only [TlbMachine.invlpg, Function.update_apply] at hpage
  split at hpage
  · exact absurd hpage (by simp)
  · exact ht page frame hpage

/-- Behind a coherent buffer addresses are translated as by the tables. -/
theorem Coherent.linear_eq (ht : t.Coherent) (v : Word) : t.linear v = t.machine.linear v := by
  unfold TlbMachine.linear Machine.linear
  by_cases hpaging : t.machine.paging
  · rw [if_pos hpaging, if_pos hpaging]
    cases hpage : t.tlb (pageOf v) with
    | none => rfl
    | some frame =>
      rw [pageWalk_pageOf, (ht _ _ hpage).2]
      rfl
  · rw [if_neg hpaging, if_neg hpaging]

/-- The machine is embedded wherever addresses are translated alike. -/
theorem embeds_of_linear (tlb : Word → Option Word) (ok : Machine → Prop) (S : Set Word)
    (hlinear : ∀ {m a}, ok m → a ∈ S → linear ⟨m, tlb⟩ a = m.linear a) :
    Machine.bus.Embeds bus (fun m => ⟨m, tlb⟩) ok S where
  load_eq hm ha := by
    simp only [Machine.bus, bus, hlinear hm ha]
  store_eq b hm ha := by
    simp only [Machine.bus, bus, hlinear hm ha, Option.map_map]
    rfl

/-- A coherent buffer does not show in what is read, and a first byte is stored alike. -/
theorem Coherent.embeds (ht : Coherent ⟨m, tlb⟩) (S : Set Word) :
    Machine.bus.Embeds bus (fun m => ⟨m, tlb⟩) (· = m) S := by
  refine embeds_of_linear tlb _ S fun hm _ => ?_
  rw [hm]
  exact ht.linear_eq _

/-- Where the kept entries map a page and the buffer remembers nothing else for it,
its addresses are translated alike in every memory that keeps the entries. -/
theorem linear_of_keeps {cr3 virt table page : Word} {entries : Set (Word × Word)}
    (hm : m.Keeps cr3 entries) (hwalk : walkEntries cr3 virt table page ⊆ entries)
    (hvirt : virt.toNat % 4096 = 0)
    (htlb : ∀ frame, tlb virt = some frame → frame = page) {k : ℕ} (hk : k < 4096) :
    linear ⟨m, tlb⟩ (virt + BitVec.ofNat 32 k) = m.linear (virt + BitVec.ofNat 32 k) := by
  have hself := hm.linear_eq hwalk hvirt hk
  have hoffset : (virt + BitVec.ofNat 32 k).toNat % 2 ^ 12 = k := by
    have hlt := virt.isLt
    bv_omega
  unfold linear
  simp only [if_pos hm.paging, pageOf_add hvirt hk, hoffset]
  cases hpage : tlb virt with
  | none =>
    simp only [Machine.linear, if_pos hm.paging]
  | some frame =>
    simp only [hself, htlb frame hpage]

/-- A word is stored alike in a page that the kept entries map to itself, if the buffer
remembers nothing else for the page. -/
theorem storeWord_of_keeps {cr3 page table w : Word} {entries : Set (Word × Word)} {i : ℕ}
    (hm : m.Keeps cr3 entries) (hwalk : walkEntries cr3 page table page ⊆ entries)
    (hpage : page.toNat % 4096 = 0) (hi : i < 1024)
    (hw : ∀ p, (entry page i, p) ∈ entries → Leads w p)
    (htlb : ∀ frame, tlb page = some frame → frame = page) :
    bus.storeWord ⟨m, tlb⟩ (entry page i) w =
      (Machine.bus.storeWord m (entry page i) w).map fun m => ⟨m, tlb⟩ := by
  have hentry := toNat_entry_page hpage hi
  have hoffset : ∀ j, entry page i + BitVec.ofNat 32 j = page + BitVec.ofNat 32 (4 * i + j) := by
    intro j
    rw [entry, BitVec.add_assoc, ← BitVec.ofNat_add]
  have hembeds := embeds_of_linear tlb (fun m => m.Keeps cr3 entries)
    {a | ∃ k < 4096, a = page + BitVec.ofNat 32 k} (by
      rintro m a hm ⟨k, hk, rfl⟩
      exact linear_of_keeps hm hwalk hpage htlb hk)
  refine hembeds.storeWord_eq hm w (fun j hj => ⟨4 * i + j, by omega, hoffset j⟩) ?_
  intro m m' j hj hm hstore
  obtain ⟨m'', hstore', hm'', -⟩ :=
    hm.store (by omega) hw hj (hm.linear_entry hwalk hpage hi hj)
  obtain rfl := Option.some.inj (hstore.symm.trans hstore')
  exact hm''

end TlbMachine

end Nimbu
