import Nimbu.Kernel.Tlb
import Nimbu.Kernel.RoundTrip

/-!
# When the translation buffer may be trusted

The buffer stays coherent over a call when every page whose walk changes is dropped.
`vmm_map` and `vmm_unmap` drop the page they are called for. The page that shares its
entry, 3 GB above or below, keeps what the processor remembers.
-/

namespace Nimbu

/-- The page of an address is mapped by a table that two directory entries lead to. -/
def TwiceMapped (p : Word) : Prop := pdIndex p < 4 ∨ 768 ≤ pdIndex p ∧ pdIndex p < 772

/-- A call on a page that is mapped twice leaves the frame of a present entry alone. -/
def VmState.KeepsAlias (st : StaticTables) (x : VmState) : VmCall → Prop
  | .map virt phys flags => virt % pageSize = 0 → phys % pageSize = 0 → TwiceMapped virt →
      st.pte x.machine.ram virt &&& pagePresent ≠ 0 →
      Leads (phys ||| flags) (st.pte x.machine.ram virt &&& frameMask)
  | .unmap virt => TwiceMapped virt → st.pte x.machine.ram virt &&& pagePresent = 0
  | _ => True

/-- The page that a call invalidates when it returns 0. -/
def VmCall.invalidates : VmCall → Option Word
  | .map virt _ _ => some virt
  | .unmap virt => some virt
  | _ => none

/-- The directory leads to the four static tables from both halves. -/
def StaticTables.LowShared (st : StaticTables) (v : Bytes) : Prop :=
  ∀ i < 4, v.word (entry st.directory i) = st.table i ||| presentWrite ∧
    v.word (entry st.directory (768 + i)) = st.table i ||| presentWrite

theorem Aliases.twiceMapped {p q : Word} (h : Aliases p q) : TwiceMapped p ∧ TwiceMapped q := by
  unfold Aliases at h
  unfold TwiceMapped pdIndex
  omega

theorem Aliases.indices {p q : Word} (h : Aliases p q) :
    pdIndex p < 4 ∧ pdIndex q = 768 + pdIndex p ∧ ptIndex q = ptIndex p := by
  unfold Aliases at h
  unfold pdIndex ptIndex
  omega

/-- A page that is mapped twice shares its entry with another page. -/
theorem TwiceMapped.exists_alias {p : Word} (hp : TwiceMapped p) :
    ∃ q : Word, q.toNat % 4096 = 0 ∧ (Aliases p q ∨ Aliases q p) ∧ pageOf p ≠ q := by
  have hlt := p.isLt
  unfold TwiceMapped pdIndex at hp
  have hother : ∀ q : Word, q.toNat / 4096 ≠ p.toNat / 4096 → pageOf p ≠ q := by
    intro q hq heq
    have hpage := pageOf_toNat p
    rw [heq] at hpage
    omega
  rcases hp with hlow | ⟨hlo, hhi⟩
  · have hq : (BitVec.ofNat 32 (0xC0000000 + p.toNat / 4096 * 4096)).toNat =
        0xC0000000 + p.toNat / 4096 * 4096 := by
      rw [BitVec.toNat_ofNat]
      omega
    exact ⟨BitVec.ofNat 32 (0xC0000000 + p.toNat / 4096 * 4096), by omega,
      Or.inl ⟨by omega, by omega⟩, hother _ (by omega)⟩
  · have hq : (BitVec.ofNat 32 (p.toNat / 4096 * 4096 - 0xC0000000)).toNat =
        p.toNat / 4096 * 4096 - 0xC0000000 := by
      rw [BitVec.toNat_ofNat]
      omega
    exact ⟨BitVec.ofNat 32 (p.toNat / 4096 * 4096 - 0xC0000000), by omega,
      Or.inr ⟨by omega, by omega⟩, hother _ (by omega)⟩

section Shared

variable {st : StaticTables} {v v' : Bytes}

/-- The tables of `vmm_init`. -/
theorem StaticTables.Filled.lowShared (hfilled : st.Filled v) : st.LowShared v :=
  fun i hi => ⟨hfilled.low i hi, hfilled.high i hi⟩

/-- The page table of a page that is mapped twice is there. -/
theorem StaticTables.LowShared.present (hshared : st.LowShared v) {p : Word}
    (hp : TwiceMapped p) : st.pde v p &&& pagePresent ≠ 0 := by
  rcases hp with hlow | ⟨hlo, hhi⟩
  · rw [StaticTables.pde, (hshared _ hlow).1]
    exact entry_present _
  · rw [StaticTables.pde, show pdIndex p = 768 + (pdIndex p - 768) by omega,
      (hshared _ (by omega)).2]
    exact entry_present _

/-- Two pages that share their entry. -/
theorem StaticTables.LowShared.entries_eq (hshared : st.LowShared v) {p q : Word}
    (h : Aliases p q ∨ Aliases q p) : st.pde v p = st.pde v q ∧ st.pte v p = st.pte v q := by
  have hboth : ∀ {p q : Word}, Aliases p q →
      st.pde v p = st.pde v q ∧ st.pte v p = st.pte v q := by
    intro p q h
    obtain ⟨hlow, hpd, hpt⟩ := h.indices
    have hpde : st.pde v p = st.pde v q := by
      rw [StaticTables.pde, StaticTables.pde, hpd, (hshared _ hlow).1, (hshared _ hlow).2]
    refine ⟨hpde, ?_⟩
    rw [StaticTables.pte, StaticTables.pte, StaticTables.pageTable, StaticTables.pageTable, hpde,
      hpt]
  rcases h with h | h
  · exact hboth h
  · exact ⟨(hboth h).1.symm, (hboth h).2.symm⟩

/-- A walk depends on the two entries only. -/
theorem StaticTables.SameEntries.pageWalk_eq {q : Word} (hsame : st.SameEntries v v' q) :
    pageWalk v' st.directory q = pageWalk v st.directory q := by
  rw [st.pageWalk_eq, st.pageWalk_eq, hsame.directory]
  by_cases hpresent : st.pde v q &&& pagePresent = 0
  · rw [if_pos hpresent, if_pos hpresent]
  · rw [StaticTables.pte, StaticTables.pageTable_congr hsame.directory, hsame.table hpresent]
    rfl

/-- A walk that finds a frame goes through two present entries. -/
theorem StaticTables.pageWalk_some_iff {q frame : Word} (hq : q.toNat % 4096 = 0) :
    pageWalk v st.directory q = some frame ↔
      st.pde v q &&& pagePresent ≠ 0 ∧ Leads (st.pte v q) frame := by
  have hoffset : q.toNat % 2 ^ 12 = 0 := hq
  rw [st.pageWalk_eq, hoffset, BitVec.add_zero]
  constructor
  · intro h
    split at h
    · cases h
    · rename_i hpde
      split at h
      · cases h
      · rename_i hpte
        exact ⟨hpde, hpte, Option.some.inj h⟩
  · rintro ⟨hpde, hpte, hframe⟩
    replace hpte : st.pte v q &&& pagePresent ≠ 0 := hpte
    rw [if_neg hpde, if_neg hpte, hframe]

end Shared

section Walks

variable {st : StaticTables} {x x' : VmState} {call : VmCall} {reply : VmReply}

/-- The static tables stay in both halves of the directory. -/
theorem VmState.Sound.lowShared (hx : x.Sound st) (hshared : st.LowShared x.machine.ram)
    {v : Bytes} (heffect : VmState.Effect st x call v) : st.LowShared v := by
  have hpde : ∀ a, TwiceMapped a → st.pde v a = st.pde x.machine.ram a := by
    intro a ha
    rcases hx.pde_cases heffect with hpde | ⟨virt, phys, flags, i, -, habsent, -, -, -, hpde⟩
    · exact hpde a
    · rw [hpde, if_neg]
      intro hslot
      apply hshared.present ha
      rw [StaticTables.pde, hslot]
      exact habsent
  intro i hi
  have hslot : ∀ j < 1024, pdIndex (BitVec.ofNat 32 (j * 2 ^ 22)) = j := by
    intro j hj
    rw [pdIndex, BitVec.toNat_ofNat]
    omega
  have hlow := hpde (BitVec.ofNat 32 (i * 2 ^ 22)) (Or.inl (by rw [hslot] <;> omega))
  have hhigh := hpde (BitVec.ofNat 32 ((768 + i) * 2 ^ 22)) (Or.inr (by rw [hslot] <;> omega))
  rw [StaticTables.pde, StaticTables.pde, hslot _ (by omega)] at hlow hhigh
  rw [hlow, hhigh]
  exact hshared i hi

/-- A call that does not return 0 from `vmm_map` or `vmm_unmap` changes the bitmap at most. -/
theorem VmState.Sound.agree_of_quiet (hx : x.Sound st) (hspares : x.Spares st call)
    (hstep : vmStep st x call = some (reply, x'))
    (hquiet : ∀ virt, call.invalidates = some virt → reply ≠ .status 0) :
    x.pmm.AgreeOutside x.machine.ram x'.machine.ram := by
  obtain ⟨-, reply', x'', hstep', -, heffect⟩ := hx.step hspares
  obtain ⟨rfl, rfl⟩ := Prod.mk.inj (Option.some.inj (hstep.symm.trans hstep'))
  cases call with
  | alloc => cases heffect; assumption
  | free addr => cases heffect; assumption
  | getPhys virt => cases heffect; assumption
  | unmap virt =>
    by_cases hmapped : st.pde x.machine.ram virt &&& pagePresent = 0 ∨
        st.pte x.machine.ram virt &&& pagePresent = 0
    · simp only [vmStep, vmmUnmap_of_unmapped (hx.readsTables virt) hmapped, Option.bind_eq_bind,
        Option.bind_some, Option.pure_def, Option.some.injEq, Prod.mk.injEq] at hstep
      rw [← hstep.2]
      exact fun _ _ => rfl
    · rw [not_or] at hmapped
      simp only [vmStep, vmmUnmap_of_mapped (hx.readsTables virt) hmapped.1 hmapped.2] at hstep
      obtain ⟨r, hr, hstep⟩ := Option.bind_eq_some_iff.mp hstep
      obtain ⟨m, -, hr⟩ := Option.bind_eq_some_iff.mp hr
      obtain rfl := Option.some.inj hr
      exact absurd (Prod.mk.inj (Option.some.inj hstep)).1.symm (hquiet virt rfl)
  | map virt phys flags =>
    by_cases haligned : virt % pageSize ≠ 0 ∨ phys % pageSize ≠ 0
    · simp only [vmStep, vmmMap, if_pos haligned, Option.bind_eq_bind, Option.bind_some,
        Option.pure_def, Option.some.injEq, Prod.mk.injEq] at hstep
      rw [← hstep.2]
      exact fun _ _ => rfl
    · rw [not_or, not_not, not_not] at haligned
      simp only [vmStep, vmmMap_of_aligned haligned.1 haligned.2] at hstep
      obtain ⟨r, hr, hstep⟩ := Option.bind_eq_some_iff.mp hstep
      obtain ⟨⟨table, s, m⟩, htable, hr⟩ := Option.bind_eq_some_iff.mp hr
      cases table with
      | some table =>
        obtain ⟨m', -, hr⟩ := Option.bind_eq_some_iff.mp hr
        obtain rfl := Option.some.inj hr
        exact absurd (Prod.mk.inj (Option.some.inj hstep)).1.symm (hquiet virt rfl)
      | none =>
        obtain rfl := Option.some.inj hr
        obtain ⟨-, rfl⟩ := Prod.mk.inj (Option.some.inj hstep)
        by_cases hpresent : st.pde x.machine.ram virt &&& pagePresent = 0
        · have hfit := fun i hfind hsome hzero =>
            ((hspares haligned.1 haligned.2).2 hpresent i hfind hsome hzero).1
          rcases hx.mapTable hpresent hfit with
            ⟨s', m', htable', -, hagree⟩ | ⟨i, v, s', m', -, -, -, -, htable', -⟩
          · obtain ⟨-, -, rfl⟩ : True ∧ s = s' ∧ m = m' := by
              simpa using htable.symm.trans htable'
            exact hagree
          · cases htable.symm.trans htable'
        · have hnone := hx.pageTableOf_eq virt
          rw [if_neg hpresent] at hnone
          simp only [vmmMapTable, hnone, Option.bind_eq_bind, Option.bind_some, Option.pure_def,
            Option.some.injEq, Prod.mk.injEq, reduceCtorEq, false_and] at htable

/-- The pages that share the entry of a page are walked as the entry says. -/
theorem VmState.Sound.pageWalk_replaced (hx : x.Sound st) {virt w q frame : Word} {ram : Bytes}
    (hpresent : st.pde x.machine.ram virt &&& pagePresent ≠ 0)
    (hram : ram =
      x.machine.ram.putWord (entry (st.pageTable x.machine.ram virt) (ptIndex virt)) w)
    (hshared : st.LowShared ram) (halias : Aliases virt q ∨ Aliases q virt)
    (hq : q.toNat % 4096 = 0) : pageWalk ram st.directory q = some frame ↔ Leads w frame := by
  obtain ⟨hpde, hpte⟩ := hx.pte_stored hpresent w hram
  obtain ⟨hpdeq, hpteq⟩ := hshared.entries_eq halias
  rw [StaticTables.pageWalk_some_iff hq, ← hpdeq, ← hpteq, hpte]
  exact and_iff_right hpde

/-- `vmm_map` returns 0 for aligned addresses only. -/
theorem vmStep_map_aligned {virt phys flags : Word}
    (hstep : vmStep st x (.map virt phys flags) = some (.status 0, x')) :
    virt % pageSize = 0 ∧ phys % pageSize = 0 := by
  by_contra hunaligned
  rw [not_and_or] at hunaligned
  simp only [vmStep, vmmMap, if_pos hunaligned, Option.bind_eq_bind, Option.bind_some,
    Option.pure_def, Option.some.injEq, Prod.mk.injEq, VmReply.status.injEq] at hstep
  exact absurd hstep.1 (by decide)

/-- A page that a call does not invalidate is walked as before, if the call keeps the frame
of a page that is mapped twice. -/
theorem VmState.Sound.pageWalk_kept (hx : x.Sound st) (hseparate : st.Separate x.machine.ram)
    (hshared : st.LowShared x.machine.ram) (hspares : x.Spares st call) (hfresh : x.Fresh st call)
    (hkeeps : x.KeepsAlias st call) (hstep : vmStep st x call = some (reply, x')) {q frame : Word}
    (hq : q.toNat % 4096 = 0) (hwalk : pageWalk x.machine.ram st.directory q = some frame)
    (hother : ∀ virt, call.invalidates = some virt → reply = .status 0 → pageOf virt ≠ q) :
    pageWalk x'.machine.ram st.directory q = some frame := by
  obtain ⟨-, reply', x'', hstep', -, heffect⟩ := hx.step hspares
  obtain ⟨rfl, rfl⟩ := Prod.mk.inj (Option.some.inj (hstep.symm.trans hstep'))
  obtain ⟨hpdeq, hleads⟩ := (StaticTables.pageWalk_some_iff hq).mp hwalk
  by_cases hquiet : ∀ virt, call.invalidates = some virt → reply ≠ .status 0
  · rw [(hx.sameEntries_of_agree (hx.agree_of_quiet hspares hstep hquiet) q).pageWalk_eq, hwalk]
  rw [not_forall] at hquiet
  obtain ⟨virt, hquiet⟩ := hquiet
  rw [Classical.not_imp, not_not] at hquiet
  obtain ⟨hvirt, hzero⟩ := hquiet
  have hcall : (∃ phys flags, call = .map virt phys flags) ∨ call = .unmap virt := by
    cases call <;> simp_all [VmCall.invalidates]
  have hne : virt.toNat / 4096 ≠ q.toNat / 4096 := by
    intro hsame
    apply hother virt hvirt hzero
    rw [← pageOf_of_aligned hq]
    exact pageOf_eq_iff.mpr hsame
  by_cases halias : Aliases virt q ∨ Aliases q virt
  · have htwice : TwiceMapped virt :=
      halias.elim (fun h => h.twiceMapped.1) fun h => h.twiceMapped.2
    have hpresent := hshared.present htwice
    obtain ⟨-, hpteq⟩ := hshared.entries_eq halias
    have hmapped : st.pte x.machine.ram virt &&& pagePresent ≠ 0 := by
      rw [hpteq]
      exact hleads.present
    have hshared' := hx.lowShared hshared heffect
    generalize hram : x'.machine.ram = ram at heffect hshared' ⊢
    cases heffect with
    | bitmap hagree => rw [(hx.sameEntries_of_agree hagree q).pageWalk_eq, hwalk]
    | @map p phys flags hpresent' =>
      obtain rfl : p = virt := Option.some.inj hvirt
      rw [hzero] at hstep
      have haligned := vmStep_map_aligned hstep
      have hnew := hkeeps haligned.1 haligned.2 htwice hmapped
      rw [hpteq, hleads.frame] at hnew
      exact (hx.pageWalk_replaced hpresent' rfl hshared' halias hq).mpr hnew
    | @unmap p hpresent' =>
      obtain rfl : p = virt := Option.some.inj hvirt
      exact absurd (hkeeps htwice) hmapped
    | @create p phys flags i v habsent =>
      obtain rfl : p = virt := Option.some.inj hvirt
      exact absurd habsent hpresent
  · rw [not_or] at halias
    have hslot : pdIndex q ≠ pdIndex virt ∨ st.pde x.machine.ram virt &&& pagePresent ≠ 0 := by
      by_cases hsame : pdIndex q = pdIndex virt
      · refine Or.inr ?_
        rw [StaticTables.pde, ← hsame]
        exact hpdeq
      · exact Or.inl hsame
    rw [(hx.sameEntries hseparate hfresh heffect hcall hne halias.1 halias.2 hslot).pageWalk_eq,
      hwalk]

/-- A replaced entry of a page that is mapped twice changes a walk for another page, unless
it leads to the same frame. -/
theorem VmState.Sound.exists_changed_walk (hx : x.Sound st)
    (hshared : st.LowShared x.machine.ram) {virt w : Word} {ram : Bytes}
    (htwice : TwiceMapped virt) (hpte : st.pte x.machine.ram virt &&& pagePresent ≠ 0)
    (hram : ram =
      x.machine.ram.putWord (entry (st.pageTable x.machine.ram virt) (ptIndex virt)) w)
    (hshared' : st.LowShared ram) (hw : ¬ Leads w (st.pte x.machine.ram virt &&& frameMask)) :
    ∃ q frame, q.toNat % 4096 = 0 ∧ pageOf virt ≠ q ∧
      pageWalk x.machine.ram st.directory q = some frame ∧
      pageWalk ram st.directory q ≠ some frame := by
  obtain ⟨q, hq, halias, hne⟩ := htwice.exists_alias
  obtain ⟨hpdeq, hpteq⟩ := hshared.entries_eq halias
  refine ⟨q, st.pte x.machine.ram virt &&& frameMask, hq, hne, ?_, ?_⟩
  · refine (StaticTables.pageWalk_some_iff hq).mpr ⟨?_, ?_⟩
    · rw [← hpdeq]
      exact hshared.present htwice
    · rw [← hpteq]
      exact ⟨hpte, rfl⟩
  · rw [ne_eq, hx.pageWalk_replaced (hshared.present htwice) hram hshared' halias hq]
    exact hw

/-- A call that does not keep the frame of a page that is mapped twice changes the walk for
a page that it does not invalidate. -/
theorem VmState.Sound.exists_stale (hx : x.Sound st) (hshared : st.LowShared x.machine.ram)
    (hspares : x.Spares st call) (hbreaks : ¬ x.KeepsAlias st call) :
    ∃ reply x' virt q frame, vmStep st x call = some (reply, x') ∧
      call.invalidates = some virt ∧ q.toNat % 4096 = 0 ∧ pageOf virt ≠ q ∧
      pageWalk x.machine.ram st.directory q = some frame ∧
      pageWalk x'.machine.ram st.directory q ≠ some frame := by
  obtain ⟨-, reply, x', hstep, -, heffect⟩ := hx.step hspares
  have hshared' := hx.lowShared hshared heffect
  cases call with
  | map virt phys flags =>
    simp only [VmState.KeepsAlias, Classical.not_imp] at hbreaks
    obtain ⟨hvirt, hphys, htwice, hpte, hw⟩ := hbreaks
    have hpresent := hshared.present htwice
    obtain ⟨m, hstore, hram, -⟩ := hx.storeTable hpresent ((hspares hvirt hphys).1 hpresent)
    have hx' : x' = ⟨x.pmm, m⟩ := by
      simp only [vmStep, vmmMap_of_present hvirt hphys (hx.readsTables virt).directory hpresent,
        hstore, Option.bind_eq_bind, Option.bind_some, Option.pure_def, Option.some.injEq,
        Prod.mk.injEq] at hstep
      exact hstep.2.symm
    obtain ⟨q, frame, hq, hne, hwalk, hwalk'⟩ := hx.exists_changed_walk hshared htwice hpte
      (by rw [hx', hram]) hshared' hw
    exact ⟨reply, x', virt, q, frame, hstep, rfl, hq, hne, hwalk, hwalk'⟩
  | unmap virt =>
    simp only [VmState.KeepsAlias, Classical.not_imp] at hbreaks
    obtain ⟨htwice, hpte⟩ := hbreaks
    have hpresent := hshared.present htwice
    obtain ⟨m, hstore, hram, -⟩ := hx.storeTable hpresent (hspares hpresent)
    have hx' : x' = ⟨x.pmm, m⟩ := by
      simp only [vmStep, vmmUnmap_of_mapped (hx.readsTables virt) hpresent hpte, hstore,
        Option.bind_eq_bind, Option.bind_some, Option.pure_def, Option.some.injEq,
        Prod.mk.injEq] at hstep
      exact hstep.2.symm
    have hw : ¬ Leads 0 (st.pte x.machine.ram virt &&& frameMask) := fun h => h.present (by decide)
    obtain ⟨q, frame, hq, hne, hwalk, hwalk'⟩ := hx.exists_changed_walk hshared htwice hpte
      (by rw [hx', hram]) hshared' hw
    exact ⟨reply, x', virt, q, frame, hstep, rfl, hq, hne, hwalk, hwalk'⟩
  | alloc => exact absurd trivial hbreaks
  | free addr => exact absurd trivial hbreaks
  | getPhys virt => exact absurd trivial hbreaks

end Walks

/-- What every permitted call keeps of the state. -/
structure VmState.Settled (st : StaticTables) (x : VmState) : Prop where
  /-- The kernel's own data is within reach. -/
  sound : x.Sound st
  /-- No two slots of the directory share a table but those of the first 16 MB. -/
  separate : st.Separate x.machine.ram
  /-- The slots of the first 16 MB share theirs. -/
  lowShared : st.LowShared x.machine.ram

/-- The calls that spare the kernel's data and create page tables in fresh frames. -/
def VmState.Permits (st : StaticTables) (x : VmState) (call : VmCall) : Prop :=
  x.Spares st call ∧ x.Fresh st call

section Runs

variable {st : StaticTables} {x : VmState} {tlb : Word → Option Word}

theorem VmState.Settled.step (hx : x.Settled st) {call : VmCall} (hcall : x.Permits st call) :
    ∃ reply x', vmStep st x call = some (reply, x') ∧ x'.Settled st := by
  obtain ⟨-, reply, x', hstep, hx', heffect⟩ := hx.sound.step hcall.1
  exact ⟨reply, x', hstep, hx', hx.sound.separate hcall.2 hx.separate heffect,
    hx.sound.lowShared hx.lowShared heffect⟩

/-- What is in the buffer after a call: what was there before, but for the page that the
call has invalidated. -/
theorem tlbAfter_eq_some_iff {call : VmCall} {reply : VmReply} {page frame : Word} :
    tlbAfter tlb call reply page = some frame ↔ tlb page = some frame ∧
      ∀ virt, call.invalidates = some virt → reply = .status 0 → pageOf virt ≠ page := by
  have hboth : ∀ virt : Word,
      (if reply = .status 0 then Function.update tlb (pageOf virt) none else tlb) page =
        some frame ↔ tlb page = some frame ∧ (reply = .status 0 → pageOf virt ≠ page) := by
    intro virt
    by_cases hzero : reply = .status 0
    · rw [if_pos hzero, Function.update_apply]
      by_cases hsame : page = pageOf virt
      · simp [hsame, hzero]
      · simp [hsame, Ne.symm hsame]
    · simp [hzero]
  cases call with
  | map virt phys flags => simpa [tlbAfter, VmCall.invalidates] using hboth virt
  | unmap virt => simpa [tlbAfter, VmCall.invalidates] using hboth virt
  | alloc => simp [tlbAfter, VmCall.invalidates]
  | free addr => simp [tlbAfter, VmCall.invalidates]
  | getPhys virt => simp [tlbAfter, VmCall.invalidates]

/-- A call that keeps the frames of pages mapped twice keeps the buffer coherent. -/
theorem VmState.Settled.coherent_after (hx : x.Settled st)
    (htlb : TlbMachine.Coherent ⟨x.machine, tlb⟩) {call : VmCall} (hcall : x.Permits st call)
    (hkeeps : x.KeepsAlias st call) {reply : VmReply} {x' : VmState}
    (hstep : vmStep st x call = some (reply, x')) (hx' : x'.Settled st) :
    TlbMachine.Coherent ⟨x'.machine, tlbAfter tlb call reply⟩ := by
  intro page frame hpage
  obtain ⟨hold, hne⟩ := tlbAfter_eq_some_iff.mp hpage
  obtain ⟨hq, hwalk⟩ := htlb page frame hold
  simp only [hx.sound.cr3_eq] at hwalk
  simp only [hx'.sound.cr3_eq]
  exact ⟨hq, hx.sound.pageWalk_kept hx.separate hx.lowShared hcall.1 hcall.2 hkeeps hstep hq hwalk
    hne⟩

/-- One permitted call as an event. -/
theorem VmState.Settled.tlbStep_call (hx : x.Settled st)
    (htlb : TlbMachine.Coherent ⟨x.machine, tlb⟩) {call : VmCall} (hcall : x.Permits st call)
    {reply : VmReply} {x' : VmState} (hstep : vmStep st x call = some (reply, x')) :
    tlbStep st (x.behind tlb) (.call call) =
      some (some reply, x'.behind (tlbAfter tlb call reply)) := by
  simp only [tlbStep, hx.sound.tlbCall_eq htlb hcall.1, hstep, Option.map_some]

/-- A run behind a coherent buffer does what the calls do without it. -/
theorem VmState.Settled.exec_tlb (hx : x.Settled st) (htlb : TlbMachine.Coherent ⟨x.machine, tlb⟩)
    (events : List TlbEvent)
    (halong : Along (vmStep st) (fun x call => x.Permits st call ∧ x.KeepsAlias st call) x
      (events.filterMap TlbEvent.vmCall)) :
    ∃ replies x' tlb', exec (tlbStep st) (x.behind tlb) events = some (replies, x'.behind tlb') ∧
      exec (vmStep st) x (events.filterMap TlbEvent.vmCall) =
        some (replies.reduceOption, x') ∧
      TlbMachine.Coherent ⟨x'.machine, tlb'⟩ := by
  let R : TlbState → VmState → Prop := fun y x =>
    ∃ tlb, y = x.behind tlb ∧ x.Settled st ∧ TlbMachine.Coherent ⟨x.machine, tlb⟩
  have hsilent : ∀ {y x a}, R y x → TlbEvent.vmCall a = none →
      ∃ y', tlbStep st y a = some (none, y') ∧ R y' x := by
    rintro _ x a ⟨tlb, rfl, hx, htlb⟩ hevent
    cases a with
    | call c => cases hevent
    | fill virt => exact ⟨_, rfl, _, rfl, hx, htlb.fill virt⟩
    | evict virt => exact ⟨_, rfl, _, rfl, hx, htlb.invlpg virt⟩
  have hcall : ∀ {y x a call}, R y x → TlbEvent.vmCall a = some call →
      x.Permits st call ∧ x.KeepsAlias st call → ∃ reply y' x',
        tlbStep st y a = some (some reply, y') ∧ vmStep st x call = some (reply, x') ∧ R y' x' := by
    rintro _ x a call ⟨tlb, rfl, hx, htlb⟩ hevent ⟨hcall, hkeeps⟩
    obtain ⟨reply, x', hstep, hx'⟩ := hx.step hcall
    cases a with
    | call c =>
      obtain rfl := Option.some.inj hevent
      exact ⟨reply, _, x', hx.tlbStep_call htlb hcall hstep, hstep, _, rfl, hx',
        hx.coherent_after htlb hcall hkeeps hstep hx'⟩
    | fill virt => cases hevent
    | evict virt => cases hevent
  obtain ⟨replies, y, x', hrun, hplain, tlb', rfl, -, htlb'⟩ :=
    exec_of_stuttering R TlbEvent.vmCall hsilent hcall ⟨tlb, rfl, hx, htlb⟩ halong
  exact ⟨replies, x', tlb', hrun, hplain, htlb'⟩

/-- Calls alone leave an empty buffer empty. -/
theorem VmState.Settled.exec_tlb_empty (hx : x.Settled st) {calls : List VmCall}
    {replies : List VmReply} {x' : VmState}
    (halong : Along (vmStep st) (VmState.Permits st) x calls)
    (hrun : exec (vmStep st) x calls = some (replies, x')) :
    x'.Settled st ∧ exec (tlbStep st) (x.behind fun _ => none) (calls.map .call) =
      some (replies.map some, x'.behind fun _ => none) := by
  have hafter : ∀ call reply, tlbAfter (fun _ => none) call reply = fun _ => none := by
    intro call reply
    funext page
    by_contra hpage
    obtain ⟨frame, hframe⟩ := Option.ne_none_iff_exists'.mp hpage
    cases (tlbAfter_eq_some_iff.mp hframe).1
  induction calls generalizing x replies with
  | nil =>
    obtain ⟨rfl, rfl⟩ := Prod.mk.inj (Option.some.inj hrun)
    exact ⟨hx, rfl⟩
  | cons call calls ih =>
    obtain ⟨reply, x₁, rest, hstep, hrest, rfl⟩ := exec_cons_iff.mp hrun
    obtain ⟨reply', x₁', hstep', hx₁⟩ := hx.step halong.1
    obtain ⟨rfl, rfl⟩ := Prod.mk.inj (Option.some.inj (hstep.symm.trans hstep'))
    obtain ⟨hx', hrest'⟩ := ih hx₁ (halong.2 reply x₁ hstep) hrest
    have hfirst := hx.tlbStep_call (TlbMachine.coherent_empty _) halong.1 hstep
    rw [hafter] at hfirst
    exact ⟨hx', exec_cons_iff.mpr ⟨_, _, _, hfirst, hrest', rfl⟩⟩

/-- The processor walks for a page, and a call changes the walk but does not invalidate the
page. -/
theorem VmState.Settled.exec_stale (hx : x.Settled st) {call : VmCall} (hcall : x.Permits st call)
    {reply : VmReply} {x' : VmState} (hstep : vmStep st x call = some (reply, x'))
    {virt q frame : Word} (hvirt : call.invalidates = some virt) (hq : q.toNat % 4096 = 0)
    (hne : pageOf virt ≠ q) (hwalk : pageWalk x.machine.ram st.directory q = some frame)
    (hchanged : pageWalk x'.machine.ram st.directory q ≠ some frame) :
    ∃ replies y, exec (tlbStep st) (x.behind fun _ => none) [.fill q, .call call] =
      some (replies, y) ∧ ¬ y.machine.Coherent := by
  obtain ⟨reply', x'', hstep', hx'⟩ := hx.step hcall
  obtain ⟨rfl, rfl⟩ := Prod.mk.inj (Option.some.inj (hstep.symm.trans hstep'))
  have hfilled := (TlbMachine.coherent_empty x.machine).fill q
  have hlast := hx.tlbStep_call hfilled hcall hstep
  refine ⟨_, _, exec_cons_iff.mpr ⟨_, _, _, rfl, exec_cons_iff.mpr ⟨_, _, _, hlast, rfl, rfl⟩, rfl⟩,
    fun hcoherent => hchanged ?_⟩
  have hpage : tlbAfter (TlbMachine.fill ⟨x.machine, fun _ => none⟩ q).tlb call reply q =
      some frame := by
    refine tlbAfter_eq_some_iff.mpr ⟨?_, fun virt' hvirt' _ => ?_⟩
    · simp only [TlbMachine.fill, pageOf_of_aligned hq, Function.update_self, hx.sound.cr3_eq,
        hwalk]
    · obtain rfl := Option.some.inj (hvirt.symm.trans hvirt')
      exact hne
  have hnow := (hcoherent q frame hpage).2
  simp only [VmState.behind, hx'.sound.cr3_eq] at hnow
  exact hnow

end Runs

/-- After boot the plain state is settled. -/
theorem memoryInit_settled (st : StaticTables) (ram : Bytes) (cr3 totalMemory : Word) :
    ∃ s m, memoryInit st ⟨ram, cr3, false⟩ totalMemory = some (s, m) ∧
      ((∀ c ∈ st.bytes, c ∉ s.physBytes) → VmState.Settled st ⟨s, m⟩) := by
  obtain ⟨s, m, hinit, -, hfilled, hsound⟩ := memoryInit_sound st ram cr3 totalMemory
  exact ⟨s, m, hinit, fun hapart => ⟨hsound hapart, hfilled.separate, hfilled.lowShared⟩⟩

/-- **The buffer does not show.** After `pmm_init` and `vmm_init` with the static page tables
outside of the bitmap, in every order of permitted calls, walks of the processor and losses
of pages: if no call changes the frame of a page that is mapped twice, the calls return what
they return without the buffer and leave the same memory, and the processor translates every
address as the page tables say. -/
theorem tlb_transparent (st : StaticTables) (ram : Bytes) (cr3 totalMemory : Word) :
    ∃ s m, memoryInit st ⟨ram, cr3, false⟩ totalMemory = some (s, m) ∧
      ((∀ c ∈ st.bytes, c ∉ s.physBytes) → ∀ events,
        Along (vmStep st) (fun x call => x.Permits st call ∧ x.KeepsAlias st call) ⟨s, m⟩
          (events.filterMap TlbEvent.vmCall) →
        ∃ replies x tlb,
          exec (tlbStep st) ⟨s, ⟨m, fun _ => none⟩⟩ events =
            some (replies, ⟨x.pmm, ⟨x.machine, tlb⟩⟩) ∧
          exec (vmStep st) ⟨s, m⟩ (events.filterMap TlbEvent.vmCall) =
            some (replies.reduceOption, x) ∧
          ∀ v, TlbMachine.linear ⟨x.machine, tlb⟩ v = x.machine.linear v) := by
  obtain ⟨s, m, hinit, hsettled⟩ := memoryInit_settled st ram cr3 totalMemory
  refine ⟨s, m, hinit, fun hapart events halong => ?_⟩
  obtain ⟨replies, x, tlb, hrun, hplain, htlb⟩ :=
    (hsettled hapart).exec_tlb (TlbMachine.coherent_empty m) events halong
  exact ⟨replies, x, tlb, hrun, hplain, htlb.linear_eq⟩

/-- A page table is created and a page of it mapped, while the processor remembers the page at
0x7000 and forgets it again. -/
theorem tlb_transparent_two_calls :
    ∃ (s : PmmState) (m : Machine) (replies : List (Option VmReply)) (x : VmState)
        (tlb : Word → Option Word),
      memoryInit layoutAt64K ⟨fun _ => 0, 0, false⟩ kmainTotalMemory = some (s, m) ∧
      exec (tlbStep layoutAt64K) ⟨s, ⟨m, fun _ => none⟩⟩
        [.call .alloc, .fill 0x7000, .call (.map 0x40000000 0x5000 3), .evict 0x7000] =
        some (replies, ⟨x.pmm, ⟨x.machine, tlb⟩⟩) ∧
      ∀ v, TlbMachine.linear ⟨x.machine, tlb⟩ v = x.machine.linear v := by
  obtain ⟨s, m, hinit, htransparent⟩ :=
    tlb_transparent layoutAt64K (fun _ => 0) 0 kmainTotalMemory
  obtain ⟨s', m', replies, x, hinit', hrun, hx, habsent, hfind, hfit, hfresh⟩ := kmainMemory_alloc
  obtain ⟨s'', m'', hinit'', hsize, -⟩ :=
    memoryInit_sound layoutAt64K (fun _ => 0) 0 kmainTotalMemory
  replace hinit' : memoryInit layoutAt64K ⟨fun _ => 0, 0, false⟩ kmainTotalMemory =
    some (s', m') := hinit'
  rw [hinit] at hinit' hinit''
  obtain ⟨rfl, rfl⟩ := Prod.mk.inj (Option.some.inj hinit')
  obtain ⟨rfl, rfl⟩ := Prod.mk.inj (Option.some.inj hinit'')
  have hlast : x.Permits layoutAt64K (.map 0x40000000 0x5000 3) ∧
      x.KeepsAlias layoutAt64K (.map 0x40000000 0x5000 3) := by
    refine ⟨⟨hx.spares_create habsent hfind hfit hfresh, fun _ i hfind' _ _ => ?_⟩,
      fun _ _ htwice => ?_⟩
    · rw [hfind] at hfind'
      obtain rfl := Option.some.inj hfind'
      exact hfresh
    · exact absurd htwice (by simp [TwiceMapped, pdIndex])
  have halong : Along (vmStep layoutAt64K)
      (fun x call => x.Permits layoutAt64K call ∧ x.KeepsAlias layoutAt64K call) ⟨s, m⟩
      ([.alloc] ++ [.map 0x40000000 0x5000 3]) := by
    rw [along_append_iff hrun]
    exact ⟨⟨⟨⟨trivial, trivial⟩, trivial⟩, fun _ _ _ => trivial⟩, hlast, fun _ _ _ => trivial⟩
  obtain ⟨replies', y, tlb, hexec, -, hlinear⟩ := htransparent
    (StaticTables.apart_of_page hsize layoutAt64K_apart)
    [.call .alloc, .fill 0x7000, .call (.map 0x40000000 0x5000 3), .evict 0x7000] halong
  exact ⟨s, m, replies', y, tlb, hinit, hexec, hlinear⟩

/-- **When the buffer stays coherent.** After `pmm_init` and `vmm_init` with the static page
tables outside of the bitmap, whatever the processor remembers and forgets between permitted
calls, it never remembers a frame that the page tables no longer give, exactly when no call
changes the frame of a page that is mapped twice. -/
theorem tlb_coherent_iff (st : StaticTables) (ram : Bytes) (cr3 totalMemory : Word) :
    ∃ s m, memoryInit st ⟨ram, cr3, false⟩ totalMemory = some (s, m) ∧
      ((∀ c ∈ st.bytes, c ∉ s.physBytes) → ∀ calls,
        Along (vmStep st) (VmState.Permits st) ⟨s, m⟩ calls →
        ((∀ events, events.filterMap TlbEvent.vmCall <+: calls → ∀ replies y,
            exec (tlbStep st) ⟨s, ⟨m, fun _ => none⟩⟩ events = some (replies, y) →
            y.machine.Coherent) ↔
          Along (vmStep st) (VmState.KeepsAlias st) ⟨s, m⟩ calls)) := by
  obtain ⟨s, m, hinit, hsettled⟩ := memoryInit_settled st ram cr3 totalMemory
  refine ⟨s, m, hinit, fun hapart calls halong => ⟨fun hcoherent => ?_, fun hkeeps => ?_⟩⟩
  · rw [along_iff_forall]
    rintro pre call post rfl replies x hrun
    by_contra hbreaks
    have hpre := halong.of_append
    obtain ⟨hx, hempty⟩ := (hsettled hapart).exec_tlb_empty hpre hrun
    obtain ⟨-, hcall, -⟩ := (along_append_iff hrun).mp halong
    obtain ⟨reply, x', virt, q, frame, hstep, hvirt, hq, hne, hwalk, hstale⟩ :=
      hx.sound.exists_stale hx.lowShared hcall.1 hbreaks
    obtain ⟨replies', y, hlast, hincoherent⟩ :=
      hx.exec_stale hcall hstep hvirt hq hne hwalk hstale
    apply hincoherent
    refine hcoherent (pre.map TlbEvent.call ++ [.fill q, .call call]) ?_ _ y
      (exec_append_iff.mpr ⟨_, _, _, hempty, hlast, rfl⟩)
    rw [List.filterMap_append, List.filterMap_map]
    have hcalls : pre.filterMap (TlbEvent.vmCall ∘ TlbEvent.call) = pre := List.filterMap_some
    rw [hcalls]
    exact ⟨post, by rw [List.append_assoc]; rfl⟩
  · rintro events ⟨post, rfl⟩ replies y hrun
    have hboth := along_and_iff.mpr ⟨halong.of_append, hkeeps.of_append⟩
    obtain ⟨replies', x, tlb, hrun', -, htlb⟩ :=
      (hsettled hapart).exec_tlb (TlbMachine.coherent_empty m) events hboth
    obtain ⟨-, rfl⟩ := Prod.mk.inj (Option.some.inj (hrun.symm.trans hrun'))
    exact htlb

/-- After boot `vmm_unmap` of the page at 0x7000 leaves the processor a frame for its other
address that is no longer in the page tables. -/
theorem tlb_stale_after_unmap :
    ∃ s m events replies y,
      memoryInit layoutAt64K ⟨fun _ => 0, 0, false⟩ kmainTotalMemory = some (s, m) ∧
      events.filterMap TlbEvent.vmCall <+: [.unmap 0x7000] ∧
      exec (tlbStep layoutAt64K) ⟨s, ⟨m, fun _ => none⟩⟩ events = some (replies, y) ∧
      ¬ y.machine.Coherent := by
  obtain ⟨s, m, hinit, hiff⟩ := tlb_coherent_iff layoutAt64K (fun _ => 0) 0 kmainTotalMemory
  obtain ⟨s', m', hinit', hsize, hfilled, -⟩ :=
    memoryInit_sound layoutAt64K (fun _ => 0) 0 kmainTotalMemory
  rw [hinit] at hinit'
  obtain ⟨rfl, rfl⟩ := Prod.mk.inj (Option.some.inj hinit')
  have hmaps := @StaticTables.Filled.maps _ _ hfilled 0x7000 0x7000 (by decide) (by decide)
    (Or.inl rfl)
  have hpermits : VmState.Permits layoutAt64K ⟨s, m⟩ (.unmap 0x7000) :=
    ⟨fun _ => layoutAt64K_spared hfilled (fun _ => rfl) hsize 0, trivial⟩
  have hcall := hiff (StaticTables.apart_of_page hsize layoutAt64K_apart) [.unmap 0x7000]
    ⟨hpermits, fun _ _ _ => trivial⟩
  have hbreaks : ¬ Along (vmStep layoutAt64K) (VmState.KeepsAlias layoutAt64K) ⟨s, m⟩
      [.unmap 0x7000] :=
    fun halong => hmaps.table.present (halong.1 (Or.inl (by decide)))
  rw [← hcall] at hbreaks
  simp only [not_forall] at hbreaks
  obtain ⟨events, hevents, replies, y, hrun, hstale⟩ := hbreaks
  exact ⟨s, m, events, replies, y, hinit, hevents, hrun, hstale⟩

end Nimbu
