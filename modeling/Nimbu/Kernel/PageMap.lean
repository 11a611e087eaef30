import Nimbu.Kernel.TlbCoherence
import Nimbu.Mm.VmmFresh

/-!
# The address space as a map

What the kernel needs of `vmm.c` is a map from addresses to frames: `vmm_map` puts a
frame at a page, `vmm_unmap` takes it away, and both act on the page that shares the
entry as well. In runs of permitted calls that find clean frames for new page tables,
the directory and its tables are such a map, both for `vmm_get_phys` and for the
processor.
-/

namespace Nimbu

/-- Two addresses lie in one page, or in two pages that share their entry. -/
def SharesEntry (p q : Word) : Prop :=
  p.toNat / 4096 = q.toNat / 4096 ∨ Aliases p q ∨ Aliases q p

instance (p q : Word) : Decidable (Aliases p q) := inferInstanceAs (Decidable (_ ∧ _))

instance (p q : Word) : Decidable (SharesEntry p q) :=
  inferInstanceAs (Decidable (_ ∨ _ ∨ _))

/-- The frame that the entry of a page table leads to. -/
def entryFrame (w : Word) : Option Word :=
  if w &&& pagePresent = 0 then none else some (w &&& frameMask)

/-- The map after boot: the first 16 MB at their own addresses and from 3 GB on. -/
def bootFrame (a : Word) : Option Word :=
  if a.toNat < 0x1000000 then some (pageOf a)
  else if 0xC0000000 ≤ a.toNat ∧ a.toNat < 0xC1000000 then some (pageOf (a - kernelVirtBase))
  else none

/-- The map with another frame, or none, at the page of an address. -/
def setFrame (f : Word → Option Word) (virt : Word) (frame : Option Word) (a : Word) :
    Option Word :=
  if SharesEntry virt a then frame else f a

/-- The map after a call that returned. -/
def pageMapAfter (f : Word → Option Word) : VmCall → VmReply → Word → Option Word
  | .map virt phys flags, reply =>
    if reply = .status 0 then setFrame f virt (entryFrame (phys ||| flags)) else f
  | .unmap virt, reply => if reply = .status 0 then setFrame f virt none else f
  | _, _ => f

/-- The frame for a new page table has no present entry but the one that is written. -/
def VmState.Clean (st : StaticTables) (x : VmState) : VmCall → Prop
  | .map virt _ _ => st.pde x.machine.ram virt &&& pagePresent = 0 → ∀ i,
      findFreePage Machine.bus x.pmm x.machine = some i → i ≠ 0xFFFFFFFF → i * pageSize ≠ 0 →
        x.machine.ram.NoneElsePresent (i * pageSize) (ptIndex virt)
  | _ => True

/-- The frame that the tables in a memory give an address. -/
def StaticTables.frameOf (st : StaticTables) (v : Bytes) (a : Word) : Option Word :=
  if st.pde v a &&& pagePresent = 0 then none else entryFrame (st.pte v a)

section Frames

variable {st : StaticTables} {v v' : Bytes} {a b : Word}

/-- `vmm_get_phys` returns the frame, and 0 if there is none. -/
theorem StaticTables.physOf_eq_frameOf : st.physOf v a = (st.frameOf v a).getD 0 := by
  unfold physOf frameOf entryFrame
  split
  · rfl
  · split <;> rfl

/-- The processor adds the offset to the frame. -/
theorem StaticTables.pageWalk_eq_frameOf : pageWalk v st.directory a =
    (st.frameOf v a).map (· + BitVec.ofNat 32 (a.toNat % 2 ^ 12)) := by
  rw [st.pageWalk_eq]
  unfold frameOf entryFrame
  split
  · rfl
  · split <;> rfl

/-- The frame depends on the two entries only. -/
theorem StaticTables.SameEntries.frameOf_eq (hsame : st.SameEntries v v' a) :
    st.frameOf v' a = st.frameOf v a := by
  unfold StaticTables.frameOf StaticTables.pte
  rw [hsame.directory, StaticTables.pageTable_congr hsame.directory]
  by_cases hpresent : st.pde v a &&& pagePresent = 0
  · rw [if_pos hpresent, if_pos hpresent]
  · rw [hsame.table hpresent]

/-- Pages that share their entry have the same frame. -/
theorem StaticTables.LowShared.frameOf_eq (hshared : st.LowShared v) (h : SharesEntry a b) :
    st.frameOf v a = st.frameOf v b := by
  rcases h with hpage | halias
  · obtain ⟨hpd, hpt⟩ := indices_of_page hpage
    unfold StaticTables.frameOf StaticTables.pte StaticTables.pageTable StaticTables.pde
    rw [hpd, hpt]
  · obtain ⟨hpde, hpte⟩ := hshared.entries_eq halias
    rw [StaticTables.frameOf, StaticTables.frameOf, hpde, hpte]

/-- The tables that `vmm_init` fills are the map after boot. -/
theorem StaticTables.Filled.frameOf_eq (hfilled : st.Filled v) (a : Word) :
    st.frameOf v a = bootFrame a := by
  have hlt := a.isLt
  by_cases hpresent : st.pde v a &&& pagePresent = 0
  · have hslot : ∀ i < 4, pdIndex a ≠ i ∧ pdIndex a ≠ 768 + i := by
      intro i hi
      rw [← not_or]
      intro hdir
      rw [(hfilled.entries hi hdir rfl).1] at hpresent
      exact entry_present _ hpresent
    have hlow := hslot (pdIndex a)
    have hhigh := hslot (pdIndex a - 768)
    unfold pdIndex at hlow hhigh
    rw [frameOf, if_pos hpresent, bootFrame, if_neg (by omega), if_neg (by omega)]
  · obtain ⟨i, hi, hdir, -⟩ := hfilled.slot_of_present hpresent
    obtain ⟨-, hpte⟩ := hfilled.entries hi hdir rfl
    have hindex := ptIndex_lt a
    have hpage : (BitVec.ofNat 32 ((1024 * i + ptIndex a) * 4096)).toNat =
        (1024 * i + ptIndex a) * 4096 := by
      rw [BitVec.toNat_ofNat]
      exact Nat.mod_eq_of_lt (by omega)
    have hframe : entryFrame (st.pte v a) =
        some (BitVec.ofNat 32 ((1024 * i + ptIndex a) * 4096)) := by
      have hentry : (BitVec.ofNat 32 ((1024 * i + ptIndex a) * 4096) ||| presentWrite) &&&
          pagePresent ≠ 0 := entry_present _
      rw [hpte, entryFrame, if_neg hentry, frame_of_entry (by omega)]
    have hbase : kernelVirtBase.toNat = 0xC0000000 := rfl
    rw [frameOf, if_neg hpresent, hframe, bootFrame]
    have hpd : a.toNat / 4096 = pdIndex a * 1024 + ptIndex a := by
      unfold pdIndex ptIndex
      omega
    rcases hdir with hdir | hdir
    · rw [if_pos (by omega), Option.some.injEq, ← BitVec.toNat_inj, hpage, pageOf_toNat]
      omega
    · have hsub : (a - kernelVirtBase).toNat = a.toNat - 0xC0000000 := by bv_omega
      rw [if_neg (by omega), if_pos (by omega), Option.some.injEq, ← BitVec.toNat_inj, hpage,
        pageOf_toNat, hsub]
      omega

end Frames

section Steps

variable {st : StaticTables} {x x' : VmState} {call : VmCall} {reply : VmReply}
  {virt phys flags : Word}

/-- `vmm_unmap` clears the entry of a page that is mapped, and refuses the others. -/
theorem VmState.Sound.unmap_reply (hx : x.Sound st) (hspares : x.Spares st (.unmap virt))
    (hstep : vmStep st x (.unmap virt) = some (reply, x')) :
    (st.frameOf x.machine.ram virt = none ∧ reply = .status (-1)) ∨
    ((st.frameOf x.machine.ram virt).isSome ∧ reply = .status 0 ∧
      st.pde x.machine.ram virt &&& pagePresent ≠ 0 ∧
      st.pde x'.machine.ram virt &&& pagePresent ≠ 0 ∧ st.pte x'.machine.ram virt = 0) := by
  have hread := hx.readsTables virt
  unfold StaticTables.frameOf entryFrame
  by_cases hmapped : st.pde x.machine.ram virt &&& pagePresent = 0 ∨
      st.pte x.machine.ram virt &&& pagePresent = 0
  · left
    simp only [vmStep, vmmUnmap_of_unmapped hread hmapped, Option.bind_eq_bind, Option.bind_some,
      Option.pure_def, Option.some.injEq, Prod.mk.injEq] at hstep
    refine ⟨?_, hstep.1.symm⟩
    rcases hmapped with hpde | hpte
    · rw [if_pos hpde]
    · rw [if_pos hpte, ite_self]
  · right
    rw [not_or] at hmapped
    obtain ⟨hpde, hpte⟩ := hmapped
    obtain ⟨m, hstore, hram, -⟩ := hx.storeTable hpde (hspares hpde)
    simp only [vmStep, vmmUnmap_of_mapped hread hpde hpte, hstore, Option.bind_eq_bind,
      Option.bind_some, Option.pure_def, Option.some.injEq, Prod.mk.injEq] at hstep
    obtain ⟨rfl, rfl⟩ := hstep
    refine ⟨?_, rfl, hpde, hx.pte_stored hpde 0 hram⟩
    rw [if_neg hpde, if_neg hpte]
    rfl

/-- When `vmm_map` creates a page table in a clean frame, the other pages of the 4 MB are
not mapped. -/
theorem VmState.Sound.frameOf_created (hx : x.Sound st)
    (hclean : x.Clean st (.map virt phys flags)) {v : Bytes}
    (heffect : VmState.Effect st x (.map virt phys flags) v)
    (habsent : st.pde x.machine.ram virt &&& pagePresent = 0) {a : Word}
    (hslot : pdIndex a = pdIndex virt) (hother : ptIndex a ≠ ptIndex virt) :
    st.frameOf v a = none := by
  have hsame : st.pde x.machine.ram a = st.pde x.machine.ram virt := by
    rw [StaticTables.pde, StaticTables.pde, hslot]
  cases heffect with
  | bitmap hagree => rw [StaticTables.frameOf, hx.pde_eq hagree, hsame, if_pos habsent]
  | map hpresent => exact absurd habsent hpresent
  | @create _ _ _ i v _ hfind hsome hzero hfit hagree =>
    have haligned := toNat_mul_pageSize i
    have hpde : st.pde ((v.putWord (entry st.directory (pdIndex virt))
        (i * pageSize ||| presentWrite)).putWord (entry (i * pageSize) (ptIndex virt))
        (phys ||| flags)) a = i * pageSize ||| presentWrite := by
      rw [st.pde_putTable haligned hfit.ne_directory, st.pde_putWord, if_pos hslot]
    rw [StaticTables.frameOf, StaticTables.pte, StaticTables.pageTable, hpde,
      frame_of_entry haligned, Bytes.putWord_entry_of_ne _ haligned haligned (ptIndex_lt a)
        (ptIndex_lt virt) (Or.inr hother),
      Bytes.putWord_entry_of_ne _ haligned st.directory_aligned (ptIndex_lt a) (pdIndex_lt virt)
        (Or.inl hfit.ne_directory),
      hagree.word_eq hx.size_le haligned hfit.not_bitmap (ptIndex_lt a), entryFrame,
      if_pos (hclean habsent i hfind hsome hzero _ (ptIndex_lt a) hother), ite_self]

/-- The entry of the page of a call, and of the page that shares it, is what the call has
written. -/
theorem StaticTables.LowShared.frameOf_written {v : Bytes} (hshared : st.LowShared v)
    (hpde : st.pde v virt &&& pagePresent ≠ 0) {w a : Word} (hpte : st.pte v virt = w)
    (h : SharesEntry virt a) : st.frameOf v a = entryFrame w := by
  rw [← hshared.frameOf_eq h, StaticTables.frameOf, if_neg hpde, hpte]

/-- After a permitted call that finds a clean frame, the tables are the map after the call. -/
theorem VmState.Settled.frameOf_step (hx : x.Settled st) (hcall : x.Permits st call)
    (hclean : x.Clean st call) (hstep : vmStep st x call = some (reply, x')) (a : Word) :
    st.frameOf x'.machine.ram a = pageMapAfter (st.frameOf x.machine.ram) call reply a := by
  obtain ⟨hspares, hfresh⟩ := hcall
  obtain ⟨reply', x'', hstep', hx'⟩ := hx.step ⟨hspares, hfresh⟩
  obtain ⟨rfl, rfl⟩ := Prod.mk.inj (Option.some.inj (hstep.symm.trans hstep'))
  obtain ⟨-, reply', x'', hstep', -, heffect⟩ := hx.sound.step hspares
  obtain ⟨rfl, rfl⟩ := Prod.mk.inj (Option.some.inj (hstep.symm.trans hstep'))
  have hquiet : (∀ virt, call.invalidates = some virt → reply ≠ .status 0) →
      st.frameOf x'.machine.ram a = st.frameOf x.machine.ram a := fun hquiet =>
    (hx.sound.sameEntries_of_agree (hx.sound.agree_of_quiet hspares hstep hquiet) a).frameOf_eq
  have hothers : ∀ virt, (∃ phys flags, call = .map virt phys flags) ∨ call = .unmap virt →
      ¬ SharesEntry virt a → (pdIndex a ≠ pdIndex virt ∨
        st.pde x.machine.ram virt &&& pagePresent ≠ 0) →
      st.frameOf x'.machine.ram a = st.frameOf x.machine.ram a := by
    intro virt hvirt hnot hslot
    rw [SharesEntry, not_or, not_or] at hnot
    exact (hx.sound.sameEntries hx.separate hfresh heffect hvirt hnot.1 hnot.2.1 hnot.2.2
      hslot).frameOf_eq
  cases call with
  | alloc => exact hquiet fun virt h => by cases h
  | free addr => exact hquiet fun virt h => by cases h
  | getPhys virt => exact hquiet fun virt h => by cases h
  | unmap virt =>
    rw [pageMapAfter]
    rcases hx.sound.unmap_reply hspares hstep with ⟨-, rfl⟩ | ⟨-, rfl, hpde, hpde', hpte⟩
    · exact hquiet fun _ _ => by decide
    · rw [if_pos rfl, setFrame]
      split
      · rename_i hshares
        exact hx'.lowShared.frameOf_written hpde' hpte hshares
      · rename_i hnot
        exact hothers virt (Or.inr rfl) hnot (Or.inr hpde)
  | map virt phys flags =>
    rw [pageMapAfter]
    by_cases hzero : reply = .status 0
    · subst hzero
      obtain ⟨hvirt, hphys⟩ := vmStep_map_aligned hstep
      obtain ⟨-, ret, s, m, hmap, -, -, hwritten⟩ := hx.sound.map hvirt hphys hspares
      simp only [vmStep, hmap, Option.bind_eq_bind, Option.bind_some, Option.pure_def,
        Option.some.injEq, Prod.mk.injEq, VmReply.status.injEq] at hstep
      obtain ⟨rfl, rfl⟩ := hstep
      obtain ⟨hpde, hpte⟩ := hwritten rfl
      rw [if_pos rfl, setFrame]
      split
      · rename_i hshares
        exact hx'.lowShared.frameOf_written hpde hpte hshares
      · rename_i hnot
        by_cases hslot : pdIndex a ≠ pdIndex virt ∨ st.pde x.machine.ram virt &&& pagePresent ≠ 0
        · exact hothers virt (Or.inl ⟨phys, flags, rfl⟩) hnot hslot
        · rw [not_or, not_not, not_not] at hslot
          obtain ⟨hslot, habsent⟩ := hslot
          have hother : ptIndex a ≠ ptIndex virt := fun hpt =>
            hnot (Or.inl (page_eq_of_indices hslot.symm hpt.symm))
          have hnone : st.frameOf x.machine.ram a = none := by
            rw [StaticTables.frameOf, StaticTables.pde, hslot]
            exact if_pos habsent
          rw [hx.sound.frameOf_created hclean heffect habsent hslot hother, hnone]
    · rw [if_neg hzero]
      exact hquiet fun _ _ => hzero

end Steps

/-- The address space is a map: for the processor, for `vmm_get_phys` and for `vmm_unmap`. -/
structure VmState.ActsAs (st : StaticTables) (x : VmState) (f : Word → Option Word) : Prop where
  /-- The processor translates an address to the frame and the offset, or faults. -/
  linear : ∀ a, x.machine.linear a = (f a).map (· + BitVec.ofNat 32 (a.toNat % 2 ^ 12))
  /-- `vmm_get_phys` returns the frame, or 0. -/
  getPhys : ∀ a, vmStep st x (.getPhys a) = some (.address ((f a).getD 0), x)
  /-- `vmm_unmap` returns 0 where there is a frame, and -1 elsewhere. -/
  unmap : ∀ a, x.Spares st (.unmap a) → ∃ x',
    vmStep st x (.unmap a) = some (.status (if (f a).isSome then 0 else -1), x')

/-- A settled state acts as the map in its tables. -/
theorem VmState.Settled.actsAs {st : StaticTables} {x : VmState} (hx : x.Settled st)
    {f : Word → Option Word} (hf : ∀ a, st.frameOf x.machine.ram a = f a) : x.ActsAs st f where
  linear a := by
    rw [Machine.linear, if_pos hx.sound.paging, hx.sound.cr3_eq, StaticTables.pageWalk_eq_frameOf,
      hf]
  getPhys a := by
    simp only [vmStep, vmmGetPhys_eq (hx.sound.readsTables a), StaticTables.physOf_eq_frameOf, hf,
      Option.bind_eq_bind, Option.bind_some, Option.pure_def]
  unmap a hspares := by
    obtain ⟨-, reply, x', hstep, -⟩ := hx.sound.step hspares
    refine ⟨x', ?_⟩
    rw [hstep]
    rcases hx.sound.unmap_reply hspares hstep with ⟨hnone, rfl⟩ | ⟨hsome, rfl, -⟩
    · rw [hf] at hnone
      rw [hnone]
      rfl
    · rw [hf] at hsome
      rw [if_pos hsome]

/-- **The memory managers refine a map from pages to frames.** After `pmm_init` and
`vmm_init` with the static page tables outside of the bitmap, in every run of permitted
calls that finds clean frames for new page tables, the address space is the map after boot,
with the frame of each successful `vmm_map` at its page and the page that shares the entry,
and without those of each successful `vmm_unmap`. -/
theorem vmm_refines_page_map (st : StaticTables) (ram : Bytes) (cr3 totalMemory : Word) :
    ∃ s m, memoryInit st ⟨ram, cr3, false⟩ totalMemory = some (s, m) ∧
      ((∀ c ∈ st.bytes, c ∉ s.physBytes) → ∀ calls,
        Along (vmStep st) (fun x call => x.Permits st call ∧ x.Clean st call) ⟨s, m⟩ calls →
        ∃ replies x, exec (vmStep st) ⟨s, m⟩ calls = some (replies, x) ∧
          x.ActsAs st (ledger pageMapAfter bootFrame calls replies)) := by
  obtain ⟨s, m, hinit, -, hfilled, hsound⟩ := memoryInit_sound st ram cr3 totalMemory
  refine ⟨s, m, hinit, fun hapart calls halong => ?_⟩
  obtain ⟨replies, x, hrun, hx, hf⟩ := exec_ledger_along pageMapAfter
    (fun (x : VmState) f => x.Settled st ∧ ∀ a, st.frameOf x.machine.ram a = f a)
    (fun {x f call} hinv hcall => by
      obtain ⟨reply, x', hstep, hx'⟩ := hinv.1.step hcall.1
      obtain rfl : st.frameOf x.machine.ram = f := funext hinv.2
      exact ⟨reply, x', hstep, hx', hinv.1.frameOf_step hcall.1 hcall.2 hstep⟩)
    ⟨⟨hsound hapart, hfilled.separate, hfilled.lowShared⟩, hfilled.frameOf_eq⟩ halong
  exact ⟨replies, x, hrun, hx.actsAs hf⟩

/-- The run of `pmm_alloc` and the call of `vmm_map` that creates a page table in the frame
at 0x1000, which is clean. -/
theorem vmm_refines_page_map_new_table :
    ∃ s m replies x, memoryInit layoutAt64K ⟨fun _ => 0, 0, false⟩ kmainTotalMemory = some (s, m) ∧
      exec (vmStep layoutAt64K) ⟨s, m⟩ [.alloc, .map 0x40000000 0x5000 3] = some (replies, x) ∧
      x.ActsAs layoutAt64K
        (ledger pageMapAfter bootFrame [.alloc, .map 0x40000000 0x5000 3] replies) := by
  obtain ⟨s, m, hinit, hmap⟩ := vmm_refines_page_map layoutAt64K (fun _ => 0) 0 kmainTotalMemory
  obtain ⟨s', m', replies, x, hinit', hrun, hx, habsent, hfind, hfit, hfresh⟩ := kmainMemory_alloc
  obtain ⟨s'', m'', hinit'', hsize, -, hsound⟩ :=
    memoryInit_sound layoutAt64K (fun _ => 0) 0 kmainTotalMemory
  replace hinit' : memoryInit layoutAt64K ⟨fun _ => 0, 0, false⟩ kmainTotalMemory =
    some (s', m') := hinit'
  rw [hinit] at hinit' hinit''
  obtain ⟨rfl, rfl⟩ := Prod.mk.inj (Option.some.inj hinit')
  obtain ⟨rfl, rfl⟩ := Prod.mk.inj (Option.some.inj hinit'')
  have hapart := StaticTables.apart_of_page hsize layoutAt64K_apart
  -- The frame holds zeros, as all memory below the static arrays does after boot.
  have hclean : x.machine.ram.NoneElsePresent (1 * pageSize) (ptIndex 0x40000000) := by
    obtain ⟨reply, y, replies', hstep, hnil, -⟩ := exec_cons_iff.mp hrun
    obtain ⟨-, rfl⟩ : [] = replies' ∧ y = x := by simpa using hnil
    obtain ⟨-, reply', y', hstep', -, heffect⟩ :=
      @VmState.Sound.step _ _ (hsound hapart) .alloc trivial
    obtain ⟨-, rfl⟩ := Prod.mk.inj (Option.some.inj (hstep.symm.trans hstep'))
    intro j hj hne
    cases heffect with
    | bitmap hagree =>
      have hzero : ∀ c : Word, c.toNat < 0x110000 → y.machine.ram c = 0 := by
        intro c hc
        rw [hagree c ?_]
        · exact memoryInit_zero_below hinit hc
        · have hphys : bitmapPhys.toNat = 0x200000 := rfl
          simp only [PmmState.physBytes, Set.mem_ofPred_eq, hphys]
          omega
      have hone : (1 * pageSize : Word).toNat = 0x1000 := by decide
      have hentry := @toNat_entry_page (1 * pageSize) (by rw [hone]) _ hj
      have hword : y.machine.ram.word (entry (1 * pageSize) j) = 0 := by
        unfold Bytes.word
        rw [hzero _ (by bv_omega), hzero _ (by bv_omega), hzero _ (by bv_omega),
          hzero _ (by bv_omega)]
        rfl
      rw [hword]
      rfl
  have hlast : x.Permits layoutAt64K (.map 0x40000000 0x5000 3) ∧
      x.Clean layoutAt64K (.map 0x40000000 0x5000 3) := by
    refine ⟨⟨hx.spares_create habsent hfind hfit hfresh, fun _ i hfind' _ _ => ?_⟩,
      fun _ i hfind' _ _ => ?_⟩
    · rw [hfind] at hfind'
      obtain rfl := Option.some.inj hfind'
      exact hfresh
    · rw [hfind] at hfind'
      obtain rfl := Option.some.inj hfind'
      exact hclean
  have halong : Along (vmStep layoutAt64K)
      (fun x call => x.Permits layoutAt64K call ∧ x.Clean layoutAt64K call) ⟨s, m⟩
      ([.alloc] ++ [.map 0x40000000 0x5000 3]) := by
    rw [along_append_iff hrun]
    exact ⟨⟨⟨⟨trivial, trivial⟩, trivial⟩, fun _ _ _ => trivial⟩, hlast, fun _ _ _ => trivial⟩
  obtain ⟨replies', x', hrun', hacts⟩ := hmap hapart _ halong
  exact ⟨s, m, replies', x', hinit, hrun', hacts⟩

end Nimbu
