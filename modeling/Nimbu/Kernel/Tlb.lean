import Nimbu.Machine.Tlb
import Nimbu.Mm.Embedding
import Nimbu.Kernel.Mappings

/-!
# The memory manager behind the translation buffer

Every access of `pmm.c` and `vmm.c` goes through the buffer, which the processor fills
and empties as it likes. `vmm_map` and `vmm_unmap` invalidate one page, the one they
were called for. The page tables of the first 16 MB are in use twice, at address 0 and
at 3 GB, so the page they invalidate is not always the only one they change.
-/

namespace Nimbu

/-- The memory manager and its machine, with the buffer. -/
structure TlbState where
  /-- The bitmap's record. -/
  pmm : PmmState
  /-- Memory, control registers and buffer. -/
  machine : TlbMachine

/-- A state behind a buffer. -/
def VmState.behind (x : VmState) (tlb : Word → Option Word) : TlbState := ⟨x.pmm, ⟨x.machine, tlb⟩⟩

/-- The calls of the memory manager. `invlpg` comes after the store of an entry, right
before `return 0`. -/
def tlbCall (st : StaticTables) (y : TlbState) : VmCall → Option (VmReply × TlbState)
  | .alloc => do
    let (addr, s, t) ← pmmAlloc TlbMachine.bus y.pmm y.machine
    return (.address addr, ⟨s, t⟩)
  | .free addr => do
    let (ret, s, t) ← pmmFree TlbMachine.bus y.pmm y.machine addr
    return (.status ret, ⟨s, t⟩)
  | .map virt phys flags => do
    let (ret, s, t) ← vmmMap TlbMachine.bus st y.pmm y.machine virt phys flags
    return (.status ret, ⟨s, if ret = 0 then t.invlpg virt else t⟩)
  | .unmap virt => do
    let (ret, t) ← vmmUnmap TlbMachine.bus st y.machine virt
    return (.status ret, ⟨y.pmm, if ret = 0 then t.invlpg virt else t⟩)
  | .getPhys virt => do
    let phys ← vmmGetPhys TlbMachine.bus st y.machine virt
    return (.address phys, y)

/-- What happens to the buffer: a call of the memory manager, and at any time between two
calls a walk for an address or the loss of its page. -/
inductive TlbEvent where
  | call (call : VmCall)
  | fill (virt : Word)
  | evict (virt : Word)

/-- One event. Only a call has a reply. -/
def tlbStep (st : StaticTables) (y : TlbState) : TlbEvent → Option (Option VmReply × TlbState)
  | .call call => (tlbCall st y call).map fun r => (some r.1, r.2)
  | .fill virt => some (none, { y with machine := y.machine.fill virt })
  | .evict virt => some (none, { y with machine := y.machine.invlpg virt })

/-- The call of an event. -/
def TlbEvent.vmCall : TlbEvent → Option VmCall
  | .call c => some c
  | _ => none

/-- The buffer after a call that returned. -/
def tlbAfter (tlb : Word → Option Word) : VmCall → VmReply → Word → Option Word
  | .map virt _ _, reply =>
    if reply = .status 0 then Function.update tlb (pageOf virt) none else tlb
  | .unmap virt, reply =>
    if reply = .status 0 then Function.update tlb (pageOf virt) none else tlb
  | _, _ => tlb

section Calls

variable {st : StaticTables} {x : VmState} {tlb : Word → Option Word}

/-- A page that is mapped to itself is remembered as itself or not at all. -/
theorem VmState.Sound.tlb_of_maps (hx : x.Sound st)
    (htlb : TlbMachine.Coherent ⟨x.machine, tlb⟩) {page frame : Word}
    (hmap : st.Maps x.machine.ram page page) (hframe : tlb page = some frame) : frame = page := by
  have hwalk := (htlb page frame hframe).2
  have hself := hmap.linear_eq hx.paging hx.cr3_eq (show 0 < 4096 by decide)
  simp only [Machine.linear, if_pos hx.paging, BitVec.add_zero] at hself
  exact Option.some.inj (hwalk.symm.trans hself)

/-- The entry of an address in its page table is stored alike behind the buffer. -/
theorem VmState.Sound.tlb_storeTable (hx : x.Sound st) {virt w : Word}
    (hpresent : st.pde x.machine.ram virt &&& pagePresent ≠ 0)
    (hspared : st.Spared x.machine.ram (st.Demands x.pmm x.machine.ram)
      (st.pageTable x.machine.ram virt) (ptIndex virt) w)
    (htlb : ∀ frame, tlb (st.pageTable x.machine.ram virt) = some frame →
      frame = st.pageTable x.machine.ram virt) :
    TlbMachine.bus.storeWord ⟨x.machine, tlb⟩
        (entry (st.pageTable x.machine.ram virt) (ptIndex virt)) w =
      (Machine.bus.storeWord x.machine
        (entry (st.pageTable x.machine.ram virt) (ptIndex virt)) w).map fun m => ⟨m, tlb⟩ :=
  TlbMachine.storeWord_of_keeps (hx.keeps hx.mapped)
    (fun _ hn => ⟨_, _, .table virt hpresent, hn⟩) (st.pageTable_aligned x.machine.ram virt)
    (ptIndex_lt virt) (hx.leads_of_spared hpresent hspared) htlb

/-- What `VmState.Spares` asks of a call of `vmm_map` that creates a page table, once the
table is in the directory. -/
theorem VmState.Sound.tlb_mapTable (hx : x.Sound st) (htlb : TlbMachine.Coherent ⟨x.machine, tlb⟩)
    {virt : Word} (hfit : st.pde x.machine.ram virt &&& pagePresent = 0 → ∀ i,
      findFreePage Machine.bus x.pmm x.machine = some i → i ≠ 0xFFFFFFFF →
        i * pageSize ≠ 0 → x.FitForTable st (i * pageSize)) :
    vmmMapTable TlbMachine.bus st x.pmm ⟨x.machine, tlb⟩ virt =
      (vmmMapTable Machine.bus st x.pmm x.machine virt).map
        fun r => (r.1, r.2.1, ⟨r.2.2, tlb⟩) := by
  refine vmmMapTable_embeds (htlb.embeds Set.univ) rfl fun frame s m halloc hframe hnone => ?_
  have habsent : st.pde x.machine.ram virt &&& pagePresent = 0 := by
    by_contra hpresent
    rw [hx.pageTableOf_eq virt, if_neg hpresent] at hnone
    cases Option.some.inj hnone
  obtain ⟨a, s', m', halloc', hsound, hagree, count, rfl⟩ := hx.alloc
  rw [halloc] at halloc'
  obtain ⟨rfl, rfl, rfl⟩ : frame = a ∧ s = _ ∧ m = m' := by simpa using halloc'
  rcases pmmAlloc_cases halloc with ⟨-, rfl, -⟩ | ⟨i, hfind, hsome, rfl, -⟩
  · exact absurd rfl hframe
  · have hfits := hfit habsent i hfind hsome hframe
    have hself := (hx.maps_iff hagree).mpr
      (StaticTables.maps_of_linear hfits.self hx.paging hx.cr3_eq (toNat_mul_pageSize i))
    have habsent' : st.pde m.ram virt &&& pagePresent = 0 := by
      rw [hx.pde_eq hagree]
      exact habsent
    exact TlbMachine.storeWord_of_keeps (hsound.keeps hsound.mapped)
      (fun _ hn => ⟨_, _, .directory, hn⟩) st.directory_aligned (pdIndex_lt virt)
      (hsound.leads_of_absent habsent' hsound.mapped)
      fun _ => hx.tlb_of_maps htlb (hx.mapped .directory)

/-- `vmm_map` on aligned addresses does the same behind a coherent buffer. -/
theorem VmState.Sound.tlb_map (hx : x.Sound st) (htlb : TlbMachine.Coherent ⟨x.machine, tlb⟩)
    {virt phys flags : Word} (hvirt : virt % pageSize = 0) (hphys : phys % pageSize = 0)
    (hspares : x.Spares st (.map virt phys flags)) :
    vmmMap TlbMachine.bus st x.pmm ⟨x.machine, tlb⟩ virt phys flags =
      (vmmMap Machine.bus st x.pmm x.machine virt phys flags).map
        fun r => (r.1, r.2.1, ⟨r.2.2, tlb⟩) := by
  obtain ⟨hold, hnew⟩ := hspares hvirt hphys
  have hfit := fun habsent i hfind hsome hzero => (hnew habsent i hfind hsome hzero).1
  refine vmmMap_embeds (f := fun m => TlbMachine.mk m tlb) hvirt hphys
    (hx.tlb_mapTable htlb hfit) ?_
  intro table s m hresult
  by_cases hpresent : st.pde x.machine.ram virt &&& pagePresent = 0
  · rcases hx.mapTable hpresent (hfit hpresent) with
      ⟨s', m', htable, -, -⟩ |
      ⟨i, v, s', m', hfind, hsome, hzero, hagree, htable, hram, hsound, hdemands⟩
    · cases hresult.symm.trans htable
    · obtain ⟨rfl, rfl, rfl⟩ : table = i * pageSize ∧ s = s' ∧ m = m' := by
        simpa using hresult.symm.trans htable
      obtain ⟨hfits, hspared⟩ := hnew hpresent i hfind hsome hzero
      obtain ⟨hpresent', htable'⟩ := StaticTables.pageTable_new hram
      have hself := StaticTables.maps_of_linear hfits.self hx.paging hx.cr3_eq
        (toNat_mul_pageSize i)
      have hspared' : st.Spared m.ram (st.Demands s m.ram) (st.pageTable m.ram virt)
          (ptIndex virt) (phys ||| flags) := by
        intro a page hdemand hentry
        obtain ⟨hdemand', hsame⟩ := hdemands a page hdemand
        rw [hsame, htable'] at hentry
        exact hspared a page hdemand' hentry
      have hframe : ∀ frame, tlb (st.pageTable m.ram virt) = some frame →
          frame = st.pageTable m.ram virt := by
        rw [htable']
        exact fun _ => hx.tlb_of_maps htlb hself
      have hstore := hsound.tlb_storeTable hpresent' hspared' hframe
      rwa [htable'] at hstore
  · have htable := hx.pageTableOf_eq virt
    rw [if_neg hpresent] at htable
    simp only [vmmMapTable, htable, Option.bind_eq_bind, Option.bind_some, Option.pure_def,
      Option.some.injEq, Prod.mk.injEq] at hresult
    obtain ⟨rfl, rfl, rfl⟩ := hresult
    exact hx.tlb_storeTable hpresent (hold hpresent)
      fun _ => hx.tlb_of_maps htlb (hx.mapped (.table virt hpresent))

/-- `vmm_unmap` does the same behind a coherent buffer. -/
theorem VmState.Sound.tlb_unmap (hx : x.Sound st) (htlb : TlbMachine.Coherent ⟨x.machine, tlb⟩)
    {virt : Word} (hspares : x.Spares st (.unmap virt)) :
    vmmUnmap TlbMachine.bus st ⟨x.machine, tlb⟩ virt =
      (vmmUnmap Machine.bus st x.machine virt).map fun r => (r.1, ⟨r.2, tlb⟩) := by
  refine vmmUnmap_embeds (htlb.embeds Set.univ) rfl fun table htable => ?_
  rw [hx.pageTableOf_eq virt] at htable
  split at htable
  · cases Option.some.inj htable
  · rename_i hpresent
    obtain rfl := Option.some.inj (Option.some.inj htable)
    exact hx.tlb_storeTable hpresent (hspares hpresent)
      fun _ => hx.tlb_of_maps htlb (hx.mapped (.table virt hpresent))

/-- **One call behind a coherent buffer** does what it does without it, and loses at most
the page it was called for from the buffer. -/
theorem VmState.Sound.tlbCall_eq (hx : x.Sound st) (htlb : TlbMachine.Coherent ⟨x.machine, tlb⟩)
    {call : VmCall} (hspares : x.Spares st call) :
    tlbCall st (x.behind tlb) call =
      (vmStep st x call).map fun r => (r.1, r.2.behind (tlbAfter tlb call r.1)) := by
  have hunivs : ∀ i : Word, i.toNat < x.pmm.totalPages.toNat →
      x.pmm.bitmap + i / 8 ∈ (Set.univ : Set Word) := fun _ _ => Set.mem_univ _
  cases call with
  | alloc =>
    simp only [tlbCall, vmStep, VmState.behind, pmmAlloc_embeds (htlb.embeds Set.univ) rfl hunivs,
      Option.bind_eq_bind, Option.pure_def]
    cases pmmAlloc Machine.bus x.pmm x.machine <;> rfl
  | free addr =>
    simp only [tlbCall, vmStep, VmState.behind, pmmFree_embeds (htlb.embeds Set.univ) rfl hunivs,
      Option.bind_eq_bind, Option.pure_def]
    cases pmmFree Machine.bus x.pmm x.machine addr <;> rfl
  | map virt phys flags =>
    have hmap : vmmMap TlbMachine.bus st x.pmm ⟨x.machine, tlb⟩ virt phys flags =
        (vmmMap Machine.bus st x.pmm x.machine virt phys flags).map
          fun r => (r.1, r.2.1, ⟨r.2.2, tlb⟩) := by
      by_cases haligned : virt % pageSize ≠ 0 ∨ phys % pageSize ≠ 0
      · simp only [vmmMap, if_pos haligned, Option.pure_def, Option.map_some]
      · rw [not_or, not_not, not_not] at haligned
        exact hx.tlb_map htlb haligned.1 haligned.2 hspares
    simp only [tlbCall, vmStep, VmState.behind, hmap, Option.bind_eq_bind, Option.pure_def]
    cases vmmMap Machine.bus st x.pmm x.machine virt phys flags with
    | none => rfl
    | some r =>
      simp only [Option.map_some, Option.bind_some, tlbAfter, VmReply.status.injEq]
      split <;> rfl
  | unmap virt =>
    simp only [tlbCall, vmStep, VmState.behind, hx.tlb_unmap htlb hspares, Option.bind_eq_bind,
      Option.pure_def]
    cases vmmUnmap Machine.bus st x.machine virt with
    | none => rfl
    | some r =>
      simp only [Option.map_some, Option.bind_some, tlbAfter, VmReply.status.injEq]
      split <;> rfl
  | getPhys virt =>
    simp only [tlbCall, vmStep, VmState.behind, vmmGetPhys_embeds (htlb.embeds Set.univ) rfl,
      Option.bind_eq_bind, Option.pure_def]
    cases vmmGetPhys Machine.bus st x.machine virt <;> rfl

end Calls

end Nimbu
