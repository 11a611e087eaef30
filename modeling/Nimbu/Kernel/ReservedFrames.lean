import Nimbu.Kernel.HeapImage
import Nimbu.Kernel.Paged

/-!
# Frames the kernel itself uses

`pmm_init` marks no frame as used. The frames below the VGA buffer are the only
ones that `pmm_alloc` can hand out before it reaches memory the kernel uses, and
it hands out the lowest free frame, so what matters is how many frames are
allocated at a time: the 185th is the frame of the VGA buffer.
-/

namespace Nimbu

/-- A call that reaches the frame allocator. -/
inductive FrameCall where
  /-- `pmm_alloc()`. -/
  | alloc
  /-- `pmm_free(addr)`. -/
  | free (addr : Word)
  /-- `proc_create(entry_point, priority)`. -/
  | create (entryPoint priority : Word)

section Calls

variable {M : Type} (bus : Bus M)

/-- The frames that `pmm_alloc` returns to `proc_create`. -/
def createFrames (k : Kernel M) : Option (List Word) :=
  if k.procs.nextPid.toNat < 256 then do
    let (stackPhys, pdPhys, _) ← procCreateFrames bus k.pmm k.mem
    return [stackPhys, pdPhys]
  else return []

/-- One call, with the frames `pmm_alloc` returned during it. -/
def frameStep (k : Kernel M) : FrameCall → Option (List Word × Kernel M)
  | .alloc => do
    let (addr, pmm, mem) ← pmmAlloc bus k.pmm k.mem
    return ([addr], { k with pmm, mem })
  | .free addr => do
    let (_, pmm, mem) ← pmmFree bus k.pmm k.mem addr
    return ([], { k with pmm, mem })
  | .create entryPoint priority => do
    let frames ← createFrames bus k
    let (_, k) ← procCreate bus bus k entryPoint priority
    return (frames, k)

end Calls

/-- The physical bytes of the VGA text buffer: 80 by 25 cells of two bytes. -/
def vgaBytes : Set Word := {p | 0xB8000 ≤ p.toNat ∧ p.toNat < 0xB8000 + 80 * 25 * 2}

/-- The bytes of the heap. -/
def HeapState.bytes (h : HeapState) : Set Word :=
  {a | h.start.toNat ≤ a.toNat ∧ a.toNat < h.start.toNat + h.size.toNat}

section Conditions

variable {M : Type}

/-- The physical bytes the kernel uses, under a mapping of its linear addresses. -/
def Kernel.physBytes (k : Kernel M) (len : ℕ) (linear : Word → Option Word) : Set Word :=
  imageBytes len ∪ vgaBytes ∪
    {p | ∃ a ∈ k.pmm.bitmapBytes ∪ k.heap.bytes ∪ k.procs.stackBytes, linear a = some p}

/-- The physical bytes of a frame. -/
def frameBytes (addr : Word) : Set Word :=
  {p | addr.toNat ≤ p.toNat ∧ p.toNat < addr.toNat + 4096}

/-- How often a call calls `pmm_alloc`. -/
def FrameCall.allocs (k : Kernel M) : FrameCall → ℕ
  | .alloc => 1
  | .free _ => 0
  | .create _ _ => if k.procs.nextPid.toNat < 256 then 2 else 0

/-- The number of frames below the VGA buffer. -/
def framesBelowVga : ℕ := 0xB8

/-- The call allocates no frame, or at most 184 frames are allocated with those
it allocates. -/
def FewFrames (k : Kernel M) (call : FrameCall) : Prop :=
  call.allocs k = 0 ∨ k.pmm.allocatedPages.toNat + call.allocs k ≤ framesBelowVga

end Conditions

/-- The block header and the context that the call stores, if any, lie in `S`. -/
def FrameCall.StoresIn (S : Set Word) (k : Kernel Mem) : FrameCall → Prop
  | .create _ _ => k.CreatesIn S
  | _ => True

/-- A sound kernel whose heap holds nothing but contexts, at most one for each
process created. -/
structure Kernel.OnlyContexts (k : Kernel Mem) (F : Frames) (bs : List Block) : Prop
    extends Kernel.Sound k F bs where
  /-- The heap has grown by at most one context a process. -/
  used_le : k.heap.used.toNat ≤ 88 * (k.procs.nextPid.toNat - 1)

variable {k : Kernel Mem} {F : Frames} {bs : List Block}

/-- Every call returns and allocates from the set of frames as often as it calls
`pmm_alloc`. -/
theorem Kernel.OnlyContexts.step (hk : k.OnlyContexts F bs) (call : FrameCall) :
    ∃ frames k' F' bs', frameStep Mem.bus k call = some (frames, k') ∧ k'.OnlyContexts F' bs' ∧
      frames.map BitVec.toNat = (F.allocs (call.allocs k)).1 ∧
      F'.held ⊆ (F.allocs (call.allocs k)).2.held := by
  cases call with
  | alloc =>
    obtain ⟨addr, s, m, halloc, haddr, hsim, -, hkept⟩ := pmmAlloc_simulates Mem.lawful hk.pmm
    refine ⟨[addr], { k with pmm := s, mem := m }, F.alloc.2, bs, ?_, ⟨?_, hk.used_le⟩, ?_, ?_⟩
    · simp only [frameStep, halloc, Option.bind_eq_bind, Option.bind_some, Option.pure_def]
    · exact hk.toSound.of_pmm hsim F.alloc_total hkept hk.idle
    · simp [FrameCall.allocs, Frames.allocs, haddr]
    · exact Finset.Subset.refl _
  | free addr =>
    obtain ⟨s, m, hfree, hsim, -, hkept⟩ := pmmFree_simulates Mem.lawful hk.pmm addr
    refine ⟨[], { k with pmm := s, mem := m }, (F.free addr.toNat).2, bs, ?_, ⟨?_, hk.used_le⟩,
      rfl, ?_⟩
    · simp only [frameStep, hfree, Option.bind_eq_bind, Option.bind_some, Option.pure_def]
    · exact hk.toSound.of_pmm hsim (F.step_total (.free addr)) hkept hk.idle
    · exact F.free_held_subset addr.toNat
  | create entryPoint priority =>
    have hlt := hk.idle.next_le
    rcases hk.toSound.create entryPoint priority with ⟨hnext, hcall⟩ |
      ⟨hnext, a, b, pmm, m, hframes, ha, hb, hbytes, hkept, hsound, hcases⟩
    · have hcount : FrameCall.allocs k (.create entryPoint priority) = 0 :=
        if_neg (Nat.not_lt.mpr hnext)
      refine ⟨[], k, F, bs, ?_, hk, by rw [hcount]; rfl, by rw [hcount]; exact Finset.Subset.refl _⟩
      simp only [frameStep, createFrames, if_neg (Nat.not_lt.mpr hnext), hcall,
        Option.bind_eq_bind, Option.bind_some, Option.pure_def]
    · have hcount : FrameCall.allocs k (.create entryPoint priority) = 2 := if_pos hnext
      have hlist : [a, b].map BitVec.toNat = (F.allocs 2).1 := by
        simp [Frames.allocs, ha, hb]
      have hreturned : createFrames Mem.bus k = some [a, b] := by
        simp only [createFrames, if_pos hnext, hframes, Option.bind_eq_bind, Option.bind_some,
          Option.pure_def]
      rw [hcount]
      rcases hcases with ⟨-, procs, hcall, hsame, hidle⟩ | ⟨-, -, o, k', bs', hcall, hcreated⟩
      · refine ⟨[a, b], ⟨pmm, k.heap, m, procs⟩, _, bs, ?_, ⟨hsound procs hidle, ?_⟩, hlist,
          Finset.Subset.refl _⟩
        · simp only [frameStep, hreturned, hcall, Option.bind_eq_bind, Option.bind_some,
            Option.pure_def]
        · rw [hsame]
          exact hk.used_le
      · have hpos := hk.idle.next_pos
        have hused := hk.used_le
        have hnextPid : k'.procs.nextPid.toNat = k.procs.nextPid.toNat + 1 := by
          rw [hcreated.next]
          bv_omega
        have hplace : o + 88 ≤ bitmapOffset := by
          obtain ⟨blk, hserves⟩ := hcreated.block
          have hroom : 12 + 76 ≤ blk.size := hserves.room
          have hend := (hcreated.tiled.block_le hserves.placed).1
          unfold bitmapOffset
          rcases hcreated.used with ⟨heq, -⟩ | ⟨-, heq⟩
          · rw [heq] at hend
            omega
          · omega
        refine ⟨[a, b], k', _, bs', ?_, ⟨?_, ?_⟩, hlist, Finset.Subset.refl _⟩
        · simp only [frameStep, hreturned, hcall, Option.bind_eq_bind, Option.bind_some,
            Option.pure_def]
        · exact hcreated.sound (hsound k.procs hk.idle) hplace
        · rw [hnextPid]
          rcases hcreated.used with ⟨heq, -⟩ | ⟨-, heq⟩
          · rw [heq]
            omega
          · rw [heq]
            omega

/-- As long as the calls of a run find few frames allocated, it gets only frames
below the VGA buffer; the first call that finds more gets the frame of the VGA
buffer. -/
theorem Kernel.OnlyContexts.run (hk : k.OnlyContexts F bs)
    (hbelow : ∀ i ∈ F.held, i < framesBelowVga) {calls : List FrameCall}
    {replies : List (List Word)} {k' : Kernel Mem}
    (hrun : exec (frameStep Mem.bus) k calls = some (replies, k')) :
    (Along (frameStep Mem.bus) FewFrames k calls ∧
      ∀ frames ∈ replies, ∀ f ∈ frames, f.toNat + 4096 ≤ 0xB8000) ∨
    (¬ Along (frameStep Mem.bus) FewFrames k calls ∧
      ∃ frames ∈ replies, ∃ f ∈ frames, f.toNat = 0xB8000) := by
  induction calls generalizing k F bs replies with
  | nil =>
    obtain ⟨rfl, -⟩ : [] = replies ∧ k = k' := by simpa using hrun
    exact Or.inl ⟨trivial, by simp⟩
  | cons call calls ih =>
    obtain ⟨frames, k₁, rest, hstep, hrest, rfl⟩ := exec_cons_iff.mp hrun
    obtain ⟨frames', k₁', F₁, bs₁, hstep', hk₁, hframes, hheld⟩ := hk.step call
    obtain ⟨rfl, rfl⟩ : frames' = frames ∧ k₁' = k₁ := by simpa [hstep'] using hstep
    have hallocated : k.pmm.allocatedPages.toNat = F.held.card := hk.pmm.2.2.2.allocated_eq
    have htotal : framesBelowVga < F.total := by rw [hk.total]; decide
    have hnext : Along (frameStep Mem.bus) FewFrames k (call :: calls) ↔
        FewFrames k call ∧ Along (frameStep Mem.bus) FewFrames k₁' calls := by
      simp [Along, hstep']
    rw [hnext]
    rcases F.allocs_below htotal hbelow with ⟨hroom, hlow, hbelow'⟩ | ⟨hfull, hvga⟩
    · have hfew : FewFrames k call := Or.inr (by rw [hallocated]; exact hroom)
      have hnow : ∀ f ∈ frames', f.toNat + 4096 ≤ 0xB8000 := by
        intro f hf
        have hmem : f.toNat ∈ (F.allocs (call.allocs k)).1 := hframes ▸ List.mem_map_of_mem hf
        obtain ⟨i, hi, hfi⟩ := hlow f.toNat hmem
        unfold framesBelowVga at hi
        omega
      rcases ih hk₁ (fun i hi => hbelow' i (hheld hi)) hrest with ⟨hfew', hlater⟩ | ⟨hmany, hlater⟩
      · left
        refine ⟨⟨hfew, hfew'⟩, ?_⟩
        intro fs hfs
        rcases List.mem_cons.mp hfs with rfl | hfs
        · exact hnow
        · exact hlater fs hfs
      · right
        obtain ⟨fs, hfs, hf⟩ := hlater
        exact ⟨fun h => hmany h.2, fs, List.mem_cons_of_mem _ hfs, hf⟩
    · right
      rw [← hframes, List.mem_map] at hvga
      obtain ⟨f, hf, haddr⟩ := hvga
      refine ⟨?_, frames', List.mem_cons_self, f, hf, haddr⟩
      rintro ⟨hnone | hfew, -⟩
      · have := F.card_le_of_below hbelow
        omega
      · omega

/-- All bytes the kernel uses lie at or above the VGA buffer. -/
theorem Kernel.Sound.physBytes_ge (hk : k.Sound F bs) {len : ℕ} {p : Word}
    (hp : p ∈ k.physBytes len bootMap) : 0xB8000 ≤ p.toNat := by
  rcases hp with (himage | hvga) | ⟨a, ha, hmap⟩
  · have hbase : imageBase ≤ p.toNat := himage.1
    unfold imageBase at hbase
    omega
  · exact hvga.1
  · have hhigh : 0xC0100000 ≤ a.toNat := by
      rcases ha with (hbitmap | hheap) | hstack
      · have := hk.mem_bitmapBytes_iff.mp hbitmap
        omega
      · have hstart : k.heap.start.toNat ≤ a.toNat := hheap.1
        rw [hk.start] at hstart
        exact hstart
      · have := hk.idle.stackBytes_ge hstack
        omega
    unfold bootMap at hmap
    rw [if_neg (by omega)] at hmap
    split at hmap
    · obtain rfl := Option.some.inj hmap
      unfold kernelVirtBase
      bv_omega
    · cases hmap

/-- Allocations one after the other do not find few frames for ever. -/
theorem Kernel.OnlyContexts.not_few_of_replicate (hk : k.OnlyContexts F bs)
    (hbelow : ∀ i ∈ F.held, i < framesBelowVga) {count : ℕ}
    (hcount : framesBelowVga < F.held.card + count) :
    ¬ Along (frameStep Mem.bus) FewFrames k (List.replicate count .alloc) := by
  induction count generalizing k F bs with
  | zero =>
    have := F.card_le_of_below hbelow
    omega
  | succ count ih =>
    intro hfew
    obtain ⟨addr, s, m, halloc, haddr, hsim, -, hkept⟩ := pmmAlloc_simulates Mem.lawful hk.pmm
    have hstep : frameStep Mem.bus k .alloc = some ([addr], { k with pmm := s, mem := m }) := by
      simp only [frameStep, halloc, Option.bind_eq_bind, Option.bind_some, Option.pure_def]
    have hk' : ({ k with pmm := s, mem := m } : Kernel Mem).OnlyContexts F.alloc.2 bs :=
      ⟨hk.toSound.of_pmm hsim F.alloc_total hkept hk.idle, hk.used_le⟩
    have htotal : framesBelowVga < F.total := by rw [hk.total]; decide
    rcases Frames.alloc_below htotal hbelow with ⟨hlt, i, hi, hin, hfree, heq⟩ | ⟨hfull, -⟩
    · have hcard : (F.take i hi).held.card = F.held.card + 1 :=
        Finset.card_insert_of_notMem hfree
      rw [heq] at hk'
      refine ih hk' ?_ (by simp only [hcard]; omega) (hfew.2 _ _ hstep)
      intro j hj
      rcases Finset.mem_insert.mp hj with rfl | hj
      · exact hin
      · exact hbelow j hj
    · have hallocated : k.pmm.allocatedPages.toNat = F.held.card := hk.pmm.2.2.2.allocated_eq
      rcases hfew.1 with hnone | hroom
      · cases hnone
      · have hone : FrameCall.allocs k .alloc = 1 := rfl
        omega

section Paged

variable {N : Type} {bus : Bus N} {g : Mem → N} {ok : Mem → Prop} {S : Set Word} {k' : Kernel Mem}
  {call : FrameCall}

/-- Every call whose stores lie in the bytes that are shown returns in the other memory what it
returns in the flat one. -/
theorem Kernel.SoundIn.frameStep_embeds (hk : k.SoundIn S F bs) (h : Hosts bus g ok S)
    (hm : ok k.mem) (hstores : call.StoresIn S k) :
    frameStep bus (k.map g) call =
      (frameStep Mem.bus k call).map fun r => (r.1, r.2.map g) := by
  cases call with
  | alloc =>
    simp only [frameStep, Kernel.map, hk.alloc_embeds h hm]
    cases pmmAlloc Mem.bus k.pmm k.mem <;> rfl
  | free addr =>
    simp only [frameStep, Kernel.map, hk.free_embeds h hm]
    cases pmmFree Mem.bus k.pmm k.mem addr <;> rfl
  | create entryPoint priority =>
    have hframes : createFrames bus (k.map g) = createFrames Mem.bus k := by
      simp only [createFrames, Kernel.map, hk.frames_embeds h hm]
      split
      · cases procCreateFrames Mem.bus k.pmm k.mem <;> rfl
      · rfl
    simp only [frameStep, hframes, hk.create_embeds h hm hstores]
    cases createFrames Mem.bus k with
    | none => rfl
    | some frames => cases procCreate Mem.bus Mem.bus k entryPoint priority <;> rfl

/-- Such a call keeps within the bytes. -/
theorem Kernel.SoundIn.frameStep_keepsIn (hk : k.SoundIn S F bs) (hstores : call.StoresIn S k)
    {frames : List Word} (hstep : frameStep Mem.bus k call = some (frames, k')) :
    k.KeepsIn S k' := by
  cases call with
  | alloc =>
    obtain ⟨⟨addr, pmm, mem⟩, halloc, hresult⟩ := Option.bind_eq_some_iff.mp hstep
    obtain ⟨-, rfl⟩ := Prod.mk.inj (Option.some.inj hresult)
    exact hk.alloc_keepsIn halloc
  | free addr =>
    obtain ⟨⟨ret, pmm, mem⟩, hfree, hresult⟩ := Option.bind_eq_some_iff.mp hstep
    obtain ⟨-, rfl⟩ := Prod.mk.inj (Option.some.inj hresult)
    exact hk.free_keepsIn hfree
  | create entryPoint priority =>
    obtain ⟨fs, -, hrest⟩ := Option.bind_eq_some_iff.mp hstep
    obtain ⟨⟨ret, k₁⟩, hcreate, hresult⟩ := Option.bind_eq_some_iff.mp hrest
    obtain ⟨-, rfl⟩ := Prod.mk.inj (Option.some.inj hresult)
    exact hk.create_keepsIn hstores hcreate

/-- The kernel behind the page tables is a flat one whose heap holds nothing but contexts. -/
structure Kernel.ShowsContexts (st : StaticTables) (ram : Bytes) (p : Kernel Machine)
    (k : Kernel Mem) (F : Frames) (bs : List Block) : Prop where
  /-- The kernel is the flat one behind the page tables. -/
  kernel : p = k.map (st.machineOf ram)
  /-- The machine shows the flat memory. -/
  backs : st.Backs ram k.mem
  /-- The heap holds nothing but contexts. -/
  contexts : k.OnlyContexts F bs
  /-- Headers and bitmap spare the page tables. -/
  spared : k.SoundIn st.spared F bs

variable {st : StaticTables} {ram : Bytes} {p : Kernel Machine}

/-- The flat kernel is seen, but for the list of writes. -/
theorem Kernel.ShowsContexts.storesIn_iff (hp : p.ShowsContexts st ram k F bs) :
    call.StoresIn S p.view ↔ call.StoresIn S k := by
  rw [hp.kernel, hp.backs.kernel_view]
  cases call <;> exact Iff.rfl

/-- A call that spares the page tables is answered behind them as in flat memory. -/
theorem Kernel.ShowsContexts.step (hp : p.ShowsContexts st ram k F bs)
    (hstores : call.StoresIn st.spared p.view) :
    ∃ frames p' k' F' bs', frameStep Machine.bus p call = some (frames, p') ∧
      frameStep Mem.bus k call = some (frames, k') ∧ p'.ShowsContexts st ram k' F' bs' := by
  have hhosts : Hosts Machine.bus (st.machineOf ram) (st.Backs ram) st.spared :=
    StaticTables.machineOf_hosts
  have hflat := hp.storesIn_iff.mp hstores
  obtain ⟨frames, k', F', bs', hstep, hk', -⟩ := hp.contexts.step call
  have hkeeps := hp.spared.frameStep_keepsIn hflat hstep
  have hpaged := hp.spared.frameStep_embeds hhosts hp.backs hflat
  rw [hstep, Option.map_some, ← hp.kernel] at hpaged
  exact ⟨frames, _, k', F', bs', hpaged, hstep, rfl, hhosts.kept hp.backs hkeeps.bytes, hk',
    hkeeps.soundIn hk'.toSound⟩

/-- `kmain` sets up such a kernel. -/
theorem kmainPaged_showsContexts (st : StaticTables) (ram : Bytes) (cr3 : Word)
    (hclear : st.BitmapClear ram) :
    ∃ p₀ ram' k₀, kmainPaged st ⟨ram, cr3, false⟩ = some p₀ ∧
      p₀.ShowsContexts st ram' k₀ (Frames.empty 32768) [] := by
  obtain ⟨p₀, x₀, hboot, -, hsettled, hbacks, hp₀⟩ := kmainPaged_shown st ram cr3 hclear
  have hused : x₀.system.kernel.heap.used.toNat = 0 := hsettled.low.sound.tiled.span_eq.symm
  exact ⟨p₀, p₀.mem.ram, x₀.system.kernel, hboot, hp₀, hbacks,
    ⟨hsettled.low.sound, by omega⟩, hsettled.low.sound.soundIn_empty hclear⟩

/-- A run that spares the page tables is answered behind them as in flat memory, and finds few
frames allocated where that one does. -/
theorem Kernel.ShowsContexts.run (hp : p.ShowsContexts st ram k F bs) {calls : List FrameCall}
    (hstores : Along (frameStep Machine.bus) (fun p call => call.StoresIn st.spared p.view)
      p calls) :
    ∃ replies p' k' F' bs', exec (frameStep Machine.bus) p calls = some (replies, p') ∧
      exec (frameStep Mem.bus) k calls = some (replies, k') ∧
      p'.ShowsContexts st ram k' F' bs' ∧
      (Along (frameStep Machine.bus) FewFrames p calls ↔
        Along (frameStep Mem.bus) FewFrames k calls) := by
  have hinit : ∃ F bs, p.ShowsContexts st ram k F bs := ⟨F, bs, hp⟩
  have hagree : ∀ {p : Kernel Machine} {k : Kernel Mem} {call : FrameCall},
      (∃ F bs, p.ShowsContexts st ram k F bs) → call.StoresIn st.spared p.view →
      ∃ frames p' k', frameStep Machine.bus p call = some (frames, p') ∧
        frameStep Mem.bus k call = some (frames, k') ∧
        ∃ F bs, p'.ShowsContexts st ram k' F bs := by
    rintro p k call ⟨F, bs, hp⟩ hcall
    obtain ⟨frames, p', k', F', bs', hpaged, hflat, hp'⟩ := hp.step hcall
    exact ⟨frames, p', k', hpaged, hflat, F', bs', hp'⟩
  obtain ⟨replies, p', k', hrun, hflat, F', bs', hp'⟩ :=
    exec_of_agreement (R := fun p k => ∃ F bs, p.ShowsContexts st ram k F bs) hagree hinit hstores
  refine ⟨replies, p', k', F', bs', hrun, hflat, hp', ?_⟩
  refine along_iff_of_agreement (R := fun p k => ∃ F bs, p.ShowsContexts st ram k F bs)
    hagree ?_ hinit hstores
  rintro p k call ⟨F, bs, hp⟩
  rw [hp.kernel]
  exact Iff.rfl

/-- Behind the page tables the kernel uses the bytes behind the boot mapping. -/
theorem Kernel.ShowsContexts.physBytes_eq (hp : p.ShowsContexts st ram k F bs) (len : ℕ) :
    p.physBytes len p.mem.linear = k.physBytes len bootMap := by
  have hlinear : p.mem.linear = bootMap := by
    rw [hp.kernel]
    exact funext (StaticTables.machineOf_linear hp.backs.filled)
  rw [hlinear, hp.kernel]
  rfl

end Paged

/-- **Which runs keep the kernel's memory.** With the physical page of the bitmap zero at boot
and outside of the page tables: in every run of `pmm_alloc`, `pmm_free` and `proc_create` on
the kernel that `kmain` sets up behind its page tables, if `proc_create` stores no header or
context into these: no frame returned by `pmm_alloc` has a byte of the kernel image, the bitmap, the heap,
the VGA buffer or the kernel stack of a created process, exactly when every call that
allocates frames leaves at most 184 of them allocated. -/
theorem frames_spare_kernel_iff (st : StaticTables) (ram : Bytes) (cr3 : Word) (len : ℕ)
    (hclear : st.BitmapClear ram) :
    ∃ k₀, kmainPaged st ⟨ram, cr3, false⟩ = some k₀ ∧ ∀ calls,
      Along (frameStep Machine.bus) (fun k call => call.StoresIn st.spared k.view) k₀ calls →
        ∃ replies k, exec (frameStep Machine.bus) k₀ calls = some (replies, k) ∧
          ((∀ frames ∈ replies, ∀ f ∈ frames, ∀ p ∈ frameBytes f,
              p ∉ k.physBytes len k.mem.linear) ↔
            Along (frameStep Machine.bus) FewFrames k₀ calls) := by
  obtain ⟨p₀, ram', x₀, hboot, hshows⟩ := kmainPaged_showsContexts st ram cr3 hclear
  refine ⟨p₀, hboot, fun calls hstores => ?_⟩
  obtain ⟨replies, p, x, F, bs, hrun, hflat, hp, hfew⟩ := hshows.run hstores
  refine ⟨replies, p, hrun, ?_⟩
  rw [hfew, hp.physBytes_eq]
  rcases hshows.contexts.run (fun i hi => absurd hi (Finset.notMem_empty i)) hflat with
    ⟨hfew, hlow⟩ | ⟨hmany, frames, hframes, f, hf, haddr⟩
  · refine iff_of_true ?_ hfew
    rintro fs hfs f hf p ⟨-, hp'⟩ hmem
    have hbelow := hlow fs hfs f hf
    have habove := hp.contexts.toSound.physBytes_ge hmem
    omega
  · refine iff_of_false (fun hspared => ?_) hmany
    exact hspared frames hframes f hf f ⟨le_rfl, by omega⟩ (Or.inl (Or.inr ⟨by omega, by omega⟩))

/-- A frame and a process take only frames that the kernel does not use. -/
theorem frames_spare_kernel_one_process :
    ∃ k₀ replies k, kmainPaged layoutAt64K ⟨fun _ => 0, 0, false⟩ = some k₀ ∧
      exec (frameStep Machine.bus) k₀ [.alloc, .create 0x1000 1] = some (replies, k) ∧
      ∀ frames ∈ replies, ∀ f ∈ frames, ∀ p ∈ frameBytes f,
        p ∉ k.physBytes 0x10000 k.mem.linear := by
  obtain ⟨p₀, hboot, hiff⟩ := frames_spare_kernel_iff layoutAt64K (fun _ => 0) 0 0x10000
    layoutAt64K_bitmapClear
  obtain ⟨p, ram', x₀, hboot', hp₀⟩ := kmainPaged_showsContexts layoutAt64K (fun _ => 0) 0
    layoutAt64K_bitmapClear
  obtain rfl : p₀ = p := Option.some.inj (hboot.symm.trans hboot')
  -- the frame is the first one, and the heap stays empty
  obtain ⟨addr, s, m, halloc, -, hsim, -, hkept⟩ :=
    pmmAlloc_simulates Mem.lawful hp₀.contexts.pmm
  have hsound : ({ x₀ with pmm := s, mem := m } : Kernel Mem).Sound
      (Frames.empty 32768).alloc.2 [] :=
    hp₀.contexts.toSound.of_pmm hsim (Frames.empty 32768).alloc_total hkept hp₀.contexts.idle
  have hflat : frameStep Mem.bus x₀ .alloc = some ([addr], { x₀ with pmm := s, mem := m }) := by
    simp only [frameStep, halloc, Option.bind_eq_bind, Option.bind_some, Option.pure_def]
  have hstores₀ : FrameCall.StoresIn layoutAt64K.spared p₀.view .alloc := trivial
  obtain ⟨frames, p₁, x₁, F₁, bs₁, hstep, hflat', hp₁⟩ := hp₀.step hstores₀
  obtain ⟨-, rfl⟩ := Prod.mk.inj (Option.some.inj (hflat.symm.trans hflat'))
  have hstores : FrameCall.StoresIn layoutAt64K.spared p₁.view (.create 0x1000 1) :=
    hp₁.storesIn_iff.mpr fun _ _ => hsound.placesIn_empty (by decide) (by decide) (by decide)
  have hfew₀ : FewFrames p₀ .alloc := by
    right
    rw [hp₀.kernel]
    have hcard : x₀.pmm.allocatedPages.toNat = 0 := hp₀.contexts.pmm.2.2.2.allocated_eq
    show x₀.pmm.allocatedPages.toNat + 1 ≤ framesBelowVga
    rw [hcard]
    decide
  have hfew₁ : FewFrames p₁ (.create 0x1000 1) := by
    right
    rw [hp₁.kernel]
    have htotal : 0 < (Frames.empty 32768).total := by decide
    have hcard : s.allocatedPages.toNat = (Frames.empty 32768).alloc.2.held.card :=
      hsound.pmm.2.2.2.allocated_eq
    rw [(Frames.alloc_of_range htotal rfl).2, Finset.card_range] at hcard
    have htwo : FrameCall.allocs x₀ (.create 0x1000 1) ≤ 2 := by
      simp only [FrameCall.allocs]
      split <;> decide
    show s.allocatedPages.toNat + FrameCall.allocs x₀ (.create 0x1000 1) ≤ 184
    omega
  obtain ⟨replies, k, hrun, hspared⟩ := hiff [.alloc, .create 0x1000 1]
    (Along.cons hstores₀ hstep ⟨hstores, fun _ _ _ => trivial⟩)
  exact ⟨p₀, replies, k, hboot, hrun,
    hspared.mpr (Along.cons hfew₀ hstep ⟨hfew₁, fun _ _ _ => trivial⟩)⟩

/-- The 185th `pmm_alloc` returns the frame of the VGA buffer. -/
theorem frames_reach_vga :
    ∃ k₀ replies k, kmainPaged layoutAt64K ⟨fun _ => 0, 0, false⟩ = some k₀ ∧
      exec (frameStep Machine.bus) k₀ (List.replicate 185 .alloc) = some (replies, k) ∧
      ¬ ∀ frames ∈ replies, ∀ f ∈ frames, ∀ p ∈ frameBytes f,
        p ∉ k.physBytes 0x10000 k.mem.linear := by
  obtain ⟨p₀, ram', x₀, hboot, hp₀⟩ := kmainPaged_showsContexts layoutAt64K (fun _ => 0) 0
    layoutAt64K_bitmapClear
  have hstores : Along (frameStep Machine.bus)
      (fun p call => call.StoresIn layoutAt64K.spared p.view) p₀ (List.replicate 185 .alloc) := by
    refine along_iff_forall.mpr fun pre call post heq _ _ _ => ?_
    have hmem : call ∈ List.replicate 185 FrameCall.alloc := by simp [heq]
    rw [List.eq_of_mem_replicate hmem]
    trivial
  obtain ⟨replies, p, x, F, bs, hrun, hflat, hp, -⟩ := hp₀.run hstores
  refine ⟨p₀, replies, p, hboot, hrun, fun hspared => ?_⟩
  have hnone : ∀ i ∈ (Frames.empty 32768).held, i < framesBelowVga :=
    fun i hi => absurd hi (Finset.notMem_empty i)
  rcases hp₀.contexts.run hnone hflat with ⟨hfew, -⟩ | ⟨-, frames, hframes, f, hf, haddr⟩
  · exact hp₀.contexts.not_few_of_replicate hnone (by decide) hfew
  · exact hspared frames hframes f hf f ⟨le_rfl, by omega⟩
      (Or.inl (Or.inr ⟨by omega, by omega⟩))

end Nimbu
