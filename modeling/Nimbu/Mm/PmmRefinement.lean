import Mathlib.Tactic.Ring
import Nimbu.Machine.Run
import Nimbu.Mm.Frames

/-!
# Runs of the frame allocator

Every run of `pmm_alloc` and `pmm_free` from `pmm_init` answers as the set of
frames does, and its bitmap stays in step with that set. The bitmap is run as
one array of `bitmap_size` bytes, where an access outside the array has no
result. The second part is about the reply 0 of `pmm_alloc`, which stands both
for a failure and for page frame 0.
-/

namespace Nimbu

/-- A call to the frame allocator. -/
inductive PmmCall where
  /-- `pmm_alloc()`. -/
  | alloc
  /-- `pmm_free(addr)`. -/
  | free (addr : Word)
  deriving DecidableEq

/-- The result of a call. -/
inductive PmmReply where
  /-- The address returned by `pmm_alloc`. -/
  | frame (addr : ℕ)
  /-- The status returned by `pmm_free`. -/
  | status (ret : ℤ)
  deriving DecidableEq

variable {M : Type}

/-- One call on the record and the memory of `pmm.c`. -/
def pmmStep (bus : Bus M) : PmmState × M → PmmCall → Option (PmmReply × PmmState × M)
  | (s, m), .alloc => do
    let (addr, s, m) ← pmmAlloc bus s m
    return (.frame addr.toNat, s, m)
  | (s, m), .free addr => do
    let (ret, s, m) ← pmmFree bus s m addr
    return (.status ret, s, m)

/-- One call on the set of frames. -/
def Frames.step (F : Frames) : PmmCall → PmmReply × Frames
  | .alloc => (.frame F.alloc.1, F.alloc.2)
  | .free addr => (.status (F.free addr.toNat).1, (F.free addr.toNat).2)

/-- The number of bitmap bytes for a memory of the given size. -/
abbrev bitmapLength (totalMemory : Word) : ℕ := (totalMemory.toNat / 4096 + 7) / 8

/-- The bitmap as one array of bytes at the address `pmm_init` chooses. -/
abbrev bitmapBus (totalMemory : Word) : Bus (Vector Byte (bitmapLength totalMemory)) :=
  arrayBus (kernelVirtBase + 0x200000) (bitmapLength totalMemory)

/-- The contents of that array. -/
abbrev bitmapView (totalMemory : Word) : Vector Byte (bitmapLength totalMemory) → Bytes :=
  arrayView (kernelVirtBase + 0x200000) (bitmapLength totalMemory)

section Simulation

variable {bus : Bus M} {ok : M → Prop} {view : M → Bytes} {S : Set Word}

/-- The record and the memory stand for a set of frames, with the bitmap where
`pmm_init` places it and inside `S`. -/
def PmmSimulates (ok : M → Prop) (view : M → Bytes) (S : Set Word) (x : PmmState × M)
    (F : Frames) : Prop :=
  ok x.2 ∧ x.1.bitmap = kernelVirtBase + 0x200000 ∧ x.1.bitmapBytes ⊆ S ∧
    x.1.Represents (view x.2) F

/-- What one call does: it is refused and changes nothing, it hands out the
least free frame, or it takes back a held one. -/
theorem pmmStep_cases (hbus : bus.Lawful ok view S) {s : PmmState} {m : M} {F : Frames}
    (hsim : PmmSimulates ok view S (s, m) F) (call : PmmCall) :
    (call = .alloc ∧ (∀ j < F.total, j ∈ F.held) ∧ F.step call = (.frame 0, F) ∧
      pmmStep bus (s, m) call = some (.frame 0, s, m)) ∨
    (∃ addr, call = .free addr ∧ F.step call = (.status (-1), F) ∧
      pmmStep bus (s, m) call = some (.status (-1), s, m)) ∨
    (∃ i, ∃ hi : i < F.total, call = .alloc ∧ i ∉ F.held ∧ (∀ k < i, k ∈ F.held) ∧
      F.step call = (.frame (i * 4096), F.take i hi) ∧ ∃ s' m',
        pmmStep bus (s, m) call = some (.frame (i * 4096), s', m') ∧
        PmmSimulates ok view S (s', m') (F.take i hi)) ∨
    (∃ i addr, call = .free addr ∧ i ∈ F.held ∧ F.step call = (.status 0, F.release i) ∧
      ∃ s' m', pmmStep bus (s, m) call = some (.status 0, s', m') ∧
        PmmSimulates ok view S (s', m') (F.release i)) := by
  obtain ⟨hm, hbase, hS, hrep⟩ := hsim
  simp only at hm hbase hS hrep
  have hlt := hrep.total_lt
  cases call with
  | alloc =>
    rcases pmmAlloc_eq hbus hS hm hrep with
      ⟨hfull, halloc⟩ | ⟨i, hi, hfree, hleast, m', halloc, hok, hview⟩
    · left
      refine ⟨rfl, hfull, by simp only [Frames.step, Frames.alloc_of_full hfull], ?_⟩
      simp [pmmStep, halloc]
    · right; right; left
      have haddr : (BitVec.ofNat 32 (i * 4096)).toNat = i * 4096 := by
        rw [BitVec.toNat_ofNat]
        exact Nat.mod_eq_of_lt (by omega)
      refine ⟨i, hi, rfl, hfree, hleast,
        by simp only [Frames.step, Frames.alloc_of_least hi hfree hleast],
        { s with allocatedPages := s.allocatedPages + 1 }, m', ?_, hok, hbase, hS, ?_⟩
      · simp only [pmmStep, halloc, Option.bind_eq_bind, Option.bind_some, Option.pure_def, haddr]
      · simp only [hview]
        exact hrep.take hi hfree
  | free addr =>
    rcases pmmFree_eq hbus hS hm hrep addr with
      ⟨hrefused, hfree⟩ | ⟨i, haddr, hheld, m', hfree, hok, hview⟩
    · right; left
      refine ⟨addr, rfl, by simp only [Frames.step, Frames.free, if_neg hrefused], ?_⟩
      simp [pmmStep, hfree]
    · right; right; right
      have hpage : addr.toNat / 4096 = i := by omega
      have haccepted : 4096 ∣ addr.toNat ∧ addr.toNat / 4096 < F.total ∧
          addr.toNat / 4096 ∈ F.held :=
        ⟨⟨i, by omega⟩, by rw [hpage]; exact F.held_lt i hheld, by rwa [hpage]⟩
      refine ⟨i, addr, rfl, hheld,
        by rw [Frames.step, Frames.free, if_pos haccepted, hpage],
        { s with allocatedPages := s.allocatedPages - 1 }, m', ?_, hok, hbase, hS, ?_⟩
      · simp [pmmStep, hfree]
      · simp only [hview]
        exact hrep.release hheld

/-- `pmm_alloc` answers as the set of frames does and changes only the bitmap. -/
theorem pmmAlloc_simulates (hbus : bus.Lawful ok view S) {s : PmmState} {m : M} {F : Frames}
    (hsim : PmmSimulates ok view S (s, m) F) :
    ∃ addr s' m', pmmAlloc bus s m = some (addr, s', m') ∧ addr.toNat = F.alloc.1 ∧
      PmmSimulates ok view S (s', m') F.alloc.2 ∧ s'.bitmapBytes = s.bitmapBytes ∧
      ∀ c ∉ s.bitmapBytes, view m' c = view m c := by
  obtain ⟨hm, hbase, hS, hrep⟩ := hsim
  simp only at hm hbase hS hrep
  have hlt := hrep.total_lt
  rcases pmmAlloc_eq hbus hS hm hrep with
    ⟨hfull, halloc⟩ | ⟨i, hi, hfree, hleast, m', halloc, hok, hview⟩
  · rw [Frames.alloc_of_full hfull]
    exact ⟨0, s, m, halloc, rfl, ⟨hm, hbase, hS, hrep⟩, rfl, fun _ _ => rfl⟩
  · rw [Frames.alloc_of_least hi hfree hleast]
    refine ⟨_, _, m', halloc, ?_, ⟨hok, hbase, hS, ?_⟩, rfl, ?_⟩
    · rw [BitVec.toNat_ofNat]
      exact Nat.mod_eq_of_lt (by omega)
    · simp only [hview]
      exact hrep.take hi hfree
    · intro c hc
      rw [hview]
      refine Bytes.put_of_ne _ fun heq => hc ?_
      rw [heq]
      exact s.byte_mem_bitmapBytes (hrep.page_lt hi)

/-- `pmm_free` answers as the set of frames does and changes only the bitmap. -/
theorem pmmFree_simulates (hbus : bus.Lawful ok view S) {s : PmmState} {m : M} {F : Frames}
    (hsim : PmmSimulates ok view S (s, m) F) (addr : Word) :
    ∃ s' m', pmmFree bus s m addr = some ((F.free addr.toNat).1, s', m') ∧
      PmmSimulates ok view S (s', m') (F.free addr.toNat).2 ∧ s'.bitmapBytes = s.bitmapBytes ∧
      ∀ c ∉ s.bitmapBytes, view m' c = view m c := by
  obtain ⟨hm, hbase, hS, hrep⟩ := hsim
  simp only at hm hbase hS hrep
  rcases pmmFree_eq hbus hS hm hrep addr with
    ⟨hrefused, hfree⟩ | ⟨i, haddr, hheld, m', hfree, hok, hview⟩
  · rw [Frames.free, if_neg hrefused]
    exact ⟨s, m, hfree, ⟨hm, hbase, hS, hrep⟩, rfl, fun _ _ => rfl⟩
  · have hpage : addr.toNat / 4096 = i := by omega
    have haccepted : 4096 ∣ addr.toNat ∧ addr.toNat / 4096 < F.total ∧
        addr.toNat / 4096 ∈ F.held :=
      ⟨⟨i, by omega⟩, by rw [hpage]; exact F.held_lt i hheld, by rwa [hpage]⟩
    rw [Frames.free, if_pos haccepted, hpage]
    refine ⟨_, m', hfree, ⟨hok, hbase, hS, ?_⟩, rfl, ?_⟩
    · simp only [hview]
      exact hrep.release hheld
    · intro c hc
      rw [hview]
      refine Bytes.put_of_ne _ fun heq => hc ?_
      rw [heq]
      exact s.byte_mem_bitmapBytes (hrep.page_lt (F.held_lt i hheld))

/-- Each call is answered as the set of frames answers it. -/
theorem pmmStep_simulates (hbus : bus.Lawful ok view S) {x : PmmState × M} {F : Frames}
    (call : PmmCall) (hsim : PmmSimulates ok view S x F) :
    ∃ x', pmmStep bus x call = some ((F.step call).1, x') ∧
      PmmSimulates ok view S x' (F.step call).2 := by
  obtain ⟨s, m⟩ := x
  rcases pmmStep_cases hbus hsim call with ⟨-, -, hstep, hcall⟩ | ⟨-, -, hstep, hcall⟩ |
    ⟨i, hi, -, -, -, hstep, s', m', hcall, hsim'⟩ | ⟨i, -, -, -, hstep, s', m', hcall, hsim'⟩
  · rw [hstep]
    exact ⟨_, hcall, hsim⟩
  · rw [hstep]
    exact ⟨_, hcall, hsim⟩
  · rw [hstep]
    exact ⟨_, hcall, hsim'⟩
  · rw [hstep]
    exact ⟨_, hcall, hsim'⟩

/-- A call that leaves the set of frames alone leaves the record and the bitmap alone. -/
theorem pmmStep_unchanged (hbus : bus.Lawful ok view S) {s : PmmState} {m : M} {F : Frames}
    (hsim : PmmSimulates ok view S (s, m) F) {call : PmmCall} (hkept : (F.step call).2 = F)
    {reply : PmmReply} {s' : PmmState} {m' : M}
    (hcall : pmmStep bus (s, m) call = some (reply, s', m')) : s' = s ∧ m' = m := by
  rcases pmmStep_cases hbus hsim call with ⟨-, -, -, hcall'⟩ | ⟨-, -, -, hcall'⟩ |
    ⟨i, hi, -, hfree, -, hstep, -⟩ | ⟨i, -, -, hheld, hstep, -⟩
  · simp_all
  · simp_all
  · rw [hstep] at hkept
    have hmem : i ∈ (F.take i hi).held := Finset.mem_insert_self i F.held
    exact absurd (congrArg Frames.held hkept ▸ hmem) hfree
  · rw [hstep] at hkept
    have hmem : i ∉ (F.release i).held := Finset.notMem_erase i F.held
    exact absurd hheld (congrArg Frames.held hkept ▸ hmem)

/-- Calls do not change how many frames there are. -/
theorem Frames.step_total (F : Frames) (call : PmmCall) : (F.step call).2.total = F.total := by
  cases call with
  | alloc =>
    simp only [Frames.step, Frames.alloc]
    split <;> rfl
  | free addr =>
    simp only [Frames.step, Frames.free]
    split <;> rfl

end Simulation

/-- The frames left by `pmm_init` on the bitmap array are all free. -/
theorem pmmInit_simulates (totalMemory : Word) (bytes : Vector Byte (bitmapLength totalMemory)) :
    ∃ s m, pmmInit (bitmapBus totalMemory) bytes totalMemory = some (s, m) ∧
      PmmSimulates (fun _ => True) (bitmapView totalMemory)
        {a | (a - (kernelVirtBase + 0x200000)).toNat < bitmapLength totalMemory} (s, m)
        (Frames.empty (totalMemory.toNat / 4096)) := by
  obtain ⟨s, m, hinit, hok, hbitmap, hrep, -⟩ :=
    pmmInit_eq (arrayBus_lawful (kernelVirtBase + 0x200000) (bitmapLength totalMemory)) totalMemory
      (Set.Subset.refl _) (m := bytes) trivial
  refine ⟨s, m, hinit, hok, hbitmap, ?_, hrep⟩
  intro a ha
  have ha' : (a - s.bitmap).toNat < s.bitmapSize.toNat := ha
  rwa [hbitmap, hrep.size_eq] at ha'

/-- **The frame allocator refines the set of frames.** From `pmm_init` on any
memory size, every sequence of `pmm_alloc` and `pmm_free` calls returns, stays
inside the bitmap array, and is answered as the set of frames answers it; every
bit of the array, padding included, and both counters agree with the set, and a
call that keeps the set keeps the record and the array. -/
theorem pmm_refines_frames (totalMemory : Word)
    (bytes : Vector Byte (bitmapLength totalMemory)) (calls : List PmmCall) :
    ∃ s₀ m₀ replies s m F,
      pmmInit (bitmapBus totalMemory) bytes totalMemory = some (s₀, m₀) ∧
      exec (pmmStep (bitmapBus totalMemory)) (s₀, m₀) calls = some (replies, s, m) ∧
      trace Frames.step (Frames.empty (totalMemory.toNat / 4096)) calls = (replies, F) ∧
      F.total = totalMemory.toNat / 4096 ∧
      (∀ i ∈ F.held, (i + 1) * 4096 ≤ totalMemory.toNat) ∧
      (∀ i < 8 * bitmapLength totalMemory,
        (bitmapView totalMemory m).bit (kernelVirtBase + 0x200000) i = decide (i ∈ F.held)) ∧
      (pmmGetTotal s).toNat = F.total ∧
      (pmmGetAllocated s).toNat = F.held.card ∧ F.held.card ≤ F.total ∧
      (pmmGetFree s).toNat = F.total - F.held.card ∧
      ∀ call reply s' m', pmmStep (bitmapBus totalMemory) (s, m) call = some (reply, s', m') →
        (F.step call).2 = F → s' = s ∧ m' = m := by
  obtain ⟨s₀, m₀, hinit, hsim₀⟩ := pmmInit_simulates totalMemory bytes
  have hbus := arrayBus_lawful (kernelVirtBase + 0x200000) (bitmapLength totalMemory)
  obtain ⟨⟨s, m⟩, hrun, hsim, htotal⟩ := exec_of_simulation
    (R := fun x F => PmmSimulates (fun _ => True) (bitmapView totalMemory)
      {a | (a - (kernelVirtBase + 0x200000)).toNat < bitmapLength totalMemory} x F ∧
        F.total = totalMemory.toNat / 4096)
    (fun call h => by
      obtain ⟨x', hcall, hsim'⟩ := pmmStep_simulates hbus call h.1
      exact ⟨x', hcall, hsim', (Frames.step_total _ call).trans h.2⟩)
    ⟨hsim₀, rfl⟩ calls
  obtain ⟨-, hbase, -, hrep⟩ := id hsim
  simp only at hbase hrep
  have hcard := (trace Frames.step (Frames.empty (totalMemory.toNat / 4096)) calls).2.card_le
  refine ⟨s₀, m₀, _, s, m, _, hinit, hrun, rfl, htotal, ?_, ?_, hrep.total_eq, hrep.allocated_eq,
    hcard, ?_, ?_⟩
  · intro i hi
    have := Frames.held_lt _ i hi
    omega
  · intro i hi
    have hsize : s.bitmapSize.toNat = bitmapLength totalMemory := by rw [hrep.size_eq, htotal]
    rw [← hbase]
    exact hrep.bit_eq i (by omega)
  · have htotaleq := hrep.total_eq
    have hallocated := hrep.allocated_eq
    rw [pmmGetFree, BitVec.toNat_sub_of_le (by bv_omega)]
    omega
  · intro call reply s' m' hcall hkept
    exact pmmStep_unchanged hbus hsim hkept hcall

/-- A reply its caller takes for a success of `pmm_alloc`. -/
def PmmReply.granted : PmmReply → Bool
  | .frame addr => addr ≠ 0
  | .status _ => false

/-- A reply that reports a success of `pmm_free`. -/
def PmmReply.freed : PmmReply → Bool
  | .frame _ => false
  | .status ret => ret = 0

/-- Every page's bit is set. -/
def NoPageFree (s : PmmState) (v : Bytes) : Prop :=
  ∀ i < s.totalPages.toNat, v.bit s.bitmap i = true

/-- In this state `pmm_alloc` returns 0 exactly when no page is free, and then
it changes nothing. -/
def ZeroMeansFull (bus : Bus M) (view : M → Bytes) (s : PmmState) (m : M) : Prop :=
  ∃ addr s' m', pmmAlloc bus s m = some (addr, s', m') ∧
    (addr = 0 ↔ NoPageFree s (view m)) ∧ (NoPageFree s (view m) → s' = s ∧ m' = m)

/-- The counter is the number of successes reported by `pmm_alloc` less the
number reported by `pmm_free`. -/
def LedgerBalances (s : PmmState) (replies : List PmmReply) : Prop :=
  (s.allocatedPages.toNat : ℤ) =
    (replies.countP PmmReply.granted : ℤ) - (replies.countP PmmReply.freed : ℤ)

/-- `pmm_alloc` is called only while page 0, if there is one, is allocated. -/
def PageZeroTaken (view : M → Bytes) (x : PmmState × M) (call : PmmCall) : Prop :=
  call = .alloc → 0 < x.1.totalPages.toNat → (view x.2).bit x.1.bitmap 0 = true

section Ledger

variable {bus : Bus M} {ok : M → Prop} {view : M → Bytes} {S : Set Word} {s s' : PmmState}
  {m m' : M} {F : Frames}

/-- In a represented state no page is free exactly when the set is full. -/
theorem noPageFree_iff (hsim : PmmSimulates ok view S (s, m) F) :
    NoPageFree s (view m) ↔ ∀ i < F.total, i ∈ F.held := by
  obtain ⟨-, -, -, hrep⟩ := hsim
  simp only at hrep
  unfold NoPageFree
  rw [hrep.total_eq]
  refine forall₂_congr fun i hi => ?_
  rw [hrep.bit_eq i (hrep.page_lt hi), decide_eq_true_eq]

/-- In a represented state the bit of page 0 tells whether frame 0 is held. -/
theorem pageZero_iff (hsim : PmmSimulates ok view S (s, m) F) (hpos : 0 < F.total) :
    (view m).bit s.bitmap 0 = true ↔ 0 ∈ F.held := by
  obtain ⟨-, -, -, hrep⟩ := hsim
  simp only at hrep
  rw [hrep.bit_eq 0 (hrep.page_lt hpos), decide_eq_true_eq]

/-- The reply 0 is unambiguous exactly when page 0 is not there to be handed out. -/
theorem zeroMeansFull_iff (hbus : bus.Lawful ok view S) (hsim : PmmSimulates ok view S (s, m) F) :
    ZeroMeansFull bus view s m ↔ F.total = 0 ∨ 0 ∈ F.held := by
  have hfulliff := noPageFree_iff hsim
  obtain ⟨hm, hbase, hS, hrep⟩ := hsim
  simp only at hm hbase hS hrep
  have hlt := hrep.total_lt
  rcases pmmAlloc_eq hbus hS hm hrep with
    ⟨hfull, halloc⟩ | ⟨i, hi, hfree, hleast, m', halloc, -, -⟩
  · have hzero : F.total = 0 ∨ 0 ∈ F.held := by
      rcases Nat.eq_zero_or_pos F.total with h | h
      · exact Or.inl h
      · exact Or.inr (hfull 0 h)
    exact iff_of_true
      ⟨0, s, m, halloc, iff_of_true rfl (hfulliff.mpr hfull), fun _ => ⟨rfl, rfl⟩⟩ hzero
  · have hnotfull : ¬ NoPageFree s (view m) := fun h => hfree (hfulliff.mp h i hi)
    have haddr : BitVec.ofNat 32 (i * 4096) = 0 ↔ i = 0 := by
      constructor <;> intro h <;> bv_omega
    have hlaw : ZeroMeansFull bus view s m ↔ i ≠ 0 := by
      unfold ZeroMeansFull
      rw [halloc]
      constructor
      · rintro ⟨addr, s', m', heq, hiff, -⟩ hi0
        obtain ⟨rfl, -⟩ : BitVec.ofNat 32 (i * 4096) = addr ∧ _ := by simpa using heq
        exact hnotfull (hiff.mp (haddr.mpr hi0))
      · intro hi0
        exact ⟨_, _, _, rfl, iff_of_false (fun h => hi0 (haddr.mp h)) hnotfull,
          fun h => absurd h hnotfull⟩
    rw [hlaw]
    constructor
    · intro hi0
      exact Or.inr (hleast 0 (by omega))
    · rintro (h | h)
      · omega
      · rintro rfl
        exact hfree h

/-- One call keeps the books up to one success that it reports as a failure,
when it hands out page 0. -/
theorem ledger_step (hbus : bus.Lawful ok view S) (hsim : PmmSimulates ok view S (s, m) F)
    {call : PmmCall} {reply : PmmReply} (hcall : pmmStep bus (s, m) call = some (reply, s', m')) :
    ∃ F' lost, PmmSimulates ok view S (s', m') F' ∧ F'.total = F.total ∧
      F'.held.card + [reply].countP PmmReply.freed =
        F.held.card + [reply].countP PmmReply.granted + lost ∧
      (lost = 0 ↔ PageZeroTaken view (s, m) call) := by
  have hzero := pageZero_iff hsim
  have htotal : s.totalPages.toNat = F.total := hsim.2.2.2.total_eq
  have htaken : PageZeroTaken view (s, m) call ↔
      (call = .alloc → 0 < F.total → 0 ∈ F.held) := by
    unfold PageZeroTaken
    rw [htotal]
    exact forall₂_congr fun _ hpos => hzero hpos
  rw [htaken]
  rcases pmmStep_cases hbus hsim call with ⟨-, hfull, -, hcall'⟩ | ⟨addr, rfl, -, hcall'⟩ |
    ⟨i, hi, rfl, hfree, hleast, -, t, n, hcall', hsim'⟩ |
    ⟨i, addr, rfl, hheld, -, t, n, hcall', hsim'⟩
  · obtain ⟨rfl, rfl, rfl⟩ : PmmReply.frame 0 = reply ∧ s = s' ∧ m = m' := by
      simpa [hcall'] using hcall
    exact ⟨F, 0, hsim, rfl, rfl, iff_of_true rfl fun _ hpos => hfull 0 hpos⟩
  · obtain ⟨rfl, rfl, rfl⟩ : PmmReply.status (-1) = reply ∧ s = s' ∧ m = m' := by
      simpa [hcall'] using hcall
    exact ⟨F, 0, hsim, rfl, rfl, iff_of_true rfl (by simp)⟩
  · obtain ⟨rfl, rfl, rfl⟩ : PmmReply.frame (i * 4096) = reply ∧ t = s' ∧ n = m' := by
      simpa [hcall'] using hcall
    have hcard : (F.take i hi).held.card = F.held.card + 1 := Finset.card_insert_of_notMem hfree
    by_cases hi0 : i = 0
    · subst hi0
      exact ⟨_, 1, hsim', rfl, by simp [hcard, PmmReply.granted, PmmReply.freed],
        iff_of_false (by omega) fun h => hfree (h rfl hi)⟩
    · exact ⟨_, 0, hsim', rfl, by simp [hcard, PmmReply.granted, PmmReply.freed, hi0],
        iff_of_true rfl fun _ _ => hleast 0 (by omega)⟩
  · obtain ⟨rfl, rfl, rfl⟩ : PmmReply.status 0 = reply ∧ t = s' ∧ n = m' := by
      simpa [hcall'] using hcall
    have hcard : (F.release i).held.card + 1 = F.held.card := Finset.card_erase_add_one hheld
    exact ⟨_, 0, hsim', rfl, by simp [hcard, PmmReply.granted, PmmReply.freed],
      iff_of_true rfl (by simp)⟩

/-- A run keeps the books up to the calls of `pmm_alloc` that hand out page 0. -/
theorem ledger_run (hbus : bus.Lawful ok view S) (hsim : PmmSimulates ok view S (s, m) F)
    {calls : List PmmCall} {replies : List PmmReply}
    (hrun : exec (pmmStep bus) (s, m) calls = some (replies, s', m')) :
    ∃ F' lost, PmmSimulates ok view S (s', m') F' ∧ F'.total = F.total ∧
      F'.held.card + replies.countP PmmReply.freed =
        F.held.card + replies.countP PmmReply.granted + lost ∧
      (lost = 0 ↔ Along (pmmStep bus) (PageZeroTaken view) (s, m) calls) := by
  induction calls generalizing s m F replies with
  | nil =>
    obtain ⟨rfl, rfl, rfl⟩ : [] = replies ∧ s = s' ∧ m = m' := by simpa using hrun
    exact ⟨F, 0, hsim, rfl, rfl, iff_of_true rfl trivial⟩
  | cons call calls ih =>
    obtain ⟨reply, ⟨t, n⟩, rest, hcall, hrest, rfl⟩ := exec_cons_iff.mp hrun
    obtain ⟨F₁, lost₁, hsim₁, htotal₁, hcard₁, hiff₁⟩ := ledger_step hbus hsim hcall
    obtain ⟨F₂, lost₂, hsim₂, htotal₂, hcard₂, hiff₂⟩ := ih hsim₁ hrest
    refine ⟨F₂, lost₁ + lost₂, hsim₂, htotal₂.trans htotal₁, ?_, ?_⟩
    · have hcount : ∀ f : PmmReply → Bool,
          (reply :: rest).countP f = [reply].countP f + rest.countP f := by
        intro f
        rw [← List.countP_append, List.singleton_append]
      rw [hcount, hcount]
      omega
    · have hnext : Along (pmmStep bus) (PageZeroTaken view) (s, m) (call :: calls) ↔
          PageZeroTaken view (s, m) call ∧
            Along (pmmStep bus) (PageZeroTaken view) (t, n) calls := by
        simp [Along, hcall]
      rw [hnext, ← hiff₁, ← hiff₂]
      omega

/-- While page 0 is free and no call may hand it out, it stays free. -/
theorem pageZero_free_of_taken (hbus : bus.Lawful ok view S)
    (hsim : PmmSimulates ok view S (s, m) F) (hpos : 0 < F.total) (hfree : 0 ∉ F.held)
    {calls : List PmmCall} {replies : List PmmReply}
    (htaken : Along (pmmStep bus) (PageZeroTaken view) (s, m) calls)
    (hrun : exec (pmmStep bus) (s, m) calls = some (replies, s', m')) :
    ∃ F', PmmSimulates ok view S (s', m') F' ∧ 0 < F'.total ∧ 0 ∉ F'.held := by
  refine exec_invariant (fun x => ∃ F, PmmSimulates ok view S x F ∧ 0 < F.total ∧
    0 ∉ F.held) ?_ ⟨F, hsim, hpos, hfree⟩ htaken hrun
  rintro ⟨s, m⟩ call reply ⟨s', m'⟩ ⟨F, hsim, hpos, hfree⟩ htaken hcall
  rcases pmmStep_cases hbus hsim call with ⟨-, hfull, -, -⟩ | ⟨addr, -, -, hcall'⟩ |
    ⟨i, hi, rfl, -, -, -, -⟩ | ⟨i, addr, -, hheld, -, t, n, hcall', hsim'⟩
  · exact absurd (hfull 0 hpos) hfree
  · obtain ⟨-, rfl, rfl⟩ : PmmReply.status (-1) = reply ∧ s = s' ∧ m = m' := by
      simpa [hcall'] using hcall
    exact ⟨F, hsim, hpos, hfree⟩
  · have htotal : s.totalPages.toNat = F.total := hsim.2.2.2.total_eq
    exact absurd ((pageZero_iff hsim hpos).mp (htaken rfl (by simpa [htotal] using hpos))) hfree
  · obtain ⟨-, rfl, rfl⟩ : PmmReply.status 0 = reply ∧ t = s' ∧ n = m' := by
      simpa [hcall'] using hcall
    exact ⟨_, hsim', hpos, fun h => hfree (Finset.mem_of_mem_erase h)⟩

end Ledger

/-- **When the reply 0 is unambiguous.** After every run from `pmm_init`, the
reply 0 of the next `pmm_alloc` means failure exactly when there is no page 0
or page 0 is allocated, and the counter agrees with the reported successes
exactly when `pmm_alloc` was never called while page 0 was free. Both hold
together only where there is no page at all. -/
theorem pmm_failure_unambiguous_iff (totalMemory : Word)
    (bytes : Vector Byte (bitmapLength totalMemory)) (calls : List PmmCall) :
    ∃ s₀ m₀ replies s m,
      pmmInit (bitmapBus totalMemory) bytes totalMemory = some (s₀, m₀) ∧
      exec (pmmStep (bitmapBus totalMemory)) (s₀, m₀) calls = some (replies, s, m) ∧
      (ZeroMeansFull (bitmapBus totalMemory) (bitmapView totalMemory) s m ↔
        s.totalPages = 0 ∨ (bitmapView totalMemory m).bit s.bitmap 0 = true) ∧
      (LedgerBalances s replies ↔
        Along (pmmStep (bitmapBus totalMemory)) (PageZeroTaken (bitmapView totalMemory))
          (s₀, m₀) calls) ∧
      (ZeroMeansFull (bitmapBus totalMemory) (bitmapView totalMemory) s m ∧
        LedgerBalances s replies ↔ totalMemory.toNat < 4096) := by
  obtain ⟨s₀, m₀, hinit, hsim₀⟩ := pmmInit_simulates totalMemory bytes
  have hbus := arrayBus_lawful (kernelVirtBase + 0x200000) (bitmapLength totalMemory)
  obtain ⟨⟨s, m⟩, hrun, -⟩ :=
    exec_of_simulation (fun call h => pmmStep_simulates hbus call h) hsim₀ calls
  generalize (trace _ _ calls).1 = replies at hrun
  obtain ⟨F, lost, hsim, htotal, hcard, hlost⟩ := ledger_run hbus hsim₀ hrun
  have hzero := zeroMeansFull_iff hbus hsim
  have hpages : s.totalPages.toNat = F.total := hsim.2.2.2.total_eq
  have hallocated : s.allocatedPages.toNat = F.held.card := hsim.2.2.2.allocated_eq
  have hempty : (Frames.empty (totalMemory.toNat / 4096)).held.card = 0 := rfl
  have hbalance : LedgerBalances s replies ↔ lost = 0 := by
    unfold LedgerBalances
    omega
  rw [hlost] at hbalance
  have htotal' : F.total = totalMemory.toNat / 4096 := htotal
  refine ⟨s₀, m₀, replies, s, m, hinit, hrun, ?_, hbalance, ?_⟩
  · rw [hzero]
    rcases Nat.eq_zero_or_pos F.total with h | h
    · exact iff_of_true (Or.inl h) (Or.inl (by bv_omega))
    · rw [pageZero_iff hsim h]
      exact or_congr (iff_of_false (by omega) (by bv_omega)) Iff.rfl
  · constructor
    · rintro ⟨hlaw, hbooks⟩
      by_contra hbig
      have hpos : 0 < totalMemory.toNat / 4096 := by omega
      obtain ⟨F', hsim', hpos', hfree'⟩ := pageZero_free_of_taken hbus hsim₀ hpos
        (Finset.notMem_empty 0) (hbalance.mp hbooks) hrun
      rcases (zeroMeansFull_iff hbus hsim').mp hlaw with h | h
      · omega
      · exact hfree' h
    · intro hsmall
      have hnone : F.total = 0 := by omega
      refine ⟨hzero.mpr (Or.inl hnone), hbalance.mpr (along_of_invariant
        (fun x => ∃ F, PmmSimulates (fun _ => True) (bitmapView totalMemory)
          {a | (a - (kernelVirtBase + 0x200000)).toNat < bitmapLength totalMemory} x F ∧
            F.total = 0) ?_ ?_ ⟨_, hsim₀, by rw [← htotal, hnone]⟩ calls)⟩
      · rintro ⟨t, n⟩ call reply ⟨t', n'⟩ ⟨G, hsimG, hG⟩ hcall
        obtain ⟨G', -, hsimG', hG', -⟩ := ledger_step hbus hsimG hcall
        exact ⟨G', hsimG', hG'.trans hG⟩
      · rintro ⟨t, n⟩ call ⟨G, hsimG, hG⟩ - hpos
        have htotalG : t.totalPages.toNat = G.total := hsimG.2.2.2.total_eq
        simp only at hpos
        omega

/-- With the 128 MB that `kmain` passes, the first `pmm_alloc` answers 0 although
all 32768 pages are free, and counts page 0 as allocated. -/
theorem pmmAlloc_first_reply_zero :
    ∃ s₀ m₀ s m,
      pmmInit (bitmapBus 0x8000000) (Vector.replicate _ 0) 0x8000000 = some (s₀, m₀) ∧
      pmmAlloc (bitmapBus 0x8000000) s₀ m₀ = some (0, s, m) ∧
      ¬ NoPageFree s₀ (bitmapView 0x8000000 m₀) ∧
      ¬ ZeroMeansFull (bitmapBus 0x8000000) (bitmapView 0x8000000) s₀ m₀ ∧
      s.allocatedPages = 1 ∧ ¬ LedgerBalances s [.frame 0] := by
  obtain ⟨s₀, m₀, hinit, hsim⟩ := pmmInit_simulates 0x8000000 (Vector.replicate _ 0)
  have hbus := arrayBus_lawful (kernelVirtBase + 0x200000) (bitmapLength 0x8000000)
  have htotal : (Frames.empty (BitVec.toNat (0x8000000 : Word) / 4096)).total = 32768 := rfl
  have hempty : ∀ i, i ∉ (Frames.empty (BitVec.toNat (0x8000000 : Word) / 4096)).held :=
    Finset.notMem_empty
  obtain ⟨-, -, hS, hrep⟩ := id hsim
  have hzero : s₀.allocatedPages = 0 := BitVec.eq_of_toNat_eq hrep.allocated_eq
  rcases pmmAlloc_eq hbus hS trivial hrep with
    ⟨hfull, -⟩ | ⟨i, hi, -, hleast, m', halloc, -, -⟩
  · exact absurd (hfull 0 (by omega)) (hempty 0)
  · have hi0 : i = 0 := by
      by_contra h
      exact hempty 0 (hleast 0 (by omega))
    subst hi0
    refine ⟨s₀, m₀, _, m', hinit, halloc, ?_, ?_, ?_, ?_⟩
    · rw [noPageFree_iff hsim]
      exact fun h => hempty 0 (h 0 (by omega))
    · rw [zeroMeansFull_iff hbus hsim, htotal]
      rintro (h | h)
      · omega
      · exact hempty 0 h
    · simp only [hzero]
      rfl
    · simp only [LedgerBalances, hzero]
      decide

end Nimbu
