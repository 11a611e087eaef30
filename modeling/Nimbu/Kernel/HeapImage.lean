import Nimbu.Kernel.Boot
import Nimbu.Mm.HeapContract

/-!
# The heap and the kernel image

The linker places the kernel image at the physical address 0x100000, and `kmain`
starts the heap 1 MB above 3 GB. Under the boot mapping these are the same
bytes. Every store the heap or one of its clients makes is recorded by the
memory, so that "no write lands in the image" is a property of that record.
-/

namespace Nimbu

/-- The physical address at which `linker.ld` places the kernel image. -/
def imageBase : ℕ := 0x100000

/-- The physical bytes of a kernel image of length `len`. -/
def imageBytes (len : ℕ) : Set Word := {p | imageBase ≤ p.toNat ∧ p.toNat < imageBase + len}

/-- A request that the heap of `kmain` can never serve. -/
def Refused (n : Word) : Prop := n = 0 ∨ kmainHeapSize.toNat - 12 < n.toNat

/-- The first byte of the heap is the first byte of the image. -/
theorem bootMap_heapStart : bootMap kmainHeapStart = some (BitVec.ofNat 32 imageBase) := by
  decide

/-- The stores of `kmalloc` are added to the record of stores. -/
theorem kmalloc_writes {h h' : HeapState} {m m' : Mem} {n p : Word}
    (hcall : kmalloc Mem.bus h m n = some (p, h', m')) : ∃ l, m'.writes = l ++ m.writes := by
  unfold kmalloc at hcall
  split at hcall
  · obtain ⟨-, -, rfl⟩ : 0 = p ∧ h = h' ∧ m = m' := by simpa using hcall
    exact ⟨[], rfl⟩
  · simp only [Option.bind_eq_bind, Option.bind_eq_some_iff] at hcall
    obtain ⟨walk, -, hcall⟩ := hcall
    cases walk with
    | corrupt =>
      obtain ⟨-, -, rfl⟩ : 0 = p ∧ h = h' ∧ m = m' := by simpa using hcall
      exact ⟨[], rfl⟩
    | found current =>
      obtain ⟨-, -, rfl⟩ : _ = p ∧ h = h' ∧ m.put (current + headerUsedOffset) 1 = m' := by
        simpa using hcall
      exact ⟨[current + headerUsedOffset], rfl⟩
    | tail current offset =>
      dsimp only at hcall
      split at hcall
      · obtain ⟨-, -, rfl⟩ : 0 = p ∧ h = h' ∧ m = m' := by simpa using hcall
        exact ⟨[], rfl⟩
      · simp only [Mem.bus_storeWord, Mem.bus_store, Option.bind_some, Option.pure_def,
          Option.some.injEq, Prod.mk.injEq] at hcall
        obtain ⟨-, -, rfl⟩ := hcall
        exact ⟨[_, _, _, _, _, _, _, _, _], rfl⟩

/-- The store of `kfree` is added to the record of stores. -/
theorem kfree_writes {m m' : Mem} {p : Word} {ret : ℤ}
    (hcall : kfree Mem.bus m p = some (ret, m')) : ∃ l, m'.writes = l ++ m.writes := by
  unfold kfree at hcall
  split at hcall
  · obtain ⟨-, rfl⟩ : 0 = ret ∧ m = m' := by simpa using hcall
    exact ⟨[], rfl⟩
  · simp only [Mem.bus_loadWord, Option.bind_eq_bind, Option.bind_some] at hcall
    split at hcall
    · obtain ⟨-, rfl⟩ : -1 = ret ∧ m = m' := by simpa using hcall
      exact ⟨[], rfl⟩
    · obtain ⟨-, rfl⟩ : 0 = ret ∧ m.put (p - allocHeaderSize + headerUsedOffset) 0 = m' := by
        simpa using hcall
      exact ⟨[p - allocHeaderSize + headerUsedOffset], rfl⟩

namespace HeapClient

variable {x x' : HeapClient}

/-- The stores of an action are added to the record of stores. -/
theorem step_writes {call : HeapCall} {reply : HeapReply}
    (hstep : x.step call = some (reply, x')) : ∃ l, x'.mem.writes = l ++ x.mem.writes := by
  cases call with
  | kmalloc n =>
    obtain ⟨⟨p, h, m⟩, hcall, hresult⟩ := Option.bind_eq_some_iff.mp hstep
    obtain ⟨-, rfl⟩ : HeapReply.pointer p = reply ∧ _ = x' := by simpa using hresult
    exact kmalloc_writes hcall
  | kfree p =>
    obtain ⟨⟨ret, m⟩, hcall, hresult⟩ := Option.bind_eq_some_iff.mp hstep
    obtain ⟨-, rfl⟩ : HeapReply.status ret = reply ∧ _ = x' := by simpa using hresult
    exact kfree_writes hcall
  | write a b =>
    obtain ⟨-, rfl⟩ : HeapReply.written = reply ∧ _ = x' := by simpa [step] using hstep
    exact ⟨[a], rfl⟩

/-- The stores of a run are added to the record of stores. -/
theorem exec_writes {calls : List HeapCall} {replies : List HeapReply}
    (hrun : exec step x calls = some (replies, x')) : x.mem.writes ⊆ x'.mem.writes := by
  induction calls generalizing x replies with
  | nil =>
    obtain ⟨-, rfl⟩ : [] = replies ∧ x = x' := by simpa using hrun
    exact List.Subset.refl _
  | cons call calls ih =>
    obtain ⟨reply, t, rest, hstep, hrest, -⟩ := exec_cons_iff.mp hrun
    obtain ⟨l, hl⟩ := step_writes hstep
    have hsub : x.mem.writes ⊆ t.mem.writes := hl ▸ List.subset_append_right l x.mem.writes
    exact List.Subset.trans hsub (ih hrest)

/-- The heap of `kmain` before its first use. -/
abbrev kmainInit (bytes : Bytes) : HeapClient := init kmainHeapStart kmainHeapSize ⟨bytes, []⟩

/-- The first `kmalloc` on the heap of `kmain` changes nothing when it is
refused; otherwise it stores to the first byte of the heap. -/
theorem kmainInit_kmalloc (bytes : Bytes) (n : Word) :
    (Refused n ∧ (kmainInit bytes).step (.kmalloc n) = some (.pointer 0, kmainInit bytes)) ∨
    (¬ Refused n ∧ ∀ reply x', (kmainInit bytes).step (.kmalloc n) = some (reply, x') →
      kmainHeapStart ∈ x'.mem.writes) := by
  have ht : (kmainInit bytes).heap.Tiled (kmainInit bytes).mem.bytes [] :=
    (init_sound ⟨bytes, []⟩ (by decide) (by decide)).tiled
  have hsize : (kmainInit bytes).heap.size.toNat = 0x800000 := rfl
  have hused : (kmainInit bytes).heap.used.toNat = 0 := rfl
  have hbound : kmainHeapSize.toNat - 12 = 0x7FFFF4 := rfl
  unfold Refused
  rw [hbound]
  rcases kmalloc_eq ht n with ⟨hwhy, heq⟩ | ⟨pre, b, post, hbs, -⟩ | ⟨-, hpos, -, -, hroom, heq⟩
  · left
    refine ⟨?_, by simp [step, heq]⟩
    rw [hsize, hused] at hwhy
    unfold requestSize at hwhy
    rcases hwhy with hzero | hbig | ⟨-, hfull⟩
    · exact Or.inl hzero
    · exact Or.inr (by omega)
    · exact Or.inr (by omega)
  · simp at hbs
  · right
    rw [hsize, hused] at hroom
    unfold requestSize at hroom
    refine ⟨?_, ?_⟩
    · rintro (hzero | hbig)
      · rw [hzero] at hpos
        exact absurd hpos (by decide)
      · omega
    · intro reply x' hstep
      simp only [step, heq, Option.bind_eq_bind, Option.bind_some, Option.pure_def,
        Option.some.injEq, Prod.mk.injEq] at hstep
      obtain ⟨-, rfl⟩ := hstep
      have hstart : (kmainInit bytes).heap.addr (kmainInit bytes).heap.used.toNat =
          kmainHeapStart := BitVec.add_zero _
      simp only [HeapState.putHeader, hstart, Mem.put, Mem.putWord]
      simp

/-- A run on the heap of `kmain` whose requests are all refused changes nothing,
and any other run stores to the first byte of the heap. -/
theorem kmainInit_run (bytes : Bytes) {calls : List HeapCall} {replies : List HeapReply}
    (hcalls : Along step HeldOnly (kmainInit bytes) calls)
    (hrun : exec step (kmainInit bytes) calls = some (replies, x')) :
    ((∀ n, .kmalloc n ∈ calls → Refused n) ∧ x' = kmainInit bytes) ∨
    ((∃ n, .kmalloc n ∈ calls ∧ ¬ Refused n) ∧ kmainHeapStart ∈ x'.mem.writes) := by
  induction calls generalizing replies with
  | nil =>
    left
    obtain ⟨-, rfl⟩ : [] = replies ∧ kmainInit bytes = x' := by simpa using hrun
    simp
  | cons call calls ih =>
    obtain ⟨reply, t, rest, hstep, hrest, -⟩ := exec_cons_iff.mp hrun
    cases call with
    | kmalloc n =>
      rcases kmainInit_kmalloc bytes n with ⟨hrefused, hkept⟩ | ⟨hserved, hwrites⟩
      · obtain ⟨-, rfl⟩ : HeapReply.pointer 0 = reply ∧ kmainInit bytes = t := by
          simpa [hkept] using hstep
        rcases ih (hcalls.2 reply _ hstep) hrest with ⟨hall, heq⟩ | ⟨⟨k, hk, hnot⟩, hmem⟩
        · left
          refine ⟨?_, heq⟩
          intro k hk
          rcases List.mem_cons.mp hk with hk | hk
          · obtain rfl : k = n := by simpa using hk
            exact hrefused
          · exact hall k hk
        · right
          exact ⟨⟨k, List.mem_cons_of_mem _ hk, hnot⟩, hmem⟩
      · right
        exact ⟨⟨n, List.mem_cons_self, hserved⟩, exec_writes hrest (hwrites reply t hstep)⟩
    | kfree p =>
      obtain ⟨n, hmem⟩ := hcalls.1
      simp [init] at hmem
    | write a b =>
      obtain ⟨e, hmem, -⟩ := hcalls.1
      simp [init] at hmem

/-- **The heap and the kernel image.** For an image of any length below 1 MB and
every run of a client of the heap of `kmain` that frees and writes only what it
holds: no store lands in the image, under the mapping `vmm_init` built, exactly
when every request of the run was refused. -/
theorem heap_spares_image_iff (st : StaticTables) (ram bytes : Bytes) (cr3 : Word) {len : ℕ}
    (hpos : 0 < len) (hlt : len < 0x100000) {calls : List HeapCall}
    (hcalls : Along step HeldOnly (kmainInit bytes) calls) :
    ∃ s m replies x, kmainMemory st ⟨ram, cr3, false⟩ = some (s, m) ∧
      exec step (kmainInit bytes) calls = some (replies, x) ∧
      ((∀ a ∈ x.mem.writes, ∀ p, m.linear a = some p → p ∉ imageBytes len) ↔
        ∀ n, .kmalloc n ∈ calls → Refused n) := by
  obtain ⟨s, m, v, hboot, -, -, -, -, -, -, hlinear⟩ := kmainMemory_eq st ram cr3
  obtain ⟨replies, x, bs, hrun, -⟩ :=
    owned_of_run ⟨bytes, []⟩ (by decide) (by decide) hcalls
  refine ⟨s, m, replies, x, hboot, hrun, ?_⟩
  rw [hlinear]
  rcases kmainInit_run bytes hcalls hrun with ⟨hall, rfl⟩ | ⟨⟨n, hn, hserved⟩, hmem⟩
  · refine iff_of_true ?_ hall
    intro a ha
    simp [init] at ha
  · refine iff_of_false ?_ fun hall => hserved (hall n hn)
    intro hspared
    refine hspared _ hmem _ bootMap_heapStart ⟨le_rfl, ?_⟩
    have himage : (BitVec.ofNat 32 imageBase).toNat = imageBase := by decide
    omega

/-- One request of 20 bytes, and an image of 64 KB: a store lands in the image. -/
theorem heap_spares_image_one_block :
    ∃ s m replies x, kmainMemory layoutAt64K ⟨fun _ => 0, 0, false⟩ = some (s, m) ∧
      exec step (kmainInit fun _ => 0) [.kmalloc 20] = some (replies, x) ∧
      ((∀ a ∈ x.mem.writes, ∀ p, m.linear a = some p → p ∉ imageBytes 0x10000) ↔
        ∀ n, HeapCall.kmalloc n ∈ [HeapCall.kmalloc 20] → Refused n) :=
  heap_spares_image_iff layoutAt64K (fun _ => 0) (fun _ => 0) 0 (by decide) (by decide)
    (Along.cons trivial rfl trivial)

/-- The first block the heap hands out lies on the first bytes of the image. -/
theorem heap_first_block_in_image :
    ∃ s m replies x, kmainMemory layoutAt64K ⟨fun _ => 0, 0, false⟩ = some (s, m) ∧
      Along step HeldOnly (kmainInit fun _ => 0) [.kmalloc 20] ∧
      exec step (kmainInit fun _ => 0) [.kmalloc 20] = some (replies, x) ∧
      ¬ ∀ a ∈ x.mem.writes, ∀ p, m.linear a = some p → p ∉ imageBytes 0x10000 := by
  obtain ⟨s, m, v, hboot, -, -, -, -, -, -, hlinear⟩ :=
    kmainMemory_eq layoutAt64K (fun _ => 0) 0
  refine ⟨s, m, _, _, hboot, Along.cons trivial rfl trivial, rfl, fun hspared => ?_⟩
  rw [hlinear] at hspared
  exact hspared kmainHeapStart (by decide) _ bootMap_heapStart ⟨by decide, by decide⟩

end HeapClient

end Nimbu
