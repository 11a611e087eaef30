import Nimbu.Mm.HeapClient

/-!
# What the kernel heap promises its clients

Two results about every run from `heap_init`. The blocks tile the used part of
the heap whatever pointers are freed, so that the walk of `kmalloc` ends and
never meets a bad header. And clients that free only what they hold never share
a byte with each other or with a header, and find their data unchanged.
-/

namespace Nimbu

namespace HeapClient

variable {x : HeapClient} {bs : List Block}

/-- **The heap is always walkable.** Clients free any pointer `kmalloc` ever
returned and write into any block it ever returned. Then the used part of the
heap is exactly a list of blocks with proper headers and sizes, it never
shrinks, and the walk of `kmalloc` ends within `used / 32 + 1` rounds, either at
a free block or at offset `used`, and never at a corrupt header. -/
theorem heap_walk_invariant (start size : Word) (m : Mem)
    (hbase : kernelVirtBase.toNat ≤ start.toNat) (hend : start.toNat + size.toNat ≤ 2 ^ 32)
    {calls : List HeapCall} (hcalls : Along step ReturnedOnly (init start size m) calls) :
    ∃ replies x bs, exec step (init start size m) calls = some (replies, x) ∧
      x.heap.start = start ∧ x.heap.size = size ∧ x.heap.Tiled x.mem.bytes bs ∧
      (∀ b ∈ bs, 32 ≤ b.size ∧ b.size ≤ size.toNat) ∧
      (∀ call, x.ReturnedOnly call → ∃ reply x', x.step call = some (reply, x') ∧
        x.heap.used.toNat ≤ x'.heap.used.toNat) ∧
      ∀ (totalSize : Word) (rounds : ℕ), x.heap.used.toNat < 32 * rounds →
        (∃ current, kmallocWalk Mem.bus x.mem x.heap.used totalSize rounds start 0 =
          some (.found current)) ∨
        kmallocWalk Mem.bus x.mem x.heap.used totalSize rounds start 0 =
          some (.tail (start + x.heap.used) x.heap.used) := by
  obtain ⟨replies, x, hrun, ⟨bs, hx⟩, hstart, hsize⟩ := exec_returns
    (fun x : HeapClient => (∃ bs, x.Sound bs) ∧ x.heap.start = start ∧ x.heap.size = size)
    (fun {x call} hinv hcall => by
      obtain ⟨⟨bs, hx⟩, hstart, hsize⟩ := hinv
      obtain ⟨reply, x', bs', hstep, hx', hstart', hsize', -⟩ := hx.step hcall
      exact ⟨reply, x', hstep, ⟨bs', hx'⟩, hstart'.trans hstart, hsize'.trans hsize⟩)
    ⟨⟨[], init_sound m hbase hend⟩, rfl, rfl⟩ hcalls
  have ht := hx.tiled
  refine ⟨replies, x, bs, hrun, hstart, hsize, ht, ?_, ?_, ?_⟩
  · intro b hb
    have hle := ht.size_le_used hb
    have hused := ht.used_le
    exact ⟨ht.min_size b hb, by rw [← hsize]; omega⟩
  · intro call hcall
    obtain ⟨reply, x', -, hstep, -, -, -, hused⟩ := hx.step hcall
    exact ⟨reply, x', hstep, hused⟩
  · intro totalSize rounds hrounds
    have hcount := Block.mul_length_le_span ht.min_size
    have hspan := ht.span_eq
    have hwalk := kmallocWalk_eq totalSize x.heap.used.isLt
      ((Nat.zero_add _).trans hspan) ht.min_size ht.header (show bs.length < rounds by omega)
    have hzero : x.heap.addr 0 = start := by simp [HeapState.addr, hstart]
    have htail : x.heap.addr x.heap.used.toNat = start + x.heap.used := by
      simp [HeapState.addr, hstart]
    rw [hzero, htail] at hwalk
    rcases hwalk with ⟨pre, b, post, -, -, -, hwalk⟩ | ⟨-, hwalk⟩
    · exact Or.inl ⟨_, hwalk⟩
    · exact Or.inr hwalk

/-- A run that frees one pointer twice. -/
theorem heap_walk_invariant_double_free :
    ∃ replies x bs,
      exec step (init 0xC0100000 0x800000 ⟨fun _ => 0xAA, []⟩)
        [.kmalloc 20, .kfree 0xC010000C, .kfree 0xC010000C] = some (replies, x) ∧
      x.heap.Tiled x.mem.bytes bs := by
  have hcalls : Along step ReturnedOnly (init 0xC0100000 0x800000 ⟨fun _ => 0xAA, []⟩)
      [.kmalloc 20, .kfree 0xC010000C, .kfree 0xC010000C] :=
    Along.cons trivial rfl (Along.cons (Or.inr ⟨20, List.mem_cons_self⟩) rfl
      (Along.cons (Or.inr ⟨20, List.mem_cons_self⟩) rfl trivial))
  obtain ⟨replies, x, bs, hrun, -, -, ht, -⟩ := heap_walk_invariant 0xC0100000 0x800000
    ⟨fun _ => 0xAA, []⟩ (by decide) (by decide) hcalls
  exact ⟨replies, x, bs, hrun, ht⟩

/-- The client's entries are served by blocks in use, one block each. -/
structure Owned (x : HeapClient) (bs : List Block) : Prop extends Sound x bs where
  /-- A held block is in use. -/
  held_in_use : ∀ e ∈ x.held, ∃ o b, x.heap.Serves bs e o b ∧ b.inUse = true
  /-- No pointer is held twice. -/
  distinct : x.held.Pairwise fun e e' => e.1 ≠ e'.1

/-- Ownership is kept where all headers are kept. -/
theorem Owned.congr (hx : x.Owned bs) {m : Mem}
    (hsame : ∀ o b, (o, b) ∈ Block.place 0 bs → ∀ k < 12,
      m.bytes (x.heap.addr (o + k)) = x.mem.bytes (x.heap.addr (o + k))) :
    ({ x with mem := m } : HeapClient).Owned bs :=
  ⟨⟨hx.tiled.congr hsame, hx.served⟩, hx.held_in_use, hx.distinct⟩

/-- Entries of one heap with the same pointer are served at the same offset. -/
theorem serves_offset_eq {h : HeapState} {v : Bytes} {e e' : Word × Word} {o o' : ℕ}
    {b b' : Block} (ht : h.Tiled v bs) (hs : h.Serves bs e o b) (hs' : h.Serves bs e' o' b')
    (heq : e.1 = e'.1) : o = o' := by
  have hb := ht.block_le hs.placed
  have hb' := ht.block_le hs'.placed
  have hused := ht.used_le
  have hsize := ht.size_le
  rw [hs.pointer, hs'.pointer, h.addr_inj (by omega) (by omega)] at heq
  omega

/-- Held blocks have no byte in common. -/
theorem Owned.apart (hx : x.Owned bs) :
    x.held.Pairwise fun e e' => ∀ a, ¬ (InPayload e a ∧ InPayload e' a) := by
  refine hx.distinct.imp_of_mem fun he he' hne a => ?_
  obtain ⟨o, b, hs, -⟩ := hx.held_in_use _ he
  obtain ⟨o', b', hs', -⟩ := hx.held_in_use _ he'
  refine hs.disjoint hs' hx.tiled fun hoff => hne ?_
  rw [hs.pointer, hs'.pointer, hoff]

/-- Every action of a client that frees only what it holds returns and keeps the
held blocks in use and apart. -/
theorem Owned.step (hx : x.Owned bs) {call : HeapCall} (hcall : x.HeldOnly call) :
    ∃ reply x' bs', x.step call = some (reply, x') ∧ x'.Owned bs' ∧
      x'.heap.start = x.heap.start ∧ x'.heap.size = x.heap.size := by
  cases call with
  | kmalloc n =>
    obtain ⟨p, x', bs', hstep, hsound, hstart, hsize, -, hnull, hnew, hkeep, -⟩ :=
      hx.toSound.kmalloc n
    by_cases hp : p = 0
    · obtain rfl := hnull hp
      exact ⟨_, _, bs, hstep, hx, rfl, rfl⟩
    · obtain ⟨hheld, o, b, hserves, hb, hfree⟩ := hnew hp
      refine ⟨_, x', bs', hstep, ⟨hsound, ?_, ?_⟩, hstart, hsize⟩
      · rw [hheld]
        intro e he
        rcases List.mem_cons.mp he with rfl | he
        · exact ⟨o, b, hserves, hb⟩
        · obtain ⟨o', b', hs, hb'⟩ := hx.held_in_use e he
          exact ⟨o', b', hkeep e o' b' hs hb', hb'⟩
      · rw [hheld]
        refine List.pairwise_cons.mpr ⟨fun e he heq => ?_, hx.distinct⟩
        obtain ⟨o', b', hs, hb'⟩ := hx.held_in_use e he
        have hoff := serves_offset_eq hsound.tiled hserves (hkeep e o' b' hs hb') heq
        rw [← hoff] at hs
        rw [hfree b' hs.placed] at hb'
        cases hb'
  | kfree p =>
    obtain ⟨n, hmem⟩ := hcall
    obtain ⟨o, b, hs, hb⟩ := hx.held_in_use _ hmem
    obtain ⟨x', bs', hstep, hsound, hheap, hheld, hkeep, -⟩ := hx.toSound.kfree hs
    refine ⟨_, x', bs', hstep, ⟨hsound, ?_, ?_⟩, by rw [hheap], by rw [hheap]⟩
    · rw [hheld]
      intro d hd
      obtain ⟨hd, hne⟩ := List.mem_filter.mp hd
      obtain ⟨o', c, hs', hc⟩ := hx.held_in_use d hd
      refine ⟨o', c, hkeep d o' c hs' fun hoff => ?_, hc⟩
      have hpointer : d.1 = p := by rw [hs'.pointer, hoff, ← hs.pointer]
      simp [hpointer] at hne
    · rw [hheld]
      exact hx.distinct.filter _
  | write a byte =>
    obtain ⟨e, hmem, ha⟩ := hcall
    obtain ⟨o, b, hs, hb⟩ := hx.held_in_use _ hmem
    obtain ⟨x', hstep, hsound, hheap, hheld⟩ := hx.toSound.write hs ha byte
    refine ⟨_, x', bs, hstep, ⟨hsound, ?_, ?_⟩, by rw [hheap], by rw [hheap]⟩
    · rw [hheld, hheap]
      exact hx.held_in_use
    · rw [hheld]
      exact hx.distinct

/-- The held blocks are owned after every such action. -/
theorem Owned.of_step (hx : x.Owned bs) {call : HeapCall} (hcall : x.HeldOnly call)
    {reply : HeapReply} {x' : HeapClient} (hstep : x.step call = some (reply, x')) :
    ∃ bs', x'.Owned bs' := by
  obtain ⟨reply', t, bs', hstep', howned, -, -⟩ := hx.step hcall
  obtain ⟨-, rfl⟩ : reply = reply' ∧ x' = t := by simpa [hstep] using hstep'
  exact ⟨bs', howned⟩

/-- After every run of a client that frees only what it holds, the held blocks
are owned. -/
theorem owned_of_run {start size : Word} (m : Mem)
    (hbase : kernelVirtBase.toNat ≤ start.toNat) (hend : start.toNat + size.toNat ≤ 2 ^ 32)
    {calls : List HeapCall} (hcalls : Along step HeldOnly (init start size m) calls) :
    ∃ replies x bs, exec step (init start size m) calls = some (replies, x) ∧ x.Owned bs ∧
      x.heap.start = start ∧ x.heap.size = size := by
  obtain ⟨replies, x, hrun, ⟨bs, hx⟩, hstart, hsize⟩ := exec_returns
    (fun x : HeapClient => (∃ bs, x.Owned bs) ∧ x.heap.start = start ∧ x.heap.size = size)
    (fun {x call} hinv hcall => by
      obtain ⟨⟨bs, hx⟩, hstart, hsize⟩ := hinv
      obtain ⟨reply, x', bs', hstep, hx', hstart', hsize'⟩ := hx.step hcall
      exact ⟨reply, x', hstep, ⟨bs', hx'⟩, hstart'.trans hstart, hsize'.trans hsize⟩)
    ⟨⟨[], init_sound m hbase hend, by simp [init], by simp [init]⟩, rfl, rfl⟩ hcalls
  exact ⟨replies, x, bs, hrun, hx, hstart, hsize⟩

/-- **The heap keeps its clients apart.** After every run of a client that frees
only what it holds and writes only into what it holds: held blocks lie in the
heap, share no byte with each other or with a header; the next `kmalloc` returns
a block inside the heap or changes nothing, and neither it nor a `kfree` of a
held pointer changes a byte of a held block. -/
theorem heap_client_contract (start size : Word) (m : Mem)
    (hbase : kernelVirtBase.toNat ≤ start.toNat) (hend : start.toNat + size.toNat ≤ 2 ^ 32)
    {calls : List HeapCall} (hcalls : Along step HeldOnly (init start size m) calls) :
    ∃ replies x bs, exec step (init start size m) calls = some (replies, x) ∧
      x.heap.Tiled x.mem.bytes bs ∧
      (∀ e ∈ x.held, start.toNat ≤ e.1.toNat ∧
        e.1.toNat + e.2.toNat ≤ start.toNat + size.toNat) ∧
      (x.held.Pairwise fun e e' => ∀ a, ¬ (InPayload e a ∧ InPayload e' a)) ∧
      (∀ e ∈ x.held, ∀ a, InPayload e a → a ∉ x.heap.headerBytes bs) ∧
      (∀ n, ∃ p h m', kmalloc Mem.bus x.heap x.mem n = some (p, h, m') ∧
        (p = 0 → h = x.heap ∧ m' = x.mem) ∧
        (p ≠ 0 → start.toNat ≤ p.toNat ∧ p.toNat + n.toNat ≤ start.toNat + size.toNat) ∧
        ∀ e ∈ x.held, ∀ a, InPayload e a → m'.bytes a = x.mem.bytes a) ∧
      (∀ e ∈ x.held, ∃ m', kfree Mem.bus x.mem e.1 = some (0, m') ∧
        ∀ d ∈ x.held, ∀ a, InPayload d a → m'.bytes a = x.mem.bytes a) := by
  obtain ⟨replies, x, bs, hrun, hx, hstart, hsize⟩ := owned_of_run m hbase hend hcalls
  have ht := hx.tiled
  have hused := ht.used_le
  refine ⟨replies, x, bs, hrun, ht, ?_, hx.apart, ?_, ?_, ?_⟩
  · intro e he
    obtain ⟨o, b, hs, -⟩ := hx.held_in_use e he
    have hbounds := hs.bounds ht
    rw [← hstart, ← hsize]
    omega
  · rintro e he a ha ⟨o', b', k, hb', hk, rfl⟩
    obtain ⟨o, b, hs, -⟩ := hx.held_in_use e he
    exact hs.payload_ne ht ha hk (Or.inl ⟨b', hb'⟩) rfl
  · intro n
    obtain ⟨p, x', bs', hstep, hsound, hstart', hsize', -, hnull, hnew, -, hframe⟩ :=
      hx.toSound.kmalloc n
    obtain ⟨⟨q, h, m'⟩, hkmalloc, hresult⟩ := Option.bind_eq_some_iff.mp hstep
    obtain ⟨hq, hx'⟩ : q = p ∧ _ = x' := by simpa using hresult
    subst hq hx'
    refine ⟨q, h, m', hkmalloc, fun hq => ?_, fun hq => ?_, fun e he a ha => ?_⟩
    · have heq := hnull hq
      exact ⟨congrArg HeapClient.heap heq, congrArg HeapClient.mem heq⟩
    · obtain ⟨-, o, b, hs, -⟩ := hnew hq
      have hbounds := hs.bounds hsound.tiled
      have hused' := hsound.tiled.used_le
      simp only at hstart' hsize' hbounds hused'
      rw [← hstart, ← hsize, ← hstart', ← hsize']
      omega
    · obtain ⟨o, b, hs, -⟩ := hx.held_in_use e he
      exact hframe e o b hs a ha
  · intro e he
    obtain ⟨o, b, hs, -⟩ := hx.held_in_use e he
    obtain ⟨x', bs', hstep, -, -, -, -, hframe⟩ := hx.toSound.kfree hs
    obtain ⟨⟨ret, m'⟩, hkfree, hresult⟩ := Option.bind_eq_some_iff.mp hstep
    obtain ⟨hret, hx'⟩ : ret = 0 ∧ _ = x' := by simpa using hresult
    subst hret hx'
    refine ⟨m', hkfree, fun d hd a ha => ?_⟩
    obtain ⟨o', c, hs', -⟩ := hx.held_in_use d hd
    exact hframe d o' c hs' a ha

/-- Of two held blocks the second is written and the first freed, and its place is held again:
the two blocks held at the end share no byte. -/
theorem heap_client_contract_two_blocks :
    ∃ replies x,
      exec step (init 0xC0100000 0x800000 ⟨fun _ => 0xAA, []⟩)
        [.kmalloc 20, .kmalloc 5, .write 0xC010002C 7, .kfree 0xC010000C, .kmalloc 8] =
          some (replies, x) ∧
      x.held = [(0xC010000C, 8), (0xC010002C, 5)] ∧
      x.held.Pairwise fun e e' => ∀ a, ¬ (InPayload e a ∧ InPayload e' a) := by
  have hcalls : Along step HeldOnly (init 0xC0100000 0x800000 ⟨fun _ => 0xAA, []⟩)
      [.kmalloc 20, .kmalloc 5, .write 0xC010002C 7, .kfree 0xC010000C, .kmalloc 8] :=
    Along.cons trivial rfl (Along.cons trivial rfl
      (Along.cons ⟨(0xC010002C, 5), List.mem_cons_self, by decide⟩ rfl
        (Along.cons ⟨20, List.mem_cons_of_mem _ List.mem_cons_self⟩ rfl
          (Along.cons trivial rfl trivial))))
  have hheld : (exec step (init 0xC0100000 0x800000 ⟨fun _ => 0xAA, []⟩)
      [.kmalloc 20, .kmalloc 5, .write 0xC010002C 7, .kfree 0xC010000C, .kmalloc 8]).map
        (fun r => r.2.held) = some [(0xC010000C, 8), (0xC010002C, 5)] := rfl
  obtain ⟨replies, x, -, hrun, -, -, hapart, -⟩ := heap_client_contract 0xC0100000 0x800000
    ⟨fun _ => 0xAA, []⟩ (by decide) (by decide) hcalls
  rw [hrun] at hheld
  exact ⟨replies, x, hrun, Option.some.inj hheld, hapart⟩

end HeapClient

end Nimbu
