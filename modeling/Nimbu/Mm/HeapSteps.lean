import Nimbu.Mm.HeapContract

/-!
# The actions on the kernel heap

What one action of a client that frees only what it holds does to the record, the
memory and the blocks of the heap, said once with all its conditions. Invariants of
whole runs are derived from these five cases.
-/

namespace Nimbu

namespace HeapClient

variable {v : Bytes} {x x' : HeapClient} {bs bs' : List Block} {call : HeapCall} {reply : HeapReply}

/-- An action of a client on the heap of blocks `bs`: its reply, the state and the blocks
behind it. -/
inductive HeapStep (x : HeapClient) (bs : List Block) :
    HeapCall → HeapReply → HeapClient → List Block → Prop
  /-- A request that is not served. -/
  | refused (n : Word)
      (hwhy : n = 0 ∨ x.heap.size.toNat < n.toNat ∨
        ((∀ c ∈ bs, ¬ c.Fits (requestSize n.toNat)) ∧
          x.heap.size.toNat < x.heap.used.toNat + requestSize n.toNat)) :
      HeapStep x bs (.kmalloc n) (.pointer 0) x bs
  /-- A request served from the first free block that fits. -/
  | reused (n : Word) (pre post : List Block) (b : Block) (hbs : bs = pre ++ b :: post)
      (hpre : ∀ c ∈ pre, ¬ c.Fits (requestSize n.toNat)) (hfits : b.Fits (requestSize n.toNat))
      (hpos : 0 < n.toNat) (hp : x.heap.addr (Block.span pre + 12) ≠ 0) :
      HeapStep x bs (.kmalloc n) (.pointer (x.heap.addr (Block.span pre + 12)))
        ⟨x.heap, x.mem.put (x.heap.addr (Block.span pre + 8)) 1,
          (x.heap.addr (Block.span pre + 12), n) :: x.held,
          (x.heap.addr (Block.span pre + 12), n) :: x.returned⟩
        (pre ++ { b with inUse := true } :: post)
  /-- A request served behind the last block. -/
  | appended (n : Word) (hnone : ∀ c ∈ bs, ¬ c.Fits (requestSize n.toNat)) (hpos : 0 < n.toNat)
      (hle : n.toNat ≤ x.heap.size.toNat) (hblock : (blockSize n).toNat = requestSize n.toNat)
      (hroom : x.heap.used.toNat + requestSize n.toNat ≤ x.heap.size.toNat)
      (hp : x.heap.addr (x.heap.used.toNat + 12) ≠ 0) :
      HeapStep x bs (.kmalloc n) (.pointer (x.heap.addr (x.heap.used.toNat + 12)))
        ⟨{ x.heap with used := x.heap.used + blockSize n },
          x.heap.putHeader x.mem x.heap.used.toNat (blockSize n),
          (x.heap.addr (x.heap.used.toNat + 12), n) :: x.held,
          (x.heap.addr (x.heap.used.toNat + 12), n) :: x.returned⟩
        (bs ++ [⟨requestSize n.toNat, true⟩])
  /-- A block freed. -/
  | freed (pre post : List Block) (b : Block) (hbs : bs = pre ++ b :: post) :
      HeapStep x bs (.kfree (x.heap.addr (Block.span pre + 12))) (.status 0)
        { x with
          mem := x.mem.put (x.heap.addr (Block.span pre + 8)) 0
          held := x.held.filter fun e => e.1 ≠ x.heap.addr (Block.span pre + 12) }
        (pre ++ { b with inUse := false } :: post)
  /-- A byte written into a block that is held. -/
  | written (a : Word) (byte : Byte) (e : Word × Word) (o : ℕ) (b : Block) (he : e ∈ x.held)
      (hs : x.heap.Serves bs e o b) (ha : InPayload e a) :
      HeapStep x bs (.write a byte) .written { x with mem := x.mem.put a byte } bs

/-- The step of `kmalloc`, with the reply of the heap. -/
theorem step_kmalloc {n p : Word} {h : HeapState} {m : Mem}
    (hcall : kmalloc Mem.bus x.heap x.mem n = some (p, h, m))
    (hstep : x.step (.kmalloc n) = some (reply, x')) :
    reply = .pointer p ∧ x' = ⟨h, m, (if p = 0 then [] else [(p, n)]) ++ x.held,
      (if p = 0 then [] else [(p, n)]) ++ x.returned⟩ := by
  simp only [step, hcall, Option.bind_eq_bind, Option.bind_some, Option.pure_def,
    Option.some.injEq, Prod.mk.injEq] at hstep
  exact ⟨hstep.1.symm, hstep.2.symm⟩

/-- Every action of a client that frees only what it holds is one of these. -/
theorem Owned.heapStep (hx : x.Owned bs) (hcall : x.HeldOnly call)
    (hstep : x.step call = some (reply, x')) :
    ∃ bs', x'.Owned bs' ∧ x.HeapStep bs call reply x' bs' := by
  obtain ⟨bs', howned⟩ := hx.of_step hcall hstep
  refine ⟨bs', howned, ?_⟩
  have ht := hx.tiled
  have hused := ht.used_le
  have hmax := ht.size_le
  cases call with
  | kmalloc n =>
    rcases kmalloc_eq ht n with ⟨hwhy, heq⟩ | ⟨pre, b, post, rfl, hpre, hfits, hpos, -, heq⟩ |
      ⟨hnone, hpos, hle, hblock, hroom, heq⟩
    · obtain ⟨rfl, rfl⟩ := step_kmalloc heq hstep
      obtain rfl := howned.tiled.unique ht
      exact .refused n hwhy
    · have hb := ht.block_le (Block.mem_place_middle pre post b)
      have hp := ht.addr_ne_zero (show Block.span pre + 12 < _ by omega)
      obtain ⟨rfl, rfl⟩ := step_kmalloc heq hstep
      simp only [if_neg hp] at howned ⊢
      obtain rfl := howned.tiled.unique (ht.mark true (by decide))
      exact .reused n pre post b rfl hpre hfits hpos hp
    · have hmin : 32 ≤ requestSize n.toNat := le_max_left _ _
      have hp := ht.addr_ne_zero (show x.heap.used.toNat + 12 < _ by omega)
      obtain ⟨rfl, rfl⟩ := step_kmalloc heq hstep
      simp only [if_neg hp] at howned ⊢
      obtain rfl := howned.tiled.unique (ht.append (by omega) (by omega))
      rw [hblock]
      exact .appended n hnone hpos hle hblock hroom hp
  | kfree p =>
    obtain ⟨n, hmem⟩ := hcall
    obtain ⟨o, b, hs, -⟩ := hx.held_in_use _ hmem
    obtain ⟨pre, post, rfl, rfl⟩ := Block.mem_place_iff.mp hs.placed
    obtain rfl : p = x.heap.addr (Block.span pre + 12) := by simpa using hs.pointer
    simp only [HeapClient.step, kfree_eq ht, Option.bind_eq_bind, Option.bind_some, Option.pure_def,
      Option.some.injEq, Prod.mk.injEq] at hstep
    obtain ⟨rfl, rfl⟩ := hstep
    obtain rfl := howned.tiled.unique (ht.mark false (by decide))
    exact .freed pre post b rfl
  | write a byte =>
    obtain ⟨e, hmem, ha⟩ := hcall
    obtain ⟨o, b, hs, -⟩ := hx.held_in_use _ hmem
    obtain ⟨t, hwrite, hsound, -⟩ := hx.toSound.write hs ha byte
    obtain ⟨rfl, rfl⟩ := Prod.mk.inj (Option.some.inj (hwrite.symm.trans hstep))
    obtain rfl := howned.tiled.unique hsound.tiled
    obtain ⟨-, rfl⟩ := Prod.mk.inj (Option.some.inj hwrite)
    exact .written a byte e o b hmem hs ha

/-- The heap stays where it is. -/
theorem HeapStep.start_eq (hstep : x.HeapStep bs call reply x' bs') :
    x'.heap.start = x.heap.start := by
  cases hstep with
  | refused => rfl
  | reused => rfl
  | appended => rfl
  | freed => rfl
  | written => rfl

/-- It keeps its size. -/
theorem HeapStep.size_eq (hstep : x.HeapStep bs call reply x' bs') :
    x'.heap.size = x.heap.size := by
  cases hstep with
  | refused => rfl
  | reused => rfl
  | appended => rfl
  | freed => rfl
  | written => rfl

/-- Offsets have the same addresses before and after. -/
theorem HeapStep.addr_eq (hstep : x.HeapStep bs call reply x' bs') (o : ℕ) :
    x'.heap.addr o = x.heap.addr o := by
  rw [HeapState.addr, HeapState.addr, hstep.start_eq]

/-- What was returned stays recorded. -/
theorem HeapStep.returned_subset (hstep : x.HeapStep bs call reply x' bs') :
    x.returned ⊆ x'.returned := by
  cases hstep with
  | refused => exact List.Subset.refl _
  | reused => exact List.subset_cons_self _ _
  | appended => exact List.subset_cons_self _ _
  | freed => exact List.Subset.refl _
  | written => exact List.Subset.refl _

/-- Every block stands where one stood before, or was made for the pointer returned. -/
theorem HeapStep.placed (hstep : x.HeapStep bs call reply x' bs') (ht : x.heap.Tiled v bs) {o : ℕ}
    {c : Block} (hplaced : (o, c) ∈ Block.place 0 bs') :
    (∃ b, (o, b) ∈ Block.place 0 bs) ∨ (reply = .pointer (x.heap.addr (o + 12)) ∧
      x.heap.addr (o + 12) ≠ 0 ∧ o = x.heap.used.toNat ∧
      ∃ n, (x.heap.addr (o + 12), n) ∈ x'.returned) := by
  have hpos : ∀ c ∈ bs, 0 < c.size := fun c hc => by
    have := ht.min_size c hc
    omega
  -- A block whose flag is changed stays where it is.
  have hmarked : ∀ {pre post : List Block} {b : Block} (u : Bool), bs = pre ++ b :: post →
      (o, c) ∈ Block.place 0 (pre ++ { b with inUse := u } :: post) →
      ∃ b, (o, b) ∈ Block.place 0 bs := by
    rintro pre post b u rfl hmem
    rcases (Block.mem_place_replace (show ({ b with inUse := u } : Block).size = b.size
      from rfl) hpos).mp hmem with hnew | ⟨hold, -⟩
    · obtain ⟨rfl, -⟩ := Prod.mk.inj hnew
      exact ⟨b, Block.mem_place_middle pre post b⟩
    · exact ⟨c, hold⟩
  cases hstep with
  | refused n hwhy => exact Or.inl ⟨c, hplaced⟩
  | reused n pre post b hbs hpre hfits hpos hp => exact Or.inl (hmarked true hbs hplaced)
  | appended n hnone hpos hle hblock hroom hp =>
    rw [Block.place_append, List.mem_append, Nat.zero_add, ht.span_eq] at hplaced
    rcases hplaced with hold | hnew
    · exact Or.inl ⟨c, hold⟩
    · obtain ⟨rfl, -⟩ : o = x.heap.used.toNat ∧ _ := by simpa [Block.place] using hnew
      exact Or.inr ⟨rfl, hp, rfl, n, List.mem_cons_self⟩
  | freed pre post b hbs => exact Or.inl (hmarked false hbs hplaced)
  | written a byte e o b he hs ha => exact Or.inl ⟨c, hplaced⟩

end HeapClient

end Nimbu
