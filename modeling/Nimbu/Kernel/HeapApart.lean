import Nimbu.Kernel.Create
import Nimbu.Mm.HeapContract

/-!
# The heap, the bitmap and the kernel stacks

The heap of `kmain` is 8 MB long, the bitmap of the frame allocator starts 1 MB
behind the start of the heap, and the kernel stacks follow it. Nothing keeps the
heap from growing into them. Every action on the heap and every creation of a
process leaves the bitmap and the stacks alone exactly when the block it is
served with ends before the bitmap.
-/

namespace Nimbu

/-- The frame allocator, the process table and a heap with its clients, in one
memory. -/
structure System where
  /-- The record of the frame allocator. -/
  pmm : PmmState
  /-- The process table. -/
  procs : Procs
  /-- The heap, the memory and the blocks held. -/
  client : HeapClient

/-- An action on the heap, or a process creation. -/
inductive SystemCall where
  /-- `kmalloc`, `kfree` or a write. -/
  | heap (call : HeapCall)
  /-- `proc_create(entry_point, priority)`. -/
  | create (entryPoint priority : Word)

/-- The result of an action. -/
inductive SystemReply where
  /-- The result of an action on the heap. -/
  | heap (reply : HeapReply)
  /-- The value returned by `proc_create`. -/
  | status (ret : ℤ)

/-- What the frame allocations of an action alone do to the bitmap. -/
def SystemCall.frames {M : Type} (bus : Bus M) (k : Kernel M) :
    SystemCall → Option (PmmState × M)
  | .heap _ => some (k.pmm, k.mem)
  | .create _ _ =>
    if k.procs.nextPid.toNat < 256 then do
      let (_, _, pmm, mem) ← procCreateFrames bus k.pmm k.mem
      return (pmm, mem)
    else some (k.pmm, k.mem)

/-- The system that `kmain` sets up in one linear memory, without page tables. -/
def kmainSystem (m : Mem) : Option System := do
  let k ← kmainKernel m
  return ⟨k.pmm, k.procs, ⟨k.heap, k.mem, [], []⟩⟩

/-- The address of the bitmap, as a number. -/
def bitmapStart : ℕ := 0xC0200000

namespace System

/-- The kernel's part of the system. -/
def kernel (x : System) : Kernel Mem := ⟨x.pmm, x.client.heap, x.client.mem, x.procs⟩

/-- One action. The context of a created process is a block held from then on. -/
def step (x : System) : SystemCall → Option (SystemReply × System)
  | .heap call => do
    let (reply, client) ← x.client.step call
    return (.heap reply, { x with client })
  | .create entryPoint priority => do
    let (ret, k) ← procCreate Mem.bus Mem.bus x.kernel entryPoint priority
    let context := (k.procs.table (Fin.ofNat 256 x.procs.nextPid.toNat)).context
    let entry := if ret = -1 then [] else [(context, contextSize)]
    return (.status ret, ⟨k.pmm, k.procs,
      ⟨k.heap, k.mem, entry ++ x.client.held, entry ++ x.client.returned⟩⟩)

/-- Frees of held pointers and writes into held blocks only. -/
def HeldOnly (x : System) : SystemCall → Prop
  | .heap call => x.client.HeldOnly call
  | .create _ _ => True

/-- The heap consists of blocks, and no byte of a header or of a held block is a
byte of the bitmap or of the kernel stack of a created process. -/
def Apart (x : System) : Prop :=
  ∃ bs, x.client.heap.Tiled x.client.mem.bytes bs ∧
    ∀ a, (a ∈ x.client.heap.headerBytes bs ∨ ∃ e ∈ x.client.held, InPayload e a) →
      a ∉ x.pmm.bitmapBytes ∧ a ∉ x.procs.stackBytes

/-- The action returns, keeps the heap apart from the bitmap and the stacks,
changes the frame allocator only by its frame allocations, and changes no byte
of a kernel stack. -/
def LeavesKernelData (x : System) (call : SystemCall) : Prop :=
  ∃ reply x', x.step call = some (reply, x') ∧ x'.Apart ∧
    (∃ m, call.frames Mem.bus x.kernel = some (x'.pmm, m) ∧
      ∀ a ∈ x'.pmm.bitmapBytes, x'.client.mem.bytes a = m.bytes a) ∧
    ∀ a ∈ x'.procs.stackBytes, x'.client.mem.bytes a = x.client.mem.bytes a

/-- A request of `n` bytes that is served is served before the bitmap. -/
def RoomBelow (x : System) (n : Word) : Prop :=
  ∀ bs o, x.client.heap.Tiled x.client.mem.bytes bs → x.client.heap.placeFor bs n = some o →
    o + 12 + n.toNat ≤ bitmapOffset

/-- Page 0 is allocated and two pages are free. -/
def TwoFrames (x : System) : Prop := x.kernel.TwoFrames

/-- The block the action is served with, if any, ends before the bitmap. A process
creation asks for a block when there is a process ID and it gets two frames. -/
def ServedBelow (x : System) : SystemCall → Prop
  | .heap (.kmalloc n) => x.RoomBelow n
  | .heap _ => True
  | .create _ _ => x.procs.nextPid.toNat < 256 → x.TwoFrames → x.RoomBelow contextSize

/-- The system is in order and its heap lies before the bitmap, but for unused
bytes of the last block. -/
structure Low (x : System) (F : Frames) (bs : List Block) : Prop where
  /-- The kernel is sound. -/
  sound : x.kernel.Sound F bs
  /-- The held blocks are in use and apart. -/
  owned : x.client.Owned bs
  /-- The held blocks end before the bitmap. -/
  held_le : ∀ e ∈ x.client.held, e.1.toNat + e.2.toNat ≤ bitmapStart
  /-- The used part ends soon after the start of the bitmap. -/
  used_le : x.client.heap.used.toNat ≤ bitmapOffset + 20

variable {x x' : System} {F : Frames} {bs : List Block}

/-- The memory holds the blocks. -/
theorem Low.tiled (hx : x.Low F bs) : x.client.heap.Tiled x.client.mem.bytes bs := hx.sound.tiled

/-- The heap starts where `kmain` puts it. -/
theorem Low.start (hx : x.Low F bs) : x.client.heap.start = kmainHeapStart := hx.sound.start

/-- A heap before the bitmap is apart from the bitmap and the stacks. -/
theorem Low.apart (hx : x.Low F bs) : x.Apart := by
  refine ⟨bs, hx.sound.tiled, fun a ha => ?_⟩
  have hlow : a.toNat < bitmapStart := by
    rcases ha with ⟨o, b, j, hb, hj, rfl⟩ | ⟨e, he, hpayload⟩
    · have hbelow := hx.sound.below o b hb
      unfold bitmapOffset at hbelow
      have haddr := HeapState.toNat_addr_kmain hx.sound.start (show o + j < 0x3FF00000 by omega)
      unfold bitmapStart
      exact haddr.trans_lt (by omega)
    · have := hx.held_le e he
      have := hpayload.2
      omega
  unfold bitmapStart at hlow
  refine ⟨fun hmem => ?_, fun hmem => ?_⟩
  · have := hx.sound.mem_bitmapBytes_iff.mp hmem
    omega
  · have := hx.sound.idle.stackBytes_ge hmem
    omega

/-- A served block that does not end before the bitmap overlaps it. -/
theorem not_apart_of_served {n : Word} {o : ℕ} {b : Block}
    (ht : x.client.heap.Tiled x.client.mem.bytes bs) (hstart : x.client.heap.start = kmainHeapStart)
    (hbytes : ∀ a, a ∈ x.pmm.bitmapBytes ↔ bitmapStart ≤ a.toNat ∧ a.toNat < bitmapStart + 4096)
    (hb : (o, b) ∈ Block.place 0 bs) (hheld : (x.client.heap.addr (o + 12), n) ∈ x.client.held)
    (ho : o ≤ bitmapOffset + 20) (hend : bitmapOffset < o + 12 + n.toNat) : ¬ x.Apart := by
  rintro ⟨bs', ht', hapart⟩
  obtain rfl := ht.unique ht'
  unfold bitmapOffset at ho hend
  have haddr : ∀ i < 0x200000, (x.client.heap.addr i).toNat = 0xC0100000 + i := fun i hi =>
    HeapState.toNat_addr_kmain hstart (by omega)
  by_cases hheader : o + 12 ≤ 0x100000
  · refine (hapart (x.client.heap.addr 0x100000) (Or.inr ⟨_, hheld, ?_⟩)).1 ((hbytes _).mpr ?_)
    · simp only [InPayload]
      rw [haddr _ (by omega), haddr _ (by omega)]
      omega
    · unfold bitmapStart
      rw [haddr _ (by omega)]
      omega
  · refine (hapart (x.client.heap.addr (o + (0x100000 - o)))
      (Or.inl ⟨o, b, 0x100000 - o, hb, by omega, rfl⟩)).1 ((hbytes _).mpr ?_)
    unfold bitmapStart
    rw [haddr _ (by omega)]
    omega

/-- The block list of a system in order is determined, so a request has room
exactly when its place ends before the bitmap. -/
theorem Low.roomBelow_iff (hx : x.Low F bs) {n : Word} {o : ℕ}
    (hplace : x.client.heap.placeFor bs n = some o) :
    x.RoomBelow n ↔ o + 12 + n.toNat ≤ bitmapOffset := by
  constructor
  · intro hroom
    exact hroom bs o hx.sound.tiled hplace
  · intro hle bs' o' ht' hplace'
    obtain rfl := hx.sound.tiled.unique ht'
    obtain rfl : o = o' := Option.some.inj (hplace.symm.trans hplace')
    exact hle

/-- A request without a place has room. -/
theorem Low.roomBelow_of_none (hx : x.Low F bs) {n : Word}
    (hplace : x.client.heap.placeFor bs n = none) : x.RoomBelow n := by
  intro bs' o' ht' hplace'
  obtain rfl := hx.sound.tiled.unique ht'
  rw [hplace] at hplace'
  cases hplace'

/-- An action that stores only below the bitmap leaves the bitmap and the stacks
alone. -/
theorem Low.of_client (hx : x.Low F bs) {client : HeapClient} {bs' : List Block}
    (howned : client.Owned bs') (hstart : client.heap.start = x.client.heap.start)
    (hsize : client.heap.size = x.client.heap.size)
    (hbelow : ∀ o b, (o, b) ∈ Block.place 0 bs' → o + 12 ≤ bitmapOffset)
    (hheld : ∀ e ∈ client.held, e.1.toNat + e.2.toNat ≤ bitmapStart)
    (hused : client.heap.used.toNat ≤ bitmapOffset + 20)
    (hkept : ∀ a : Word, bitmapStart ≤ a.toNat → client.mem.bytes a = x.client.mem.bytes a)
    {call : HeapCall} {reply : HeapReply} (hstep : x.client.step call = some (reply, client)) :
    ({ x with client } : System).Low F bs' ∧ x.LeavesKernelData (.heap call) := by
  have hbitmap : ∀ a ∈ x.pmm.bitmapBytes, client.mem.bytes a = x.client.mem.bytes a := by
    intro a ha
    exact hkept a (hx.sound.mem_bitmapBytes_iff.mp ha).1
  have hlow : ({ x with client } : System).Low F bs' :=
    ⟨hx.sound.of_heap howned.tiled hstart hsize hbelow hbitmap hx.sound.idle, howned, hheld, hused⟩
  refine ⟨hlow, .heap reply, { x with client }, ?_, hlow.apart, ⟨x.client.mem, rfl, hbitmap⟩, ?_⟩
  · simp only [step, hstep, Option.bind_eq_bind, Option.bind_some, Option.pure_def]
  · intro a ha
    have := hx.sound.idle.stackBytes_ge ha
    exact hkept a (by unfold bitmapStart; omega)

/-- Either the condition holds, and the action leaves the kernel's data alone and
the heap before the bitmap; or it does not, and the heap overlaps the bitmap. -/
def Decided (x : System) (call : SystemCall) (cond : Prop) : Prop :=
  (cond ∧ x.LeavesKernelData call ∧
    ∃ reply x' F bs, x.step call = some (reply, x') ∧ x'.Low F bs) ∨
  (¬ cond ∧ ∃ reply x', x.step call = some (reply, x') ∧ ¬ x'.Apart)

/-- The condition is the exact one. -/
theorem Decided.leaves_iff {call : SystemCall} {cond : Prop} (hdecided : x.Decided call cond) :
    x.LeavesKernelData call ↔ cond := by
  rcases hdecided with ⟨hcond, hleaves, -⟩ | ⟨hcond, reply, x', hstep, hoverlap⟩
  · exact iff_of_true hleaves hcond
  · refine iff_of_false ?_ hcond
    rintro ⟨reply', t, hstep', hapart, -⟩
    rw [hstep] at hstep'
    obtain ⟨-, rfl⟩ : reply = reply' ∧ x' = t := by simpa using hstep'
    exact hoverlap hapart

/-- Where the condition holds, the heap stays before the bitmap. -/
theorem Decided.low {call : SystemCall} {cond : Prop} (hdecided : x.Decided call cond)
    (hcond : cond) {reply : SystemReply} (hstep : x.step call = some (reply, x')) :
    ∃ F bs, x'.Low F bs := by
  rcases hdecided with ⟨-, -, reply', t, F', bs', hstep', hlow⟩ | ⟨hnot, -⟩
  · rw [hstep'] at hstep
    obtain ⟨-, rfl⟩ : reply' = reply ∧ t = x' := by simpa using hstep
    exact ⟨F', bs', hlow⟩
  · exact absurd hcond hnot

/-- An action on the heap is a step of the system. -/
theorem step_heap {call : HeapCall} {reply : HeapReply} {client : HeapClient}
    (hstep : x.client.step call = some (reply, client)) :
    x.step (.heap call) = some (.heap reply, { x with client }) := by
  simp only [step, hstep, Option.bind_eq_bind, Option.bind_some, Option.pure_def]

/-- What serving a request of `n` bytes at offset `o` does to the heap. -/
structure Grown (x : System) (bs : List Block) (n : Word) (o : ℕ) (h : HeapState)
    (bs' : List Block) : Prop where
  /-- The block was free, or is new. -/
  used : (h.used = x.client.heap.used ∧ ∃ b, (o, b) ∈ Block.place 0 bs) ∨
    (o = x.client.heap.used.toNat ∧
      h.used.toNat = x.client.heap.used.toNat + requestSize n.toNat)
  /-- All other blocks were there before. -/
  offsets : ∀ o' b', (o', b') ∈ Block.place 0 bs' → o' = o ∨ ∃ b, (o', b) ∈ Block.place 0 bs

variable {n : Word} {o : ℕ} {h : HeapState} {bs' : List Block}

/-- The place of a request is not far behind the start of the bitmap. -/
theorem Low.place_le (hx : x.Low F bs) (hgrown : x.Grown bs n o h bs') : o ≤ bitmapOffset + 20 := by
  rcases hgrown.used with ⟨-, b, hb⟩ | ⟨heq, -⟩
  · have := hx.sound.below o b hb
    omega
  · have := hx.used_le
    omega

/-- A request served before the bitmap leaves every header before the bitmap. -/
theorem Low.below_of_grown (hx : x.Low F bs) (hgrown : x.Grown bs n o h bs')
    (hfits : o + 12 + n.toNat ≤ bitmapOffset) {o' : ℕ} {b' : Block}
    (hb' : (o', b') ∈ Block.place 0 bs') : o' + 12 ≤ bitmapOffset := by
  rcases hgrown.offsets o' b' hb' with rfl | ⟨b, hb⟩
  · omega
  · exact hx.sound.below o' b hb

/-- A request served before the bitmap leaves the used part before the bitmap, but
for unused bytes of the last block. -/
theorem Low.used_of_grown (hx : x.Low F bs) (hgrown : x.Grown bs n o h bs')
    (hfits : o + 12 + n.toNat ≤ bitmapOffset) : h.used.toNat ≤ bitmapOffset + 20 := by
  rcases hgrown.used with ⟨heq, -⟩ | ⟨heq, hsum⟩
  · rw [heq]
    exact hx.used_le
  · rw [hsum]
    unfold requestSize
    omega

/-- An address of the heap below 1 GB as a number. -/
theorem Low.toNat_addr (hx : x.Low F bs) {i : ℕ} (hi : i < 0x3FF00000) :
    (x.client.heap.addr i).toNat = 0xC0100000 + i :=
  HeapState.toNat_addr_kmain hx.start hi

/-- A request served before the bitmap is a held block before the bitmap. -/
theorem Low.held_of_grown (hx : x.Low F bs) (hfits : o + 12 + n.toNat ≤ bitmapOffset)
    {e : Word × Word} (he : e ∈ (x.client.heap.addr (o + 12), n) :: x.client.held) :
    e.1.toNat + e.2.toNat ≤ bitmapStart := by
  unfold bitmapOffset at hfits
  rcases List.mem_cons.mp he with rfl | he
  · unfold bitmapStart
    simp only [hx.toNat_addr (show o + 12 < 0x3FF00000 by omega)]
    omega
  · exact hx.held_le e he

/-- `kmalloc` keeps out of the bitmap exactly when it has room before it. -/
theorem Low.kmalloc (hx : x.Low F bs) (n : Word) :
    x.Decided (.heap (.kmalloc n)) (x.RoomBelow n) := by
  have hsize : x.client.heap.size.toNat = 0x800000 := hx.sound.size_toNat
  have hpermitted : x.client.HeldOnly (.kmalloc n) := trivial
  rcases kmalloc_placed hx.tiled n with ⟨hnone, hkmalloc⟩ |
    ⟨o, h, m, bs', hplace, -, hkmalloc, ht, hstart', hsize', hused, ⟨b, hb, -⟩, hoffsets, hkept⟩
  · left
    have hstep : x.client.step (.kmalloc n) = some (.pointer 0, x.client) := by
      simp [HeapClient.step, hkmalloc]
    obtain ⟨hlow, hleaves⟩ := hx.of_client hx.owned rfl rfl hx.sound.below hx.held_le hx.used_le
      (fun _ _ => rfl) hstep
    exact ⟨hx.roomBelow_of_none hnone, hleaves, _, _, F, bs, step_heap hstep, hlow⟩
  · have hgrown : x.Grown bs n o h bs' := ⟨hused, hoffsets⟩
    have hbound := ht.block_le hb
    have hle := ht.used_le
    rw [hsize', hsize] at hle
    have hp : x.client.heap.addr (o + 12) ≠ 0 :=
      HeapState.addr_ne_zero_kmain hx.start (by omega)
    have hstep : x.client.step (.kmalloc n) = some (.pointer (x.client.heap.addr (o + 12)),
        ⟨h, m, (x.client.heap.addr (o + 12), n) :: x.client.held,
          (x.client.heap.addr (o + 12), n) :: x.client.returned⟩) := by
      simp only [HeapClient.step, hkmalloc, Option.bind_eq_bind, Option.bind_some, if_neg hp,
        Option.pure_def]
      rfl
    obtain ⟨bs₂, howned⟩ := hx.owned.of_step hpermitted hstep
    obtain rfl := howned.tiled.unique ht
    by_cases hfits : o + 12 + n.toNat ≤ bitmapOffset
    · left
      have hkept' : ∀ a : Word, bitmapStart ≤ a.toNat → m.bytes a = x.client.mem.bytes a := by
        intro a ha
        unfold bitmapStart at ha
        unfold bitmapOffset at hfits
        apply hkept
        rintro j hj rfl
        rw [hx.toNat_addr (by omega)] at ha
        omega
      obtain ⟨hlow, hleaves⟩ := hx.of_client howned hstart' hsize'
        (fun _ _ hb' => hx.below_of_grown hgrown hfits hb') (fun _ he => hx.held_of_grown hfits he)
        (hx.used_of_grown hgrown hfits) hkept' hstep
      exact ⟨(hx.roomBelow_iff hplace).mpr hfits, hleaves, _, _, F, _, step_heap hstep, hlow⟩
    · right
      have haddr : h.addr (o + 12) = x.client.heap.addr (o + 12) := by
        simp only [HeapState.addr, hstart']
      have hheld : (h.addr (o + 12), n) ∈
          (x.client.heap.addr (o + 12), n) :: x.client.held := by
        rw [haddr]
        exact List.mem_cons_self
      refine ⟨fun hroom => hfits ((hx.roomBelow_iff hplace).mp hroom), _, _, step_heap hstep, ?_⟩
      exact not_apart_of_served howned.tiled (hstart'.trans hx.start)
        (fun a => hx.sound.mem_bitmapBytes_iff) hb hheld (hx.place_le hgrown) (by omega)

/-- `kfree` of a held pointer keeps out of the bitmap. -/
theorem Low.kfree (hx : x.Low F bs) {p : Word} (hheld : x.client.HeldOnly (.kfree p)) :
    x.Decided (.heap (.kfree p)) True := by
  left
  obtain ⟨n, hmem⟩ := id hheld
  obtain ⟨o, b, hserves, -⟩ := hx.owned.held_in_use _ hmem
  obtain ⟨pre, post, rfl, hoff⟩ := Block.mem_place_iff.mp hserves.placed
  rw [Nat.zero_add] at hoff
  have ht := hx.tiled
  have hbelow := hx.sound.below _ _ hserves.placed
  have hfree := kfree_eq ht
  rw [← hoff, ← hserves.pointer] at hfree
  have hstep : x.client.step (.kfree p) = some (.status 0, { x.client with
      mem := x.client.mem.put (x.client.heap.addr (o + 8)) 0,
      held := x.client.held.filter fun e => e.1 ≠ p }) := by
    simp only [HeapClient.step, hfree, Option.bind_eq_bind, Option.bind_some, Option.pure_def]
  obtain ⟨bs₂, howned⟩ := hx.owned.of_step hheld hstep
  have ht' := ht.mark false (show (0 : Byte) = 0 ↔ false = false by decide)
  rw [← hoff] at ht'
  obtain rfl := howned.tiled.unique ht'
  have hbelow' : ∀ o' b', (o', b') ∈ Block.place 0 (pre ++ { b with inUse := false } :: post) →
      o' + 12 ≤ bitmapOffset := by
    intro o' b' hb'
    rw [Block.mem_place_replace (show ({ b with inUse := false } : Block).size = b.size from rfl)
      (fun c hc => by have := ht.min_size c hc; omega)] at hb'
    rcases hb' with heq | ⟨hold, -⟩
    · obtain rfl : o' = o := (congrArg Prod.fst heq).trans hoff.symm
      exact hbelow
    · exact hx.sound.below o' b' hold
  have hkept : ∀ a : Word, bitmapStart ≤ a.toNat →
      (x.client.mem.put (x.client.heap.addr (o + 8)) 0).bytes a = x.client.mem.bytes a := by
    intro a ha
    unfold bitmapStart at ha
    unfold bitmapOffset at hbelow
    apply Bytes.put_of_ne
    rintro rfl
    rw [hx.toNat_addr (by omega)] at ha
    omega
  obtain ⟨hlow, hleaves⟩ := hx.of_client howned rfl rfl hbelow'
    (fun e he => hx.held_le e (List.mem_of_mem_filter he)) hx.used_le hkept hstep
  exact ⟨trivial, hleaves, _, _, F, _, step_heap hstep, hlow⟩

/-- A write into a held block keeps out of the bitmap. -/
theorem Low.write (hx : x.Low F bs) {a : Word} {byte : Byte}
    (hheld : x.client.HeldOnly (.write a byte)) : x.Decided (.heap (.write a byte)) True := by
  left
  obtain ⟨e, hmem, hpayload⟩ := id hheld
  obtain ⟨o, b, hserves, -⟩ := hx.owned.held_in_use _ hmem
  have hstep : x.client.step (.write a byte) =
      some (.written, { x.client with mem := x.client.mem.put a byte }) := rfl
  obtain ⟨bs₂, howned⟩ := hx.owned.of_step hheld hstep
  have ht' : x.client.heap.Tiled (x.client.mem.put a byte).bytes bs :=
    hx.tiled.congr fun o' c hc k hk =>
      Bytes.put_of_ne _ (hserves.payload_ne hx.tiled hpayload hk (Or.inl ⟨c, hc⟩)).symm
  obtain rfl := howned.tiled.unique ht'
  have hkept : ∀ c : Word, bitmapStart ≤ c.toNat →
      (x.client.mem.put a byte).bytes c = x.client.mem.bytes c := by
    intro c hc
    have hend := hx.held_le e hmem
    apply Bytes.put_of_ne
    rintro rfl
    have := hpayload.2
    omega
  obtain ⟨hlow, hleaves⟩ := hx.of_client howned rfl rfl hx.sound.below hx.held_le hx.used_le hkept
    hstep
  exact ⟨trivial, hleaves, _, _, F, _, step_heap hstep, hlow⟩

/-- A `proc_create` that fails holds no new block. -/
theorem step_create_failed {entryPoint priority : Word} {k : Kernel Mem}
    (hcall : procCreate Mem.bus Mem.bus x.kernel entryPoint priority = some (-1, k)) :
    x.step (.create entryPoint priority) = some (.status (-1),
      ⟨k.pmm, k.procs, ⟨k.heap, k.mem, x.client.held, x.client.returned⟩⟩) := by
  simp only [step, hcall, Option.bind_eq_bind, Option.bind_some, Option.pure_def]
  rfl

/-- A `proc_create` that succeeds holds the context of the new process. -/
theorem step_create_served {entryPoint priority : Word} {k : Kernel Mem} {p : Word}
    (hnext : x.procs.nextPid.toNat < 256)
    (hcall : procCreate Mem.bus Mem.bus x.kernel entryPoint priority =
      some ((x.procs.nextPid.toNat : ℤ), k))
    (hcontext : ∀ i : Slot, i.val = x.procs.nextPid.toNat → (k.procs.table i).context = p) :
    x.step (.create entryPoint priority) = some (.status x.procs.nextPid.toNat,
      ⟨k.pmm, k.procs, ⟨k.heap, k.mem, (p, contextSize) :: x.client.held,
        (p, contextSize) :: x.client.returned⟩⟩) := by
  have hslot := hcontext (Fin.ofNat 256 x.procs.nextPid.toNat) (Nat.mod_eq_of_lt hnext)
  have hret : ¬ (x.procs.nextPid.toNat : ℤ) = -1 := by omega
  simp only [step, hcall, Option.bind_eq_bind, Option.bind_some, Option.pure_def, hslot,
    if_neg hret]
  rfl

/-- The headers of the heap do not change when only the bitmap changes. -/
theorem Low.owned_of_frames (hx : x.Low F bs) {m : Mem}
    (hkept : ∀ c ∉ x.pmm.bitmapBytes, m.bytes c = x.client.mem.bytes c) :
    ({ x.client with mem := m } : HeapClient).Owned bs :=
  hx.owned.congr fun _ _ hb _ hk => hkept _ (hx.sound.header_notMem hb hk)

variable {pmm : PmmState} {m : Mem} {k : Kernel Mem}

/-- The context of a created process ends within the heap. -/
theorem Low.context_le (hx : x.Low F bs) (hc : x.kernel.Created pmm m bs k o bs') :
    o + 88 ≤ 0x800000 := by
  obtain ⟨b, hserves⟩ := hc.block
  have hroom : 12 + 76 ≤ b.size := hserves.room
  have hbound := hc.tiled.block_le hserves.placed
  have hle := hc.tiled.used_le
  have hsize : k.heap.size.toNat = 0x800000 := by
    rw [hc.size_eq]
    exact hx.sound.size_toNat
  omega

/-- The context of a created process is one more block held. -/
theorem Low.owned_of_created (hx : x.Low F bs) (hc : x.kernel.Created pmm m bs k o bs')
    (hkept : ∀ c ∉ x.pmm.bitmapBytes, m.bytes c = x.client.mem.bytes c) :
    (⟨k.heap, k.mem, (x.client.heap.addr (o + 12), contextSize) :: x.client.held,
      (x.client.heap.addr (o + 12), contextSize) :: x.client.returned⟩ : HeapClient).Owned bs' := by
  obtain ⟨m₂, hkmalloc, hm₂⟩ := hc.served
  have hroom := hx.context_le hc
  have hp : x.client.heap.addr (o + 12) ≠ 0 :=
    HeapState.addr_ne_zero_kmain hx.start (by omega)
  have hpermitted : ({ x.client with mem := m } : HeapClient).HeldOnly (.kmalloc contextSize) :=
    trivial
  have hstep : ({ x.client with mem := m } : HeapClient).step (.kmalloc contextSize) =
      some (.pointer (x.client.heap.addr (o + 12)),
        ⟨k.heap, m₂, (x.client.heap.addr (o + 12), contextSize) :: x.client.held,
          (x.client.heap.addr (o + 12), contextSize) :: x.client.returned⟩) := by
    have hkmalloc' : Nimbu.kmalloc Mem.bus x.client.heap m contextSize =
      some (x.client.heap.addr (o + 12), k.heap, m₂) := hkmalloc
    simp only [HeapClient.step, hkmalloc', Option.bind_eq_bind, Option.bind_some, if_neg hp,
      Option.pure_def]
    rfl
  obtain ⟨bs₂, howned⟩ := (hx.owned_of_frames hkept).of_step hpermitted hstep
  obtain ⟨o₂, b₂, hserves, -⟩ := howned.held_in_use _ List.mem_cons_self
  have hnew := howned.congr (m := k.mem) fun o' b' hb' j hj => hm₂ _ fun i hi heq => by
    have hlen : contextSize.toNat = 76 := rfl
    have hpayload : InPayload (x.client.heap.addr (o + 12), contextSize)
        (x.client.heap.addr (o + 12 + i)) :=
      HeapState.inPayload_kmain hx.start (by omega) (by omega)
    exact hserves.payload_ne howned.tiled hpayload hj (Or.inl ⟨b', hb'⟩) heq.symm
  obtain rfl := hnew.tiled.unique hc.tiled
  exact hnew

/-- A process creation that succeeds keeps out of the bitmap but for its frame
allocations, exactly when the context has room before it. -/
theorem Low.created (hx : x.Low F bs) (hc : x.kernel.Created pmm m bs k o bs')
    (hkept : ∀ c ∉ x.pmm.bitmapBytes, m.bytes c = x.client.mem.bytes c) {F' : Frames}
    (hsound : (⟨pmm, x.client.heap, m, x.procs⟩ : Kernel Mem).Sound F' bs) {call : SystemCall}
    {reply : SystemReply} (hframes : call.frames Mem.bus x.kernel = some (pmm, m))
    (hstep : x.step call = some (reply,
      ⟨k.pmm, k.procs, ⟨k.heap, k.mem, (x.client.heap.addr (o + 12), contextSize) :: x.client.held,
        (x.client.heap.addr (o + 12), contextSize) :: x.client.returned⟩⟩)) :
    x.Decided call (x.RoomBelow contextSize) := by
  have hlen : contextSize.toNat = 76 := rfl
  have hgrown : x.Grown bs contextSize o k.heap bs' := ⟨hc.used, hc.offsets⟩
  have howned := hx.owned_of_created hc hkept
  by_cases hfits : o + 12 + contextSize.toNat ≤ bitmapOffset
  · left
    have hsound' : k.Sound F' bs' := hc.sound hsound (by omega)
    have hlow : (⟨k.pmm, k.procs, ⟨k.heap, k.mem,
        (x.client.heap.addr (o + 12), contextSize) :: x.client.held,
        (x.client.heap.addr (o + 12), contextSize) :: x.client.returned⟩⟩ : System).Low F' bs' :=
      ⟨hsound', howned, fun _ he => hx.held_of_grown hfits he, hx.used_of_grown hgrown hfits⟩
    have hcontext : ∀ c : Word, bitmapStart ≤ c.toNat → k.mem.bytes c = m.bytes c := by
      intro c hle
      unfold bitmapStart at hle
      unfold bitmapOffset at hfits
      apply hc.kept
      rintro j hj rfl
      rw [HeapState.toNat_addr_kmain hx.sound.start (by omega)] at hle
      omega
    refine ⟨(hx.roomBelow_iff hc.place).mpr hfits, ⟨_, _, hstep, hlow.apart, ⟨m, ?_, ?_⟩, ?_⟩,
      _, _, F', bs', hstep, hlow⟩
    · rw [hframes, hc.pmm_eq]
    · intro c hmem
      exact hcontext c (hsound'.mem_bitmapBytes_iff.mp hmem).1
    · intro c hmem
      have hstack := hc.idle.stackBytes_ge hmem
      rw [hcontext c (by unfold bitmapStart; omega)]
      apply hkept
      intro hbitmap
      have := hx.sound.mem_bitmapBytes_iff.mp hbitmap
      omega
  · right
    obtain ⟨b, hserves⟩ := hc.block
    have haddr : k.heap.addr (o + 12) = x.client.heap.addr (o + 12) := by
      rw [HeapState.addr, hc.start_eq]
      rfl
    have hheld : (k.heap.addr (o + 12), contextSize) ∈
        (x.client.heap.addr (o + 12), contextSize) :: x.client.held := by
      rw [haddr]
      exact List.mem_cons_self
    have hbytes : ∀ c, c ∈ k.pmm.bitmapBytes ↔
        bitmapStart ≤ c.toNat ∧ c.toNat < bitmapStart + 4096 := by
      intro c
      rw [hc.pmm_eq]
      exact hsound.mem_bitmapBytes_iff
    refine ⟨fun hroom => hfits ((hx.roomBelow_iff hc.place).mp hroom), _, _, hstep, ?_⟩
    exact not_apart_of_served hc.tiled (hc.start_eq.trans hx.start) hbytes hserves.placed hheld
      (hx.place_le hgrown) (by omega)

/-- `proc_create` keeps out of the bitmap but for its frame allocations, exactly
when the context of the new process, if there is one, has room before it. -/
theorem Low.create (hx : x.Low F bs) (entryPoint priority : Word) :
    x.Decided (.create entryPoint priority) (x.ServedBelow (.create entryPoint priority)) := by
  rcases hx.sound.create entryPoint priority with ⟨hnext, hcall⟩ |
    ⟨hnext, a, b, pmm, m, hframes, ha, hb, hbytes, hkept, hsound, hcases⟩
  · left
    have hnext' : ¬ x.procs.nextPid.toNat < 256 := Nat.not_lt.mpr hnext
    have hstep := step_create_failed hcall
    refine ⟨fun h => absurd h hnext', ⟨_, _, hstep, hx.apart, ⟨x.client.mem, ?_, fun _ _ => rfl⟩,
      fun _ _ => rfl⟩, _, _, F, bs, hstep, hx⟩
    exact if_neg hnext'
  · have htwo : x.TwoFrames ↔ a ≠ 0 ∧ b ≠ 0 := hx.sound.twoFrames_iff ha hb
    have hframes' :
        (SystemCall.create entryPoint priority).frames Mem.bus x.kernel = some (pmm, m) := by
      simp only [SystemCall.frames, if_pos hnext, hframes, Option.bind_eq_bind, Option.bind_some,
        Option.pure_def]
    rcases hcases with ⟨hnone, procs, hcall, hsame, hidle⟩ | ⟨ha0, hb0, o, k, bs', hcall, hc⟩
    · left
      have hstep := step_create_failed hcall
      have hlow : (⟨pmm, procs, ⟨x.client.heap, m, x.client.held, x.client.returned⟩⟩ :
          System).Low F.alloc.2.alloc.2 bs :=
        ⟨hsound procs hidle, hx.owned_of_frames hkept, hx.held_le, hx.used_le⟩
      refine ⟨?_, ⟨_, _, hstep, hlow.apart, ⟨m, hframes', fun _ _ => rfl⟩, ?_⟩, _, _, _, bs,
        hstep, hlow⟩
      · intro _ htwo'
        apply hx.roomBelow_of_none
        cases hplace : x.client.heap.placeFor bs contextSize with
        | none => rfl
        | some o => exact absurd ⟨(htwo.mp htwo').1, (htwo.mp htwo').2, o, hplace⟩ hnone
      · intro c hc
        apply hkept
        intro hmem
        have := hidle.stackBytes_ge hc
        have := hx.sound.mem_bitmapBytes_iff.mp hmem
        omega
    · have hcond : x.ServedBelow (.create entryPoint priority) ↔ x.RoomBelow contextSize :=
        ⟨fun h => h hnext (htwo.mpr ⟨ha0, hb0⟩), fun h _ _ => h⟩
      rw [hcond]
      exact hx.created hc hkept (hsound x.procs hx.sound.idle) hframes'
        (step_create_served hnext hcall hc.context)

/-- Every action keeps the heap out of the bitmap and the stacks exactly when the
block it is served with ends before the bitmap. -/
theorem Low.step (hx : x.Low F bs) {call : SystemCall} (hheld : x.HeldOnly call) :
    x.Decided call (x.ServedBelow call) := by
  cases call with
  | heap call =>
    cases call with
    | kmalloc n => exact hx.kmalloc n
    | kfree p => exact hx.kfree hheld
    | write a byte => exact hx.write hheld
  | create entryPoint priority => exact hx.create entryPoint priority

/-- `kmain` sets up an empty heap before the bitmap. -/
theorem kmainSystem_low (m : Mem) :
    ∃ x₀, kmainSystem m = some x₀ ∧ x₀.Low (Frames.empty 32768) [] := by
  obtain ⟨k, hinit, hsound, hused⟩ := kmainKernel_sound m
  refine ⟨⟨k.pmm, k.procs, ⟨k.heap, k.mem, [], []⟩⟩, ?_, ⟨hsound, ?_, ?_, ?_⟩⟩
  · simp only [kmainSystem, hinit, Option.bind_eq_bind, Option.bind_some, Option.pure_def]
  · exact ⟨⟨hsound.tiled, by simp⟩, by simp, by simp⟩
  · simp
  · simp [hused]

/-- In an empty heap a request is served at the start. -/
theorem Low.placeFor_empty (hx : x.Low F []) {n : Word} (hpos : n ≠ 0) (hn : n.toNat ≤ 0x7FFFE0) :
    x.client.heap.placeFor [] n = some 0 :=
  hx.sound.placeFor_empty hpos hn

/-- In an empty heap a request has room before the bitmap when its block ends
there. -/
theorem Low.roomBelow_empty_iff (hx : x.Low F []) {n : Word} (hpos : n ≠ 0)
    (hn : n.toNat ≤ 0x7FFFE0) : x.RoomBelow n ↔ 12 + n.toNat ≤ bitmapOffset := by
  rw [hx.roomBelow_iff (hx.placeFor_empty hpos hn), Nat.zero_add]

end System

end Nimbu
