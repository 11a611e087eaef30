import Nimbu.Kernel.HeapApart

/-!
# Processes beside other clients

Processes are created, killed, blocked and scheduled while other clients of the
kernel take page frames and heap blocks and give back what they hold. What a
process got when it was created stays its own as long as the heap serves its
blocks before the bitmap; where it does not, a block header in the bitmap frees
the frames of processes.
-/

namespace Nimbu

/-- What a successful `proc_create` hands to its process, as the control block and memory
have it when the call returns. -/
structure Creation where
  /-- The process ID. -/
  pid : ℕ
  /-- The frame of the page directory. -/
  pageDirPhys : Word
  /-- The page of the kernel stack. -/
  kernelStack : Word
  /-- The address of the initial registers. -/
  context : Word
  /-- The initial stack pointer. -/
  esp : Word

/-- The heap block with the initial registers. -/
def Creation.contextBlock (c : Creation) : Word × Word := (c.context, contextSize)

/-- The page of the kernel stack as a block. -/
def Creation.stackPage (c : Creation) : Word × Word := (c.kernelStack, pageSize)

/-- The process just created with the given ID. -/
def Kernel.creation (k : Kernel Mem) (pid : ℕ) : Creation :=
  let pcb := k.procs.table (Fin.ofNat 256 pid)
  { pid, pageDirPhys := pcb.pageDirPhys, kernelStack := pcb.kernelStack, context := pcb.context,
    esp := k.mem.bytes.word (pcb.context + ContextField.esp.offset) }

/-- The process that a reply reports, if any. -/
def SystemReply.created (x : System) : SystemReply → List Creation
  | .status ret => if ret = -1 then [] else [x.kernel.creation ret.toNat]
  | .heap _ => []

/-- The kernel with its processes and the frames of other clients. -/
structure Workload where
  /-- The kernel, and the heap blocks held. -/
  system : System
  /-- The addresses from `pmm_alloc` that other clients hold. -/
  frames : Finset Word
  /-- The processes created so far, the latest first; no code reads them. -/
  created : List Creation

/-- An action of a process or of another client. -/
inductive WorkloadCall where
  /-- `proc_create`, `kmalloc`, `kfree` or a write into a heap block. -/
  | system (call : SystemCall)
  /-- `proc_exit(pid)`. -/
  | exit (pid : Word)
  /-- `proc_block(resource)`. -/
  | block (resource : Word)
  /-- `proc_unblock(pid)`. -/
  | unblock (pid : Word)
  /-- `scheduler_tick(context)`. -/
  | tick (context : Word)
  /-- `pmm_alloc()`. -/
  | alloc
  /-- `pmm_free(addr)`. -/
  | free (addr : Word)

/-- The result of an action. -/
inductive WorkloadReply where
  /-- The result of an action on the heap or of `proc_create`. -/
  | system (reply : SystemReply)
  /-- The result of another call on the process table. -/
  | table (reply : ProcReply)
  /-- The address returned by `pmm_alloc`. -/
  | frame (addr : Word)
  /-- The status returned by `pmm_free`. -/
  | freed (ret : ℤ)

/-- The workload when `kmain` has set up the kernel in one linear memory, without page tables. -/
def kmainWorkload (m : Mem) : Option Workload := do
  let x ← kmainSystem m
  return ⟨x, ∅, []⟩

namespace Workload

/-- A call that changes the process table only. -/
def tableStep (x : Workload) (call : ProcCall) : Option (WorkloadReply × Workload) := do
  let (reply, k) ← procStep Mem.bus Mem.bus x.system.kernel call
  return (.table reply, { x with system := { x.system with procs := k.procs } })

/-- One action. -/
def step (x : Workload) : WorkloadCall → Option (WorkloadReply × Workload)
  | .system call => do
    let (reply, system) ← x.system.step call
    return (.system reply, ⟨system, x.frames, reply.created system ++ x.created⟩)
  | .exit pid => x.tableStep (.exit pid)
  | .block resource => x.tableStep (.block resource)
  | .unblock pid => x.tableStep (.unblock pid)
  | .tick context => x.tableStep (.tick context)
  | .alloc => do
    let (addr, pmm, mem) ← pmmAlloc Mem.bus x.system.pmm x.system.client.mem
    return (.frame addr, { x with
      system := { x.system with pmm, client := { x.system.client with mem } },
      frames := insert addr x.frames })
  | .free addr => do
    let (ret, pmm, mem) ← pmmFree Mem.bus x.system.pmm x.system.client.mem addr
    return (.freed ret, { x with
      system := { x.system with pmm, client := { x.system.client with mem } },
      frames := x.frames.erase addr })

/-- The other clients free only what they hold: frames that `pmm_alloc` returned to them,
and heap blocks that are not the context of a process. They write only into held
blocks. -/
def HeldOnly (x : Workload) : WorkloadCall → Prop
  | .system call => x.system.HeldOnly call ∧
    ∀ p, call = .heap (.kfree p) → ∀ c ∈ x.created, p ≠ c.context
  | .free addr => addr ∈ x.frames
  | _ => True

/-- The block an action is served with, if any, ends before the bitmap. -/
def ServedBelow (x : Workload) : WorkloadCall → Prop
  | .system call => x.system.ServedBelow call
  | _ => True

/-- The frame of an address is marked allocated. -/
def Marked (x : Workload) (addr : Word) : Prop :=
  x.system.client.mem.bytes.bit x.system.pmm.bitmap (addr.toNat / 4096) = true

/-- A process has a process ID of the table that its control block carries, a page
directory in a frame that is marked allocated, and a stack pointer within the page
of its kernel stack. -/
structure Equipped (x : Workload) (c : Creation) : Prop where
  /-- The process ID is not 0. -/
  pid_pos : 0 < c.pid
  /-- The process ID is one of the table. -/
  pid_lt : c.pid < 256
  /-- The control block carries the process ID. -/
  pid_eq : (x.system.procs.table (Fin.ofNat 256 c.pid)).pid.toNat = c.pid
  /-- The page directory is not frame 0. -/
  page_dir_ne : c.pageDirPhys ≠ 0
  /-- The page directory starts on a page boundary. -/
  page_dir_aligned : c.pageDirPhys.toNat % 4096 = 0
  /-- The frame of the page directory is marked allocated. -/
  page_dir_marked : x.Marked c.pageDirPhys
  /-- The initial stack pointer lies within the kernel stack. -/
  esp_inside : InPayload c.stackPage c.esp

/-- Two processes share nothing. -/
structure Unshared (c d : Creation) : Prop where
  /-- The process IDs differ. -/
  pid : c.pid ≠ d.pid
  /-- The page directories differ. -/
  page_dir : c.pageDirPhys ≠ d.pageDirPhys
  /-- The kernel stacks have no byte in common. -/
  stack : ∀ a, ¬ (InPayload c.stackPage a ∧ InPayload d.stackPage a)
  /-- The contexts have no byte in common. -/
  context : ∀ a, ¬ (InPayload c.contextBlock a ∧ InPayload d.contextBlock a)

/-- Every process is equipped, and no two share anything. -/
def Separated (x : Workload) : Prop :=
  (∀ c ∈ x.created, x.Equipped c) ∧ x.created.Pairwise Unshared

/-- A process has the resources that it was created with, and no client holds its page
directory. -/
structure Keeps (x : Workload) (F : Frames) (c : Creation) : Prop where
  /-- The process ID is not 0. -/
  pid_pos : 0 < c.pid
  /-- The process ID has been used up. -/
  pid_lt : c.pid < x.system.procs.nextPid.toNat
  /-- The control block carries the process ID. -/
  pid_eq : (x.system.procs.table (Fin.ofNat 256 c.pid)).pid.toNat = c.pid
  /-- The page directory is not frame 0. -/
  page_dir_ne : c.pageDirPhys ≠ 0
  /-- The page directory starts on a page boundary. -/
  page_dir_aligned : c.pageDirPhys.toNat % 4096 = 0
  /-- The frame of the page directory is held. -/
  page_dir_held : c.pageDirPhys.toNat / 4096 ∈ F.held
  /-- No other client holds it. -/
  page_dir_own : c.pageDirPhys ∉ x.frames
  /-- The kernel stack is at its fixed address. -/
  stack_eq : c.kernelStack = kernelStackOf (BitVec.ofNat 32 c.pid)
  /-- The stack pointer starts at the last word of the kernel stack. -/
  esp_eq : c.esp = c.kernelStack + pageSize - 4

/-- What every run keeps. -/
structure Settled (x : Workload) (F : Frames) (bs : List Block) : Prop where
  /-- The heap lies before the bitmap. -/
  low : x.system.Low F bs
  /-- Every process keeps its resources. -/
  each : ∀ c ∈ x.created, x.Keeps F c
  /-- The addresses that clients hold, but for 0, are those of held frames. -/
  frames_held : ∀ a ∈ x.frames, a ≠ 0 → a.toNat % 4096 = 0 ∧ a.toNat / 4096 ∈ F.held
  /-- The contexts are held. -/
  contexts : (x.created.map Creation.contextBlock).Sublist x.system.client.held
  /-- Process IDs and page directories are different. -/
  apart : x.created.Pairwise fun c d => c.pid ≠ d.pid ∧ c.pageDirPhys ≠ d.pageDirPhys

variable {x : Workload} {F : Frames} {bs : List Block}

/-- The kernel stack of a process ID of the table as a number. -/
theorem toNat_kernelStackOf {pid : ℕ} (hpid : pid < 256) :
    (kernelStackOf (BitVec.ofNat 32 pid)).toNat = 0xC0300000 + pid * 4096 := by
  unfold kernelStackOf kernelVirtBase pageSize
  bv_omega

/-- A settled workload is separated. -/
theorem Settled.separated (hx : x.Settled F bs) : x.Separated := by
  have hnext : x.system.procs.nextPid.toNat ≤ 256 := hx.low.sound.idle.next_le
  have hpage : pageSize.toNat = 4096 := rfl
  have hstack : ∀ c ∈ x.created, c.kernelStack.toNat = 0xC0300000 + c.pid * 4096 := by
    intro c hc
    have hlt := (hx.each c hc).pid_lt
    rw [(hx.each c hc).stack_eq, toNat_kernelStackOf (by omega)]
  constructor
  · intro c hc
    have hkeeps := hx.each c hc
    have hlt := hkeeps.pid_lt
    have hstart := hstack c hc
    have hrep : x.system.pmm.Represents x.system.client.mem.bytes F := hx.low.sound.pmm.2.2.2
    refine ⟨hkeeps.pid_pos, by omega, hkeeps.pid_eq, hkeeps.page_dir_ne, hkeeps.page_dir_aligned,
      ?_, ?_⟩
    · unfold Marked
      rw [hrep.bit_eq _ (hrep.page_lt (F.held_lt _ hkeeps.page_dir_held))]
      exact decide_eq_true hkeeps.page_dir_held
    · have hesp : c.esp.toNat = c.kernelStack.toNat + 4092 := by
        rw [hkeeps.esp_eq]
        unfold pageSize
        bv_omega
      simp only [InPayload, Creation.stackPage, hpage]
      omega
  · have hblocks : x.created.Pairwise fun c d =>
        ∀ a, ¬ (InPayload c.contextBlock a ∧ InPayload d.contextBlock a) :=
      List.pairwise_map.mp (hx.low.owned.apart.sublist hx.contexts)
    refine (hx.apart.and hblocks).imp_of_mem ?_
    rintro c d hc hd ⟨⟨hpid, hdir⟩, hcontext⟩
    have hc' := hstack c hc
    have hd' := hstack d hd
    refine ⟨hpid, hdir, fun a => ?_, hcontext⟩
    simp only [InPayload, Creation.stackPage, hpage]
    omega

/-- A process keeps its resources where its control block, its frame and what clients hold
are kept. -/
theorem Keeps.of_kept {x' : Workload} {F' : Frames} {c : Creation} (hkeeps : x.Keeps F c)
    (hnext : x.system.procs.nextPid.toNat ≤ x'.system.procs.nextPid.toNat)
    (hpid : (x'.system.procs.table (Fin.ofNat 256 c.pid)).pid =
      (x.system.procs.table (Fin.ofNat 256 c.pid)).pid)
    (hheld : c.pageDirPhys.toNat / 4096 ∈ F'.held) (hown : c.pageDirPhys ∉ x'.frames) :
    x'.Keeps F' c :=
  { hkeeps with
    pid_lt := Nat.lt_of_lt_of_le hkeeps.pid_lt hnext
    pid_eq := by rw [hpid]; exact hkeeps.pid_eq
    page_dir_held := hheld
    page_dir_own := hown }

end Workload

namespace System

variable {x x' : System} {F : Frames} {bs : List Block}

/-- The system stays in order when the frame allocator changes the bitmap only. -/
theorem Low.of_frames (hx : x.Low F bs) {pmm : PmmState} {m : Mem} {F' : Frames}
    (hsim : PmmSimulates (fun _ => True) Mem.bytes Set.univ (pmm, m) F')
    (htotal : F'.total = F.total)
    (hkept : ∀ c ∉ x.pmm.bitmapBytes, m.bytes c = x.client.mem.bytes c) :
    ({ x with pmm, client := { x.client with mem := m } } : System).Low F' bs :=
  ⟨hx.sound.of_pmm hsim htotal hkept hx.sound.idle, hx.owned_of_frames hkept, hx.held_le,
    hx.used_le⟩

/-- The system stays in order when the process table changes and slot 0 stays current. -/
theorem Low.of_table (hx : x.Low F bs) {procs : Procs} (hidle : procs.Idle) :
    ({ x with procs } : System).Low F bs :=
  ⟨⟨hx.sound.pmm, hx.sound.total, hx.sound.tiled, hx.sound.start, hx.sound.size, hx.sound.below,
    hidle⟩, hx.owned, hx.held_le, hx.used_le⟩

/-- An action on the heap before the bitmap keeps the frames and the process table. -/
theorem Low.heap_step (hx : x.Low F bs) {call : HeapCall} (hheld : x.HeldOnly (.heap call))
    (hserved : x.ServedBelow (.heap call)) :
    ∃ reply client bs', x.client.step call = some (reply, client) ∧
      ({ x with client } : System).Low F bs' := by
  rcases hx.step hheld with ⟨-, ⟨reply, x₁, hstep, -, ⟨m, hframes, hbitmap⟩, -⟩,
    reply', x₂, F', bs', hstep', hlow⟩ | ⟨hnot, -⟩
  · obtain ⟨⟨r, client⟩, hclient, hresult⟩ := Option.bind_eq_some_iff.mp hstep
    obtain ⟨rfl, rfl⟩ : SystemReply.heap r = reply ∧ _ = x₁ := by simpa using hresult
    rw [hstep] at hstep'
    obtain ⟨-, rfl⟩ := Prod.mk.inj (Option.some.inj hstep')
    obtain ⟨-, rfl⟩ := Prod.mk.inj (Option.some.inj hframes)
    have hrep : x.pmm.Represents client.mem.bytes F := hx.sound.pmm.2.2.2.congr hbitmap
    obtain rfl : F = F' := hrep.unique hlow.sound.pmm.2.2.2
    exact ⟨r, client, bs', hclient, hlow⟩
  · exact absurd hserved hnot

/-- The block that a `proc_create` leaves held. -/
def contextEntry (ret : ℤ) (context : Word) : List (Word × Word) :=
  if ret = -1 then [] else [(context, contextSize)]

/-- A process creation with its context before the bitmap keeps the held frames, and takes
two more when it succeeds. -/
theorem Low.create_step (hx : x.Low F bs) {entryPoint priority : Word}
    (hserved : x.ServedBelow (.create entryPoint priority)) :
    ∃ ret k x' F' bs', procCreate Mem.bus Mem.bus x.kernel entryPoint priority = some (ret, k) ∧
      x.step (.create entryPoint priority) = some (.status ret, x') ∧ x'.Low F' bs' ∧
      F.held ⊆ F'.held ∧ (ret ≠ -1 → F' = F.alloc.2.alloc.2) ∧ x'.procs = k.procs ∧
      x'.client.mem = k.mem ∧ x'.client.held = contextEntry ret
        (k.procs.table (Fin.ofNat 256 x.procs.nextPid.toNat)).context ++ x.client.held := by
  have hsub : F.held ⊆ F.alloc.2.alloc.2.held :=
    F.held_subset_alloc.trans F.alloc.2.held_subset_alloc
  have hheld : x.HeldOnly (.create entryPoint priority) := trivial
  rcases hx.step hheld with
    ⟨-, ⟨reply, x₁, hstep, -, ⟨m, hframes, hbitmap⟩, -⟩, reply', x₂, F', bs', hstep', hlow⟩ |
    ⟨hnot, -⟩
  · obtain ⟨⟨ret, k⟩, hcall, hresult⟩ := Option.bind_eq_some_iff.mp hstep
    obtain ⟨rfl, rfl⟩ : SystemReply.status ret = reply ∧ _ = x₁ := by simpa using hresult
    rw [hstep] at hstep'
    obtain ⟨-, rfl⟩ := Prod.mk.inj (Option.some.inj hstep')
    have hframes' : F' = F ∧ ret = -1 ∨ F' = F.alloc.2.alloc.2 := by
      obtain ⟨a, b, pmm, m₂, hcalls, -, -, hsound, -, -⟩ := hx.sound.frames
      by_cases hnext : x.kernel.procs.nextPid.toNat < 256
      · right
        simp only [SystemCall.frames, if_pos hnext, hcalls, Option.bind_eq_bind, Option.bind_some,
          Option.pure_def, Option.some.injEq, Prod.mk.injEq] at hframes
        obtain ⟨rfl, rfl⟩ := hframes
        have hrep : k.pmm.Represents k.mem.bytes F.alloc.2.alloc.2 :=
          (hsound x.procs hx.sound.idle).pmm.2.2.2.congr hbitmap
        exact hlow.sound.pmm.2.2.2.unique hrep
      · left
        rw [SystemCall.frames, if_neg hnext] at hframes
        obtain ⟨hpmm, rfl⟩ := Prod.mk.inj (Option.some.inj hframes)
        simp only at hpmm hbitmap
        have hrep : k.pmm.Represents k.mem.bytes F := by
          rw [← hpmm] at hbitmap ⊢
          exact hx.sound.pmm.2.2.2.congr hbitmap
        refine ⟨hlow.sound.pmm.2.2.2.unique hrep, ?_⟩
        rcases procCreate_procs hcall with ⟨-, hret, -⟩ | ⟨i, hi, -⟩
        · exact hret
        · exact absurd (hi ▸ i.isLt) hnext
    refine ⟨ret, k, _, F', bs', hcall, hstep, hlow, ?_, ?_, rfl, rfl, rfl⟩
    · rcases hframes' with ⟨rfl, -⟩ | rfl
      · exact Finset.Subset.refl _
      · exact hsub
    · intro hret
      exact hframes'.resolve_left fun h => hret h.2
  · exact absurd hserved hnot

end System

namespace Workload

variable {x : Workload} {F : Frames} {bs : List Block}

/-- An action on the heap before the bitmap. -/
theorem Settled.heap (hx : x.Settled F bs) {call : HeapCall}
    (hheld : x.HeldOnly (.system (.heap call))) (hserved : x.ServedBelow (.system (.heap call))) :
    ∃ reply client bs', x.system.client.step call = some (reply, client) ∧
      x.step (.system (.heap call)) =
        some (.system (.heap reply), ⟨{ x.system with client }, x.frames, x.created⟩) ∧
      (⟨{ x.system with client }, x.frames, x.created⟩ : Workload).Settled F bs' := by
  obtain ⟨reply, client, bs', hclient, hlow⟩ := hx.low.heap_step hheld.1 hserved
  have hcontexts : (x.created.map Creation.contextBlock).Sublist client.held := by
    rcases HeapClient.step_held hclient with ⟨entry, heq⟩ | ⟨p, rfl, heq⟩
    · rw [heq]
      exact hx.contexts.trans (List.sublist_append_right entry _)
    · have hkept : (x.created.map Creation.contextBlock).filter (fun e => e.1 ≠ p) =
          x.created.map Creation.contextBlock := by
        rw [List.filter_eq_self]
        intro e he
        obtain ⟨c, hc, rfl⟩ := List.mem_map.mp he
        exact decide_eq_true (hheld.2 p rfl c hc).symm
      rw [heq, ← hkept]
      exact hx.contexts.filter _
  refine ⟨reply, client, bs', hclient, ?_, hlow, ?_, hx.frames_held, hcontexts, hx.apart⟩
  · simp only [step, System.step_heap hclient, Option.bind_eq_bind, Option.bind_some,
      Option.pure_def]
    rfl
  · intro c hc
    have hkeeps := hx.each c hc
    exact hkeeps.of_kept le_rfl rfl hkeeps.page_dir_held hkeeps.page_dir_own

/-- A process creation keeps what the processes have. -/
theorem Settled.keeps_of_create (hx : x.Settled F bs) {entryPoint priority : Word} {ret : ℤ}
    {k : Kernel Mem} (x' : Workload) {F' : Frames}
    (hcall : procCreate Mem.bus Mem.bus x.system.kernel entryPoint priority = some (ret, k))
    (hheld : F.held ⊆ F'.held) (hprocs : x'.system.procs = k.procs)
    (hframes : x'.frames = x.frames) :
    ∀ c ∈ x.created, x'.Keeps F' c := by
  intro c hc
  have hkeeps := hx.each c hc
  have hown : c.pageDirPhys ∉ x'.frames := by
    rw [hframes]
    exact hkeeps.page_dir_own
  rcases procCreate_procs hcall with ⟨-, -, rfl⟩ | ⟨i, hi, -, hothers, -, hnext⟩
  · refine hkeeps.of_kept ?_ ?_ (hheld hkeeps.page_dir_held) hown
    · rw [hprocs]
      exact le_rfl
    · rw [hprocs]
      rfl
  · have hlt := hkeeps.pid_lt
    have hi' : i.val = x.system.procs.nextPid.toNat := hi
    have hslot := i.isLt
    have hne : Fin.ofNat 256 c.pid ≠ i := by
      intro heq
      have hval := congrArg Fin.val heq
      simp only [Fin.ofNat] at hval
      omega
    refine hkeeps.of_kept ?_ ?_ (hheld hkeeps.page_dir_held) hown
    · rw [hprocs]
      rcases hnext with ⟨-, hnext⟩ | ⟨-, hnext⟩
      · rw [hnext]
        exact le_rfl
      · have hnext' : k.procs.nextPid = x.system.procs.nextPid + 1 := hnext
        rw [hnext']
        bv_omega
    · rw [hprocs, hothers _ hne]
      rfl

/-- The addresses that clients hold stay those of held frames. -/
theorem Settled.frames_mono (hx : x.Settled F bs) {F' : Frames} (hheld : F.held ⊆ F'.held) :
    ∀ a ∈ x.frames, a ≠ 0 → a.toNat % 4096 = 0 ∧ a.toNat / 4096 ∈ F'.held := by
  intro a ha hne
  obtain ⟨haligned, hmem⟩ := hx.frames_held a ha hne
  exact ⟨haligned, hheld hmem⟩

/-- What a successful `proc_create` hands out. -/
theorem creation_eq {y z : System} {entryPoint priority : Word} {k : Kernel Mem} {i : Slot}
    {a b context : Word}
    (hserved : y.kernel.Served Mem.bus Mem.bus k entryPoint priority i a b context)
    (hprocs : z.kernel.procs = k.procs) (hmem : z.kernel.mem = k.mem)
    (hend : context.toNat + 76 ≤ 2 ^ 32) :
    z.kernel.creation i.val = ⟨i.val, b, kernelStackOf (BitVec.ofNat 32 i.val), context,
      kernelStackOf (BitVec.ofNat 32 i.val) + pageSize - 4⟩ := by
  obtain ⟨m, m₂, -, -, hinit⟩ := hserved.calls
  have hslot : Fin.ofNat 256 i.val = i := Fin.ext (Nat.mod_eq_of_lt i.isLt)
  have hpid : BitVec.ofNat 32 i.val = y.kernel.procs.nextPid := by
    rw [hserved.slot]
    simp
  unfold Kernel.creation
  rw [hslot, hprocs, hserved.block, hmem, hpid]
  simp only [Pcb.equipped, initContext_esp hinit hend]

/-- The process that a creation adds has resources of its own. -/
theorem Settled.keeps_new (hx : x.Settled F bs) {entryPoint priority : Word} {k : Kernel Mem}
    {i : Slot} {a b context : Word} (x' : Workload)
    (hserved : x.system.kernel.Served Mem.bus Mem.bus k entryPoint priority i a b context)
    (hprocs : x'.system.procs = k.procs) (hframes : x'.frames = x.frames) :
    x'.Keeps F.alloc.2.alloc.2 ⟨i.val, b, kernelStackOf (BitVec.ofNat 32 i.val), context,
        kernelStackOf (BitVec.ofNat 32 i.val) + pageSize - 4⟩ ∧
      ∀ d ∈ x.created, i.val ≠ d.pid ∧ b ≠ d.pageDirPhys := by
  obtain ⟨m, m₂, hcalls, -, -⟩ := hserved.calls
  have hi : i.val = x.system.procs.nextPid.toNat := hserved.slot
  have hnext : k.procs.nextPid = x.system.procs.nextPid + 1 := hserved.next
  have hlt := i.isLt
  have hslot : Fin.ofNat 256 i.val = i := Fin.ext (Nat.mod_eq_of_lt i.isLt)
  obtain ⟨a', b', pmm, m', hcalls', -, hb, -⟩ := hx.low.sound.frames
  rw [hcalls] at hcalls'
  obtain ⟨rfl, rfl, -⟩ : a = a' ∧ b = b' ∧ _ := by simpa using hcalls'
  have hne : F.alloc.2.alloc.1 ≠ 0 := by
    rw [← hb]
    intro hzero
    exact hserved.page_dir_ne (BitVec.eq_of_toNat_eq hzero)
  obtain ⟨haligned, hfresh, hheld⟩ := Frames.alloc_fresh hne
  rw [← hb] at haligned hfresh hheld
  have hown : b ∉ x'.frames := by
    rw [hframes]
    intro hmem
    obtain ⟨-, hold⟩ := hx.frames_held b hmem hserved.page_dir_ne
    exact hfresh (F.held_subset_alloc hold)
  refine ⟨⟨?_, ?_, ?_, hserved.page_dir_ne, haligned, hheld, hown, rfl, rfl⟩, fun d hd => ?_⟩
  · simp only
    rw [hi]
    exact hx.low.sound.idle.next_pos
  · simp only
    rw [hprocs, hnext]
    bv_omega
  · simp only
    rw [hslot, hprocs, hserved.block]
    exact hi.symm
  · have hkeeps := hx.each d hd
    have hlt' := hkeeps.pid_lt
    refine ⟨by omega, ?_⟩
    rintro rfl
    exact hfresh (F.held_subset_alloc hkeeps.page_dir_held)

/-- An action of the system is a step of the workload. -/
theorem step_system {call : SystemCall} {reply : SystemReply} {y : System}
    (hstep : x.system.step call = some (reply, y)) :
    x.step (.system call) = some (.system reply, ⟨y, x.frames, reply.created y ++ x.created⟩) := by
  simp only [step, hstep, Option.bind_eq_bind, Option.bind_some, Option.pure_def]

/-- `proc_create` with its context before the bitmap. -/
theorem Settled.create (hx : x.Settled F bs) {entryPoint priority : Word}
    (hserved : x.ServedBelow (.system (.create entryPoint priority))) :
    ∃ reply x' F' bs', x.step (.system (.create entryPoint priority)) = some (reply, x') ∧
      x'.Settled F' bs' := by
  have hserved' : x.system.ServedBelow (.create entryPoint priority) := hserved
  obtain ⟨ret, k, y, F', bs', hcall, hstep, hlow, hheld, hframes, hprocs, hmem, hblocks⟩ :=
    hx.low.create_step hserved'
  have hstep' := step_system hstep
  by_cases hret : ret = -1
  · rw [System.contextEntry, if_pos hret] at hblocks
    rw [SystemReply.created, if_pos hret] at hstep'
    refine ⟨.system (.status ret), ⟨y, x.frames, x.created⟩, F', bs', hstep', hlow,
      hx.keeps_of_create ⟨y, x.frames, x.created⟩ hcall hheld hprocs rfl, hx.frames_mono hheld, ?_,
      hx.apart⟩
    rw [hblocks]
    exact hx.contexts
  · obtain ⟨i, a, b, context, rfl, hserves⟩ := procCreate_served hcall hret
    obtain rfl := hframes hret
    have hi : i.val = x.system.procs.nextPid.toNat := hserves.slot
    have hslot : Fin.ofNat 256 x.system.procs.nextPid.toNat = i := by
      rw [← hi]
      exact Fin.ext (Nat.mod_eq_of_lt i.isLt)
    rw [System.contextEntry, if_neg hret, hslot, hserves.block] at hblocks
    rw [SystemReply.created, if_neg hret, Int.toNat_natCast] at hstep'
    have hend : context.toNat + 76 ≤ 2 ^ 32 := by
      have hle := hlow.held_le (context, contextSize) (by rw [hblocks]; exact List.mem_cons_self)
      have hsize : contextSize.toNat = 76 := rfl
      unfold bitmapStart at hle
      simp only [hsize] at hle
      omega
    have hcreation := creation_eq hserves hprocs hmem hend
    obtain ⟨hnew, hothers⟩ :=
      hx.keeps_new ⟨y, x.frames, [y.kernel.creation i.val] ++ x.created⟩ hserves hprocs rfl
    rw [← hcreation] at hnew
    refine ⟨.system (.status i.val), ⟨y, x.frames, [y.kernel.creation i.val] ++ x.created⟩,
      F.alloc.2.alloc.2, bs', hstep', hlow, ?_, hx.frames_mono hheld, ?_, ?_⟩
    · intro c hc
      rcases List.mem_cons.mp hc with rfl | hc
      · exact hnew
      · exact hx.keeps_of_create ⟨y, x.frames, _⟩ hcall hheld hprocs rfl c hc
    · simp only [hblocks, List.singleton_append, List.map_cons, hcreation]
      exact hx.contexts.cons_cons _
    · refine List.pairwise_cons.mpr ⟨fun d hd => ?_, hx.apart⟩
      rw [hcreation]
      exact hothers d hd

/-- A call that changes the process table only. -/
theorem Settled.table (hx : x.Settled F bs) {call : ProcCall}
    (hcall : ∀ entryPoint priority, call ≠ .create entryPoint priority) {reply : ProcReply}
    {k : Kernel Mem} (hstep : procStep Mem.bus Mem.bus x.system.kernel call = some (reply, k)) :
    ∃ reply x', x.tableStep call = some (reply, x') ∧ x'.Settled F bs := by
  have hidle := procStep_idle hx.low.sound.idle hstep
  obtain ⟨hnext, hpid⟩ := procStep_pid hx.low.sound.idle hcall hstep
  refine ⟨.table reply, { x with system := { x.system with procs := k.procs } }, ?_,
    hx.low.of_table hidle, ?_, hx.frames_held, hx.contexts, hx.apart⟩
  · simp only [tableStep, hstep, Option.bind_eq_bind, Option.bind_some, Option.pure_def]
  · intro c hc
    have hkeeps := hx.each c hc
    refine hkeeps.of_kept ?_ (hpid _) hkeeps.page_dir_held hkeeps.page_dir_own
    rw [show k.procs.nextPid = x.system.procs.nextPid from hnext]

/-- `pmm_alloc` by another client. -/
theorem Settled.alloc (hx : x.Settled F bs) :
    ∃ reply pmm m x', x.step .alloc = some (reply, x') ∧ x'.Settled F.alloc.2 bs ∧
      x'.system = { x.system with pmm, client := { x.system.client with mem := m } } ∧
      x'.created = x.created := by
  obtain ⟨addr, pmm, m, halloc, haddr, hsim, -, hkept⟩ :=
    pmmAlloc_simulates Mem.lawful hx.low.sound.pmm
  have hcall : pmmAlloc Mem.bus x.system.pmm x.system.client.mem = some (addr, pmm, m) := halloc
  have hfresh : addr ≠ 0 → addr.toNat % 4096 = 0 ∧ addr.toNat / 4096 ∉ F.held ∧
      addr.toNat / 4096 ∈ F.alloc.2.held := by
    intro hne
    rw [haddr]
    apply Frames.alloc_fresh
    rw [← haddr]
    exact fun hzero => hne (BitVec.eq_of_toNat_eq hzero)
  have hstep : x.step .alloc = some (.frame addr, { x with
      system := { x.system with pmm, client := { x.system.client with mem := m } },
      frames := insert addr x.frames }) := by
    simp only [step, hcall, Option.bind_eq_bind, Option.bind_some, Option.pure_def]
  refine ⟨.frame addr, pmm, m, _, hstep,
    ⟨hx.low.of_frames hsim F.alloc_total hkept, ?_, ?_, hx.contexts, hx.apart⟩, rfl, rfl⟩
  · intro c hc
    have hkeeps := hx.each c hc
    refine hkeeps.of_kept le_rfl rfl (F.held_subset_alloc hkeeps.page_dir_held) ?_
    simp only [Finset.mem_insert, not_or]
    refine ⟨?_, hkeeps.page_dir_own⟩
    rintro rfl
    exact (hfresh hkeeps.page_dir_ne).2.1 hkeeps.page_dir_held
  · intro a ha hne
    rcases Finset.mem_insert.mp ha with rfl | ha
    · exact ⟨(hfresh hne).1, (hfresh hne).2.2⟩
    · exact hx.frames_mono F.held_subset_alloc a ha hne

/-- `pmm_free` of a frame that a client holds. -/
theorem Settled.free (hx : x.Settled F bs) {addr : Word} (hheld : x.HeldOnly (.free addr)) :
    ∃ reply x', x.step (.free addr) = some (reply, x') ∧
      x'.Settled (F.free addr.toNat).2 bs := by
  obtain ⟨pmm, m, hfree, hsim, -, hkept⟩ := pmmFree_simulates Mem.lawful hx.low.sound.pmm addr
  have hcall : pmmFree Mem.bus x.system.pmm x.system.client.mem addr =
    some ((F.free addr.toNat).1, pmm, m) := hfree
  have hmem : addr ∈ x.frames := hheld
  have hother : ∀ a : Word, a.toNat % 4096 = 0 → a ≠ addr → a.toNat / 4096 ∈ F.held →
      a.toNat / 4096 ∈ (F.free addr.toNat).2.held := by
    intro a haligned hne ha
    apply Frames.mem_free ha
    intro heq
    apply hne
    apply BitVec.eq_of_toNat_eq
    omega
  have hstep : x.step (.free addr) = some (.freed (F.free addr.toNat).1, { x with
      system := { x.system with pmm, client := { x.system.client with mem := m } },
      frames := x.frames.erase addr }) := by
    simp only [step, hcall, Option.bind_eq_bind, Option.bind_some, Option.pure_def]
  refine ⟨.freed (F.free addr.toNat).1, { x with
      system := { x.system with pmm, client := { x.system.client with mem := m } },
      frames := x.frames.erase addr }, hstep,
    hx.low.of_frames hsim (F.step_total (.free addr)) hkept, ?_, ?_, hx.contexts, hx.apart⟩
  · intro c hc
    have hkeeps := hx.each c hc
    refine hkeeps.of_kept le_rfl rfl (hother _ hkeeps.page_dir_aligned ?_ hkeeps.page_dir_held) ?_
    · rintro rfl
      exact hkeeps.page_dir_own hmem
    · exact fun h => hkeeps.page_dir_own (Finset.mem_of_mem_erase h)
  · intro a ha hne
    obtain ⟨hne', ha'⟩ := Finset.mem_erase.mp ha
    obtain ⟨haligned, hheld'⟩ := hx.frames_held a ha' hne
    exact ⟨haligned, hother a haligned hne' hheld'⟩

/-- Every permitted action that is served before the bitmap returns and keeps the workload
settled. -/
theorem Settled.step (hx : x.Settled F bs) {call : WorkloadCall} (hheld : x.HeldOnly call)
    (hserved : x.ServedBelow call) :
    ∃ reply x' F' bs', x.step call = some (reply, x') ∧ x'.Settled F' bs' := by
  have htable : ∀ {call : ProcCall}, (∀ entryPoint priority, call ≠ .create entryPoint priority) →
      (∃ reply k, procStep Mem.bus Mem.bus x.system.kernel call = some (reply, k)) →
      ∃ reply x' F' bs', x.tableStep call = some (reply, x') ∧ x'.Settled F' bs' := by
    rintro call hcall ⟨reply, k, hstep⟩
    obtain ⟨reply', x', hstep', hx'⟩ := hx.table hcall hstep
    exact ⟨reply', x', F, bs, hstep', hx'⟩
  cases call with
  | system call =>
    cases call with
    | heap call =>
      obtain ⟨reply, client, bs', -, hstep, hx'⟩ := hx.heap hheld hserved
      exact ⟨.system (.heap reply), _, F, bs', hstep, hx'⟩
    | create entryPoint priority => exact hx.create hserved
  | exit pid => exact htable (by simp) ⟨_, _, rfl⟩
  | block resource => exact htable (by simp) ⟨_, _, rfl⟩
  | unblock pid => exact htable (by simp) ⟨_, _, rfl⟩
  | tick context => exact htable (by simp) ⟨_, _, rfl⟩
  | alloc =>
    obtain ⟨reply, pmm, m, x', hstep, hx', -, -⟩ := hx.alloc
    exact ⟨reply, x', _, bs, hstep, hx'⟩
  | free addr =>
    obtain ⟨reply, x', hstep, hx'⟩ := hx.free hheld
    exact ⟨reply, x', _, bs, hstep, hx'⟩

end Workload

/-- `kmain` sets up a workload without processes. -/
theorem kmainWorkload_settled (m : Mem) :
    ∃ x₀, kmainWorkload m = some x₀ ∧ x₀.Settled (Frames.empty 32768) [] := by
  obtain ⟨x, hinit, hlow⟩ := System.kmainSystem_low m
  refine ⟨⟨x, ∅, []⟩, ?_, hlow, by simp, by simp, by simp, List.Pairwise.nil⟩
  simp only [kmainWorkload, hinit, Option.bind_eq_bind, Option.bind_some, Option.pure_def]

/-- The process table that `kmain` sets up, before any process was created. -/
theorem kmainWorkload_procs {m : Mem} {x : Workload} (hinit : kmainWorkload m = some x) :
    x.system.procs = procInit Procs.static ∧ x.created = [] := by
  unfold kmainWorkload kmainSystem kmainKernel at hinit
  simp only [Option.bind_eq_bind, Option.bind_assoc, Option.bind_eq_some_iff, Option.pure_def,
    Option.some.injEq] at hinit
  obtain ⟨_, -, _, rfl, _, rfl, rfl⟩ := hinit
  exact ⟨rfl, rfl⟩

/-- `proc_create` with a process ID, two frames and a place for the context creates a process
with the second frame as its page directory. -/
theorem Workload.Settled.create_served {x : Workload} {F : Frames} {bs : List Block}
    (hx : x.Settled F bs) (hnext : x.system.procs.nextPid.toNat < 256) (hstack : F.alloc.1 ≠ 0)
    (hdir : F.alloc.2.alloc.1 ≠ 0) {o : ℕ}
    (hplace : x.system.client.heap.placeFor bs contextSize = some o) (entryPoint priority : Word) :
    ∃ reply y c m k bs', x.step (.system (.create entryPoint priority)) =
        some (reply, ⟨y, x.frames, c :: x.created⟩) ∧
      c.pageDirPhys.toNat = F.alloc.2.alloc.1 ∧ y.pmm.bitmap = 0xC0200000 ∧
      y.client.mem = k.mem ∧ x.system.client.heap.Tiled m.bytes bs ∧
      x.system.kernel.Created y.pmm m bs k o bs' := by
  rcases hx.low.sound.create entryPoint priority with ⟨hfull, -⟩ |
    ⟨-, a, b, pmm, m, hframes, ha, hb, -, -, hsound, hcases⟩
  · exact absurd hnext (Nat.not_lt.mpr hfull)
  have ha0 : a ≠ 0 := by
    rintro rfl
    exact hstack ha.symm
  have hb0 : b ≠ 0 := by
    rintro rfl
    exact hdir hb.symm
  rcases hcases with ⟨hnone, -⟩ | ⟨-, -, o', k, bs', hcall, hc⟩
  · exact absurd ⟨ha0, hb0, o, hplace⟩ hnone
  obtain rfl : o = o' := Option.some.inj (hplace.symm.trans hc.place)
  obtain ⟨i, a', b', context, hret, hserves⟩ := procCreate_served hcall (by omega)
  obtain ⟨m', -, hframes', -⟩ := hserves.calls
  rw [hframes] at hframes'
  obtain ⟨-, rfl, rfl, -⟩ : a = a' ∧ b = b' ∧ pmm = k.pmm ∧ _ := by simpa using hframes'
  have hslot : Fin.ofNat 256 i.val = i := Fin.ext (Nat.mod_eq_of_lt i.isLt)
  have hne : ¬ (x.system.procs.nextPid.toNat : ℤ) = -1 := by omega
  have hid : x.system.procs.nextPid.toNat = i.val := hserves.slot.symm
  have hstep := Workload.step_system (System.step_create_served hnext hcall hc.context)
  rw [SystemReply.created, if_neg hne, Int.toNat_natCast, hid] at hstep
  have hsound' := hsound x.system.procs hx.low.sound.idle
  refine ⟨_, _, _, m, k, bs', hstep, ?_, hsound'.pmm.2.1, rfl, hsound'.tiled, hc⟩
  simp only [Kernel.creation, System.kernel, hslot, hserves.block, Pcb.equipped]
  exact hb

/-- The frames after one allocation: frame 0 is held, and the next two are 1 and 2. -/
theorem Frames.alloc_of_first :
    (Frames.empty 32768).alloc.2.alloc.1 = 1 * 4096 ∧
      (Frames.empty 32768).alloc.2.alloc.2.alloc.1 = 2 * 4096 := by
  have htotal := (Frames.empty 32768).alloc_total
  have htotal' := (Frames.empty 32768).alloc.2.alloc_total
  have hempty : (Frames.empty 32768).total = 32768 := rfl
  obtain ⟨-, hone⟩ := @Frames.alloc_of_range (Frames.empty 32768) 0 (by omega) rfl
  obtain ⟨hstack, htwo⟩ := Frames.alloc_of_range (by omega) hone
  obtain ⟨hdir, -⟩ := Frames.alloc_of_range (by omega) htwo
  exact ⟨hstack, hdir⟩

/-- A request on an empty heap becomes its only block. -/
theorem System.Low.first_block {x : System} {F : Frames} (hx : x.Low F []) {n : Word}
    (hmin : 20 ≤ n.toNat) (hmax : n.toNat ≤ 0x700000) {reply : HeapReply} {client : HeapClient}
    (hclient : x.client.step (.kmalloc n) = some (reply, client)) {bs : List Block}
    (ht : client.heap.Tiled client.mem.bytes bs) : bs = [⟨12 + n.toNat, true⟩] := by
  have hsize : x.client.heap.size.toNat = 0x800000 := hx.sound.size_toNat
  have hused : x.client.heap.used.toNat = 0 := hx.tiled.span_eq.symm
  have hrequest : requestSize n.toNat = 12 + n.toNat := by
    unfold requestSize
    omega
  rcases kmalloc_eq hx.tiled n with ⟨hwhy, -⟩ | ⟨pre, b, post, hnil, -⟩ |
    ⟨-, -, -, hblock, hroom, hkmalloc⟩
  · rcases hwhy with rfl | hbig | ⟨-, hfull⟩
    · exact absurd hmin (by decide)
    · omega
    · omega
  · exact absurd hnil (by simp)
  · have htiled := hx.tiled.append (show 32 ≤ (blockSize n).toNat by omega) (by omega)
    simp only [HeapClient.step, hkmalloc, Option.bind_eq_bind, Option.bind_some, Option.pure_def,
      Option.some.injEq, Prod.mk.injEq] at hclient
    obtain ⟨-, rfl⟩ := hclient
    rw [ht.unique htiled, hblock, hrequest]
    rfl

/-- Where the header of a new context starts 4 bytes before the bitmap, the size of the
block becomes the first word of the bitmap. -/
theorem Kernel.Created.bitmap_word {k k' : Kernel Mem} {pmm : PmmState} {m : Mem}
    {bs bs' : List Block} {o : ℕ} (hc : k.Created pmm m bs k' o bs')
    (hstart : k.heap.start = kmainHeapStart) (ho : o = 0xFFFFC)
    (hlast : k.heap.used.toNat = 0xFFFFC) (ht : k.heap.Tiled m.bytes bs) :
    k'.mem.bytes.word 0xC0200000 = 88 := by
  obtain ⟨b, hserves⟩ := hc.block
  have hroom : 12 + 76 ≤ b.size := hserves.room
  have hend := (hc.tiled.block_le hserves.placed).1
  have hsize : b.size = 88 := by
    rcases hc.used with ⟨-, c, hplaced⟩ | ⟨-, hused⟩
    · -- no old block starts where the used part ends
      have := ht.block_le hplaced
      omega
    · omega
  have haddr : k'.heap.addr o + headerSizeOffset = 0xC0200000 := by
    unfold HeapState.addr
    rw [hc.start_eq, hstart, ho]
    decide
  have hword := (hc.tiled.header _ _ hserves.placed).size
  rw [haddr, hsize] at hword
  exact hword

/-- Behind a block that ends 4 bytes before the bitmap, the next context starts there. -/
theorem System.Low.placeFor_across {x : System} {F : Frames} (hx : x.Low F [⟨0xFFFFC, true⟩]) :
    x.client.heap.placeFor [⟨0xFFFFC, true⟩] contextSize = some 0xFFFFC := by
  have hsize : x.client.heap.size.toNat = 0x800000 := hx.sound.size_toNat
  have hused : x.client.heap.used.toNat = 0xFFFFC := hx.tiled.span_eq.symm
  unfold HeapState.placeFor
  rw [hused, hsize]
  decide

/-- A process created with the header of its context across the start of the bitmap loses the
mark of its page directory in frame 2. -/
theorem Workload.Settled.create_across {x : Workload} {F : Frames}
    (hx : x.Settled F [⟨0xFFFFC, true⟩]) (hnext : x.system.procs.nextPid.toNat < 256)
    (hstack : F.alloc.1 ≠ 0) (hdir : F.alloc.2.alloc.1 = 2 * 4096) (entryPoint priority : Word) :
    ∃ reply x', x.step (.system (.create entryPoint priority)) = some (reply, x') ∧
      ¬ x'.Separated := by
  have hused : x.system.client.heap.used.toNat = 0xFFFFC := hx.low.tiled.span_eq.symm
  obtain ⟨reply, y, c, m, k, bs', hstep, hpage, hbase, hmem, ht, hc⟩ :=
    hx.create_served hnext hstack (by omega) hx.low.placeFor_across entryPoint priority
  refine ⟨reply, _, hstep, ?_⟩
  rintro ⟨heach, -⟩
  have hmarked := (heach _ List.mem_cons_self).page_dir_marked
  have hword := hc.bitmap_word hx.low.start rfl hused ht
  have hframe : c.pageDirPhys.toNat / 4096 = 2 := by omega
  simp only [Workload.Marked, hframe, hbase, hmem] at hmarked
  rw [Bytes.bit, ← Bytes.getLsbD_word _ _ (by decide), hword] at hmarked
  exact absurd hmarked (by decide)

end Nimbu
