import Nimbu.Mm.Heap
import Nimbu.Mm.Pmm

/-!
# Processes

`process.c`: a table of 256 process control blocks, of which slot 0 is the idle
process. `proc_create` takes two page frames and a heap block for the initial
registers; the other operations change only the table. The frame allocator and
the heap may use different parts of one memory or different memories, so each
has a bus of its own.
-/

namespace Nimbu

/-- The states of a process. -/
inductive ProcState where
  /-- `PROC_STATE_READY`. -/
  | ready
  /-- `PROC_STATE_RUNNING`. -/
  | running
  /-- `PROC_STATE_BLOCKED`. -/
  | blocked
  /-- `PROC_STATE_ZOMBIE`. -/
  | zombie
  deriving DecidableEq, Repr

/-- A process control block, `pcb_t`. Null pointers are 0. -/
structure Pcb where
  /-- Process ID. -/
  pid : Word
  /-- Parent process ID. -/
  parentPid : Word
  /-- State. -/
  state : ProcState
  /-- Priority. -/
  priority : Word
  /-- Address of the saved registers. -/
  context : Word
  /-- Physical address of the page directory. -/
  pageDirPhys : Word
  /-- Kernel stack pointer. -/
  kernelStack : Word
  /-- Remaining ticks of the current time slice. -/
  timeSliceRemaining : Word
  /-- Ticks used. -/
  totalRuntime : Word
  /-- Resource waited for. -/
  blockedOn : Word
  deriving DecidableEq

/-- An index into `process_table`; there are `MAX_PROCESSES` slots. -/
abbrev Slot := Fin 256

/-- There is a slot 0. -/
instance neZero_slots : @NeZero ℕ Zero.ofOfNat0 256 := ⟨by decide⟩

/-- `SCHEDULER_TIME_SLICE`. -/
def schedulerTimeSlice : Word := 10

/-- The static variables of `process.c` and `scheduler.c`. -/
structure Procs where
  /-- `process_table`. -/
  table : Slot → Pcb
  /-- `current_pid`. -/
  currentPid : Word
  /-- `current_process`, which points into the table or nowhere. -/
  currentProcess : Option Slot
  /-- `next_pid`. -/
  nextPid : Word
  /-- `scheduler_ticks`. -/
  schedulerTicks : Word

namespace Procs

/-- Static variables start as zero, apart from `next_pid`. -/
def static : Procs where
  table _ := ⟨0, 0, .ready, 0, 0, 0, 0, 0, 0, 0⟩
  currentPid := 0
  currentProcess := none
  nextPid := 1
  schedulerTicks := 0

/-- Change one control block. -/
def modify (p : Procs) (i : Slot) (f : Pcb → Pcb) : Procs :=
  { p with table := Function.update p.table i (f (p.table i)) }

/-- The block just changed is read back and every other block is kept. -/
theorem table_modify (p : Procs) (i j : Slot) (f : Pcb → Pcb) :
    (p.modify i f).table j = if j = i then f (p.table i) else p.table j := by
  simp only [modify, Function.update_apply]

@[simp] theorem table_modify_self (p : Procs) (i : Slot) (f : Pcb → Pcb) :
    (p.modify i f).table i = f (p.table i) := by
  rw [table_modify, if_pos rfl]

theorem table_modify_of_ne {i j : Slot} (p : Procs) (f : Pcb → Pcb) (hne : j ≠ i) :
    (p.modify i f).table j = p.table j := by
  rw [table_modify, if_neg hne]

@[simp] theorem nextPid_modify (p : Procs) (i : Slot) (f : Pcb → Pcb) :
    (p.modify i f).nextPid = p.nextPid := rfl

@[simp] theorem currentProcess_modify (p : Procs) (i : Slot) (f : Pcb → Pcb) :
    (p.modify i f).currentProcess = p.currentProcess := rfl

end Procs

/-- `proc_init`: every slot becomes READY and slot 0 the running idle process.
The function always returns 1. -/
def procInit (p : Procs) : Procs :=
  let p := { p with table := fun i =>
    { p.table i with pid := 0, state := .ready, context := 0 } }
  let p := p.modify 0 fun pcb => { pcb with pid := 0, state := .running }
  { p with currentProcess := some 0, currentPid := 0 }

/-- `proc_exit`. -/
def procExit (p : Procs) (pid : Word) : ℤ × Procs :=
  if h : pid.toNat < 256 then
    (0, p.modify ⟨pid.toNat, h⟩ fun pcb => { pcb with state := .zombie })
  else (-1, p)

/-- `proc_get_current`. -/
def procGetCurrent (p : Procs) : Option Slot := p.currentProcess

/-- `proc_get`. -/
def procGet (_ : Procs) (pid : Word) : Option Slot :=
  if h : pid.toNat < 256 then some ⟨pid.toNat, h⟩ else none

/-- `proc_block`. -/
def procBlock (p : Procs) (resource : Word) : ℤ × Procs :=
  match p.currentProcess with
  | none => (-1, p)
  | some i => (0, p.modify i fun pcb => { pcb with state := .blocked, blockedOn := resource })

/-- `proc_unblock`. -/
def procUnblock (p : Procs) (pid : Word) : ℤ × Procs :=
  if h : pid.toNat < 256 then
    if (p.table ⟨pid.toNat, h⟩).state ≠ .blocked then (-1, p)
    else (0, p.modify ⟨pid.toNat, h⟩ fun pcb => { pcb with state := .ready, blockedOn := 0 })
  else (-1, p)

/-- `scheduler_get_stats`: the values stored through its three pointers. -/
def schedulerGetStats (p : Procs) : ℕ × ℕ × ℕ :=
  let count st := (List.finRange 256).countP fun i => (p.table i).state = st
  (count .ready, count .running, count .blocked)

/-- The fields of `interrupt_context_t` in memory order. -/
inductive ContextField where
  | gs | fs | es | ds
  | edi | esi | ebp | esp
  | ebx | edx | ecx | eax
  | intNo | errCode
  | eip | cs | eflags
  | userEsp | ss
  deriving DecidableEq

/-- The offset of a field of `interrupt_context_t`. -/
def ContextField.offset : ContextField → Word
  | .gs => 0
  | .fs => 4
  | .es => 8
  | .ds => 12
  | .edi => 16
  | .esi => 20
  | .ebp => 24
  | .esp => 28
  | .ebx => 32
  | .edx => 36
  | .ecx => 40
  | .eax => 44
  | .intNo => 48
  | .errCode => 52
  | .eip => 56
  | .cs => 60
  | .eflags => 64
  | .userEsp => 68
  | .ss => 72

/-- `sizeof(interrupt_context_t)`. -/
def contextSize : Word := 76

/-- The registers `proc_create` sets, in its order. -/
def initialRegisters (entryPoint kernelStack : Word) : List (ContextField × Word) :=
  [(.eip, entryPoint), (.cs, 0x08), (.ds, 0x10), (.es, 0x10), (.fs, 0x10), (.gs, 0x10),
    (.ss, 0x10), (.esp, kernelStack + pageSize - 4), (.eflags, 0x202)]

/-- The kernel stack of a process, a page at a fixed address. -/
def kernelStackOf (pid : Word) : Word := kernelVirtBase + 0x300000 + pid * pageSize

/-- The parts of the kernel that `proc_create` uses. -/
structure Kernel (M : Type) where
  /-- The record of the frame allocator. -/
  pmm : PmmState
  /-- The record of the heap. -/
  heap : HeapState
  /-- Memory. -/
  mem : M
  /-- The process table. -/
  procs : Procs

variable {M : Type} (pmmBus heapBus : Bus M)

/-- The two calls of `pmm_alloc` in `proc_create`: the stack and the page directory. -/
def procCreateFrames (s : PmmState) (m : M) : Option (Word × Word × PmmState × M) := do
  let (stackPhys, s, m) ← pmmAlloc pmmBus s m
  let (pdPhys, s, m) ← pmmAlloc pmmBus s m
  return (stackPhys, pdPhys, s, m)

/-- The assignments of `proc_create` to the fields of the new context. -/
def initContext (m : M) (context entryPoint kernelStack : Word) : Option M :=
  (initialRegisters entryPoint kernelStack).foldlM
    (fun m r => heapBus.storeWord m (context + r.1.offset) r.2) m

/-- `proc_create`: the new process ID, or -1. -/
def procCreate (k : Kernel M) (entryPoint priority : Word) : Option (ℤ × Kernel M) := do
  if h : k.procs.nextPid.toNat < 256 then
    let pid := k.procs.nextPid
    let slot : Slot := ⟨pid.toNat, h⟩
    let procs := k.procs.modify slot fun pcb =>
      { pcb with pid, parentPid := k.procs.currentPid, state := .ready, priority,
                 timeSliceRemaining := schedulerTimeSlice, totalRuntime := 0 }
    let (stackPhys, pdPhys, pmm, mem) ← procCreateFrames pmmBus k.pmm k.mem
    if stackPhys = 0 ∨ pdPhys = 0 then return (-1, { k with pmm, mem, procs })
    let procs := procs.modify slot fun pcb =>
      { pcb with kernelStack := kernelStackOf pid, pageDirPhys := pdPhys }
    let (context, heap, mem) ← kmalloc heapBus k.heap mem contextSize
    let procs := procs.modify slot fun pcb => { pcb with context }
    if context = 0 then return (-1, { pmm, heap, mem, procs })
    let mem ← initContext heapBus mem context entryPoint (kernelStackOf pid)
    return (pid.toNat, { pmm, heap, mem, procs := { procs with nextPid := pid + 1 } })
  else return (-1, k)

end Nimbu
