import Nimbu.Kernel.Paged

/-!
# The workload behind the page tables

The kernel that `kmain` sets up runs through the page tables. What its clients hold is noted
down beside it, and the memory is looked at from the kernel half. When the physical page of
the bitmap holds zeros at boot, and as long as no header, no context and no client's write is
stored into the page tables, the heap leaves the kernel's data alone and processes share
nothing under the same condition as in flat memory.
-/

namespace Nimbu

/-- What the clients of the kernel hold, and what it has created; no code reads it. -/
structure Clients where
  /-- The heap blocks held. -/
  held : List (Word × Word)
  /-- The addresses from `pmm_alloc` that other clients hold. -/
  frames : Finset Word
  /-- The processes created so far, the latest first. -/
  created : List Creation

/-- What is noted down about a call and its reply, from the kernel before to the kernel after. -/
def Clients.note (c : Clients) (before after : Kernel Mem) :
    WorkloadCall → WorkloadReply → Clients
  | .system (.heap (.kmalloc n)), .system (.heap (.pointer p)) =>
    { c with held := (if p = 0 then [] else [(p, n)]) ++ c.held }
  | .system (.heap (.kfree p)), _ => { c with held := c.held.filter fun e => e.1 ≠ p }
  | .system (.create _ _), .system (.status ret) =>
    let context := (after.procs.table (Fin.ofNat 256 before.procs.nextPid.toNat)).context
    { c with
      held := (if ret = -1 then [] else [(context, contextSize)]) ++ c.held
      created := (if ret = -1 then [] else [after.creation ret.toNat]) ++ c.created }
  | .alloc, .frame addr => { c with frames := insert addr c.frames }
  | .free addr, _ => { c with frames := c.frames.erase addr }
  | _, _ => c

/-- The kernel behind the page tables and what its clients hold. -/
structure PagedWorkload where
  /-- The kernel. -/
  kernel : Kernel Machine
  /-- What the clients hold. -/
  clients : Clients

/-- The workload when `kmain` has set up the kernel. -/
def kmainPagedWorkload (st : StaticTables) (m : Machine) : Option PagedWorkload := do
  let k ← kmainPaged st m
  return ⟨k, ⟨[], ∅, []⟩⟩

/-- The clients of a workload in flat memory. -/
def Workload.clients (x : Workload) : Clients := ⟨x.system.client.held, x.frames, x.created⟩

namespace PagedWorkload

/-- The workload with the memory that is seen from the kernel half. -/
def view (w : PagedWorkload) : Workload :=
  ⟨⟨w.kernel.pmm, w.kernel.procs, ⟨w.kernel.heap, w.kernel.mem.kernelView, w.clients.held, []⟩⟩,
    w.clients.frames, w.clients.created⟩

/-- One action. -/
def step (w : PagedWorkload) (call : WorkloadCall) : Option (WorkloadReply × PagedWorkload) := do
  let (reply, kernel) ← kernelCall Machine.bus w.kernel call
  return (reply, ⟨kernel, w.clients.note w.kernel.view kernel.view call reply⟩)

/-- One action on the heap, or a process creation. -/
def systemStep (w : PagedWorkload) (call : SystemCall) : Option (WorkloadReply × PagedWorkload) :=
  w.step (.system call)

/-- The action returns and keeps the heap apart from the bitmap and the stacks and the
translation as it was at boot. It changes the frame allocator only by its frame allocations,
and no byte of a kernel stack. -/
def LeavesKernelData (w : PagedWorkload) (call : SystemCall) : Prop :=
  ∃ reply w', w.systemStep call = some (reply, w') ∧ w'.view.system.Apart ∧
    (∀ a, w'.kernel.mem.linear a = bootMap a) ∧
    (∃ m, call.frames Machine.bus w.kernel = some (w'.kernel.pmm, m) ∧
      ∀ a ∈ w'.kernel.pmm.bitmapBytes,
        Machine.bus.load w'.kernel.mem a = Machine.bus.load m a) ∧
    ∀ a ∈ w'.kernel.procs.stackBytes,
      Machine.bus.load w'.kernel.mem a = Machine.bus.load w.kernel.mem a

/-- The workload behind the page tables is the one in flat memory. -/
structure Shows (st : StaticTables) (ram : Bytes) (w : PagedWorkload) (x : Workload) : Prop where
  /-- The kernel is the flat one behind the page tables. -/
  kernel : w.kernel = x.system.kernel.map (st.machineOf ram)
  /-- The clients hold the same. -/
  clients : w.clients = x.clients
  /-- The machine shows the flat memory. -/
  backs : st.Backs ram x.system.client.mem

variable {st : StaticTables} {ram : Bytes} {w : PagedWorkload} {x x' : Workload} {F : Frames}
  {bs : List Block} {call : WorkloadCall} {reply : WorkloadReply}

/-- The flat memory is seen, but for the list of writes. -/
theorem Shows.view (hw : Shows st ram w x) :
    w.view = ⟨⟨x.system.pmm, x.system.procs, ⟨x.system.client.heap,
      ⟨x.system.client.mem.bytes, []⟩, x.system.client.held, []⟩⟩, x.frames, x.created⟩ := by
  unfold PagedWorkload.view
  rw [hw.kernel, hw.clients, Kernel.map, System.kernel, hw.backs.view]
  rfl

/-- So is the flat kernel. -/
theorem Shows.kernel_view (hw : Shows st ram w x) :
    w.kernel.view = { x.system.kernel with mem := ⟨x.system.client.mem.bytes, []⟩ } := by
  rw [hw.kernel]
  exact hw.backs.kernel_view

/-- In flat memory the clients come to hold what is noted down. -/
theorem clients_of_step (hstep : x.step call = some (reply, x')) :
    x'.clients = x.clients.note x.system.kernel x'.system.kernel call reply := by
  cases call with
  | system call =>
    obtain ⟨⟨r, y⟩, hsystem, hresult⟩ := Option.bind_eq_some_iff.mp hstep
    obtain ⟨rfl, rfl⟩ := Prod.mk.inj (Option.some.inj hresult)
    cases call with
    | heap call =>
      obtain ⟨⟨r', client⟩, hclient, hresult'⟩ := Option.bind_eq_some_iff.mp hsystem
      obtain ⟨rfl, rfl⟩ := Prod.mk.inj (Option.some.inj hresult')
      cases call with
      | kmalloc n | kfree p =>
        obtain ⟨r, -, hresult''⟩ := Option.bind_eq_some_iff.mp hclient
        obtain ⟨rfl, rfl⟩ := Prod.mk.inj (Option.some.inj hresult'')
        rfl
      | write a byte =>
        obtain ⟨rfl, rfl⟩ := Prod.mk.inj (Option.some.inj hclient)
        rfl
    | create entryPoint priority =>
      obtain ⟨r, -, hresult'⟩ := Option.bind_eq_some_iff.mp hsystem
      obtain ⟨rfl, rfl⟩ := Prod.mk.inj (Option.some.inj hresult')
      rfl
  | alloc | free addr =>
    obtain ⟨r, -, hresult⟩ := Option.bind_eq_some_iff.mp hstep
    obtain ⟨rfl, rfl⟩ := Prod.mk.inj (Option.some.inj hresult)
    rfl
  | exit pid | block resource | unblock pid | tick context =>
    obtain ⟨rfl, rfl⟩ := Prod.mk.inj (Option.some.inj hstep)
    rfl

/-- An action whose stores spare the page tables returns behind them what it returns in flat
memory, leads to the same workload and keeps within these stores. -/
theorem Shows.step (hw : Shows st ram w x) (hx : x.system.Low F bs)
    (hk : x.system.kernel.SoundIn st.spared F bs)
    (hheld : ∀ c, call = .system c → x.system.HeldOnly c) (hstores : x.StoresIn st.spared call)
    (hstep : x.step call = some (reply, x')) :
    ∃ w', w.step call = some (reply, w') ∧ Shows st ram w' x' ∧
      x.system.kernel.KeepsIn st.spared x'.system.kernel := by
  have hhosts : Hosts Machine.bus (st.machineOf ram) (st.Backs ram) st.spared :=
    StaticTables.machineOf_hosts
  have hflat := Workload.kernelCall_eq hstep
  have hcall := Workload.call_embeds hx hk hhosts hw.backs hheld hstores
  rw [hflat, Option.map_some, ← hw.kernel] at hcall
  have hkeeps := Workload.call_keepsIn hx hk hheld hstores hflat
  have hbacks : st.Backs ram x'.system.client.mem := hhosts.kept hw.backs hkeeps.bytes
  have hview : (x'.system.kernel.map (st.machineOf ram)).view =
      { x'.system.kernel with mem := ⟨x'.system.client.mem.bytes, []⟩ } := hbacks.kernel_view
  refine ⟨_, Option.bind_eq_some_iff.mpr ⟨_, hcall, rfl⟩, ⟨rfl, ?_, hbacks⟩, hkeeps⟩
  simp only [hw.kernel_view, hview, hw.clients, clients_of_step hstep]
  -- what is noted down of the memory are its bytes
  rfl

/-- What is permitted is seen from the kernel half. -/
theorem Shows.heldOnly_iff (hw : Shows st ram w x) : w.view.HeldOnly call ↔ x.HeldOnly call := by
  rw [hw.view]
  exact Iff.rfl

/-- So is where blocks are served. -/
theorem Shows.servedBelow_iff (hw : Shows st ram w x) :
    w.view.ServedBelow call ↔ x.ServedBelow call := by
  rw [hw.view]
  exact Iff.rfl

/-- So is what is stored. -/
theorem Shows.storesIn_iff {S : Set Word} (hw : Shows st ram w x) :
    w.view.StoresIn S call ↔ x.StoresIn S call := by
  rw [hw.view]
  exact Iff.rfl

/-- So is whether the processes are separated. -/
theorem Shows.separated_iff (hw : Shows st ram w x) : w.view.Separated ↔ x.Separated := by
  have hequipped : ∀ c, w.view.Equipped c ↔ x.Equipped c := by
    intro c
    rw [hw.view]
    constructor <;> rintro ⟨h₁, h₂, h₃, h₄, h₅, h₆, h₇⟩ <;> exact ⟨h₁, h₂, h₃, h₄, h₅, h₆, h₇⟩
  have hcreated : w.view.created = x.created := congrArg Clients.created hw.clients
  simp only [Workload.Separated, hequipped, hcreated]

section System

variable {call : SystemCall} {r : SystemReply} {y : System}

/-- An action on the heap or a process creation whose stores spare the page tables. -/
theorem Shows.system_step (hw : Shows st ram w x) (hx : x.system.Low F bs)
    (hk : x.system.kernel.SoundIn st.spared F bs) (hheld : x.system.HeldOnly call)
    (hstores : x.StoresIn st.spared (.system call)) (hstep : x.system.step call = some (r, y)) :
    ∃ w', w.systemStep call = some (.system r, w') ∧
      Shows st ram w' ⟨y, x.frames, r.created y ++ x.created⟩ ∧
      x.system.kernel.KeepsIn st.spared y.kernel := by
  refine hw.step hx hk ?_ hstores (Workload.step_system hstep)
  rintro c ⟨⟩
  exact hheld

/-- An action that leaves the kernel's data alone in flat memory does so behind the page
tables. -/
theorem Shows.leavesKernelData (hw : Shows st ram w x) (hx : x.system.Low F bs)
    (hk : x.system.kernel.SoundIn st.spared F bs) (hheld : x.system.HeldOnly call)
    (hstores : x.StoresIn st.spared (.system call)) (hleaves : x.system.LeavesKernelData call)
    (hlow : ∀ r y, x.system.step call = some (r, y) → ∃ F bs, y.Low F bs) :
    w.LeavesKernelData call := by
  have hhosts : Hosts Machine.bus (st.machineOf ram) (st.Backs ram) st.spared :=
    StaticTables.machineOf_hosts
  obtain ⟨r, y, hstep, hapart, ⟨m, hframes, hbitmap⟩, hstacks⟩ := hleaves
  obtain ⟨F', bs', hy⟩ := hlow r y hstep
  obtain ⟨w', hpaged, hw', -⟩ := hw.system_step hx hk hheld hstores hstep
  have hm : st.Backs ram m := hhosts.kept hw.backs (hk.callFrames_kept hframes)
  have hkernel : w'.kernel = y.kernel.map (st.machineOf ram) := hw'.kernel
  have hpmm : w'.kernel.pmm = y.pmm := congrArg Kernel.pmm hkernel
  have hprocs : w'.kernel.procs = y.procs := congrArg Kernel.procs hkernel
  have hmem : w'.kernel.mem = st.machineOf ram y.client.mem := congrArg Kernel.mem hkernel
  have hmem₀ : w.kernel.mem = st.machineOf ram x.system.client.mem := congrArg Kernel.mem hw.kernel
  refine ⟨_, w', hpaged, ?_, ?_, ⟨st.machineOf ram m, ?_, ?_⟩, ?_⟩
  · rw [hw'.view]
    exact hapart
  · rw [hmem]
    exact StaticTables.machineOf_linear hw'.backs.filled
  · rw [hw.kernel, hpmm, hk.callFrames_embeds hhosts hw.backs, hframes]
    rfl
  · intro a ha
    rw [hpmm] at ha
    have hlo := (hy.sound.mem_bitmapBytes_iff.mp ha).1
    rw [hmem]
    exact hm.load_congr hw'.backs (by omega) (hbitmap a ha)
  · intro a ha
    rw [hprocs] at ha
    have hlo := hy.sound.idle.stackBytes_ge ha
    rw [hmem, hmem₀]
    exact hw.backs.load_congr hw'.backs (by omega) (hstacks a ha)

/-- An action whose stores spare the page tables leaves the kernel's data alone exactly when
the block it is served with ends before the bitmap. -/
theorem Shows.leaves_iff (hw : Shows st ram w x) (hx : x.system.Low F bs)
    (hk : x.system.kernel.SoundIn st.spared F bs) (hheld : x.system.HeldOnly call)
    (hstores : x.StoresIn st.spared (.system call)) :
    w.LeavesKernelData call ↔ x.system.ServedBelow call := by
  have hdecided := hx.step hheld
  constructor
  · rintro ⟨r, w', hpaged, hapart, -⟩
    rcases hdecided with ⟨hserved, -⟩ | ⟨-, r', y, hstep, hoverlap⟩
    · exact hserved
    · obtain ⟨w₁, hpaged', hw₁, -⟩ := hw.system_step hx hk hheld hstores hstep
      obtain ⟨-, rfl⟩ := Prod.mk.inj (Option.some.inj (hpaged.symm.trans hpaged'))
      rw [hw₁.view] at hapart
      exact absurd hapart hoverlap
  · intro hserved
    exact hw.leavesKernelData hx hk hheld hstores (hdecided.leaves_iff.mpr hserved)
      fun r y hstep => hdecided.low hserved hstep

end System

/-- A permitted action that is served before the bitmap, and whose stores spare the page tables,
returns and keeps the workload settled. -/
theorem Shows.settled_step (hw : Shows st ram w x) (hx : x.Settled F bs)
    (hk : x.system.kernel.SoundIn st.spared F bs) (hheld : w.view.HeldOnly call)
    (hserved : w.view.ServedBelow call) (hstores : w.view.StoresIn st.spared call) :
    ∃ reply w', w.step call = some (reply, w') ∧ ∃ x' F' bs', Shows st ram w' x' ∧
      x'.Settled F' bs' ∧ x'.system.kernel.SoundIn st.spared F' bs' := by
  have hflat := hw.heldOnly_iff.mp hheld
  have hsystem : ∀ c, call = .system c → x.system.HeldOnly c := by
    rintro c rfl
    exact hflat.1
  obtain ⟨reply, x', F', bs', hstep, hx'⟩ := hx.step hflat (hw.servedBelow_iff.mp hserved)
  obtain ⟨w', hpaged, hw', hkeeps⟩ := hw.step hx.low hk hsystem (hw.storesIn_iff.mp hstores) hstep
  exact ⟨reply, w', hpaged, x', F', bs', hw', hx', hkeeps.soundIn hx'.low.sound⟩

end PagedWorkload

/-- No client holds anything yet when `kmain` has set up the kernel. -/
theorem kmainWorkload_clients {m : Mem} {x : Workload} (hinit : kmainWorkload m = some x) :
    x.clients = ⟨[], ∅, []⟩ := by
  unfold kmainWorkload kmainSystem at hinit
  simp only [Option.bind_eq_bind, Option.bind_assoc, Option.bind_eq_some_iff, Option.pure_def,
    Option.some.injEq] at hinit
  obtain ⟨_, -, _, rfl, rfl⟩ := hinit
  rfl

/-- `kmain` sets up behind the page tables the workload that it sets up in flat memory. -/
theorem kmainPagedWorkload_shows (st : StaticTables) (ram : Bytes) (cr3 : Word)
    (hclear : st.BitmapClear ram) :
    ∃ w₀ ram' x₀, kmainPagedWorkload st ⟨ram, cr3, false⟩ = some w₀ ∧
      PagedWorkload.Shows st ram' w₀ x₀ ∧ x₀.Settled (Frames.empty 32768) [] ∧
      x₀.system.kernel.SoundIn st.spared (Frames.empty 32768) [] ∧
      x₀.system.procs = procInit Procs.static ∧ x₀.created = [] := by
  obtain ⟨k₀, x₀, hboot, hinit, hsettled, hbacks, hk₀⟩ := kmainPaged_shown st ram cr3 hclear
  obtain ⟨hprocs, hcreated⟩ := kmainWorkload_procs hinit
  refine ⟨⟨k₀, ⟨[], ∅, []⟩⟩, k₀.mem.ram, x₀, ?_, ⟨hk₀, (kmainWorkload_clients hinit).symm, hbacks⟩,
    hsettled, hsettled.low.sound.soundIn_empty hclear, hprocs, hcreated⟩
  simp only [kmainPagedWorkload, hboot, Option.bind_eq_bind, Option.bind_some, Option.pure_def]

/-- **The heap and the kernel's other data.** With the physical page of the bitmap zero at boot
and outside of the page tables: in every run of `kmalloc`, `kfree` of held pointers, writes
into held blocks and `proc_create` on the kernel that `kmain` sets up behind its page tables,
if no header, context or written byte is stored into these: no byte of a header or of a held
block is ever a byte of the bitmap or of a created process's kernel stack, the frame allocator
changes only by the frame allocations of `proc_create`, no kernel stack changes and addresses
translate as they did, exactly when every block the heap serves ends before the bitmap. -/
theorem heap_leaves_kernel_data_iff (st : StaticTables) (ram : Bytes) (cr3 : Word)
    (hclear : st.BitmapClear ram) :
    ∃ w₀, kmainPagedWorkload st ⟨ram, cr3, false⟩ = some w₀ ∧ ∀ calls,
      Along PagedWorkload.systemStep (fun w call =>
          w.view.system.HeldOnly call ∧ w.view.StoresIn st.spared (.system call)) w₀ calls →
        (Along PagedWorkload.systemStep PagedWorkload.LeavesKernelData w₀ calls ↔
          Along PagedWorkload.systemStep (fun w call => w.view.system.ServedBelow call)
            w₀ calls) := by
  obtain ⟨w₀, ram', x₀, hboot, hshows, hsettled, hsound, -⟩ :=
    kmainPagedWorkload_shows st ram cr3 hclear
  refine ⟨w₀, hboot, fun calls hcalls => ?_⟩
  refine along_iff_of_invariant (fun w => ∃ x F bs, PagedWorkload.Shows st ram' w x ∧
    x.system.Low F bs ∧ x.system.kernel.SoundIn st.spared F bs) ?_ ?_
    ⟨x₀, _, _, hshows, hsettled.low, hsound⟩ hcalls
  · rintro w call ⟨x, F, bs, hw, hx, hk⟩ ⟨hheld, hstores⟩
    have hserved : w.view.ServedBelow (.system call) ↔ x.ServedBelow (.system call) :=
      hw.servedBelow_iff
    rw [hw.view] at hheld
    exact (hw.leaves_iff hx hk hheld (hw.storesIn_iff.mp hstores)).trans hserved.symm
  · rintro w call reply w' ⟨x, F, bs, hw, hx, hk⟩ ⟨hheld, hstores⟩ hserved hpaged
    rw [hw.view] at hheld hserved
    have hdecided := hx.step hheld
    obtain ⟨r, y, hstep, -⟩ := hdecided.leaves_iff.mpr hserved
    obtain ⟨F', bs', hy⟩ := hdecided.low hserved hstep
    obtain ⟨w₁, hpaged', hw₁, hkeeps⟩ :=
      hw.system_step hx hk hheld (hw.storesIn_iff.mp hstores) hstep
    obtain ⟨-, rfl⟩ := Prod.mk.inj (Option.some.inj (hpaged'.symm.trans hpaged))
    exact ⟨_, F', bs', hw₁, hy, hkeeps.soundIn hy.sound⟩

/-- A request of 20 bytes leaves the bitmap and the stacks alone. -/
theorem heap_leaves_kernel_data_one_block :
    ∃ w₀, kmainPagedWorkload layoutAt64K ⟨fun _ => 0, 0, false⟩ = some w₀ ∧
      Along PagedWorkload.systemStep (fun w call => w.view.system.HeldOnly call ∧
        w.view.StoresIn layoutAt64K.spared (.system call)) w₀ [.heap (.kmalloc 20)] ∧
      Along PagedWorkload.systemStep PagedWorkload.LeavesKernelData w₀ [.heap (.kmalloc 20)] := by
  obtain ⟨w₀, hboot, hiff⟩ := heap_leaves_kernel_data_iff layoutAt64K (fun _ => 0) 0
    layoutAt64K_bitmapClear
  obtain ⟨w, ram', x₀, hboot', hw, hx, -⟩ := kmainPagedWorkload_shows layoutAt64K (fun _ => 0) 0
    layoutAt64K_bitmapClear
  obtain rfl : w₀ = w := Option.some.inj (hboot.symm.trans hboot')
  have hstores : x₀.StoresIn layoutAt64K.spared (.system (.heap (.kmalloc 20))) :=
    hx.low.sound.placesIn_empty (by decide) (by decide) (by decide)
  have hroom : x₀.ServedBelow (.system (.heap (.kmalloc 20))) :=
    (hx.low.roomBelow_empty_iff (by decide) (by decide)).mpr (by decide)
  have hcalls : Along PagedWorkload.systemStep (fun w call => w.view.system.HeldOnly call ∧
      w.view.StoresIn layoutAt64K.spared (.system call)) w₀ [.heap (.kmalloc 20)] :=
    ⟨⟨trivial, hw.storesIn_iff.mpr hstores⟩, fun _ _ _ => trivial⟩
  exact ⟨w₀, hboot, hcalls,
    (hiff _ hcalls).mpr ⟨hw.servedBelow_iff.mpr hroom, fun _ _ _ => trivial⟩⟩

/-- A request of 1 MB on the empty heap reaches into the bitmap. -/
theorem heap_reaches_bitmap :
    ∃ w₀, kmainPagedWorkload layoutAt64K ⟨fun _ => 0, 0, false⟩ = some w₀ ∧
      Along PagedWorkload.systemStep (fun w call => w.view.system.HeldOnly call) w₀
        [.heap (.kmalloc 0x100000)] ∧
      ¬ Along PagedWorkload.systemStep PagedWorkload.LeavesKernelData w₀
        [.heap (.kmalloc 0x100000)] := by
  obtain ⟨w₀, ram', x₀, hboot, hw, hx, hk, -⟩ := kmainPagedWorkload_shows layoutAt64K
    (fun _ => 0) 0 layoutAt64K_bitmapClear
  refine ⟨w₀, hboot, ⟨trivial, fun _ _ _ => trivial⟩, ?_⟩
  rintro ⟨hleaves, -⟩
  have hstores : x₀.StoresIn layoutAt64K.spared (.system (.heap (.kmalloc 0x100000))) :=
    hx.low.sound.placesIn_empty (by decide) (by decide) (by decide)
  have hheld : x₀.system.HeldOnly (.heap (.kmalloc 0x100000)) := trivial
  have hroom := (hw.leaves_iff hx.low hk hheld hstores).mp hleaves
  have hle := (hx.low.roomBelow_empty_iff (by decide) (by decide)).mp hroom
  exact absurd hle (by decide)

/-- **Processes do not share resources** as long as the heap serves before the bitmap and the
page tables are spared. With the physical page of the bitmap zero at boot and outside of the
page tables: in every run of `proc_create`, `proc_exit`, `proc_block`, `proc_unblock` and
`scheduler_tick` between `pmm_alloc`, `pmm_free`, `kmalloc`, `kfree` and writes of clients that
free only what they hold, on the kernel that `kmain` sets up behind its page tables, if every
block that the heap serves ends before the bitmap and no header, context or written byte is
stored into the page tables: every call returns, and the processes created have different
process IDs that their control blocks carry, different page directories in frames that are
still marked allocated, separate kernel stacks with the initial stack pointers in them, and
separate contexts. -/
theorem processes_separated (st : StaticTables) (ram : Bytes) (cr3 : Word)
    (hclear : st.BitmapClear ram) :
    ∃ w₀, kmainPagedWorkload st ⟨ram, cr3, false⟩ = some w₀ ∧ ∀ calls,
      Along PagedWorkload.step (fun w call => w.view.HeldOnly call) w₀ calls →
      Along PagedWorkload.step (fun w call =>
        w.view.ServedBelow call ∧ w.view.StoresIn st.spared call) w₀ calls →
      ∃ replies w, exec PagedWorkload.step w₀ calls = some (replies, w) ∧ w.view.Separated ∧
        ∀ a, w.kernel.mem.linear a = bootMap a := by
  obtain ⟨w₀, ram', x₀, hboot, hshows, hsettled, hsound, -⟩ :=
    kmainPagedWorkload_shows st ram cr3 hclear
  refine ⟨w₀, hboot, fun calls hheld hserved => ?_⟩
  obtain ⟨replies, w, hrun, x, F, bs, hw, hx, -⟩ := exec_returns
    (fun w => ∃ x F bs, PagedWorkload.Shows st ram' w x ∧ x.Settled F bs ∧
      x.system.kernel.SoundIn st.spared F bs)
    (fun hinv hcall => by
      obtain ⟨x, F, bs, hw, hx, hk⟩ := hinv
      exact hw.settled_step hx hk hcall.1 hcall.2.1 hcall.2.2)
    ⟨x₀, _, _, hshows, hsettled, hsound⟩ (along_and_iff.mpr ⟨hheld, hserved⟩)
  refine ⟨replies, w, hrun, ?_, ?_⟩
  · exact hw.separated_iff.mpr hx.separated
  · rw [hw.kernel]
    exact StaticTables.machineOf_linear hw.backs.filled

/-- After boot a client has taken the first frame, behind the page tables of that layout. -/
theorem kmainPagedWorkload_alloc :
    ∃ w₀ reply w₁ ram' x₁, kmainPagedWorkload layoutAt64K ⟨fun _ => 0, 0, false⟩ = some w₀ ∧
      w₀.step .alloc = some (reply, w₁) ∧ PagedWorkload.Shows layoutAt64K ram' w₁ x₁ ∧
      x₁.Settled (Frames.empty 32768).alloc.2 [] ∧
      x₁.system.kernel.SoundIn layoutAt64K.spared (Frames.empty 32768).alloc.2 [] ∧
      x₁.system.procs.nextPid.toNat < 256 ∧ x₁.created = [] := by
  obtain ⟨w₀, ram', x₀, hboot, hw₀, hx₀, hk₀, hprocs, hcreated⟩ :=
    kmainPagedWorkload_shows layoutAt64K (fun _ => 0) 0 layoutAt64K_bitmapClear
  obtain ⟨reply, pmm, m, x₁, hstep, hx₁, hsystem, hsame⟩ := hx₀.alloc
  have hstores : x₀.StoresIn layoutAt64K.spared .alloc := trivial
  obtain ⟨w₁, hpaged, hw₁, hkeeps⟩ := hw₀.step hx₀.low hk₀ (by simp) hstores hstep
  refine ⟨w₀, reply, w₁, ram', x₁, hboot, hpaged, hw₁, hx₁, hkeeps.soundIn hx₁.low.sound, ?_,
    hsame.trans hcreated⟩
  rw [hsystem, hprocs]
  decide

/-- Behind a block that ends 4 bytes before the bitmap, a context spares the page tables of that
layout. -/
theorem System.Low.placesIn_across {x : System} {F : Frames} (hx : x.Low F [⟨0xFFFFC, true⟩]) :
    x.kernel.PlacesIn layoutAt64K.spared contextSize 88 := by
  intro bs o ht ho j hj
  obtain rfl := hx.tiled.unique ht
  obtain rfl : 0xFFFFC = o := Option.some.inj (hx.placeFor_across.symm.trans ho)
  have haddr : (x.kernel.heap.addr (0xFFFFC + j)).toNat = 0xC0100000 + (0xFFFFC + j) :=
    hx.toNat_addr (by omega)
  refine ⟨by omega, by omega, ?_⟩
  unfold StaticTables.bytes layoutAt64K kernelVirtBase
  simp only [Set.mem_ofPred_eq]
  bv_omega

/-- A process created after one frame was allocated has resources of its own. -/
theorem processes_separated_one_process :
    ∃ w₀ replies w c, kmainPagedWorkload layoutAt64K ⟨fun _ => 0, 0, false⟩ = some w₀ ∧
      exec PagedWorkload.step w₀ [.alloc, .system (.create 0x1000 1)] = some (replies, w) ∧
      w.view.created = [c] ∧ w.view.Separated := by
  obtain ⟨w₀, hboot, hrun⟩ := processes_separated layoutAt64K (fun _ => 0) 0
    layoutAt64K_bitmapClear
  obtain ⟨w, reply₁, w₁, ram', x₁, hboot', hpaged₁, hw₁, hx₁, hk₁, hnext, hcreated⟩ :=
    kmainPagedWorkload_alloc
  obtain rfl : w₀ = w := Option.some.inj (hboot.symm.trans hboot')
  have hlen : contextSize.toNat = 76 := rfl
  have hpos : contextSize ≠ 0 := by decide
  obtain ⟨hstack, hdir⟩ := Frames.alloc_of_first
  obtain ⟨reply₂, y, c, -, -, -, hstep₂, -⟩ := hx₁.create_served hnext (by omega) (by omega)
    (hx₁.low.placeFor_empty hpos (by omega)) 0x1000 1
  have hstores : x₁.StoresIn layoutAt64K.spared (.system (.create 0x1000 1)) :=
    fun _ _ => hx₁.low.sound.placesIn_empty hpos (by omega) (by decide)
  have hserved : x₁.ServedBelow (.system (.create 0x1000 1)) := by
    intro _ _
    apply (hx₁.low.roomBelow_empty_iff hpos (by omega)).mpr
    unfold bitmapOffset
    omega
  obtain ⟨w₂, hpaged₂, hw₂, -⟩ := hw₁.step hx₁.low hk₁ (by rintro c ⟨⟩; trivial) hstores hstep₂
  have hexec : exec PagedWorkload.step w₀ [.alloc, .system (.create 0x1000 1)] =
      some ([reply₁, reply₂], w₂) := by
    simp only [exec, hpaged₁, hpaged₂, Option.bind_eq_bind, Option.bind_some, Option.pure_def]
  obtain ⟨replies, w, hexec', hsep, -⟩ := hrun [.alloc, .system (.create 0x1000 1)]
    (Along.cons trivial hpaged₁ ⟨⟨trivial, fun _ h => by cases h⟩, fun _ _ _ => trivial⟩)
    (Along.cons ⟨trivial, trivial⟩ hpaged₁
      ⟨⟨hw₁.servedBelow_iff.mpr hserved, hw₁.storesIn_iff.mpr hstores⟩, fun _ _ _ => trivial⟩)
  obtain ⟨rfl, rfl⟩ := Prod.mk.inj (Option.some.inj (hexec.symm.trans hexec'))
  refine ⟨w₀, _, w₂, c, hboot, hexec, ?_, hsep⟩
  rw [hw₂.view]
  exact congrArg (c :: ·) hcreated

/-- A client that takes a frame and a large block has `proc_create` put the header of a context
across the start of the bitmap, and the frame of the page directory is free again. -/
theorem context_header_unmarks_page_dir :
    ∃ w₀ replies w, kmainPagedWorkload layoutAt64K ⟨fun _ => 0, 0, false⟩ = some w₀ ∧
      Along PagedWorkload.step (fun w call => w.view.HeldOnly call) w₀
        [.alloc, .system (.heap (.kmalloc 0xFFFF0)), .system (.create 0x1000 1)] ∧
      exec PagedWorkload.step w₀
        [.alloc, .system (.heap (.kmalloc 0xFFFF0)), .system (.create 0x1000 1)] =
          some (replies, w) ∧
      ¬ w.view.Separated := by
  obtain ⟨w₀, reply₁, w₁, ram', x₁, hboot, hpaged₁, hw₁, hx₁, hk₁, hnext, -⟩ :=
    kmainPagedWorkload_alloc
  -- the client's block ends 4 bytes before the bitmap
  have hlen : (0xFFFF0 : Word).toNat = 0xFFFF0 := rfl
  have hroom : x₁.system.RoomBelow 0xFFFF0 := by
    apply (hx₁.low.roomBelow_empty_iff (by decide) (by omega)).mpr
    unfold bitmapOffset
    omega
  have hheld : x₁.HeldOnly (.system (.heap (.kmalloc 0xFFFF0))) :=
    ⟨trivial, fun _ h => by cases h⟩
  obtain ⟨reply₂, client, bs, hclient, hstep₂, hx₂⟩ := hx₁.heap hheld hroom
  have hstores₂ : x₁.StoresIn layoutAt64K.spared (.system (.heap (.kmalloc 0xFFFF0))) :=
    hx₁.low.sound.placesIn_empty (by decide) (by omega) (by decide)
  obtain ⟨w₂, hpaged₂, hw₂, hkeeps₂⟩ := hw₁.step hx₁.low hk₁ (by rintro c ⟨⟩; trivial) hstores₂
    hstep₂
  have hk₂ := hkeeps₂.soundIn hx₂.low.sound
  obtain rfl := hx₁.low.first_block (by omega) (by omega) hclient hx₂.low.tiled
  -- and the next context starts there
  obtain ⟨hstack, hdir⟩ := Frames.alloc_of_first
  obtain ⟨reply₃, x₃, hstep₃, hnot⟩ := hx₂.create_across hnext (by omega) hdir 0x1000 1
  obtain ⟨w₃, hpaged₃, hw₃, -⟩ := hw₂.step hx₂.low hk₂ (by rintro c ⟨⟩; trivial)
    (by exact fun _ _ => hx₂.low.placesIn_across) hstep₃
  refine ⟨w₀, [reply₁, .system (.heap reply₂), reply₃], w₃, hboot, ?_, ?_, ?_⟩
  · exact ⟨trivial, fun _ _ _ => ⟨⟨trivial, fun _ h => by cases h⟩, fun _ _ _ =>
      ⟨⟨trivial, fun _ h => by cases h⟩, fun _ _ _ => trivial⟩⟩⟩
  · simp only [exec, hpaged₁, hpaged₂, hpaged₃, Option.bind_eq_bind, Option.bind_some,
      Option.pure_def]
  · exact fun hsep => hnot (hw₃.separated_iff.mp hsep)

end Nimbu
