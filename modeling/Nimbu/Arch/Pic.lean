import Mathlib.Data.List.Induction
import Nimbu.Machine.Memory
import Nimbu.Machine.Since

/-!
# Interrupt masks

`idt.c` programs the two 8259 interrupt controllers. The slave hangs on line 2 of
the master, so its eight lines reach the processor only while that line is not
masked. `pic_init` masks all lines, and `irq_enable` clears the mask bit of the line
that it is called for and no other.
-/

namespace Nimbu

/-- What the data port of an 8259 expects. -/
inductive PicPhase where
  /-- The interrupt mask. -/
  | ready
  /-- ICW2, and behind it ICW3 and ICW4, if the first word announced them. -/
  | icw2 (cascade last : Bool)
  /-- ICW3, and behind it ICW4. -/
  | icw3 (last : Bool)
  /-- ICW4. -/
  | icw4
  deriving DecidableEq

/-- An 8259 interrupt controller. -/
structure Pic where
  /-- The interrupt mask register. -/
  mask : Byte
  /-- What is expected at the data port. -/
  phase : PicPhase
  deriving DecidableEq

/-- The phase behind a word of the initialisation. -/
def PicPhase.next : PicPhase → PicPhase
  | .ready => .ready
  | .icw2 true last => .icw3 last
  | .icw2 false true => .icw4
  | .icw2 false false => .ready
  | .icw3 true => .icw4
  | .icw3 false => .ready
  | .icw4 => .ready

/-- A write to the command port. Bit 4 makes the word an ICW1, which clears the mask and starts
the initialisation; the other commands leave the mask alone. -/
def Pic.outCommand (p : Pic) (word : Byte) : Pic :=
  if word &&& 0x10 ≠ 0 then ⟨0, .icw2 (word &&& 0x02 = 0) (word &&& 0x01 ≠ 0)⟩ else p

/-- A write to the data port. -/
def Pic.outData (p : Pic) (word : Byte) : Pic :=
  if p.phase = .ready then { p with mask := word } else { p with phase := p.phase.next }

/-- The two controllers. -/
structure Pics where
  /-- The controller at ports 0x20 and 0x21. -/
  master : Pic
  /-- The controller at ports 0xA0 and 0xA1, on line 2 of the master. -/
  slave : Pic
  deriving DecidableEq

/-- `out` to one of the ports. -/
def Pics.outb (pics : Pics) (port : BitVec 16) (word : Byte) : Pics :=
  if port = 0x20 then { pics with master := pics.master.outCommand word }
  else if port = 0x21 then { pics with master := pics.master.outData word }
  else if port = 0xA0 then { pics with slave := pics.slave.outCommand word }
  else if port = 0xA1 then { pics with slave := pics.slave.outData word }
  else pics

/-- `in` from one of the data ports. -/
def Pics.inb (pics : Pics) (port : BitVec 16) : Byte :=
  if port = 0x21 then pics.master.mask else if port = 0xA1 then pics.slave.mask else 0xFF

/-- `pic_init`. Its first word has no bit 4. -/
def picInit (pics : Pics) : Pics :=
  let pics := pics.outb 0x20 0x20
  let pics := pics.outb 0xA0 0x20
  let pics := pics.outb 0x21 0x08
  let pics := pics.outb 0xA1 0x70
  let pics := pics.outb 0x21 0x04
  let pics := pics.outb 0xA1 0x02
  let pics := pics.outb 0x21 0x01
  let pics := pics.outb 0xA1 0x01
  let pics := pics.outb 0x21 0xFF
  pics.outb 0xA1 0xFF

/-- The data port of a line and its number there. -/
def irqPort (irq : Byte) : BitVec 16 × Byte := if irq ≥ 8 then (0xA1, irq - 8) else (0x21, irq)

/-- `1 << irq`, as a byte. -/
def irqBit (irq : Byte) : Byte := ((1 : Word) <<< irq.toNat).setWidth 8

/-- A change of the mask bit of a line, read from its data port and written back. -/
def irqWrite (pics : Pics) (irq : Byte) (update : Byte → Byte → Byte) : Pics :=
  let (port, irq) := irqPort irq
  let mask := pics.inb port
  pics.outb port (update mask (irqBit irq))

/-- `irq_enable`. -/
def irqEnable (pics : Pics) (irq : Byte) : Pics :=
  irqWrite pics irq fun mask bit => mask &&& ~~~bit

/-- `irq_disable`. -/
def irqDisable (pics : Pics) (irq : Byte) : Pics :=
  irqWrite pics irq fun mask bit => mask ||| bit

/-- A call that names a line. -/
inductive IrqCall where
  /-- `irq_enable`. -/
  | enable (irq : Byte)
  /-- `irq_disable`. -/
  | disable (irq : Byte)
  deriving DecidableEq

/-- The line that a call names. -/
def IrqCall.irq : IrqCall → Byte
  | .enable irq => irq
  | .disable irq => irq

/-- One call. -/
def irqStep (pics : Pics) : IrqCall → Pics
  | .enable irq => irqEnable pics irq
  | .disable irq => irqDisable pics irq

/-- The mask bit of a line. -/
def Pics.masked (pics : Pics) (irq : Byte) : Bool :=
  if irq.toNat < 8 then pics.master.mask.getLsbD irq.toNat
  else pics.slave.mask.getLsbD (irq.toNat - 8)

/-- A line reaches the processor: it is not masked, and neither is the line of the slave if it
is one of the slave's. -/
def Pics.Reaches (pics : Pics) (irq : Byte) : Prop :=
  pics.masked irq = false ∧ (8 ≤ irq.toNat → pics.masked 2 = false)

/-- The last call that names a line enables it. -/
def Requested (irq : Byte) (calls : List IrqCall) : Prop :=
  Since (fun call => call = .enable irq) (fun call => call.irq = irq) calls

/-- Whether a line reaches the processor follows the last request for it, at every moment of a
sequence of calls behind `pic_init`. -/
def FollowsRequests (pics : Pics) (irq : Byte) (calls : List IrqCall) : Prop :=
  ∀ pre, pre <+: calls → ((pre.foldl irqStep (picInit pics)).Reaches irq ↔ Requested irq pre)

section Ports

variable {pics : Pics} {irq n : Byte} {update : Byte → Byte → Byte}

/-- Both controllers take masks at their data ports. -/
structure Pics.Ready (pics : Pics) : Prop where
  /-- The master. -/
  master : pics.master.phase = .ready
  /-- The slave. -/
  slave : pics.slave.phase = .ready

/-- Whatever is expected at a data port, the fourth word is a mask. -/
theorem Pic.outData_four (p : Pic) (a b c d : Byte) :
    (((p.outData a).outData b).outData c).outData d = ⟨d, .ready⟩ := by
  obtain ⟨mask, phase⟩ := p
  cases phase with
  | ready => rfl
  | icw2 cascade last => cases cascade <;> cases last <;> rfl
  | icw3 last => cases last <;> rfl
  | icw4 => rfl

/-- After `pic_init` all lines are masked. -/
theorem picInit_eq (pics : Pics) : picInit pics = ⟨⟨0xFF, .ready⟩, ⟨0xFF, .ready⟩⟩ := by
  have hmaster := pics.master.outData_four 0x08 0x04 0x01 0xFF
  have hslave := pics.slave.outData_four 0x70 0x02 0x01 0xFF
  calc picInit pics
      = ⟨(((pics.master.outData 0x08).outData 0x04).outData 0x01).outData 0xFF,
          (((pics.slave.outData 0x70).outData 0x02).outData 0x01).outData 0xFF⟩ := rfl
    _ = ⟨⟨0xFF, .ready⟩, ⟨0xFF, .ready⟩⟩ := by rw [hmaster, hslave]

/-- A line of the master. -/
theorem irqWrite_of_lt (hready : pics.Ready) (hirq : irq.toNat < 8) :
    irqWrite pics irq update =
      { pics with master := { pics.master with
          mask := update pics.master.mask (irqBit irq) } } := by
  have hbelow : ¬ irq ≥ 8 := fun h => absurd hirq (not_lt.mpr h)
  simp only [irqWrite, irqPort, if_neg hbelow]
  change { pics with master := pics.master.outData (update pics.master.mask (irqBit irq)) } = _
  rw [Pic.outData, if_pos hready.master]

/-- A line of the slave. -/
theorem irqWrite_of_ge (hready : pics.Ready) (hirq : 8 ≤ irq.toNat) :
    irqWrite pics irq update =
      { pics with slave := { pics.slave with
          mask := update pics.slave.mask (irqBit (irq - 8)) } } := by
  have habove : irq ≥ 8 := hirq
  simp only [irqWrite, irqPort, if_pos habove]
  change { pics with slave := pics.slave.outData (update pics.slave.mask (irqBit (irq - 8))) } = _
  rw [Pic.outData, if_pos hready.slave]

/-- The bit of a line. -/
theorem getLsbD_irqBit {i : ℕ} (hi : i < 8) : (irqBit irq).getLsbD i = decide (i = irq.toNat) := by
  rw [irqBit, show (1 : Word) = 1#32 from rfl, ← BitVec.twoPow_eq, BitVec.getLsbD_setWidth,
    BitVec.getLsbD_twoPow, Bool.eq_iff_iff]
  simp only [Bool.and_eq_true, decide_eq_true_eq]
  omega

/-- The mask bit of one line is changed and all others are kept. -/
theorem masked_irqWrite (change : Bool → Bool → Bool)
    (hupdate : ∀ (mask bit : Byte) (i : ℕ), i < 8 →
      (update mask bit).getLsbD i = change (mask.getLsbD i) (bit.getLsbD i))
    (hkeep : ∀ b, change b false = b) (hready : pics.Ready) (hirq : irq.toNat < 16)
    (hn : n.toNat < 16) :
    (irqWrite pics irq update).masked n = change (pics.masked n) (decide (n = irq)) := by
  by_cases hlow : irq.toNat < 8
  · rw [irqWrite_of_lt hready hlow]
    unfold Pics.masked
    by_cases hmaster : n.toNat < 8
    · rw [if_pos hmaster, if_pos hmaster, hupdate _ _ _ hmaster, getLsbD_irqBit hmaster]
      simp only [BitVec.toNat_inj]
    · have hne : n ≠ irq := by
        rintro rfl
        exact hmaster hlow
      rw [if_neg hmaster, if_neg hmaster, decide_eq_false hne, hkeep]
  · rw [irqWrite_of_ge hready (not_lt.mp hlow)]
    unfold Pics.masked
    by_cases hmaster : n.toNat < 8
    · have hne : n ≠ irq := by
        rintro rfl
        exact hlow hmaster
      rw [if_pos hmaster, if_pos hmaster, decide_eq_false hne, hkeep]
    · have hsame : n.toNat - 8 = (irq - 8).toNat ↔ n = irq := by
        rw [← BitVec.toNat_inj]
        bv_omega
      have hbit : n.toNat - 8 < 8 := by omega
      rw [if_neg hmaster, if_neg hmaster, hupdate _ _ _ hbit, getLsbD_irqBit hbit]
      simp only [hsame]

/-- The data ports go on taking masks. -/
theorem ready_irqWrite (hready : pics.Ready) (irq : Byte) (update : Byte → Byte → Byte) :
    (irqWrite pics irq update).Ready := by
  by_cases hlow : irq.toNat < 8
  · rw [irqWrite_of_lt hready hlow]
    exact ⟨hready.master, hready.slave⟩
  · rw [irqWrite_of_ge hready (not_lt.mp hlow)]
    exact ⟨hready.master, hready.slave⟩

/-- So they do after every call. -/
theorem ready_irqStep (hready : pics.Ready) (call : IrqCall) : (irqStep pics call).Ready := by
  cases call with
  | enable irq =>
    rw [irqStep, irqEnable]
    exact ready_irqWrite hready irq _
  | disable irq =>
    rw [irqStep, irqDisable]
    exact ready_irqWrite hready irq _

/-- A line is free after a call that enables it, and after any call that does not name it if it
was free before. -/
theorem masked_irqStep (hready : pics.Ready) {call : IrqCall} (hcall : call.irq.toNat < 16)
    (hn : n.toNat < 16) :
    (irqStep pics call).masked n = false ↔
      call = .enable n ∨ ¬ call.irq = n ∧ pics.masked n = false := by
  cases call with
  | enable irq =>
    have hirq : irq.toNat < 16 := hcall
    have hupdate : ∀ (mask bit : Byte) (i : ℕ), i < 8 →
        (mask &&& ~~~bit).getLsbD i = (mask.getLsbD i && !bit.getLsbD i) := by
      intro mask bit i hi
      rw [BitVec.getLsbD_and, BitVec.getLsbD_not, decide_eq_true hi, Bool.true_and]
    rw [irqStep, irqEnable, masked_irqWrite (fun m b => m && !b) hupdate
      (fun b => Bool.and_true b) hready hirq hn]
    by_cases hsame : n = irq
    · simp [hsame]
    · simp [hsame, Ne.symm hsame, IrqCall.irq]
  | disable irq =>
    have hirq : irq.toNat < 16 := hcall
    rw [irqStep, irqDisable, masked_irqWrite (fun m b => m || b)
      (fun mask bit i _ => BitVec.getLsbD_or) (fun b => Bool.or_false b) hready hirq hn]
    by_cases hsame : n = irq
    · simp [hsame, IrqCall.irq]
    · simp [hsame, Ne.symm hsame, IrqCall.irq]

end Ports

section Run

variable {irq n : Byte} {calls : List IrqCall}

/-- One more call. -/
theorem requested_append_iff {call : IrqCall} :
    Requested n (calls ++ [call]) ↔ call = .enable n ∨ ¬ call.irq = n ∧ Requested n calls :=
  since_append_iff

/-- At every moment a line is free exactly when the last call that names it enables it. -/
theorem masked_foldl (pics : Pics) (hcalls : ∀ call ∈ calls, call.irq.toNat < 16) :
    (calls.foldl irqStep (picInit pics)).Ready ∧ ∀ n : Byte, n.toNat < 16 →
      ((calls.foldl irqStep (picInit pics)).masked n = false ↔ Requested n calls) := by
  induction calls using List.reverseRecOn with
  | nil =>
    rw [List.foldl_nil, picInit_eq]
    refine ⟨⟨rfl, rfl⟩, fun n hn => iff_of_false ?_ not_since_nil⟩
    have hall : ∀ i : ℕ, i < 8 → (0xFF : Byte).getLsbD i = true := by decide
    rw [Bool.not_eq_false, Pics.masked]
    split
    · rename_i hmaster
      exact hall _ hmaster
    · exact hall _ (by omega)
  | append_singleton calls call ih =>
    obtain ⟨hready, hmasked⟩ := ih fun c hc => hcalls c (List.mem_append_left _ hc)
    have hcall := hcalls call (List.mem_append_right _ List.mem_cons_self)
    rw [List.foldl_append, List.foldl_cons, List.foldl_nil]
    refine ⟨ready_irqStep hready call, fun n hn => ?_⟩
    rw [masked_irqStep hready hcall hn, hmasked n hn, requested_append_iff]

/-- **Only the lines of the master follow the last request.** For all states of the controllers
before `pic_init` and every sequence of calls for lines other than the cascade line, a line
follows the requests at every moment exactly when it is one of the master's or is never
enabled. -/
theorem followsRequests_iff (pics : Pics) (irq : Byte) (hirq : irq.toNat < 16)
    (calls : List IrqCall) (hcalls : ∀ call ∈ calls, call.irq.toNat < 16 ∧ call.irq ≠ 2) :
    FollowsRequests pics irq calls ↔ irq.toNat < 8 ∨ .enable irq ∉ calls := by
  have hmasked : ∀ pre, pre <+: calls → ∀ n : Byte, n.toNat < 16 →
      ((pre.foldl irqStep (picInit pics)).masked n = false ↔ Requested n pre) := fun pre hpre =>
    (masked_foldl pics fun call hcall => (hcalls call (hpre.subset hcall)).1).2
  -- No call names line 2 of the master, so it stays masked.
  have hcascade : ∀ pre, pre <+: calls → ¬ (pre.foldl irqStep (picInit pics)).masked 2 = false := by
    intro pre hpre hfree
    have hrequested := (hmasked pre hpre 2 (by decide)).mp hfree
    obtain ⟨call, hmem, rfl⟩ := exists_prefix_since_iff.mp ⟨pre, List.prefix_refl _, hrequested⟩
    exact (hcalls _ (hpre.subset hmem)).2 rfl
  constructor
  · intro hfollows
    by_contra hslave
    obtain ⟨hge, henabled⟩ := not_or.mp hslave
    rw [not_not] at henabled
    obtain ⟨pre, hpre, hrequested⟩ : ∃ pre, pre <+: calls ∧ Requested irq pre :=
      exists_prefix_since_iff.mpr ⟨_, henabled, rfl⟩
    have hreaches := (hfollows pre hpre).mpr hrequested
    exact hcascade pre hpre (hreaches.2 (not_lt.mp hge))
  · intro hcondition pre hpre
    have hline := hmasked pre hpre irq hirq
    constructor
    · intro hreaches
      exact hline.mp hreaches.1
    · intro hrequested
      refine ⟨hline.mpr hrequested, fun hge => ?_⟩
      obtain ⟨call, hmem, rfl⟩ :=
        exists_prefix_since_iff.mp ⟨pre, List.prefix_refl _, hrequested⟩
      exact absurd (hpre.subset hmem) (hcondition.resolve_left (not_lt.mpr hge))

/-- The timer and the keyboard. -/
theorem followsRequests_keyboard :
    FollowsRequests ⟨⟨0, .icw4⟩, ⟨0, .ready⟩⟩ 1 [.enable 0, .enable 1, .disable 0] :=
  (followsRequests_iff ⟨⟨0, .icw4⟩, ⟨0, .ready⟩⟩ 1 (by decide) [.enable 0, .enable 1, .disable 0]
    (by decide)).mpr (Or.inl (by decide))

/-- The mouse is enabled and does not reach the processor. -/
theorem not_followsRequests_mouse :
    Requested 12 [.enable 12] ∧
      irqEnable (picInit ⟨⟨0, .ready⟩, ⟨0, .ready⟩⟩) 12 = ⟨⟨0xFF, .ready⟩, ⟨0xEF, .ready⟩⟩ ∧
      ¬ FollowsRequests ⟨⟨0, .ready⟩, ⟨0, .ready⟩⟩ 12 [.enable 12] := by
  have hrequested : Requested 12 [.enable 12] := ⟨[], .enable 12, [], rfl, rfl, by simp⟩
  have hmasks : irqEnable (picInit ⟨⟨0, .ready⟩, ⟨0, .ready⟩⟩) 12 =
      ⟨⟨0xFF, .ready⟩, ⟨0xEF, .ready⟩⟩ := by
    decide
  refine ⟨hrequested, hmasks, fun hfollows => ?_⟩
  have hreaches := (hfollows [.enable 12] (List.prefix_refl _)).mpr hrequested
  have hcascade := hreaches.2 (by decide)
  rw [List.foldl_cons, List.foldl_nil, irqStep, hmasks] at hcascade
  exact absurd hcascade (by decide)

end Run

end Nimbu
