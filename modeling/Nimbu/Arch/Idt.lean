import Nimbu.Arch.Gdt
import Nimbu.Arch.Pic

/-!
# Where interrupts lead

`idt_init` fills the interrupt descriptor table with gates for the exceptions and for the
lines of the interrupt controllers, the latter at the vectors 32 to 47. At which vector
a line arrives is up to the controllers. `pic_init` means to move them, but its first
word starts no initialisation, so they stay where they were.
-/

namespace Nimbu

/-- `idt_entry_t`. -/
structure IdtEntry where
  /-- Handler address (lower 16 bits). -/
  offsetLow : BitVec 16
  /-- Code segment. -/
  selector : BitVec 16
  /-- Always zero. -/
  reserved : Byte
  /-- Type, privilege and present bit. -/
  flags : Byte
  /-- Handler address (upper 16 bits). -/
  offsetHigh : BitVec 16
  deriving DecidableEq

/-- The bytes of an entry in memory, where it is packed. -/
def IdtEntry.bytes (e : IdtEntry) : Vector Byte 8 :=
  #v[e.offsetLow.extractLsb' 0 8, e.offsetLow.extractLsb' 8 8, e.selector.extractLsb' 0 8,
    e.selector.extractLsb' 8 8, e.reserved, e.flags, e.offsetHigh.extractLsb' 0 8,
    e.offsetHigh.extractLsb' 8 8]

/-- The entry that `idt_set_entry` writes. -/
def idtEntry (handler : Word) (selector : BitVec 16) (flags : Byte) : IdtEntry where
  offsetLow := (handler &&& 0xFFFF).setWidth 16
  offsetHigh := ((handler >>> 16) &&& 0xFFFF).setWidth 16
  selector := selector
  flags := flags
  reserved := 0

/-- `idt_set_entry`. Every vector has an entry. -/
def idtSetEntry (idt : Vector IdtEntry 256) (vector : Byte) (handler : Word)
    (selector : BitVec 16) (flags : Byte) : Vector IdtEntry 256 :=
  idt.set vector.toNat (idtEntry handler selector flags) vector.isLt

/-- The addresses of the stubs that `idt.c` declares. -/
structure Stubs where
  /-- `isr0` to `isr19`. -/
  isr : ℕ → Word
  /-- `irq0` to `irq15`. -/
  irq : ℕ → Word

/-- The static `idt` before `idt_init`. -/
def idtZero : Vector IdtEntry 256 := Vector.replicate 256 ⟨0, 0, 0, 0, 0⟩

/-- The calls of `idt_set_entry` in `idt_init`: one for each of the first 20 exceptions, and one
for each line. -/
def idtInitTable (stubs : Stubs) (idt : Vector IdtEntry 256) : Vector IdtEntry 256 :=
  let idt := (List.range 20).foldl
    (fun idt n => idtSetEntry idt (BitVec.ofNat 8 n) (stubs.isr n) 0x08 0x8E) idt
  (List.range 16).foldl
    (fun idt n => idtSetEntry idt (BitVec.ofNat 8 (32 + n)) (stubs.irq n) 0x08 0x8E) idt

/-- A gate as the processor sees it. -/
structure Gate where
  /-- Address of the handler. -/
  offset : Word
  /-- Its code segment. -/
  selector : BitVec 16
  /-- The type of the gate and the privilege that a software interrupt needs. -/
  kind : BitVec 7
  deriving DecidableEq

/-- What the processor reads from the eight bytes of an entry: a gate, if the present bit is set. -/
def cpuGate (b : Vector Byte 8) : Option Gate :=
  if (b.get 5).getLsbD 7 then
    some ⟨(b.get 7 ++ b.get 6 ++ b.get 1 ++ b.get 0 : BitVec (8 + 8 + 8 + 8)),
      (b.get 3 ++ b.get 2 : BitVec (8 + 8)), (b.get 5).extractLsb' 0 7⟩
  else none

/-- The gate of a vector. -/
def gateAt (idt : Vector IdtEntry 256) (vector : Byte) : Option Gate :=
  cpuGate idt[vector.toFin].bytes

section Gates

/-- The high half of a word. -/
theorem setWidth_shift_mask_high (w : Word) :
    ((w >>> 16) &&& 0xFFFF).setWidth 16 = w.extractLsb' 16 16 := by
  apply BitVec.eq_of_toNat_eq
  rw [BitVec.toNat_setWidth, BitVec.toNat_and, BitVec.toNat_ushiftRight, BitVec.extractLsb'_toNat,
    show (0xFFFF : Word).toNat = 2 ^ 16 - 1 from rfl, Nat.and_two_pow_sub_one_eq_mod, Nat.mod_mod]

/-- A byte of the high half. -/
theorem extractLsb'_high_half (w : Word) (k : ℕ) :
    (w.extractLsb' 16 16).extractLsb' k 8 = w.extractLsb' (16 + k) 8 := by
  apply BitVec.eq_of_getLsbD_eq
  intro i hi
  simp only [BitVec.getLsbD_extractLsb']
  grind

/-- Two bytes make up a half word. -/
theorem half_of_bytes (h : BitVec 16) :
    (h.extractLsb' 8 8 ++ h.extractLsb' 0 8 : BitVec (8 + 8)) = h := by
  apply BitVec.eq_of_getLsbD_eq
  intro i hi
  simp only [BitVec.getLsbD_append, BitVec.getLsbD_extractLsb']
  grind

/-- The members of an entry, as the processor takes them. -/
theorem cpuGate_bytes (e : IdtEntry) :
    cpuGate e.bytes =
      if e.flags.getLsbD 7 then
        some ⟨(e.offsetHigh.extractLsb' 8 8 ++ e.offsetHigh.extractLsb' 0 8 ++
            e.offsetLow.extractLsb' 8 8 ++ e.offsetLow.extractLsb' 0 8 : BitVec (8 + 8 + 8 + 8)),
          (e.selector.extractLsb' 8 8 ++ e.selector.extractLsb' 0 8 : BitVec (8 + 8)),
          e.flags.extractLsb' 0 7⟩
      else none :=
  rfl

/-- The low half of the address. -/
theorem idtEntry_offsetLow (handler : Word) (selector : BitVec 16) (flags : Byte) :
    (idtEntry handler selector flags).offsetLow = handler.extractLsb' 0 16 :=
  setWidth_mask handler

/-- The high half of the address. -/
theorem idtEntry_offsetHigh (handler : Word) (selector : BitVec 16) (flags : Byte) :
    (idtEntry handler selector flags).offsetHigh = handler.extractLsb' 16 16 :=
  setWidth_shift_mask_high handler

/-- The processor gets back what was encoded. -/
theorem cpuGate_idtEntry (handler : Word) (selector : BitVec 16) (flags : Byte) :
    cpuGate (idtEntry handler selector flags).bytes =
      if flags.getLsbD 7 then some ⟨handler, selector, flags.extractLsb' 0 7⟩ else none := by
  rw [cpuGate_bytes, idtEntry_offsetLow, idtEntry_offsetHigh, extractLsb'_high_half,
    extractLsb'_high_half, extractLsb'_low_half handler (by omega),
    extractLsb'_low_half handler (by omega), word_of_bytes, half_of_bytes]
  rfl

/-- The gate of a vector after a call, and those of the others. -/
theorem gateAt_idtSetEntry (idt : Vector IdtEntry 256) (vector v : Byte) (handler : Word)
    (selector : BitVec 16) {flags : Byte} (hflags : flags.getLsbD 7 = true) :
    gateAt (idtSetEntry idt vector handler selector flags) v =
      if v = vector then some ⟨handler, selector, flags.extractLsb' 0 7⟩ else gateAt idt v := by
  simp only [gateAt, idtSetEntry, Fin.getElem_fin, BitVec.val_toFin]
  rw [Vector.getElem_set]
  by_cases hsame : v = vector
  · rw [if_pos hsame, if_pos (by rw [hsame]), cpuGate_idtEntry, if_pos hflags]
  · rw [if_neg hsame, if_neg (by rw [BitVec.toNat_inj]; exact Ne.symm hsame)]

/-- The gates after calls for a row of vectors. -/
theorem gateAt_foldl (idt : Vector IdtEntry 256) (first : ℕ) (handler : ℕ → Word)
    (selector : BitVec 16) {flags : Byte} (hflags : flags.getLsbD 7 = true) {n : ℕ}
    (hn : first + n ≤ 256) (v : Byte) :
    gateAt ((List.range n).foldl (fun idt k =>
        idtSetEntry idt (BitVec.ofNat 8 (first + k)) (handler k) selector flags) idt) v =
      if first ≤ v.toNat ∧ v.toNat < first + n then
        some ⟨handler (v.toNat - first), selector, flags.extractLsb' 0 7⟩
      else gateAt idt v := by
  induction n with
  | zero => rw [if_neg (by omega)]; rfl
  | succ n ih =>
    have hlast : v = BitVec.ofNat 8 (first + n) ↔ v.toNat = first + n := by
      rw [← BitVec.toNat_inj, BitVec.toNat_ofNat, Nat.mod_eq_of_lt (by omega)]
    rw [List.range_succ, List.foldl_append, List.foldl_cons, List.foldl_nil,
      gateAt_idtSetEntry _ _ _ _ _ hflags, ih (by omega)]
    by_cases hsame : v.toNat = first + n
    · rw [if_pos (hlast.mpr hsame), if_pos (by omega), hsame, Nat.add_sub_cancel_left]
    · rw [if_neg (mt hlast.mp hsame)]
      by_cases hold : first ≤ v.toNat ∧ v.toNat < first + n
      · rw [if_pos hold, if_pos (by omega)]
      · rw [if_neg hold, if_neg (by omega)]

/-- The gates that `idt_init` leaves: for the stubs, and no others. -/
theorem gateAt_idtInitTable (stubs : Stubs) (v : Byte) :
    gateAt (idtInitTable stubs idtZero) v =
      if v.toNat < 20 then some ⟨stubs.isr v.toNat, 0x08, 0x0E⟩
      else if 32 ≤ v.toNat ∧ v.toNat < 48 then some ⟨stubs.irq (v.toNat - 32), 0x08, 0x0E⟩
      else none := by
  have hflags : (0x8E : Byte).getLsbD 7 = true := by decide
  have hzero : gateAt idtZero v = none := by
    rw [gateAt, idtZero, Fin.getElem_fin, Vector.getElem_replicate]
    rfl
  have hisr := gateAt_foldl idtZero 0 stubs.isr 0x08 hflags (show 0 + 20 ≤ 256 by omega) v
  simp only [Nat.zero_add, Nat.zero_le, true_and, Nat.sub_zero] at hisr
  rw [idtInitTable, gateAt_foldl _ 32 stubs.irq 0x08 hflags (by omega), hisr, hzero]
  by_cases hlow : v.toNat < 20
  · rw [if_neg (by omega), if_pos hlow, if_pos hlow]
    rfl
  · rw [if_neg hlow, if_neg hlow]
    rfl

end Gates

/-- An 8259 and the vector of its first line, which ICW2 sets. -/
structure VectoredPic where
  /-- The mask and the phase. -/
  pic : Pic
  /-- The upper five bits of the vectors. -/
  base : Byte

/-- A write to the command port. -/
def VectoredPic.outCommand (p : VectoredPic) (word : Byte) : VectoredPic :=
  { p with pic := p.pic.outCommand word }

/-- A write to the data port. -/
def VectoredPic.outData (p : VectoredPic) (word : Byte) : VectoredPic where
  pic := p.pic.outData word
  base := match p.pic.phase with
    | .icw2 _ _ => word &&& 0xF8
    | _ => p.base

/-- The two controllers with their vectors. -/
structure VectoredPics where
  /-- The controller at ports 0x20 and 0x21. -/
  master : VectoredPic
  /-- The controller at ports 0xA0 and 0xA1. -/
  slave : VectoredPic

namespace VectoredPics

/-- The controllers without their vectors. -/
def plain (x : VectoredPics) : Pics := ⟨x.master.pic, x.slave.pic⟩

/-- `out` to one of the ports. -/
def outb (x : VectoredPics) (port : BitVec 16) (word : Byte) : VectoredPics :=
  if port = 0x20 then { x with master := x.master.outCommand word }
  else if port = 0x21 then { x with master := x.master.outData word }
  else if port = 0xA0 then { x with slave := x.slave.outCommand word }
  else if port = 0xA1 then { x with slave := x.slave.outData word }
  else x

/-- `pic_init`. -/
def picInit (x : VectoredPics) : VectoredPics :=
  [((0x20 : BitVec 16), (0x20 : Byte)), (0xA0, 0x20), (0x21, 0x08), (0xA1, 0x70), (0x21, 0x04),
    (0xA1, 0x02), (0x21, 0x01), (0xA1, 0x01), (0x21, 0xFF), (0xA1, 0xFF)].foldl
    (fun x p => x.outb p.1 p.2) x

/-- A change of the mask bit of a line. -/
def irqWrite (x : VectoredPics) (irq : Byte) (update : Byte → Byte → Byte) : VectoredPics :=
  let (port, irq) := irqPort irq
  let mask := x.plain.inb port
  x.outb port (update mask (irqBit irq))

/-- `irq_enable` or `irq_disable`. -/
def irqStep (x : VectoredPics) : IrqCall → VectoredPics
  | .enable irq => x.irqWrite irq fun mask bit => mask &&& ~~~bit
  | .disable irq => x.irqWrite irq fun mask bit => mask ||| bit

/-- The vector of the first line of the controller of a line. -/
def baseOf (x : VectoredPics) (irq : Byte) : Byte :=
  (if irq.toNat < 8 then x.master.base else x.slave.base) &&& 0xF8

/-- The vector at which a line arrives. -/
def vectorOf (x : VectoredPics) (irq : Byte) : Byte := x.baseOf irq + (irq &&& 7)

variable {x : VectoredPics} {port : BitVec 16} {word irq : Byte}

/-- The vectors do not show in the rest of the state. -/
theorem plain_outb (x : VectoredPics) (port : BitVec 16) (word : Byte) :
    (x.outb port word).plain = x.plain.outb port word := by
  unfold outb Pics.outb
  split_ifs <;> rfl

/-- `pic_init` without the vectors. -/
theorem plain_picInit (x : VectoredPics) : x.picInit.plain = Nimbu.picInit x.plain := by
  simp only [picInit, List.foldl_cons, List.foldl_nil, plain_outb]
  rfl

/-- A call without the vectors. -/
theorem plain_irqStep (x : VectoredPics) (call : IrqCall) :
    (x.irqStep call).plain = Nimbu.irqStep x.plain call := by
  cases call with
  | enable irq => exact plain_outb _ _ _
  | disable irq => exact plain_outb _ _ _

/-- The vectors are those of another state. -/
structure SameBases (x y : VectoredPics) : Prop where
  /-- Of the master. -/
  master : x.master.base = y.master.base
  /-- Of the slave. -/
  slave : x.slave.base = y.slave.base

/-- A write that starts no initialisation leaves the vectors of controllers in operation alone. -/
theorem sameBases_outb (hready : x.plain.Ready)
    (hword : port = 0x20 ∨ port = 0xA0 → word &&& 0x10 = 0) :
    (x.outb port word).plain.Ready ∧ (x.outb port word).SameBases x := by
  have hcommand : ∀ p : VectoredPic, word &&& 0x10 = 0 → p.outCommand word = p := by
    intro p hzero
    rw [VectoredPic.outCommand, Pic.outCommand, if_neg (not_not.mpr hzero)]
  have hdata : ∀ p : VectoredPic, p.pic.phase = .ready →
      (p.outData word).pic.phase = .ready ∧ (p.outData word).base = p.base := by
    intro p hphase
    constructor
    · rw [VectoredPic.outData, Pic.outData, if_pos hphase]
      exact hphase
    · simp only [VectoredPic.outData, hphase]
  unfold outb
  split_ifs with h₁ h₂ h₃ h₄
  · rw [hcommand _ (hword (Or.inl h₁))]
    exact ⟨hready, rfl, rfl⟩
  · obtain ⟨hphase, hbase⟩ := hdata x.master hready.master
    exact ⟨⟨hphase, hready.slave⟩, hbase, rfl⟩
  · rw [hcommand _ (hword (Or.inr h₃))]
    exact ⟨hready, rfl, rfl⟩
  · obtain ⟨hphase, hbase⟩ := hdata x.slave hready.slave
    exact ⟨⟨hready.master, hphase⟩, rfl, hbase⟩
  · exact ⟨hready, rfl, rfl⟩

theorem SameBases.trans {y z : VectoredPics} (h : x.SameBases y) (h' : y.SameBases z) :
    x.SameBases z :=
  ⟨h.master.trans h'.master, h.slave.trans h'.slave⟩

/-- A row of writes that start no initialisation. -/
theorem sameBases_foldl (hready : x.plain.Ready) {words : List (BitVec 16 × Byte)}
    (hwords : ∀ p ∈ words, p.1 = 0x20 ∨ p.1 = 0xA0 → p.2 &&& 0x10 = 0) :
    (words.foldl (fun x p => x.outb p.1 p.2) x).plain.Ready ∧
      (words.foldl (fun x p => x.outb p.1 p.2) x).SameBases x := by
  induction words generalizing x with
  | nil => exact ⟨hready, rfl, rfl⟩
  | cons p words ih =>
    obtain ⟨hready', hsame⟩ := sameBases_outb hready (hwords p List.mem_cons_self)
    obtain ⟨hready'', hsame'⟩ := ih hready' fun q hq => hwords q (List.mem_cons_of_mem _ hq)
    exact ⟨hready'', hsame'.trans hsame⟩

/-- A change of a mask bit leaves the vectors alone. -/
theorem sameBases_irqWrite (hready : x.plain.Ready) (irq : Byte) (update : Byte → Byte → Byte) :
    (x.irqWrite irq update).plain.Ready ∧ (x.irqWrite irq update).SameBases x := by
  have hdata : (irqPort irq).1 = 0x21 ∨ (irqPort irq).1 = 0xA1 := by
    unfold irqPort
    split
    · exact Or.inr rfl
    · exact Or.inl rfl
  have hwrite : x.irqWrite irq update =
      x.outb (irqPort irq).1 (update (x.plain.inb (irqPort irq).1) (irqBit (irqPort irq).2)) :=
    rfl
  rw [hwrite]
  refine sameBases_outb hready fun hcommand => ?_
  rcases hdata with hdata | hdata <;> rw [hdata] at hcommand <;>
    exact absurd hcommand (by decide)

/-- `pic_init` and the calls after it leave the vectors where they were. -/
theorem sameBases_run (hready : x.plain.Ready) (calls : List IrqCall) :
    (calls.foldl irqStep x.picInit).plain.Ready ∧
      (calls.foldl irqStep x.picInit).SameBases x := by
  induction calls using List.reverseRecOn with
  | nil => exact sameBases_foldl hready (by simp)
  | append_singleton calls call ih =>
    obtain ⟨hready', hsame⟩ := ih
    rw [List.foldl_append, List.foldl_cons, List.foldl_nil]
    have hstep : ((calls.foldl irqStep x.picInit).irqStep call).plain.Ready ∧
        ((calls.foldl irqStep x.picInit).irqStep call).SameBases
          (calls.foldl irqStep x.picInit) := by
      cases call with
      | enable irq => exact sameBases_irqWrite hready' irq _
      | disable irq => exact sameBases_irqWrite hready' irq _
    exact ⟨hstep.1, hstep.2.trans hsame⟩

/-- `pic_init` and the calls after it, without the vectors. -/
theorem plain_run (x : VectoredPics) (calls : List IrqCall) :
    (calls.foldl irqStep x.picInit).plain = calls.foldl Nimbu.irqStep (Nimbu.picInit x.plain) := by
  induction calls using List.reverseRecOn with
  | nil => exact plain_picInit x
  | append_singleton calls call ih =>
    rw [List.foldl_append, List.foldl_append, List.foldl_cons, List.foldl_cons, List.foldl_nil,
      List.foldl_nil, plain_irqStep, ih]

/-- The vector of the first line is a multiple of eight. -/
theorem baseOf_mod (x : VectoredPics) (irq : Byte) : (x.baseOf irq).toNat % 8 = 0 := by
  have hmask : ∀ b : Byte, (b &&& 0xF8).toNat % 8 = 0 := by decide
  exact hmask _

/-- The lines of a controller follow each other. -/
theorem toNat_vectorOf (x : VectoredPics) (irq : Byte) :
    (x.vectorOf irq).toNat = (x.baseOf irq).toNat + irq.toNat % 8 := by
  have hline : (irq &&& 7).toNat = irq.toNat % 8 := by
    rw [BitVec.toNat_and, show (7 : Byte).toNat = 2 ^ 3 - 1 from rfl,
      Nat.and_two_pow_sub_one_eq_mod]
  have hmod := x.baseOf_mod irq
  have hlt := (x.baseOf irq).isLt
  rw [vectorOf, BitVec.toNat_add, hline, Nat.mod_eq_of_lt (by omega)]

/-- The vectors of a line depend on those of the controllers only. -/
theorem SameBases.vectorOf_eq {y : VectoredPics} (h : x.SameBases y) (irq : Byte) :
    x.vectorOf irq = y.vectorOf irq := by
  rw [vectorOf, vectorOf, baseOf, baseOf, h.master, h.slave]

end VectoredPics

/-- The addresses of the stubs are different, as those of different functions are. -/
structure Stubs.Distinct (stubs : Stubs) : Prop where
  /-- Those of the lines. -/
  irq_inj : ∀ k < 16, ∀ l < 16, stubs.irq k = stubs.irq l → k = l
  /-- Those of the exceptions and of the lines. -/
  isr_ne_irq : ∀ n < 20, ∀ k < 16, stubs.isr n ≠ stubs.irq k

/-- An interrupt on a line gets through the controllers and finds a gate. -/
def LeadsTo (idt : Vector IdtEntry 256) (x : VectoredPics) (irq : Byte) (gate : Gate) : Prop :=
  x.plain.Reaches irq ∧ gateAt idt (x.vectorOf irq) = some gate

/-- The gate of a vector is that of the stub of a line, for a vector that belongs to the line
and for no other. -/
theorem gateAt_eq_irq_iff {stubs : Stubs} (hstubs : stubs.Distinct) {k : ℕ} (hk : k < 16)
    (v : Byte) :
    gateAt (idtInitTable stubs idtZero) v = some ⟨stubs.irq k, 0x08, 0x0E⟩ ↔
      v.toNat = 32 + k := by
  rw [gateAt_idtInitTable]
  by_cases hlow : v.toNat < 20
  · rw [if_pos hlow]
    refine iff_of_false (fun heq => ?_) (by omega)
    injection heq with hgate
    injection hgate with hoffset
    exact hstubs.isr_ne_irq _ hlow _ hk hoffset
  · rw [if_neg hlow]
    by_cases hline : 32 ≤ v.toNat ∧ v.toNat < 48
    · rw [if_pos hline]
      constructor
      · intro heq
        injection heq with hgate
        injection hgate with hoffset
        have hsame := hstubs.irq_inj _ (by omega) _ hk hoffset
        omega
      · intro hv
        rw [hv, Nat.add_sub_cancel_left]
    · rw [if_neg hline]
      exact iff_of_false (by simp) (by omega)

/-- **Interrupts arrive where the firmware sends them.** For all controllers in operation at
boot and every sequence of calls after `idt_init`, an interrupt on a line gets to the
stub of the line exactly when the last request for the line enables it, for a line of the slave
that for the cascade line does so too, and the firmware had put the lines at the vectors of
the table. `pic_init` does not. -/
theorem irq_leads_to_stub_iff (stubs : Stubs) (hstubs : stubs.Distinct) (x : VectoredPics)
    (hready : x.plain.Ready) (calls : List IrqCall)
    (hcalls : ∀ call ∈ calls, call.irq.toNat < 16) (irq : Byte) (hirq : irq.toNat < 16) :
    LeadsTo (idtInitTable stubs idtZero) (calls.foldl VectoredPics.irqStep x.picInit) irq
        ⟨stubs.irq irq.toNat, 0x08, 0x0E⟩ ↔
      (Requested irq calls ∧ (8 ≤ irq.toNat → Requested 2 calls)) ∧
        (x.baseOf irq).toNat = if irq.toNat < 8 then 32 else 40 := by
  obtain ⟨-, hmasked⟩ := masked_foldl x.plain hcalls
  obtain ⟨-, hsame⟩ := VectoredPics.sameBases_run hready calls
  have hreaches : (calls.foldl VectoredPics.irqStep x.picInit).plain.Reaches irq ↔
      Requested irq calls ∧ (8 ≤ irq.toNat → Requested 2 calls) := by
    rw [VectoredPics.plain_run, Pics.Reaches, hmasked irq hirq, hmasked 2 (by decide)]
  have hvector : (x.vectorOf irq).toNat = 32 + irq.toNat ↔
      (x.baseOf irq).toNat = if irq.toNat < 8 then 32 else 40 := by
    rw [x.toNat_vectorOf irq]
    split_ifs <;> omega
  rw [LeadsTo, hreaches, hsame.vectorOf_eq, gateAt_eq_irq_iff hstubs hirq, hvector]

/-- The stubs one after the other. -/
def stubsInARow : Stubs where
  isr n := BitVec.ofNat 32 (0x101000 + 16 * n)
  irq k := BitVec.ofNat 32 (0x102000 + 16 * k)

/-- Controllers in operation with all lines masked, at given vectors. -/
def picsAt (master slave : Byte) : VectoredPics :=
  ⟨⟨⟨0xFF, .ready⟩, master⟩, ⟨⟨0xFF, .ready⟩, slave⟩⟩

/-- With the vectors of a PC the keyboard does not get to its stub, and with vectors that a boot
loader has moved it does. -/
theorem irq_leads_to_stub_keyboard :
    ¬ LeadsTo (idtInitTable stubsInARow idtZero)
        ([IrqCall.enable 1].foldl VectoredPics.irqStep (picsAt 0x08 0x70).picInit) 1
        ⟨stubsInARow.irq 1, 0x08, 0x0E⟩ ∧
      LeadsTo (idtInitTable stubsInARow idtZero)
        ([IrqCall.enable 1].foldl VectoredPics.irqStep (picsAt 0x20 0x28).picInit) 1
        ⟨stubsInARow.irq 1, 0x08, 0x0E⟩ := by
  have hstubs : stubsInARow.Distinct := ⟨by decide, by decide⟩
  have hrequested : Requested 1 [.enable 1] := ⟨[], .enable 1, [], rfl, rfl, by simp⟩
  have hcalls : ∀ call ∈ [IrqCall.enable 1], call.irq.toNat < 16 := by decide
  constructor
  · intro hleads
    have hbase := ((irq_leads_to_stub_iff stubsInARow hstubs (picsAt 0x08 0x70) ⟨rfl, rfl⟩
      [.enable 1] hcalls 1 (by decide)).mp hleads).2
    exact absurd hbase (by decide)
  · exact (irq_leads_to_stub_iff stubsInARow hstubs (picsAt 0x20 0x28) ⟨rfl, rfl⟩ [.enable 1]
      hcalls 1 (by decide)).mpr
      ⟨⟨hrequested, fun hslave => absurd hslave (by decide)⟩, by decide⟩

/-- There it gets to that of an exception. -/
example : LeadsTo (idtInitTable stubsInARow idtZero)
    (VectoredPics.irqStep (picsAt 0x08 0x70).picInit (.enable 1)) 1
    ⟨stubsInARow.isr 9, 0x08, 0x0E⟩ := by
  refine ⟨⟨by decide, fun hslave => absurd hslave (by decide)⟩, ?_⟩
  rw [gateAt_idtInitTable]
  decide

end Nimbu
