import Nimbu.Machine.Memory
import Nimbu.Machine.Run
import Nimbu.Machine.Terminal

/-!
# The VGA text mode driver

`vga.c` writes 16-bit cells, the glyph in the low byte and the attribute in the
high byte, into a buffer of 80 by 25 cells. From `vga_clear` on, what it shows is a
terminal of 80 columns and 25 lines. A cell is the colour shifted left by 8 or-ed
with a signed `char`, so a byte from 0x80 on sets all bits of the attribute.
The position of the hardware cursor, which only the display reads, is left out.
-/

namespace Nimbu

/-- The static `vga_state` record of `vga.c`. Its field `current_color` is never used. -/
structure VgaState where
  /-- The 80 by 25 cells at 0xB8000. -/
  buffer : Vector (BitVec 16) 2000
  /-- Column of the cursor. -/
  cursorX : Byte
  /-- Line of the cursor. -/
  cursorY : Byte

/-- `VGA_COLOR`. -/
def vgaColor (fg bg : Byte) : Byte := bg <<< 4 ||| fg

/-- `VGA_COLOR_BLACK`. -/
def vgaColorBlack : Byte := 0x0

/-- `VGA_COLOR_WHITE`. -/
def vgaColorWhite : Byte := 0xF

/-- The cell of a blank: white on black. -/
def vgaBlank : BitVec 16 := (vgaColor vgaColorWhite vgaColorBlack).setWidth 16 <<< 8 ||| 0x20

/-- The cell of a character: `((uint16_t)color << 8) | ch`, where both sides are promoted to
`int`, the `char` with its sign. -/
def vgaCell (ch color : Byte) : BitVec 16 :=
  ((color.setWidth 32 <<< 8) ||| ch.signExtend 32).setWidth 16

namespace VgaState

/-- Write a cell. An index outside the buffer has no result. -/
def store (v : VgaState) (index : BitVec 16) (cell : BitVec 16) : Option VgaState :=
  if h : index.toNat < 2000 then some { v with buffer := v.buffer.set index.toNat cell h }
  else none

/-- Read a cell. -/
def load (v : VgaState) (index : BitVec 16) : Option (BitVec 16) := v.buffer[index.toNat]?

end VgaState

/-- The inner loop of `vga_scroll_up`: copy line `y + 1` to line `y`. -/
def vgaCopyLine (v : VgaState) (y : ℕ) : Option VgaState :=
  (List.range 80).foldlM (fun v x => do
    let cell ← v.load (BitVec.ofNat 16 ((y + 1) * 80 + x))
    v.store (BitVec.ofNat 16 (y * 80 + x)) cell) v

/-- `vga_scroll_up`. -/
def vgaScrollUp (v : VgaState) : Option VgaState := do
  let v ← (List.range 24).foldlM vgaCopyLine v
  (List.range 80).foldlM (fun v x => v.store (BitVec.ofNat 16 (24 * 80 + x)) vgaBlank) v

/-- The start of the next line, as both branches of `vga_putchar` go there. -/
def vgaNextLine (v : VgaState) : Option VgaState := do
  let v := { v with cursorY := v.cursorY + 1, cursorX := 0 }
  if v.cursorY ≥ 25 then
    let v ← vgaScrollUp v
    return { v with cursorY := 24 }
  else return v

/-- `vga_putchar`. -/
def vgaPutchar (v : VgaState) (ch color : Byte) : Option VgaState := do
  if ch = 0x0A then vgaNextLine v
  else
    let index := BitVec.ofNat 16 (v.cursorY.toNat * 80 + v.cursorX.toNat)
    let v ← v.store index (vgaCell ch color)
    let v := { v with cursorX := v.cursorX + 1 }
    if v.cursorX ≥ 80 then vgaNextLine v else return v

/-- The loop of `vga_putstr` over the bytes of a string. -/
def vgaPutchars (v : VgaState) (color : Byte) : List Byte → Option VgaState
  | [] => some v
  | ch :: str => do
    if ch = 0 then return v
    let v ← vgaPutchar v ch color
    vgaPutchars v color str

/-- `vga_putstr`. There is no string behind a null pointer. -/
def vgaPutstr (v : VgaState) (str : Option (List Byte)) (color : Byte) : Option VgaState :=
  match str with
  | none => some v
  | some str => vgaPutchars v color str

/-- `vga_clear`. -/
def vgaClear (v : VgaState) : Option VgaState := do
  let v ← (List.range 2000).foldlM (fun v i => v.store (BitVec.ofNat 16 i) vgaBlank) v
  return { v with cursorX := 0, cursorY := 0 }

/-- A call to the driver. -/
inductive VgaCall where
  /-- `vga_putchar(ch, color)`. -/
  | putchar (ch color : Byte)
  /-- `vga_putstr(str, color)`. -/
  | putstr (str : Option (List Byte)) (color : Byte)

/-- One call. -/
def vgaStep (v : VgaState) : VgaCall → Option VgaState
  | .putchar ch color => vgaPutchar v ch color
  | .putstr str color => vgaPutstr v str color

/-- The characters that a call prints, each with its colour. -/
def VgaCall.printed : VgaCall → List (Byte × Byte)
  | .putchar ch color => [(ch, color)]
  | .putstr none _ => []
  | .putstr (some str) color => (str.takeWhile (· ≠ 0)).map fun ch => (ch, color)

namespace VgaState

variable {v v' : VgaState}

/-- The cell at an index. -/
def cell (v : VgaState) (i : ℕ) : BitVec 16 := v.buffer[i]?.getD vgaBlank

/-- The cursor is on the screen. -/
structure InBounds (v : VgaState) : Prop where
  /-- The column. -/
  column : v.cursorX.toNat < 80
  /-- The line. -/
  line : v.cursorY.toNat < 25

/-- A cell in the buffer is read. -/
theorem load_eq (v : VgaState) {i : ℕ} (hi : i < 2000) :
    v.load (BitVec.ofNat 16 i) = some (v.cell i) := by
  have hnat : (BitVec.ofNat 16 i).toNat = i := by
    rw [BitVec.toNat_ofNat]
    omega
  rw [load, cell, hnat, Vector.getElem?_eq_getElem hi, Option.getD_some]

/-- A cell in the buffer is written, and nothing else changes. -/
theorem store_eq (v : VgaState) (w : BitVec 16) {i : ℕ} (hi : i < 2000) :
    ∃ v', v.store (BitVec.ofNat 16 i) w = some v' ∧ v'.cursorX = v.cursorX ∧
      v'.cursorY = v.cursorY ∧ ∀ j, v'.cell j = if j = i then w else v.cell j := by
  have hnat : (BitVec.ofNat 16 i).toNat = i := by
    rw [BitVec.toNat_ofNat]
    omega
  refine ⟨{ v with buffer := v.buffer.set i w hi }, ?_, rfl, rfl, fun j => ?_⟩
  · simp only [store, hnat, dif_pos hi]
  · simp only [cell, Vector.getElem?_set]
    by_cases hj : i = j
    · subst hj
      simp
    · rw [if_neg hj, if_neg (Ne.symm hj)]

end VgaState

/-- The cells before an index hold what was one line further down, the others are
unchanged. -/
structure VgaState.MovedUp (v : VgaState) (n : ℕ) (w : VgaState) : Prop where
  /-- The column of the cursor. -/
  cursorX_eq : w.cursorX = v.cursorX
  /-- The line of the cursor. -/
  cursorY_eq : w.cursorY = v.cursorY
  /-- The cells. -/
  cell_eq : ∀ i, w.cell i = if i < n then v.cell (i + 80) else v.cell i

/-- Copying one line moves its cells up. -/
theorem vgaCopyLine_eq {v w : VgaState} {y : ℕ} (hy : y < 24) (hw : v.MovedUp (y * 80) w) :
    ∃ w', vgaCopyLine w y = some w' ∧ v.MovedUp ((y + 1) * 80) w' := by
  rw [show (y + 1) * 80 = y * 80 + 80 by omega]
  refine foldlM_range_returns (fun x w => v.MovedUp (y * 80 + x) w) (fun x hx u hu => ?_) hw
  obtain ⟨u', hstore, hx', hy', hcell⟩ :=
    u.store_eq (u.cell ((y + 1) * 80 + x)) (show y * 80 + x < 2000 by omega)
  refine ⟨u', ?_, hx'.trans hu.cursorX_eq, hy'.trans hu.cursorY_eq, fun i => ?_⟩
  · simp only [u.load_eq (show (y + 1) * 80 + x < 2000 by omega), Option.bind_eq_bind,
      Option.bind_some]
    exact hstore
  · rw [hcell]
    by_cases hi : i = y * 80 + x
    · -- the cell copied lies one line further down and has not been overwritten yet
      rw [if_pos hi, if_pos (by omega), hu.cell_eq, if_neg (by omega)]
      congr 1
      omega
    · rw [if_neg hi, hu.cell_eq]
      by_cases hlt : i < y * 80 + x
      · rw [if_pos hlt, if_pos (by omega)]
      · rw [if_neg hlt, if_neg (by omega)]

/-- A loop that writes blanks into consecutive cells. -/
theorem foldlM_blank (v : VgaState) {first n : ℕ} (hn : first + n ≤ 2000) :
    ∃ v', (List.range n).foldlM
        (fun v x => VgaState.store v (BitVec.ofNat 16 (first + x)) vgaBlank) v = some v' ∧
      v'.cursorX = v.cursorX ∧ v'.cursorY = v.cursorY ∧
      ∀ i, v'.cell i = if first ≤ i ∧ i < first + n then vgaBlank else v.cell i := by
  refine foldlM_range_returns (fun x (u : VgaState) => u.cursorX = v.cursorX ∧
    u.cursorY = v.cursorY ∧
    ∀ i, u.cell i = if first ≤ i ∧ i < first + x then vgaBlank else v.cell i) ?_ ⟨rfl, rfl, ?_⟩
  · rintro x hx u ⟨hux, huy, hucell⟩
    obtain ⟨u', hstore, hx', hy', hcell⟩ := u.store_eq vgaBlank (show first + x < 2000 by omega)
    refine ⟨u', hstore, hx'.trans hux, hy'.trans huy, fun i => ?_⟩
    rw [hcell, hucell]
    by_cases hi : i = first + x
    · rw [if_pos hi, if_pos (by omega)]
    · rw [if_neg hi]
      by_cases hlt : first ≤ i ∧ i < first + x
      · rw [if_pos hlt, if_pos (by omega)]
      · rw [if_neg hlt, if_neg (by omega)]
  · intro i
    rw [if_neg (by omega)]

/-- `vga_scroll_up` moves every line up by one and clears the last. -/
theorem vgaScrollUp_eq (v : VgaState) :
    ∃ v', vgaScrollUp v = some v' ∧ v'.cursorX = v.cursorX ∧ v'.cursorY = v.cursorY ∧
      ∀ i < 2000, v'.cell i = if i < 1920 then v.cell (i + 80) else vgaBlank := by
  have hstart : v.MovedUp (0 * 80) v := ⟨rfl, rfl, fun i => by rw [if_neg (by omega)]⟩
  obtain ⟨w, hmove, hw⟩ := foldlM_range_returns (fun y w => v.MovedUp (y * 80) w)
    (fun y hy w hw => vgaCopyLine_eq (show y < 24 from hy) hw) hstart
  obtain ⟨v', hclear, hx, hy, hcell⟩ := foldlM_blank w (show 24 * 80 + 80 ≤ 2000 by decide)
  refine ⟨v', ?_, hx.trans hw.cursorX_eq, hy.trans hw.cursorY_eq, fun i hi => ?_⟩
  · unfold vgaScrollUp
    rw [hmove, Option.bind_eq_bind, Option.bind_some, hclear]
  · rw [hcell]
    by_cases hlt : i < 1920
    · rw [if_neg (by omega), if_pos hlt, hw.cell_eq, if_pos (by omega)]
    · rw [if_pos (by omega), if_neg hlt]

/-- `vga_clear` leaves blanks, and the cursor in the first cell. -/
theorem vgaClear_eq (v : VgaState) :
    ∃ v', vgaClear v = some v' ∧ v'.cursorX = 0 ∧ v'.cursorY = 0 ∧
      ∀ i < 2000, v'.cell i = vgaBlank := by
  obtain ⟨w, hclear, -, -, hcell⟩ := foldlM_blank v (show 0 + 2000 ≤ 2000 by decide)
  simp only [Nat.zero_add] at hclear
  refine ⟨{ w with cursorX := 0, cursorY := 0 }, ?_, rfl, rfl, fun i hi => ?_⟩
  · simp only [vgaClear, hclear, Option.bind_eq_bind, Option.bind_some, Option.pure_def]
  · exact (hcell i).trans (if_pos (by omega))

/-- Going to the next line moves the cursor, or scrolls when it is on the last line. -/
theorem vgaNextLine_eq {v : VgaState} (hline : v.cursorY.toNat < 25) :
    ∃ v', vgaNextLine v = some v' ∧ v'.cursorX = 0 ∧
      ((v.cursorY.toNat < 24 ∧ v'.cursorY.toNat = v.cursorY.toNat + 1 ∧
          ∀ i, v'.cell i = v.cell i) ∨
        (v.cursorY.toNat = 24 ∧ v'.cursorY = 24 ∧
          ∀ i < 2000, v'.cell i = if i < 1920 then v.cell (i + 80) else vgaBlank)) := by
  have hnext : (v.cursorY + 1).toNat = v.cursorY.toNat + 1 := by bv_omega
  have hlast : v.cursorY + 1 ≥ 25 ↔ v.cursorY.toNat = 24 := by
    rw [ge_iff_le, BitVec.le_def, hnext, show (25 : Byte).toNat = 25 from rfl]
    omega
  by_cases hfull : v.cursorY.toNat = 24
  · obtain ⟨w, hscroll, hx, -, hcell⟩ :=
      vgaScrollUp_eq { v with cursorY := v.cursorY + 1, cursorX := 0 }
    refine ⟨{ w with cursorY := 24 }, ?_, hx, Or.inr ⟨hfull, rfl, hcell⟩⟩
    simp only [vgaNextLine, if_pos (hlast.mpr hfull), hscroll, Option.bind_eq_bind,
      Option.bind_some, Option.pure_def]
  · refine ⟨{ v with cursorY := v.cursorY + 1, cursorX := 0 }, ?_, rfl,
      Or.inl ⟨by omega, hnext, fun _ => rfl⟩⟩
    simp only [vgaNextLine, if_neg (hlast.not.mpr hfull), Option.pure_def]

/-- A line feed goes to the next line. -/
theorem vgaPutchar_newline (v : VgaState) (color : Byte) :
    vgaPutchar v 0x0A color = vgaNextLine v := by
  simp only [vgaPutchar, if_true]

/-- Any other character is written at the cursor, which moves on; behind the last column it
goes to the next line. -/
theorem vgaPutchar_eq {v : VgaState} (hv : v.InBounds) {ch : Byte} (hch : ch ≠ 0x0A)
    (color : Byte) :
    ∃ w, (∀ i, w.cell i = if i = v.cursorY.toNat * 80 + v.cursorX.toNat then vgaCell ch color
        else v.cell i) ∧ w.cursorY = v.cursorY ∧
      w.cursorX.toNat = v.cursorX.toNat + 1 ∧
      vgaPutchar v ch color = if v.cursorX.toNat = 79 then vgaNextLine w else some w := by
  have hcolumn := hv.column
  have hline := hv.line
  obtain ⟨u, hstore, hx, hy, hcell⟩ := v.store_eq (vgaCell ch color)
    (show v.cursorY.toNat * 80 + v.cursorX.toNat < 2000 by omega)
  have hnext : (u.cursorX + 1).toNat = v.cursorX.toNat + 1 := by
    rw [hx]
    bv_omega
  have hlast : u.cursorX + 1 ≥ 80 ↔ v.cursorX.toNat = 79 := by
    rw [ge_iff_le, BitVec.le_def, hnext, show (80 : Byte).toNat = 80 from rfl]
    omega
  refine ⟨{ u with cursorX := u.cursorX + 1 }, hcell, hy, hnext, ?_⟩
  simp only [vgaPutchar, if_neg hch, hstore, Option.bind_eq_bind, Option.bind_some, hlast,
    Option.pure_def]

/-- The number of the cell at the cursor. -/
def VgaState.position (v : VgaState) : ℕ := v.cursorY.toNat * 80 + v.cursorX.toNat

/-- The cursor moves on by one cell, and behind the last cell to the start of the last line.
Unless the screen scrolls, one cell changes. -/
theorem vgaPutchar_position {v : VgaState} (hv : v.InBounds) {ch : Byte} (hch : ch ≠ 0x0A)
    (color : Byte) :
    ∃ v', vgaPutchar v ch color = some v' ∧ v'.InBounds ∧
      v'.position = (if v.position + 1 < 2000 then v.position + 1 else 1920) ∧
      (v.position + 1 < 2000 → ∀ i,
        v'.cell i = if i = v.position then vgaCell ch color else v.cell i) := by
  have hcolumn := hv.column
  have hline := hv.line
  obtain ⟨w, hcell, hy, hx, hput⟩ := vgaPutchar_eq hv hch color
  unfold VgaState.position
  rw [hput]
  by_cases hlast : v.cursorX.toNat = 79
  · rw [if_pos hlast]
    obtain ⟨v', hnext, hx', ⟨hlt, hy', hsame⟩ | ⟨hbottom, hy', -⟩⟩ :=
      vgaNextLine_eq (show w.cursorY.toNat < 25 by rwa [hy])
    · rw [hy] at hlt hy'
      refine ⟨v', hnext, ⟨by rw [hx']; decide, by omega⟩, ?_, fun _ i => ?_⟩
      · rw [if_pos (by omega), hx', hy', show (0 : Byte).toNat = 0 from rfl]
        omega
      · rw [hsame, hcell]
    · rw [hy] at hbottom
      refine ⟨v', hnext, ⟨by rw [hx']; decide, by rw [hy']; decide⟩, ?_, fun hfits => ?_⟩
      · rw [if_neg (by omega), hx', hy']
        decide
      · omega
  · rw [if_neg hlast]
    refine ⟨w, rfl, ⟨by omega, by rwa [hy]⟩, ?_, fun _ => hcell⟩
    rw [if_pos (by omega), hx, hy]
    omega

/-- Every character is printed, and the cursor stays on the screen. -/
theorem vgaPutchar_returns {v : VgaState} (hv : v.InBounds) (ch color : Byte) :
    ∃ v', vgaPutchar v ch color = some v' ∧ v'.InBounds := by
  by_cases hch : ch = 0x0A
  · subst hch
    rw [vgaPutchar_newline]
    obtain ⟨v', hnext, hx, ⟨hlt, hy, -⟩ | ⟨-, hy, -⟩⟩ := vgaNextLine_eq hv.line
    · exact ⟨v', hnext, by rw [hx]; decide, by omega⟩
    · exact ⟨v', hnext, by rw [hx]; decide, by rw [hy]; decide⟩
  · obtain ⟨v', hput, hv', -⟩ := vgaPutchar_position hv hch color
    exact ⟨v', hput, hv'⟩

/-- So is every string. -/
theorem vgaPutstr_returns {v : VgaState} (hv : v.InBounds) (str : Option (List Byte))
    (color : Byte) : ∃ v', vgaPutstr v str color = some v' ∧ v'.InBounds := by
  cases str with
  | none => exact ⟨v, rfl, hv⟩
  | some str =>
    change ∃ v', vgaPutchars v color str = some v' ∧ v'.InBounds
    induction str generalizing v with
    | nil => exact ⟨v, rfl, hv⟩
    | cons ch str ih =>
      by_cases hch : ch = 0
      · exact ⟨v, by simp only [vgaPutchars, if_pos hch, Option.pure_def], hv⟩
      · obtain ⟨w, hput, hw⟩ := vgaPutchar_returns hv ch color
        obtain ⟨v', hrest, hv'⟩ := ih hw
        refine ⟨v', ?_, hv'⟩
        simp only [vgaPutchars, if_neg hch, hput, hrest, Option.bind_eq_bind, Option.bind_some]

/-- The terminal that the driver shows: printed characters with their colours in rows of 80. -/
def vgaTerminal (text : List (Byte × Byte)) : Terminal (Byte × Byte) :=
  Terminal.layout 80 (fun p => p.1 = 0x0A) text

/-- The cell of what is shown in one place. -/
def vgaRender : Option (Byte × Byte) → BitVec 16
  | none => vgaBlank
  | some (ch, color) => vgaCell ch color

/-- The buffer and the cursor show a terminal. -/
structure VgaState.Shows (v : VgaState) (t : Terminal (Byte × Byte)) : Prop where
  /-- The cells. -/
  cell_eq : ∀ y < 25, ∀ x < 80, v.cell (y * 80 + x) = vgaRender (t.shown 25 y x)
  /-- The column of the cursor. -/
  column_eq : v.cursorX.toNat = t.current.length
  /-- The line of the cursor. -/
  line_eq : v.cursorY.toNat = t.line 25
  /-- The current row is not full. -/
  room : t.current.length < 80

namespace VgaState.Shows

variable {v w : VgaState} {t : Terminal (Byte × Byte)}

/-- The cursor is on the screen. -/
theorem inBounds (hv : v.Shows t) : v.InBounds := by
  have hline := hv.line_eq
  rw [Terminal.line_eq] at hline
  exact ⟨by rw [hv.column_eq]; exact hv.room, by omega⟩

/-- Going to the next line ends the current row. The row itself may have got its last
character since the cursor was read. -/
theorem nextLine (hcell : ∀ y < 25, ∀ x < 80, w.cell (y * 80 + x) = vgaRender (t.shown 25 y x))
    (hline : w.cursorY.toNat = t.line 25) :
    ∃ v', vgaNextLine w = some v' ∧ v'.Shows t.endRow := by
  have hend := t.line_endRow 25
  rw [Terminal.line_eq] at hline
  obtain ⟨v', hnext, hx, ⟨hlt, hy, hkept⟩ | ⟨hlast, hy, hmoved⟩⟩ :=
    vgaNextLine_eq (v := w) (by omega)
  · refine ⟨v', hnext, fun y hy' x hx' => ?_, by rw [hx]; rfl, by omega, Nat.zero_lt_succ _⟩
    rw [hkept, hcell y hy' x hx', Terminal.shown_endRow_of_room (by omega)]
  · refine ⟨v', hnext, fun y hy' x hx' => ?_, by rw [hx]; rfl, ?_, Nat.zero_lt_succ _⟩
    · rw [hmoved _ (by omega), Terminal.shown_endRow_of_full (by omega)]
      by_cases hbottom : y < 24
      · rw [if_pos (by omega), show y * 80 + x + 80 = (y + 1) * 80 + x by omega,
          hcell (y + 1) (by omega) x hx']
      · rw [if_neg (by omega), Terminal.shown_below (by omega)]
        rfl
    · rw [hend, hy]
      have h24 : (24 : Byte).toNat = 24 := rfl
      omega

/-- `vga_putchar` writes the character to the terminal. -/
theorem putchar (hv : v.Shows t) (ch color : Byte) :
    ∃ v', vgaPutchar v ch color = some v' ∧
      v'.Shows (t.write 80 (fun p => p.1 = 0x0A) (ch, color)) := by
  unfold Terminal.write
  by_cases hch : ch = 0x0A
  · rw [if_pos hch, hch, vgaPutchar_newline]
    exact nextLine hv.cell_eq hv.line_eq
  · rw [if_neg hch]
    obtain ⟨w, hcell, hy, hx, hput⟩ := vgaPutchar_eq hv.inBounds hch color
    have hroom := hv.room
    have hcolumn := hv.column_eq
    have hlength : (t.append (ch, color)).current.length = t.current.length + 1 := by
      simp [Terminal.append]
    have hline : w.cursorY.toNat = (t.append (ch, color)).line 25 := by
      rw [hy, hv.line_eq, Terminal.line_eq, Terminal.line_eq]
      rfl
    have hcell' : ∀ y < 25, ∀ x < 80,
        w.cell (y * 80 + x) = vgaRender ((t.append (ch, color)).shown 25 y x) := by
      intro y hy' x hx'
      have hcursor : y * 80 + x = v.cursorY.toNat * 80 + v.cursorX.toNat ↔
          y = t.line 25 ∧ x = t.current.length := by
        rw [← hv.line_eq, ← hcolumn]
        omega
      rw [hcell, Terminal.shown_append (by decide)]
      simp only [hcursor]
      split
      · rfl
      · exact hv.cell_eq y hy' x hx'
    rw [hput]
    by_cases hfull : v.cursorX.toNat = 79
    · rw [if_pos hfull, if_pos (by omega)]
      exact nextLine hcell' hline
    · rw [if_neg hfull, if_neg (by omega)]
      exact ⟨w, rfl, hcell', by omega, hline, by omega⟩

/-- The loop of `vga_putstr` writes the bytes before the first 0 to the terminal. -/
theorem putchars (hv : v.Shows t) (color : Byte) (str : List Byte) :
    ∃ v', vgaPutchars v color str = some v' ∧
      v'.Shows (((str.takeWhile (· ≠ 0)).map fun ch => (ch, color)).foldl
        (Terminal.write 80 fun p => p.1 = 0x0A) t) := by
  induction str generalizing v t with
  | nil => exact ⟨v, rfl, hv⟩
  | cons ch str ih =>
    by_cases hch : ch = 0
    · refine ⟨v, ?_, ?_⟩
      · simp only [vgaPutchars, if_pos hch, Option.pure_def]
      · rw [List.takeWhile_cons_of_neg (by simpa using hch)]
        exact hv
    · obtain ⟨w, hput, hw⟩ := hv.putchar ch color
      obtain ⟨v', hrest, hv'⟩ := ih hw
      refine ⟨v', ?_, ?_⟩
      · simp only [vgaPutchars, if_neg hch, hput, hrest, Option.bind_eq_bind, Option.bind_some]
      · rw [List.takeWhile_cons_of_pos (by simpa using hch), List.map_cons, List.foldl_cons]
        exact hv'

/-- Every call writes what it prints to the terminal. -/
theorem step (hv : v.Shows t) (call : VgaCall) :
    ∃ v', vgaStep v call = some v' ∧
      v'.Shows (call.printed.foldl (Terminal.write 80 fun p => p.1 = 0x0A) t) := by
  rcases call with ⟨ch, color⟩ | ⟨_ | str, color⟩
  · exact hv.putchar ch color
  · exact ⟨v, rfl, hv⟩
  · exact hv.putchars color str

/-- So does every sequence of calls. -/
theorem run (hv : v.Shows t) (calls : List VgaCall) :
    ∃ v', calls.foldlM vgaStep v = some v' ∧
      v'.Shows ((calls.flatMap VgaCall.printed).foldl
        (Terminal.write 80 fun p => p.1 = 0x0A) t) := by
  induction calls generalizing v t with
  | nil => exact ⟨v, rfl, hv⟩
  | cons call calls ih =>
    obtain ⟨w, hstep, hw⟩ := hv.step call
    obtain ⟨v', hrest, hv'⟩ := ih hw
    refine ⟨v', ?_, ?_⟩
    · rw [List.foldlM_cons, hstep]
      exact hrest
    · rw [List.flatMap_cons, List.foldl_append]
      exact hv'

end VgaState.Shows

/-- From `vga_clear` on, the driver shows the terminal of everything printed. -/
theorem vgaClear_run (v : VgaState) (calls : List VgaCall) :
    ∃ v₀ v', vgaClear v = some v₀ ∧ calls.foldlM vgaStep v₀ = some v' ∧
      v'.Shows (vgaTerminal (calls.flatMap VgaCall.printed)) := by
  obtain ⟨v₀, hclear, hx, hy, hcell⟩ := vgaClear_eq v
  have hempty : v₀.Shows Terminal.empty := by
    refine ⟨fun y hy' x hx' => ?_, by rw [hx]; rfl, by rw [hy]; rfl, by decide⟩
    rw [hcell _ (by omega), Terminal.shown_eq]
    cases y with
    | zero => rfl
    | succ y => rw [Terminal.glyph_below (by simp [Terminal.empty])]; rfl
  obtain ⟨v', hrun, hv'⟩ := hempty.run calls
  exact ⟨v₀, v', hclear, hrun, hv'⟩

/-- The low byte of a cell. -/
def vgaGlyph (cell : BitVec 16) : Byte := cell.extractLsb' 0 8

/-- The high byte of a cell. -/
def vgaAttribute (cell : BitVec 16) : Byte := cell.extractLsb' 8 8

/-- The bits of a cell. -/
theorem getLsbD_vgaCell (ch color : Byte) {i : ℕ} (hi : i < 16) :
    (vgaCell ch color).getLsbD i =
      ((decide (8 ≤ i) && color.getLsbD (i - 8)) || if i < 8 then ch.getLsbD i else ch.msb) := by
  simp only [vgaCell, BitVec.getLsbD_setWidth, BitVec.getLsbD_or, BitVec.getLsbD_shiftLeft,
    BitVec.getLsbD_signExtend, hi, show i < 32 by omega, show i - 8 < 32 by omega, decide_true,
    Bool.true_and]
  by_cases hlow : i < 8
  · simp [hlow, Nat.not_le.mpr hlow]
  · simp [hlow, Nat.le_of_not_lt hlow]

/-- The glyph of a character is its byte. -/
theorem vgaGlyph_cell (ch color : Byte) : vgaGlyph (vgaCell ch color) = ch := by
  apply BitVec.eq_of_getLsbD_eq
  intro i hi
  rw [vgaGlyph, BitVec.getLsbD_extractLsb', Nat.zero_add, getLsbD_vgaCell ch color (by omega)]
  simp [hi, Nat.not_le.mpr hi]

/-- The attribute of a character is its colour or-ed with the sign of the byte. -/
theorem vgaAttribute_cell (ch color : Byte) :
    vgaAttribute (vgaCell ch color) = color ||| if ch.msb then 0xFF else 0 := by
  apply BitVec.eq_of_getLsbD_eq
  intro i hi
  have hones : ∀ j < 8, (0xFF : Byte).getLsbD j = true := by decide
  rw [vgaAttribute, BitVec.getLsbD_extractLsb', getLsbD_vgaCell ch color (by omega),
    BitVec.getLsbD_or, Nat.add_sub_cancel_left, if_neg (show ¬ 8 + i < 8 by omega)]
  cases ch.msb with
  | false => simp [hi]
  | true =>
    rw [if_pos rfl, hones i hi, Bool.or_true, Bool.or_true]
    simp [hi]

/-- The attribute is the colour for the bytes below 0x80 and for the colour 0xFF. -/
theorem vgaAttribute_cell_iff (ch color : Byte) :
    vgaAttribute (vgaCell ch color) = color ↔ (0x80 ≤ ch.toNat → color = 0xFF) := by
  have hsign : ch.msb = decide (0x80 ≤ ch.toNat) := BitVec.msb_eq_decide ch
  rw [vgaAttribute_cell, hsign]
  by_cases hhigh : 0x80 ≤ ch.toNat
  · have hall : color ||| 0xFF = 0xFF := by
      have : ∀ c : Byte, c ||| 0xFF = 0xFF := by decide
      exact this color
    simp only [hhigh, decide_true, if_true, true_implies, hall]
    exact eq_comm
  · simp [hhigh]

/-- **The screen is a terminal.** From `vga_clear` on, after every sequence of calls with any
characters and colours: every index written was in the buffer; the glyphs are those of
the last 25 rows into which the text is laid, padded with spaces; and the cursor is at
the end of the current row. -/
theorem vga_shows_terminal (v : VgaState) (calls : List VgaCall) :
    ∃ v₀ v' t, vgaClear v = some v₀ ∧ calls.foldlM vgaStep v₀ = some v' ∧
      t = vgaTerminal (calls.flatMap VgaCall.printed) ∧
      (∀ y < 25, ∀ x < 80, vgaGlyph (v'.cell (y * 80 + x)) =
        ((t.shown 25 y x).map Prod.fst).getD 0x20) ∧
      v'.cursorX.toNat = t.current.length ∧ v'.cursorY.toNat = min (t.rows.length - 1) 24 ∧
      v'.cursorX.toNat < 80 ∧ v'.cursorY.toNat < 25 := by
  obtain ⟨v₀, v', hclear, hrun, hshows⟩ := vgaClear_run v calls
  refine ⟨v₀, v', _, hclear, hrun, rfl, fun y hy x hx => ?_, hshows.column_eq, hshows.line_eq,
    hshows.inBounds.column, hshows.inBounds.line⟩
  rw [hshows.cell_eq y hy x hx]
  cases (vgaTerminal (calls.flatMap VgaCall.printed)).shown 25 y x with
  | none => rfl
  | some p => exact vgaGlyph_cell p.1 p.2

/-- The attributes on the screen: the colour of each character shown, and white on black
elsewhere. -/
def VgaState.ShowsColors (v : VgaState) (t : Terminal (Byte × Byte)) : Prop :=
  ∀ y < 25, ∀ x < 80, vgaAttribute (v.cell (y * 80 + x)) =
    ((t.shown 25 y x).map Prod.snd).getD (vgaColor vgaColorWhite vgaColorBlack)

/-- **When the screen shows the colours.** From `vga_clear` on, after every sequence of calls,
each character shown has the colour it was printed with and each blank is white on black
exactly when every byte from 0x80 on that is still shown was printed with colour 0xFF. -/
theorem vga_shows_colors_iff (v : VgaState) (calls : List VgaCall) :
    ∃ v₀ v' t, vgaClear v = some v₀ ∧ calls.foldlM vgaStep v₀ = some v' ∧
      t = vgaTerminal (calls.flatMap VgaCall.printed) ∧
      (v'.ShowsColors t ↔
        ∀ y < 25, ∀ x < 80, ∀ ch color, t.shown 25 y x = some (ch, color) →
          0x80 ≤ ch.toNat → color = 0xFF) := by
  obtain ⟨v₀, v', hclear, hrun, hshows⟩ := vgaClear_run v calls
  refine ⟨v₀, v', _, hclear, hrun, rfl, ?_⟩
  refine forall₂_congr fun y hy => forall₂_congr fun x hx => ?_
  rw [hshows.cell_eq y hy x hx]
  cases (vgaTerminal (calls.flatMap VgaCall.printed)).shown 25 y x with
  | none => exact iff_of_true rfl fun ch color h => by cases h
  | some p =>
    obtain ⟨ch, color⟩ := p
    refine (vgaAttribute_cell_iff ch color).trans ?_
    simp

/-- The first byte of the lemon that the info command prints in green gets the attribute
0xFF. -/
theorem vga_high_byte_loses_color :
    ∃ v₀ v', vgaClear ⟨Vector.replicate 2000 0, 0, 0⟩ = some v₀ ∧
      vgaPutstr v₀ (some [0xF0]) 0x02 = some v' ∧ vgaGlyph (v'.cell 0) = 0xF0 ∧
      vgaAttribute (v'.cell 0) = 0xFF ∧ ¬ v'.ShowsColors (vgaTerminal [(0xF0, 0x02)]) := by
  obtain ⟨v₀, v', hclear, hrun, hshows⟩ :=
    vgaClear_run ⟨Vector.replicate 2000 0, 0, 0⟩ [.putstr (some [0xF0]) 0x02]
  rw [List.foldlM_cons] at hrun
  obtain ⟨w, hput, hrest⟩ := Option.bind_eq_some_iff.mp hrun
  obtain rfl : w = v' := by simpa using hrest
  have hcell : w.cell 0 = vgaCell 0xF0 0x02 := hshows.cell_eq 0 (by decide) 0 (by decide)
  have hattribute : vgaAttribute (w.cell 0) = 0xFF := by
    rw [hcell]
    decide
  refine ⟨v₀, w, hclear, hput, ?_, hattribute, fun hcolors => ?_⟩
  · rw [hcell]
    decide
  · have hgreen : vgaAttribute (w.cell 0) = 0x02 := hcolors 0 (by decide) 0 (by decide)
    rw [hattribute] at hgreen
    exact absurd hgreen (by decide)

end Nimbu
