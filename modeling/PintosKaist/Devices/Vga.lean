/-
The text screen (`devices/vga.c`).

`vga_putc` writes to a screen of 25 rows that it scrolls. What it comes to is
told by a sheet of paper without end, that a cursor goes down on: the screen
shows its last 25 rows (`vga_shows`), and so the last lines of a text
(`screen_last_lines`).
-/
import Mathlib.Data.BitVec
import Mathlib.Data.List.Basic
import Mathlib.Logic.Function.Basic

namespace PintosKaist.Vga

/-- `COL_CNT`, `ROW_CNT` -/
def colCnt : Nat := 80
def rowCnt : Nat := 25

/-- A character of the framebuffer and its attribute. -/
structure Cell where
  char : UInt8
  attr : UInt8
deriving DecidableEq

/-- `GRAY_ON_BLACK` -/
def grayOnBlack : UInt8 := 0x07

def blank : Cell := ⟨32, grayOnBlack⟩

/-- The index register of the display controller and the registers behind it. -/
structure Crtc where
  index : BitVec 8
  reg : BitVec 8 → BitVec 8

/-- `outb (0x3d4, v)` -/
def Crtc.select (h : Crtc) (v : BitVec 8) : Crtc := { h with index := v }

/-- `outw (0x3d4, v)`: the index is in the low byte, the data in the high one. -/
def Crtc.outw (h : Crtc) (v : BitVec 16) : Crtc where
  index := v.setWidth 8
  reg := Function.update h.reg (v.setWidth 8) ((v >>> 8).setWidth 8)

/-- `inb (0x3d5)` -/
def Crtc.inb (h : Crtc) : BitVec 8 := h.reg h.index

/-- `fb`, `cx` and `cy`, and the controller. -/
structure Display where
  fb : Nat → Nat → Cell
  cx : Nat
  cy : Nat
  crtc : Crtc

/-- `clear_row` -/
def clearRow (v : Display) (y : Nat) : Display :=
  { v with fb := Function.update v.fb y ((List.range colCnt).foldl (fun row x => Function.update row x blank) (v.fb y)) }

/-- `move_cursor` -/
def moveCursor (v : Display) : Display :=
  let cp := BitVec.ofNat 16 (v.cx + colCnt * v.cy)
  { v with crtc := (v.crtc.outw (0x0e ||| cp &&& 0xff00)).outw (0x0f ||| cp <<< 8) }

/-- `find_cursor`: the column and the row. -/
def findCursor (h : Crtc) : Nat × Nat × Crtc :=
  let h := h.select 0x0e
  let cp : BitVec 16 := h.inb.setWidth 16 <<< 8
  let h := h.select 0x0f
  let cp := cp ||| h.inb.setWidth 16
  (cp.toNat % colCnt, cp.toNat / colCnt, h)

/-- `init`, the first time -/
def init (fb : Nat → Nat → Cell) (h : Crtc) : Display :=
  let (cx, cy, h) := findCursor h
  ⟨fb, cx, cy, h⟩

/-- `cls` -/
def cls (v : Display) : Display := moveCursor { (List.range rowCnt).foldl clearRow v with cx := 0, cy := 0 }

/-- `memmove (&fb[0], &fb[1], sizeof fb[0] * (ROW_CNT - 1))` -/
def scroll (fb : Nat → Nat → Cell) : Nat → Nat → Cell := fun y => if y < rowCnt - 1 then fb (y + 1) else fb y

/-- `newline` -/
def newline (v : Display) : Display :=
  let v := { v with cx := 0, cy := v.cy + 1 }
  if rowCnt ≤ v.cy then clearRow { v with cy := rowCnt - 1, fb := scroll v.fb } (rowCnt - 1) else v

/-- `ROUND_UP` -/
def roundUp (x step : Nat) : Nat := (x + step - 1) / step * step

/-- `vga_putc` -/
def vgaPutc (v : Display) (c : UInt8) : Display :=
  moveCursor <|
    if c = 10 then newline v
    else if c = 12 then cls v
    else if c = 8 then if 0 < v.cx then { v with cx := v.cx - 1 } else v
    else if c = 13 then { v with cx := 0 }
    else if c = 9 then
      let v := { v with cx := roundUp (v.cx + 1) 8 }
      if colCnt ≤ v.cx then newline v else v
    else
      let v := { v with
        fb := Function.update v.fb v.cy (Function.update (v.fb v.cy) v.cx ⟨c, grayOnBlack⟩)
        cx := v.cx + 1 }
      if colCnt ≤ v.cx then newline v else v

/-! ## Paper -/

/-- A sheet without end: its cells, the cursor, and the first row in view. -/
structure Paper where
  cell : Nat → Nat → Cell
  row : Nat
  col : Nat
  top : Nat

namespace Paper

/-- To the next row; the view follows the cursor. -/
def newline (p : Paper) : Paper :=
  { p with row := p.row + 1, col := 0, top := if p.top + rowCnt ≤ p.row + 1 then p.top + 1 else p.top }

/-- To a column of the row, or of the next one behind the last. -/
def goto (p : Paper) (col : Nat) : Paper := if colCnt ≤ col then p.newline else { p with col := col }

def type (p : Paper) (c : UInt8) : Paper :=
  { p with cell := Function.update p.cell p.row (Function.update (p.cell p.row) p.col ⟨c, grayOnBlack⟩) }.goto (p.col + 1)

/-- A new page. -/
def formFeed (p : Paper) : Paper := { p with row := p.top + rowCnt, col := 0, top := p.top + rowCnt }

def putc (p : Paper) (c : UInt8) : Paper :=
  if c = 10 then p.newline
  else if c = 12 then p.formFeed
  else if c = 8 then p.goto (p.col - 1)
  else if c = 13 then p.goto 0
  else if c = 9 then p.goto ((p.col / 8 + 1) * 8)
  else p.type c

end Paper

/-- The screen has the part of the paper that is in view, with the cursor in its
row. -/
structure View (p : Paper) (v : Display) : Prop where
  cell : ∀ y < rowCnt, ∀ x < colCnt, v.fb y x = p.cell (p.top + y) x
  below : ∀ r x, p.top + rowCnt ≤ r → x < colCnt → p.cell r x = blank
  row : p.row = p.top + v.cy
  cy : v.cy < rowCnt

/-- The screen shows the paper: its cursor, and the hardware's, are where the
paper's is. -/
structure Shows (p : Paper) (v : Display) : Prop extends View p v where
  col : p.col = v.cx
  cx : v.cx < colCnt
  cursor : ((findCursor v.crtc).1, (findCursor v.crtc).2.1) = (v.cx, v.cy)

variable {p : Paper} {v : Display} {c : UInt8} {h : Crtc} {fb : Nat → Nat → Cell} {x y : Nat}

/-! ## The cursor -/

theorem outw_bytes (cp : BitVec 16) : (0x0e ||| cp &&& 0xff00).setWidth 8 = (0x0e : BitVec 8) ∧
    ((0x0e ||| cp &&& 0xff00) >>> 8).setWidth 8 = (cp >>> 8).setWidth 8 ∧
    (0x0f ||| cp <<< 8).setWidth 8 = (0x0f : BitVec 8) ∧ ((0x0f ||| cp <<< 8) >>> 8).setWidth 8 = cp.setWidth 8 := by
  have hcases : ∀ i < 8, i = 0 ∨ i = 1 ∨ i = 2 ∨ i = 3 ∨ i = 4 ∨ i = 5 ∨ i = 6 ∨ i = 7 := by omega
  refine ⟨?_, ?_, ?_, ?_⟩
  all_goals
    ext i hi
    obtain rfl | rfl | rfl | rfl | rfl | rfl | rfl | rfl := hcases i hi <;> simp

/-- A word is made of its bytes. -/
theorem word_bytes (cp : BitVec 16) : ((cp >>> 8).setWidth 8).setWidth 16 <<< 8 ||| (cp.setWidth 8).setWidth 16 = cp := by
  ext i hi
  by_cases h : i < 8
  · simp [h, BitVec.getLsbD_eq_getElem hi]
  · have hback : 8 + (i - 8) = i := by omega
    have hlt : i - 8 < 8 := by omega
    simp [h, hback, hlt, BitVec.getLsbD_eq_getElem hi]

/-- What `move_cursor` writes, `find_cursor` reads. -/
theorem find_move (hx : v.cx < colCnt) (hy : v.cy < rowCnt) :
    ((findCursor (moveCursor v).crtc).1, (findCursor (moveCursor v).crtc).2.1) = (v.cx, v.cy) := by
  obtain ⟨h₁, h₂, h₃, h₄⟩ := outw_bytes (BitVec.ofNat 16 (v.cx + colCnt * v.cy))
  have hlt : v.cx + colCnt * v.cy < 2 ^ 16 := by
    simp only [colCnt, rowCnt] at hx hy ⊢
    omega
  have hne : (0x0e : BitVec 8) ≠ 0x0f := by decide
  simp only [findCursor, moveCursor, Crtc.outw, Crtc.select, Crtc.inb, h₁, h₂, h₃, h₄, Function.update_self,
    Function.update_of_ne hne, word_bytes, BitVec.toNat_ofNat, Nat.mod_eq_of_lt hlt, Prod.mk.injEq]
  refine ⟨?_, ?_⟩
  · rw [Nat.add_mul_mod_self_left, Nat.mod_eq_of_lt hx]
  · rw [Nat.add_mul_div_left _ _ (by decide), Nat.div_eq_of_lt hx, Nat.zero_add]

/-! ## Rows -/

theorem clearRow_fb (v : Display) (y r x : Nat) (hx : x < colCnt) :
    (clearRow v y).fb r x = if r = y then blank else v.fb r x := by
  have hrow : ∀ n (row : Nat → Cell), ((List.range n).foldl (fun row x => Function.update row x blank) row) x =
      if x < n then blank else row x := fun n row => by
    induction n with
    | zero => rfl
    | succ n ih =>
      rw [List.range_succ, List.foldl_append, List.foldl_cons, List.foldl_nil]
      by_cases hxn : x = n
      · subst hxn
        rw [Function.update_self, if_pos (Nat.lt_succ_self x)]
      · rw [Function.update_of_ne hxn, ih]
        simp only [Nat.lt_succ_iff_lt_or_eq, hxn, or_false]
  by_cases hr : r = y
  · subst hr
    simp only [clearRow, Function.update_self, hrow, if_pos hx, if_true]
  · simp only [clearRow, Function.update_of_ne hr, if_neg hr]

@[simp] theorem clearRow_cx (v : Display) (y : Nat) : (clearRow v y).cx = v.cx := rfl

@[simp] theorem clearRow_cy (v : Display) (y : Nat) : (clearRow v y).cy = v.cy := rfl

/-- The rows that a loop of `clear_row` leaves. -/
theorem foldl_clearRow (v : Display) (n r x : Nat) (hx : x < colCnt) :
    ((List.range n).foldl clearRow v).fb r x = if r < n then blank else v.fb r x := by
  induction n with
  | zero => rfl
  | succ n ih =>
    rw [List.range_succ, List.foldl_append, List.foldl_cons, List.foldl_nil, clearRow_fb _ _ _ _ hx, ih]
    by_cases hr : r = n
    · subst hr
      rw [if_pos rfl, if_pos (Nat.lt_succ_self r)]
    · simp only [Nat.lt_succ_iff_lt_or_eq, hr, or_false, if_false]

/-! ## The screen and the paper -/

theorem View.newline (hv : View p v) : View p.newline (Vga.newline v) ∧ (Vga.newline v).cx = 0 := by
  unfold Vga.newline Paper.newline
  have hrows : 0 < rowCnt := by decide
  by_cases hlast : rowCnt ≤ v.cy + 1
  · have hrow : p.top + rowCnt ≤ p.row + 1 := by
      rw [hv.row]
      omega
    have hcy : v.cy + 1 = rowCnt := Nat.le_antisymm hv.cy hlast
    simp only [if_pos hlast, if_pos hrow, clearRow_cx, and_true]
    refine ⟨fun y hy x hx => ?_, fun r x hr hx => hv.below r x (by simp only at hr; omega) hx, ?_, ?_⟩
    · rw [clearRow_fb _ _ _ _ hx]
      by_cases hy' : y = rowCnt - 1
      · rw [if_pos hy', hv.below (p.top + 1 + y) x (by omega) hx]
      · have hlt : y < rowCnt - 1 := by omega
        have hnext : p.top + (y + 1) = p.top + 1 + y := by omega
        simp only [if_neg hy', scroll, if_pos hlt]
        rw [hv.cell (y + 1) (by omega) x hx, hnext]
    · simp only [hv.row, clearRow_cy]
      omega
    · simp only [clearRow_cy]
      omega
  · have hrow : ¬ p.top + rowCnt ≤ p.row + 1 := by
      rw [hv.row]
      omega
    simp only [if_neg hlast, if_neg hrow, and_true]
    refine ⟨hv.cell, hv.below, ?_, Nat.lt_of_not_le hlast⟩
    simp only [hv.row, Nat.add_assoc]

theorem View.shows (hv : View p v) (hcol : p.col = v.cx) (hx : v.cx < colCnt) : Shows p (moveCursor v) where
  cell := hv.cell
  below := hv.below
  row := hv.row
  cy := hv.cy
  col := hcol
  cx := hx
  cursor := find_move hx hv.cy

/-- The cursor goes to a column, or to the next row. -/
theorem View.goto (hv : View p v) (hx : v.cx = x) :
    Shows (p.goto x) (moveCursor (if colCnt ≤ v.cx then Vga.newline v else v)) := by
  unfold Paper.goto
  rw [hx]
  by_cases hlast : colCnt ≤ x
  · rw [if_pos hlast, if_pos hlast]
    obtain ⟨hview, hcx⟩ := hv.newline
    exact hview.shows hcx.symm (hcx ▸ by decide)
  · rw [if_neg hlast, if_neg hlast]
    have hcol : View { p with col := x } v := ⟨hv.cell, hv.below, hv.row, hv.cy⟩
    exact hcol.shows hx.symm (by omega)

/-- A character is put where the cursor is. -/
theorem View.put (c : UInt8) (hv : View p v) (hcol : p.col = v.cx) :
    View { p with cell := Function.update p.cell p.row (Function.update (p.cell p.row) p.col ⟨c, grayOnBlack⟩) }
      { v with
        fb := Function.update v.fb v.cy (Function.update (v.fb v.cy) v.cx ⟨c, grayOnBlack⟩)
        cx := v.cx + 1 } := by
  refine ⟨fun y hy x hx => ?_, fun r x hr hx => ?_, hv.row, hv.cy⟩
  · have hrows : p.top + y = p.row ↔ y = v.cy := by
      rw [hv.row]
      omega
    by_cases hyc : y = v.cy
    · subst hyc
      rw [hv.row, hcol]
      simp only [Function.update_self]
      by_cases hxc : x = v.cx
      · subst hxc
        simp only [Function.update_self]
      · simp only [Function.update_of_ne hxc, hv.cell _ hy x hx]
    · have hne : p.top + y ≠ p.row := fun h => hyc (hrows.mp h)
      simp only [Function.update_of_ne hyc, Function.update_of_ne hne, hv.cell y hy x hx]
  · have hne : r ≠ p.row := fun h => by
      have := hv.row
      have := hv.cy
      simp only at hr
      omega
    simp only [Function.update_of_ne hne]
    exact hv.below r x hr hx

theorem roundUp_eq (x : Nat) : roundUp (x + 1) 8 = (x / 8 + 1) * 8 := by
  have hdiv : (x + 1 + 8 - 1) / 8 = x / 8 + 1 := by omega
  rw [roundUp, hdiv]

/-- A step of the screen is the same step on the paper. -/
theorem vgaPutc_shows (c : UInt8) (h : Shows p v) : Shows (p.putc c) (vgaPutc v c) := by
  unfold vgaPutc Paper.putc
  have hcx := h.cx
  have hgoto : ∀ y < colCnt, ∀ w : Display, View p w → w.cx = y → Shows (p.goto y) (moveCursor w) := fun y hy w hw hwx => by
    have hg := hw.goto hwx
    rwa [if_neg (by omega)] at hg
  by_cases h10 : c = 10
  · rw [if_pos h10, if_pos h10]
    obtain ⟨hview, hcx⟩ := h.toView.newline
    exact hview.shows hcx.symm (hcx ▸ by decide)
  rw [if_neg h10, if_neg h10]
  by_cases h12 : c = 12
  · rw [if_pos h12, if_pos h12]
    have hrow : 0 < rowCnt := by decide
    have hcol : 0 < colCnt := by decide
    have hfb : ∀ r x, x < colCnt → (moveCursor (cls v)).fb r x = if r < rowCnt then blank else v.fb r x := fun r x hx =>
      foldl_clearRow v rowCnt r x hx
    refine ⟨⟨fun y hy x hx => ?_, fun r x hr hx => h.below r x ?_ hx, rfl, hrow⟩, rfl, hcol, find_move (v := cls v) hcol hrow⟩
    · rw [hfb y x hx, if_pos hy]
      exact (h.below (p.top + rowCnt + y) x (Nat.le_add_right _ _) hx).symm
    · simp only [Paper.formFeed] at hr
      omega
  rw [if_neg h12, if_neg h12]
  by_cases h8 : c = 8
  · rw [if_pos h8, if_pos h8, h.col]
    by_cases hpos : 0 < v.cx
    · rw [if_pos hpos]
      exact hgoto _ (by omega) _ ⟨h.cell, h.below, h.row, h.cy⟩ rfl
    · rw [if_neg hpos]
      exact hgoto _ (by omega) _ h.toView (by omega)
  rw [if_neg h8, if_neg h8]
  by_cases h13 : c = 13
  · rw [if_pos h13, if_pos h13]
    exact hgoto 0 (by decide) _ ⟨h.cell, h.below, h.row, h.cy⟩ rfl
  rw [if_neg h13, if_neg h13]
  by_cases h9 : c = 9
  · rw [if_pos h9, if_pos h9, h.col]
    have hview : View p { v with cx := roundUp (v.cx + 1) 8 } := ⟨h.cell, h.below, h.row, h.cy⟩
    exact hview.goto (roundUp_eq v.cx)
  rw [if_neg h9, if_neg h9, Paper.type, h.col]
  have hput := h.toView.put c h.col
  rw [h.col] at hput
  exact hput.goto rfl

/-- The paper with what is on the screen at first. -/
def firstPaper (v : Display) : Paper := ⟨fun r x => if r < rowCnt then v.fb r x else blank, v.cy, v.cx, 0⟩

theorem init_shows (fb : Nat → Nat → Cell) (h : Crtc) (hcur : (findCursor h).2.1 < rowCnt) :
    Shows (firstPaper (init fb h)) (init fb h) := by
  have hmod : (findCursor h).1 < colCnt := Nat.mod_lt _ (by decide)
  refine ⟨⟨fun y hy x _ => ?_, fun r x hr _ => ?_, (Nat.zero_add _).symm, hcur⟩, rfl, hmod, rfl⟩
  · simp only [firstPaper, Nat.zero_add, if_pos hy]
  · simp only [firstPaper, Nat.zero_add] at hr ⊢
    rw [if_neg (by omega)]

theorem foldl_shows (text : List UInt8) (hs : Shows p v) : Shows (text.foldl Paper.putc p) (text.foldl vgaPutc v) := by
  induction text generalizing p v with
  | nil => exact hs
  | cons c text ih => exact ih (vgaPutc_shows c hs)

/-- **The screen.** From wherever the cursor was found on the screen, after
every text the screen shows the last 25 rows of the paper that the text is
typed on, and the hardware's cursor is on it where the paper's is. -/
theorem vga_shows (fb : Nat → Nat → Cell) (h : Crtc) (hcur : (findCursor h).2.1 < rowCnt) (text : List UInt8) :
    Shows (text.foldl Paper.putc (firstPaper (init fb h))) (text.foldl vgaPutc (init fb h)) :=
  foldl_shows text (init_shows fb h hcur)

/-- The screen after a reset, its cursor at the top. -/
def atReset : Crtc := ⟨0, fun _ => 0⟩

theorem vga_shows_hi : Shows ([104, 105, 10].foldl Paper.putc (firstPaper (init (fun _ _ => blank) atReset)))
    ([104, 105, 10].foldl vgaPutc (init (fun _ _ => blank) atReset)) :=
  vga_shows _ atReset (by decide) _

/-! ## Lines of text -/

/-- The byte is not one that `vga_putc` interprets. -/
def Printable (c : UInt8) : Prop := c ≠ 10 ∧ c ≠ 12 ∧ c ≠ 8 ∧ c ≠ 13 ∧ c ≠ 9

/-- A row with a line typed over it from a column on. -/
def typed (row : Nat → Cell) (col : Nat) (text : List UInt8) : Nat → Cell := fun x =>
  if col ≤ x then (text[x - col]?).elim (row x) fun c => ⟨c, grayOnBlack⟩ else row x

/-- A cell of lines from the first column on, one a row. -/
def lineCell (lines : List (List UInt8)) (r x : Nat) : Cell :=
  ((lines[r]?).bind fun text => text[x]?).elim blank fun c => ⟨c, grayOnBlack⟩

theorem putc_printable (p : Paper) (hc : Printable c) : p.putc c = p.type c := by
  obtain ⟨h10, h12, h8, h13, h9⟩ := hc
  rw [Paper.putc, if_neg h10, if_neg h12, if_neg h8, if_neg h13, if_neg h9]

theorem typed_cons (row : Nat → Cell) (col : Nat) (c : UInt8) (line : List UInt8) :
    typed row col (c :: line) = typed (Function.update row col ⟨c, grayOnBlack⟩) (col + 1) line := by
  funext x
  unfold typed
  by_cases hx : x = col
  · subst hx
    rw [if_pos (Nat.le_refl x), if_neg (Nat.not_succ_le_self x), Function.update_self, Nat.sub_self]
    rfl
  · by_cases hlt : col ≤ x
    · have hsub : x - col = x - (col + 1) + 1 := by omega
      rw [if_pos hlt, if_pos (by omega), hsub, List.getElem?_cons_succ, Function.update_of_ne hx]
    · rw [if_neg hlt, if_neg (by omega), Function.update_of_ne hx]

/-- A line that fits goes into the row of the cursor. -/
theorem foldl_putc_line : ∀ (line : List UInt8) (p : Paper), p.col + line.length < colCnt → (∀ c ∈ line, Printable c) →
    line.foldl Paper.putc p =
      { p with cell := Function.update p.cell p.row (typed (p.cell p.row) p.col line), col := p.col + line.length }
  | [], p, _, _ => by
    have hrow : typed (p.cell p.row) p.col [] = p.cell p.row := by
      funext x
      unfold typed
      split <;> rfl
    rw [hrow, Function.update_eq_self]
    rfl
  | c :: line, p, hfit, hp => by
    have hfit' : p.col + 1 + line.length < colCnt := by
      rw [List.length_cons] at hfit
      omega
    have htype : p.type c = { p with
        cell := Function.update p.cell p.row (Function.update (p.cell p.row) p.col ⟨c, grayOnBlack⟩)
        col := p.col + 1 } := by
      rw [Paper.type, Paper.goto, if_neg (by omega)]
    have ih := foldl_putc_line line (p.type c) (by rw [htype]; exact hfit') fun d hd => hp d (List.mem_cons_of_mem c hd)
    rw [List.foldl_cons, putc_printable p (hp c List.mem_cons_self), ih, htype]
    simp only [Function.update_self, Function.update_idem, typed_cons, List.length_cons, Paper.mk.injEq, true_and,
      and_true]
    omega

/-- The paper has the lines from a row on, and the cursor is behind them. -/
structure Lines (p₀ : Paper) (lines : List (List UInt8)) (p : Paper) : Prop where
  cell : ∀ r x, x < colCnt → p₀.row ≤ r → p.cell r x = lineCell lines (r - p₀.row) x
  row : p.row = p₀.row + lines.length
  col : p.col = 0
  top : p.top = max p₀.top (p₀.row + lines.length + 1 - rowCnt)

theorem lineCell_snoc (lines : List (List UInt8)) (text : List UInt8) (r x : Nat) :
    lineCell (lines ++ [text]) r x =
      if r = lines.length then (text[x]?).elim blank fun c => ⟨c, grayOnBlack⟩ else lineCell lines r x := by
  unfold lineCell
  by_cases hr : r = lines.length
  · subst hr
    rw [if_pos rfl, List.getElem?_concat_length]
    rfl
  · rw [if_neg hr]
    by_cases hlt : r < lines.length
    · rw [List.getElem?_append_left hlt]
    · rw [List.getElem?_eq_none (by simp; omega), List.getElem?_eq_none (by omega)]

theorem foldl_putc_lines (p₀ : Paper) (hcol : p₀.col = 0) (htop : p₀.row < p₀.top + rowCnt)
    (hblank : ∀ r x, x < colCnt → p₀.row ≤ r → p₀.cell r x = blank) (lines : List (List UInt8))
    (hl : ∀ line ∈ lines, line.length < colCnt ∧ ∀ c ∈ line, Printable c) :
    Lines p₀ lines ((lines.flatMap fun line => line ++ [10]).foldl Paper.putc p₀) := by
  induction lines using List.reverseRecOn with
  | nil =>
    refine ⟨fun r x hx hr => hblank r x hx hr, rfl, hcol, ?_⟩
    simp only [List.flatMap_nil, List.foldl_nil, List.length_nil, Nat.add_zero]
    omega
  | append_singleton lines line ih =>
    obtain ⟨hfit, hpr⟩ := hl line (by simp)
    have h := ih fun l hm => hl l (List.mem_append_left _ hm)
    rw [List.flatMap_append, List.foldl_append]
    generalize (lines.flatMap fun line => line ++ [10]).foldl Paper.putc p₀ = p at h ⊢
    have hline := foldl_putc_line line p (by rw [h.col, Nat.zero_add]; exact hfit) hpr
    have hnl : ∀ q : Paper, q.putc 10 = q.newline := fun _ => rfl
    simp only [List.flatMap_cons, List.flatMap_nil, List.append_nil, List.foldl_append, List.foldl_cons, List.foldl_nil,
      hline, hnl]
    refine ⟨fun r x hx hr => ?_, ?_, rfl, ?_⟩
    · simp only [Paper.newline, lineCell_snoc]
      by_cases hrow : r = p.row
      · subst hrow
        have hlast : p.row - p₀.row = lines.length := by
          rw [h.row]
          omega
        have hempty : p.cell p.row x = blank := by
          rw [h.cell p.row x hx hr, hlast]
          simp [lineCell]
        rw [Function.update_self, if_pos hlast, typed, h.col, if_pos (Nat.zero_le x), Nat.sub_zero, hempty]
      · have hne : r - p₀.row ≠ lines.length := fun he => hrow (by rw [h.row]; omega)
        rw [Function.update_of_ne hrow, if_neg hne, h.cell r x hx hr]
    · simp only [Paper.newline, h.row, List.length_append, List.length_cons, List.length_nil]
      omega
    · have := h.row
      have := h.top
      simp only [Paper.newline, List.length_append, List.length_cons, List.length_nil]
      split <;> omega

/-- **The last lines.** After a clear screen and any number of lines that fit,
whatever was printed before, the screen shows the last 24 of them from the top
on, or all, and the cursor is in the row behind. -/
theorem screen_last_lines (fb : Nat → Nat → Cell) (h : Crtc) (hcur : (findCursor h).2.1 < rowCnt) (before : List UInt8)
    (lines : List (List UInt8)) (hl : ∀ line ∈ lines, line.length < colCnt ∧ ∀ c ∈ line, Printable c) :
    let v := (before ++ [12] ++ lines.flatMap fun line => line ++ [10]).foldl vgaPutc (init fb h)
    (∀ y < rowCnt, ∀ x < colCnt, v.fb y x = lineCell lines (lines.length + 1 - rowCnt + y) x) ∧
      ((findCursor v.crtc).1, (findCursor v.crtc).2.1) = (0, min lines.length (rowCnt - 1)) := by
  intro v
  have hb := foldl_shows before (init_shows fb h hcur)
  have hsplit : v = (12 :: lines.flatMap fun line => line ++ [10]).foldl vgaPutc (before.foldl vgaPutc (init fb h)) := by
    simp only [v, List.foldl_append, List.foldl_cons, List.foldl_nil]
  have hs := foldl_shows (12 :: lines.flatMap fun line => line ++ [10]) hb
  rw [← hsplit] at hs
  generalize before.foldl Paper.putc (firstPaper (init fb h)) = q at hb hs
  have hff : q.putc 12 = q.formFeed := rfl
  rw [List.foldl_cons, hff] at hs
  have hlines := foldl_putc_lines q.formFeed rfl (Nat.lt_add_of_pos_right (by decide))
    (fun r x hx hr => hb.below r x hr hx) lines hl
  generalize (lines.flatMap fun line => line ++ [10]).foldl Paper.putc q.formFeed = p at hlines hs
  have htop : p.top = q.formFeed.row + (lines.length + 1 - rowCnt) := by
    have hq : q.formFeed.top = q.formFeed.row := rfl
    have := hlines.top
    omega
  refine ⟨fun y hy x hx => ?_, ?_⟩
  · have hrow : p.top + y - q.formFeed.row = lines.length + 1 - rowCnt + y := by omega
    rw [hs.cell y hy x hx, hlines.cell _ x hx (by omega), hrow]
  · have := hs.row
    have := hlines.row
    have hcx : v.cx = 0 := hs.col.symm.trans hlines.col
    have hcy : v.cy = min lines.length (rowCnt - 1) := by omega
    rw [hs.cursor, hcx, hcy]

def hi : List (List UInt8) := [[104, 105]]

theorem screen_last_lines_hi :
    let v := ([] ++ [12] ++ hi.flatMap fun line => line ++ [10]).foldl vgaPutc (init (fun _ _ => blank) atReset)
    (∀ y < rowCnt, ∀ x < colCnt, v.fb y x = lineCell hi (hi.length + 1 - rowCnt + y) x) ∧
      ((findCursor v.crtc).1, (findCursor v.crtc).2.1) = (0, min hi.length (rowCnt - 1)) :=
  screen_last_lines _ atReset (by decide) [] hi fun line hline => by
    obtain rfl := List.mem_singleton.mp hline
    refine ⟨by decide, fun c hc => ?_⟩
    obtain rfl | hc := List.mem_cons.mp hc
    · exact ⟨by decide, by decide, by decide, by decide, by decide⟩
    · obtain rfl := List.mem_singleton.mp hc
      exact ⟨by decide, by decide, by decide, by decide, by decide⟩

end PintosKaist.Vga
