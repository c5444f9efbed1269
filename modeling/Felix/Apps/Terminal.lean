import Mathlib.Data.List.DropRight
import Felix.Base.Runs

/-!
# The screen of the terminal

What the actions of the parser do to the screen of `terminal.rs`.  A character in the last column
leaves the column equal to the width until the next one is printed, and the sequences that erase
up to the cursor then reach one cell into the next row.

An index outside a vector is the fault `overflow`, and the indices of one loop are checked
together.  The program is built without overflow checks, so the number of cells wraps; on a screen
that has all its cells no other number does.  `resize`, the view of the scrollback and the drawing
are left out, and the colours that `sgr` selects are a parameter.
-/

namespace Felix.Terminal

open List Res

abbrev Rgb888 := UInt8 × UInt8 × UInt8

abbrev Params := List (List UInt16)

structure Cell where
  ch : Char
  fg : Rgb888
  bg : Rgb888
  deriving DecidableEq

def Cell.empty : Cell := ⟨' ', (0xF0, 0xF0, 0xF0), (0x10, 0x18, 0x20)⟩

/-- The colours of the text, and whether they are exchanged. -/
structure Pen where
  fg : Rgb888
  bg : Rgb888
  inverse : Bool

structure Screen where
  cols : Nat
  rows : Nat
  cells : List Cell
  /-- Whether a row goes on in the next one. -/
  rowSoft : List Bool
  scrollback : List (List Cell × Bool)
  row : Nat
  col : Nat
  pen : Pen
  afterCarriageReturn : Bool

/-- The vectors of a screen.  A vector has less than `2 ^ 31` bytes, and a cell has 12. -/
def buffers (cols rows : Nat) : Res (List Cell × List Bool) :=
  let n := cols * rows % 2 ^ 32
  if n * 12 < 2 ^ 31 ∧ rows < 2 ^ 31 then .ok (replicate n .empty, replicate rows false)
  else .error .memory

def new (cols rows : Nat) : Res Screen := do
  let (cells, rowSoft) ← buffers (max cols 1) (max rows 1)
  .ok ⟨max cols 1, max rows 1, cells, rowSoft, [], 0, 0, ⟨Cell.empty.fg, Cell.empty.bg, false⟩,
    false⟩

/-- An assignment to an element of a vector. -/
def store {α : Type} (l : List α) (i : Nat) (a : α) : Res (List α) :=
  if i < l.length then .ok (l.set i a) else .error .overflow

namespace Screen

variable (s : Screen)

def clearRange (start stop : Nat) : Res Screen :=
  if start ≤ min stop s.cells.length then
    .ok { s with cells := s.cells.mapIdx fun i c => if start ≤ i ∧ i < stop then .empty else c }
  else .error .overflow

def clearAll : Screen :=
  { s with cells := s.cells.map fun _ => .empty, rowSoft := s.rowSoft.map fun _ => false }

def scrollUp : Res Screen :=
  if s.cols ≤ s.cells.length then
    let back := s.scrollback ++ [(s.cells.take s.cols, s.rowSoft.headD false)]
    .ok { s with
      cells := s.cells.drop s.cols ++ replicate s.cols .empty
      rowSoft := s.rowSoft.tail ++ [false]
      scrollback := back.drop (back.length - 256) }
  else .error .overflow

def lineFeed : Res Screen :=
  if s.row + 1 < s.rows then .ok { s with row := s.row + 1 } else s.scrollUp

def hardBreak : Res Screen :=
  lineFeed { s with rowSoft := s.rowSoft.set s.row false, col := 0 }

/-- The row goes on in the next one. -/
def softBreak : Res Screen := do
  let rowSoft ← store s.rowSoft s.row true
  lineFeed { s with rowSoft, col := 0 }

/-- A cell at the cursor, which moves on. -/
def place (cell : Cell) : Res Screen := do
  let cells ← store s.cells (s.row * s.cols + s.col) cell
  .ok { s with cells, col := s.col + 1 }

/-- The cells of a row. -/
def line (row : Nat) : Res (List Cell) :=
  if row * s.cols + s.cols ≤ s.cells.length then .ok ((s.cells.drop (row * s.cols)).take s.cols)
  else .error .overflow

def wrapCurrentWord : Res Screen := do
  let word := (← s.line s.row).rtakeWhile (·.ch ≠ ' ')
  -- a word as long as the row stays there
  let overflow := if word.length < s.cols then word else []
  let stop := s.row * s.cols + s.cols
  let t ← s.clearRange (stop - overflow.length) stop
  let t ← t.softBreak
  overflow.foldlM (fun t cell => do
    let t ← if t.cols ≤ t.col then t.softBreak else .ok t
    t.place cell) t

def put (ch : Char) : Res Screen := do
  let s := { s with afterCarriageReturn := false }
  let t ← if s.cols ≤ s.col then s.wrapCurrentWord else .ok s
  t.place (if s.pen.inverse then ⟨ch, s.pen.bg, s.pen.fg⟩ else ⟨ch, s.pen.fg, s.pen.bg⟩)

def execute (byte : UInt8) : Res Screen :=
  let t := { s with afterCarriageReturn := false }
  if byte = 0x08 then .ok { t with col := s.col - 1 }
  else if byte = 0x09 then
    let col := (s.col / 8 + 1) * 8
    if s.cols ≤ col then t.softBreak else .ok { t with col }
  else if byte = 0x0A ∨ byte = 0x0B ∨ byte = 0x0C then t.hardBreak
  else if byte = 0x0D then .ok { s with col := 0, afterCarriageReturn := true }
  else .ok t

def clearLogicalLine : Res Screen := do
  let first := s.row - ((s.rowSoft.take s.row).rtakeWhile id).length
  let last := s.row + (((s.rowSoft.drop s.row).take (s.rows - 1 - s.row)).takeWhile id).length
  if last < s.rowSoft.length then do
    let t ← s.clearRange (first * s.cols) (last * s.cols + s.cols)
    .ok { t with
      rowSoft := s.rowSoft.mapIdx fun r soft => soft && !(first ≤ r && r ≤ last)
      row := first
      col := 0 }
  else .error .overflow

/-- The part of a row up to the last cell that is not a space. -/
def trimCells (line : List Cell) : List Cell := line.rdropWhile (·.ch = ' ')

def softRowEnd (row : Nat) : Res Nat := do
  let text := trimCells (← s.line row)
  .ok (if text = [] then 0 else min (text.length + 1) s.cols)

/-- The cursor after `count` steps to the left. -/
def moveLeft : (row col count : Nat) → Res (Nat × Nat)
  | 0, col, count => .ok (0, col - count)
  | row + 1, col, count =>
    if count ≤ col then .ok (row + 1, col - count)
    else match s.rowSoft[row]? with
      | none => .error .overflow
      | some false => .ok (row + 1, 0)
      | some true => do moveLeft row (← s.softRowEnd row) (count - col)

def cursorClamp : Screen :=
  { s with row := min s.row (s.rows - 1), col := min s.col (s.cols - 1) }

end Screen

def firstParam (params : Params) (default : Nat) : Nat :=
  match params.head?.bind head? with
  | some v => if v = 0 then default else v.toNat
  | none => default

def nthRaw (params : Params) (n : Nat) : Nat :=
  ((params[n]?.bind head?).getD 0).toNat

namespace Screen

variable (sgr : Params → Pen → Pen) (s : Screen)

/-- `CSI J`. -/
def eraseDisplay (n : Nat) : Res Screen :=
  let cur := s.row * s.cols + s.col
  match n with
  | 0 => s.clearRange cur s.cells.length
  | 1 => s.clearRange 0 (cur + 1)
  | 2 | 3 => .ok s.clearAll
  | _ => .ok s

/-- `CSI K`. -/
def eraseLine (n : Nat) : Res Screen :=
  if n = 2 ∧ s.afterCarriageReturn then s.clearLogicalLine
  else
    let line := s.row * s.cols
    match n with
    | 0 => s.clearRange (line + s.col) (line + s.cols)
    | 1 => s.clearRange line (line + s.col + 1)
    | 2 => s.clearRange line (line + s.cols)
    | _ => .ok s

def csiDispatch (params : Params) (ignore : Bool) (action : Char) : Res Screen :=
  if ignore then .ok s
  else do
    let n := firstParam params 1
    let t ← match action with
      | 'A' => .ok { s with row := s.row - n }
      | 'B' => .ok { s with row := min (s.row + n) (s.rows - 1) }
      | 'C' => .ok { s with col := min (s.col + n) (s.cols - 1) }
      | 'D' => do
        let (row, col) ← s.moveLeft s.row s.col n
        .ok { s with row, col }
      | 'H' | 'f' =>
        let col := max (nthRaw params 1) 1
        .ok { s with row := min (n - 1) (s.rows - 1), col := min (col - 1) (s.cols - 1) }
      | 'J' => s.eraseDisplay (nthRaw params 0)
      | 'K' => s.eraseLine (nthRaw params 0)
      | 'm' => .ok { s with pen := sgr params s.pen }
      | _ => .ok s
    .ok { t with afterCarriageReturn := false }.cursorClamp

end Screen

/-! ## What the erasing sequences change -/

variable {s t : Screen} {start stop i : Nat}

/-- `CSI 0 K`, `CSI 1 K` and `CSI 2 K` change only cells of the cursor's row, unless the last one
comes after a carriage return, and `CSI 1 J` changes no cell after the cursor. -/
def Framed (sgr : Params → Pen → Pen) (s : Screen) : Prop :=
  let line := s.row * s.cols
  (∀ params t, nthRaw params 0 ≤ 2 → (nthRaw params 0 = 2 → s.afterCarriageReturn = false) →
    s.csiDispatch sgr params false 'K' = .ok t →
    ∀ i, i < line ∨ line + s.cols ≤ i → t.cells[i]? = s.cells[i]?) ∧
  ∀ params t, nthRaw params 0 = 1 → s.csiDispatch sgr params false 'J' = .ok t →
    ∀ i, line + s.cols ≤ i ∨ line + s.col < i → t.cells[i]? = s.cells[i]?

/-- The column is in the row, or the cells of the next row up to it are empty. -/
def Vacant (s : Screen) : Prop :=
  ∀ i c, s.row * s.cols + s.cols ≤ i → i ≤ s.row * s.cols + s.col → s.cells[i]? = some c →
    c = .empty

theorem getElem?_clearRange (h : s.clearRange start stop = .ok t) :
    t.cells[i]? = s.cells[i]?.map fun c => if start ≤ i ∧ i < stop then .empty else c := by
  unfold Screen.clearRange at h
  split at h
  · cases h
    exact getElem?_mapIdx
  · cases h

/-- A cell that is outside the range, or empty already, stays as it is. -/
theorem clearRange_same (h : s.clearRange start stop = .ok t)
    (hi : ∀ c, start ≤ i → i < stop → s.cells[i]? = some c → c = .empty) :
    t.cells[i]? = s.cells[i]? := by
  rw [getElem?_clearRange h]
  cases hc : s.cells[i]? with
  | none => rfl
  | some c =>
    rw [Option.map_some]
    split
    · rename_i hin
      rw [hi c hin.1 hin.2 hc]
    · rfl

theorem eraseLine_same (hv : Vacant s) {n : Nat} (hn : n ≤ 2)
    (hcr : n = 2 → s.afterCarriageReturn = false) (h : s.eraseLine n = .ok t)
    (hi : i < s.row * s.cols ∨ s.row * s.cols + s.cols ≤ i) : t.cells[i]? = s.cells[i]? := by
  unfold Screen.eraseLine at h
  rw [if_neg (fun hn => by simp [hcr hn.1] at hn)] at h
  match n, hn with
  | 0, _ => exact clearRange_same h fun c hstart hstop => by omega
  | 1, _ =>
    refine clearRange_same h fun c hstart hstop => ?_
    exact hv i c (by omega) (by omega)
  | 2, _ => exact clearRange_same h fun c hstart hstop => by omega

theorem erase_framed_iff (sgr : Params → Pen → Pen) (s : Screen) : Framed sgr s ↔ Vacant s := by
  constructor
  · rintro ⟨-, hdisplay⟩ i c hrow hcol hc
    have hclear : s.clearRange 0 (s.row * s.cols + s.col + 1) = .ok _ := if_pos (Nat.zero_le _)
    have hsame := hdisplay [[1]] _ rfl (bind_eq_ok.2 ⟨_, hclear, rfl⟩) i (.inl hrow)
    have hempty := (getElem?_clearRange hclear).symm.trans hsame
    rw [hc, Option.map_some, if_pos ⟨Nat.zero_le i, by omega⟩] at hempty
    exact (Option.some.inj hempty).symm
  · intro hv
    constructor
    · intro params t hn hcr h i hi
      obtain ⟨u, hu, ht⟩ := bind_eq_ok.1 h
      cases ht
      show u.cells[i]? = s.cells[i]?
      exact eraseLine_same hv hn hcr hu hi
    · intro params t hn h i hi
      obtain ⟨u, hu, ht⟩ := bind_eq_ok.1 h
      cases ht
      rw [hn] at hu
      show u.cells[i]? = s.cells[i]?
      refine clearRange_same hu fun c _ hstop => ?_
      exact hv i c (by omega) (by omega)

/-- An `x` in the second row is erased by `CSI 1 K` in the first. -/
theorem eraseLine_takes_next_row : ∃ s t : Screen, (do
      let s ← new 2 2
      let s ← s.execute 0x0A
      let s ← s.put 'x'
      let s ← s.csiDispatch (fun _ pen => pen) [] false 'A'
      s.put 'a') = .ok s ∧ s.row = 0 ∧ s.col = s.cols ∧
    s.csiDispatch (fun _ pen => pen) [[1]] false 'K' = .ok t ∧
    (s.cells.map (·.ch) = [' ', 'a', 'x', ' '] ∧ t.cells.map (·.ch) = [' ', ' ', ' ', ' ']) :=
  ⟨_, _, rfl, rfl, rfl, rfl, by decide⟩

end Felix.Terminal
