import Mathlib.Algebra.Group.Basic
import Mathlib.Algebra.Group.Int.Defs
import Mathlib.Data.List.GetD
import Multitape.Run.Step

/-! A tape as one row of cells. The row knows the offset of its first cell and that of the
head; it grows at either end when the head or a write leaves it. The cells of a tape make
up such a row. What is read, written, moved and looked at on a tape is so on its row, and
one step of a machine does to the rows what it does to the tapes. -/
namespace Multitape
variable {S : Type} [Symbol S]

structure Row (S : Type) where
  cells : List S
  origin : Int
  head : Int

namespace Row

def last (row : Row S) : Int := row.origin + row.cells.length - 1

def index (row : Row S) (offset : Int) : Nat := (offset - row.origin).toNat

def ofInput (input : List S) : Row S := ⟨if input.isEmpty then [Symbol.blank] else input, 0, 0⟩

def extended (row : Row S) (offset : Int) : Row S where
  cells := List.replicate (row.origin - offset).toNat Symbol.blank ++ row.cells ++
    List.replicate (offset - row.last).toNat Symbol.blank
  origin := min row.origin offset
  head := row.head

def read (row : Row S) : S := row.cells.getD (row.index row.head) Symbol.blank

def write (row : Row S) (symbol : S) : Row S :=
  { row with cells := row.cells.set (row.index row.head) symbol }

def shift (row : Row S) (move : Direction) : Row S :=
  let head := row.head + move.offset
  { row with head }.extended head

def peek (row : Row S) (offset : Int) : S :=
  if row.origin ≤ offset ∧ offset ≤ row.last then row.cells.getD (row.index offset) Symbol.blank
  else Symbol.blank

theorem extendedInside (row : Row S) {offset : Int} (behind : row.origin ≤ offset)
    (before : offset ≤ row.last) : row.extended offset = row := by
  have front : (row.origin - offset).toNat = 0 := by omega
  have back : (offset - row.last).toNat = 0 := by omega
  simp [extended, front, back, Int.min_eq_left behind]

theorem extendedFront (row : Row S) {offset : Int} (next : offset + 1 = row.origin) :
    row.extended offset = { row with cells := Symbol.blank :: row.cells, origin := offset } := by
  have front : (row.origin - offset).toNat = 1 := by omega
  have back : (offset - row.last).toNat = 0 := by
    unfold last
    omega
  simp [extended, front, back, Int.min_eq_right (show offset ≤ row.origin by omega)]

theorem extendedBack (row : Row S) {offset : Int} (next : offset = row.last + 1) :
    row.extended offset = { row with cells := row.cells ++ [Symbol.blank] } := by
  have behind : row.origin ≤ offset := by
    rw [next, last]
    omega
  have front : (row.origin - offset).toNat = 0 := by omega
  have back : (offset - row.last).toNat = 1 := by omega
  simp [extended, front, back, Int.min_eq_left behind]

section
variable {row : Row S} {move : Direction}

theorem shiftInside (behind : row.origin ≤ row.head + move.offset)
    (before : row.head + move.offset ≤ row.last) :
    row.shift move = { row with head := row.head + move.offset } :=
  extendedInside { row with head := row.head + move.offset } behind before

theorem shiftFront (next : row.head + move.offset + 1 = row.origin) : row.shift move =
    ⟨Symbol.blank :: row.cells, row.head + move.offset, row.head + move.offset⟩ :=
  extendedFront { row with head := row.head + move.offset } next

theorem shiftBack (next : row.head + move.offset = row.last + 1) : row.shift move =
    ⟨row.cells ++ [Symbol.blank], row.origin, row.head + move.offset⟩ :=
  extendedBack { row with head := row.head + move.offset } next

end

end Row

namespace Tape

def row (tape : Tape S) : Row S := ⟨tape.cells, tape.origin, tape.head⟩

theorem rowOfInput (input : List S) : (ofInput input).row = Row.ofInput input := by
  cases input <;> rfl

omit [Symbol S] in
theorem rowLast (tape : Tape S) : tape.row.last = tape.last := by
  simp only [row, Row.last, cells, origin, last, List.length_append, List.length_reverse,
    List.length_cons]
  omega

omit [Symbol S] in
theorem rowIndex (tape : Tape S) : tape.row.index tape.head = tape.left.length := by
  simp only [row, Row.index, origin]
  omega

theorem rowRead (tape : Tape S) : tape.row.read = tape.read := by
  have index : tape.row.index tape.row.head = tape.left.length := rowIndex tape
  rw [Row.read, index]
  simp [row, cells, read]

omit [Symbol S] in
theorem rowWrite (tape : Tape S) (symbol : S) : (tape.write symbol).row = tape.row.write symbol := by
  have index : tape.row.index tape.row.head = tape.left.length := rowIndex tape
  rw [Row.write, index]
  simp [row, cells, write, origin]

/- The head leaves the row only where there is no cell of the tape on that side. -/
theorem rowShift (tape : Tape S) (move : Direction) : (tape.shift move).row = tape.row.shift move := by
  have length := rowLast tape
  obtain ⟨left, here, right, head⟩ := tape
  cases move with
  | stay =>
    rw [Row.shiftInside]
    · simp [shift, row, Direction.offset]
    · simp only [row, origin, Direction.offset]
      omega
    · rw [length]
      simp only [row, last, Direction.offset]
      omega
  | left =>
    cases left with
    | nil =>
      rw [Row.shiftFront]
      · simp [shift, row, cells, origin, Direction.offset, Int.sub_eq_add_neg]
      · simp only [row, origin, Direction.offset, List.length_nil]
        omega
    | cons cell left =>
      rw [Row.shiftInside]
      · simp [shift, row, cells, origin, Direction.offset]
        omega
      · simp only [row, origin, Direction.offset, List.length_cons]
        omega
      · rw [length]
        simp only [row, last, Direction.offset]
        omega
  | right =>
    cases right with
    | nil =>
      rw [Row.shiftBack]
      · simp [shift, row, cells, origin, Direction.offset]
      · rw [length]
        simp [row, last, Direction.offset]
    | cons cell right =>
      rw [Row.shiftInside]
      · simp [shift, row, cells, origin, Direction.offset]
      · simp only [row, origin, Direction.offset]
        omega
      · rw [length]
        simp only [row, last, Direction.offset, List.length_cons]
        omega

theorem rowPeek (tape : Tape S) (offset : Int) : tape.row.peek offset = tape.peek offset := by
  have length := rowLast tape
  unfold Row.peek
  rw [length]
  rcases offsetCases tape.head offset with ⟨n, found⟩ | ⟨n, found⟩
  · rw [tape.peekLeft found]
    by_cases inside : n < tape.left.length
    · have index : tape.row.index offset = tape.left.length - 1 - n := by
        simp only [row, Row.index, origin]
        omega
      rw [if_pos (by simp only [row, origin, last]; omega), index]
      simp only [row, cells]
      rw [List.getD_append _ _ _ _ (by simp; omega), List.getD_reverse _ (by omega)]
      congr 1
      omega
    · rw [if_neg (by simp only [row, origin]; omega), List.getD_eq_default _ _ (by omega)]
  · rw [tape.peekRight found]
    by_cases inside : n < (tape.here :: tape.right).length
    · have index : tape.row.index offset = tape.left.reverse.length + n := by
        simp only [row, Row.index, origin, List.length_reverse]
        omega
      rw [List.length_cons] at inside
      rw [if_pos (by simp only [row, origin, last]; omega), index]
      simp only [row, cells]
      rw [List.getD_append_right _ _ _ _ (by omega), Nat.add_sub_cancel_left]
    · rw [List.getD_eq_default (tape.here :: tape.right) _ (by omega)]
      rw [List.length_cons] at inside
      rw [if_neg (by simp only [last]; omega)]

end Tape

def TapeMode.shiftRow (mode : TapeMode) (row : Row S) (move : Direction) : Row S :=
  if mode = .rightInfinite ∧ move = .left ∧ row.head = 0 then row else row.shift move

def Row.act (mode : TapeMode) : List (Row S) → List S → List Direction → List (Row S)
  | row :: rows, symbol :: write, move :: moves =>
    mode.shiftRow (row.write symbol) move :: act mode rows write moves
  | rows, _, _ => rows

theorem rowModeShift (mode : TapeMode) (tape : Tape S) (move : Direction) :
    (mode.shift tape move).row = mode.shiftRow tape.row move := by
  unfold TapeMode.shift TapeMode.shiftRow
  rw [show tape.row.head = tape.head from rfl]
  split
  · rfl
  · exact tape.rowShift move

theorem rowsAct (mode : TapeMode) (tapes : List (Tape S)) (write : List S)
    (moves : List Direction) : (act mode tapes write moves).map Tape.row =
      Row.act mode (tapes.map Tape.row) write moves := by
  induction tapes generalizing write moves with
  | nil => simp [act, Row.act]
  | cons tape tapes ih =>
    cases write with
    | nil => simp [act, Row.act]
    | cons symbol write =>
      cases moves with
      | nil => simp [act, Row.act]
      | cons move moves => simp [act, Row.act, ih, rowModeShift, Tape.rowWrite]

theorem rowsSymbols (now : Configuration S) :
    (now.tapes.map Tape.row).map Row.read = now.symbols := by
  simp [Configuration.symbols, Function.comp_def, Tape.rowRead]

end Multitape
