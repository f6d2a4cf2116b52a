import Multitape.Proofs.Range
import Multitape.Proofs.View

/-! Rows that grow cell by cell. Before a cell is reached that the row does not hold, blanks are
put on at that end one at a time, in front or behind, until it does. This comes to an end and
changes nothing that is seen. A row is known by its head, its two ends and what is seen on it, so
writing at any offset, or laying cells with the head anywhere behind offset 0, does to the row
what it does to the tape. -/
namespace Multitape
variable {S : Type} [Symbol S]

namespace Row

def growFront (offset : Int) (row : Row S) : Row S :=
  if offset < row.origin then
    growFront offset { row with cells := Symbol.blank :: row.cells, origin := row.origin - 1 }
  else row
  termination_by (row.origin - offset).toNat

def growBack (offset : Int) (row : Row S) : Row S :=
  if row.last < offset then growBack offset { row with cells := row.cells ++ [Symbol.blank] }
  else row
  termination_by (offset - row.last).toNat
  decreasing_by simp only [last, List.length_append, List.length_singleton] at *; omega

def grown (row : Row S) (offset : Int) : Row S := (row.growFront offset).growBack offset

def poke (row : Row S) (offset : Int) (symbol : S) : Row S :=
  let row := row.grown offset
  { row with cells := row.cells.set (row.index offset) symbol }

def ofCells (cells : List S) (head : Int) : Row S := { ofInput cells with head }.grown head

variable {row : Row S} {offset : Int}

theorem growFrontEnds : row.growFront offset = { row with
    cells := List.replicate (row.origin - offset).toNat Symbol.blank ++ row.cells
    origin := min row.origin offset } := by
  fun_induction growFront offset row with
  | case1 row before ih =>
    have count : (row.origin - offset).toNat = (row.origin - 1 - offset).toNat + 1 := by omega
    rw [ih, count, List.replicate_succ', List.append_assoc, Int.min_eq_right (Int.le_of_lt before),
      Int.min_eq_right (Int.le_sub_one_of_lt before)]
    rfl
  | case2 row reached =>
    have none : (row.origin - offset).toNat = 0 := by omega
    rw [none, Int.min_eq_left (by omega)]
    rfl

theorem growBackEnds : row.growBack offset = { row with
    cells := row.cells ++ List.replicate (offset - row.last).toNat Symbol.blank } := by
  fun_induction growBack offset row with
  | case1 row behind ih =>
    have longer : ({ row with cells := row.cells ++ [Symbol.blank] } : Row S).last = row.last + 1 := by
      simp only [last, List.length_append, List.length_singleton]
      omega
    have count : (offset - row.last).toNat = (offset - (row.last + 1)).toNat + 1 := by omega
    rw [ih, longer, count, List.append_assoc, List.singleton_append, ← List.replicate_succ]
  | case2 row reached =>
    have none : (offset - row.last).toNat = 0 := by omega
    rw [none, List.replicate_zero, List.append_nil]

/- What is put in front does not move the end. -/
theorem grownExtended : row.grown offset = row.extended offset := by
  have front : (row.growFront offset).last = row.last := by
    rw [growFrontEnds]
    simp only [last, List.length_append, List.length_replicate]
    omega
  rw [grown, growBackEnds, front, growFrontEnds]
  rfl

theorem rangeExtended (row : Row S) (offset : Int) : (row.extended offset).origin = min row.origin offset ∧
    (row.extended offset).last = max row.last offset := by
  refine ⟨rfl, ?_⟩
  simp only [extended, last, List.length_append, List.length_replicate]
  omega

theorem peekExtended (row : Row S) (offset other : Int) :
    (row.extended offset).peek other = row.peek other := by
  rw [peekFrom, peekFrom, (row.rangeExtended offset).1, extended, List.append_assoc]
  by_cases inFront : other < row.origin
  · rw [if_neg (Int.not_le.mpr inFront)]
    split
    · rw [List.getD_append _ _ _ _ (by rw [List.length_replicate]; omega),
        List.getD_replicate _ (by omega)]
    · rfl
  · have place : (other - min row.origin offset).toNat =
        (row.origin - offset).toNat + (other - row.origin).toNat := by omega
    rw [if_pos (by omega), if_pos (Int.not_lt.mp inFront), place, List.getD_append_right _ _ _ _
      (by rw [List.length_replicate]; omega), List.length_replicate, Nat.add_sub_cancel_left,
      getBlanksBehind]

theorem same {one other : Row S} (head : one.head = other.head) (origin : one.origin = other.origin)
    (last : one.last = other.last) (seen : ∀ offset, one.peek offset = other.peek offset) :
    one = other := by
  have length : one.cells.length = other.cells.length := by
    unfold Row.last at last
    omega
  have cells : one.cells = other.cells := by
    apply List.ext_getElem?
    intro place
    by_cases inside : place < one.cells.length
    · rw [one.cellSeen inside, other.cellSeen (length ▸ inside), seen, origin]
    · rw [List.getElem?_eq_none (by omega), List.getElem?_eq_none (by omega)]
  cases one
  cases other
  simp_all

theorem peekSet {place : Int} (symbol : S) (behind : row.origin ≤ place) (before : place ≤ row.last)
    (other : Int) : ({ row with cells := row.cells.set (row.index place) symbol } : Row S).peek other =
      if other = place then symbol else row.peek other := by
  have ends : row.last = row.origin + row.cells.length - 1 := rfl
  rw [peekFrom, peekFrom]
  unfold index
  dsimp only
  by_cases here : other = place
  · rw [here, if_pos behind, if_pos rfl, List.getD_eq_getElem _ _ (by rw [List.length_set]; omega),
      List.getElem_set_self]
  · rw [if_neg here]
    by_cases start : row.origin ≤ other
    · rw [if_pos start, if_pos start, List.getD_eq_getElem?_getD, List.getD_eq_getElem?_getD,
        List.getElem?_set_ne (by omega)]
    · rw [if_neg start, if_neg start]

end Row

namespace Tape

theorem lengthSetCell (symbol : S) (place : Nat) (cells : List S) :
    (setCell symbol place cells).length = max cells.length (place + 1) := by
  induction place generalizing cells with
  | zero => cases cells <;> simp [setCell]
  | succ place ih => cases cells <;> simp [setCell, ih]

theorem rangePoke (tape : Tape S) (offset : Int) (symbol : S) :
    (tape.poke offset symbol).origin = min tape.origin offset ∧
      (tape.poke offset symbol).last = max tape.last offset := by
  by_cases negative : offset - tape.head < 0
  · simp only [poke, if_pos negative, origin, last, lengthSetCell]
    omega
  · by_cases zero : offset - tape.head = 0
    · simp only [poke, if_neg negative, if_pos zero, write, origin, last]
      omega
    · simp only [poke, if_neg negative, if_neg zero, origin, last, lengthSetCell]
      omega

theorem headPoke (tape : Tape S) (offset : Int) (symbol : S) :
    (tape.poke offset symbol).head = tape.head := by
  unfold poke
  dsimp only
  split
  · rfl
  · split <;> rfl

theorem rowPoke (tape : Tape S) (offset : Int) (symbol : S) :
    (tape.poke offset symbol).row = tape.row.poke offset symbol := by
  obtain ⟨origin, last⟩ := tape.rangePoke offset symbol
  obtain ⟨origin', last'⟩ := tape.row.rangeExtended offset
  unfold Row.poke
  rw [Row.grownExtended]
  dsimp only
  apply Row.same
  · exact headPoke ..
  · exact origin
  · rw [rowLast, last, ← rowLast tape, ← last']
    exact congrArg (fun length : Nat => _ + (length : Int) - 1) (List.length_set ..).symm
  · intro other
    rw [rowPeek, peekPoke, Row.peekSet symbol (by omega) (by omega), Row.peekExtended, rowPeek]

/- Induction on the cells that the head passes. -/
theorem headMoved (cells : List S) (count : Nat) :
    let moved := count.repeat (shift · .right) (ofInput cells)
    moved.head = count ∧ moved.origin = 0 ∧ moved.last = max (ofInput cells).last count ∧
      ∀ offset, moved.peek offset = (ofInput cells).peek offset := by
  induction count with
  | zero =>
    have begun := reachesInput (Nat.le_refl cells.length)
    obtain ⟨zero, head, range⟩ := begun
    dsimp only [Nat.repeat]
    refine ⟨by omega, by omega, by omega, fun _ => rfl⟩
  | succ count ih =>
    obtain ⟨head, origin, last, seen⟩ := ih
    obtain ⟨origin', last'⟩ := (count.repeat (shift · .right) (ofInput cells)).rangeShift .right
    have one : Direction.right.offset = 1 := rfl
    dsimp only [Nat.repeat]
    refine ⟨?_, by omega, by omega, fun offset => ?_⟩
    · rw [headShift, head, one]
      rfl
    · rw [peekShift, seen]

theorem rowMoved (cells : List S) (count : Nat) :
    (count.repeat (shift · .right) (ofInput cells)).row = Row.ofCells cells count := by
  obtain ⟨moved, origin, last, seen⟩ := headMoved cells count
  let laid : Row S := { Row.ofInput cells with head := count }
  have laidLast : laid.last = (ofInput cells).last := by rw [← rowLast, rowOfInput]; rfl
  obtain ⟨origin', last'⟩ := laid.rangeExtended count
  unfold Row.ofCells
  rw [Row.grownExtended]
  apply Row.same
  · exact moved
  · rw [origin']
    exact origin.trans (Int.min_eq_left (Int.natCast_nonneg count)).symm
  · rw [rowLast, last, last', laidLast]
  · intro offset
    rw [rowPeek, seen, Row.peekExtended, ← rowPeek, rowOfInput]
    rfl

end Tape
end Multitape
