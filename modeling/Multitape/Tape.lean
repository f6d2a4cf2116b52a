import Multitape.Direction
import Multitape.Symbol
import Multitape.Trim

/-! One tape, unbounded both ways and blank outside the cells that it holds. The cells
are kept around the head: those to its left, nearest first, the one under it, and those
to its right. Offsets are integers and offset 0 is where the input starts. `peek` is the
view by offset; the held range only ever grows, and grows by blanks. -/
namespace Multitape

structure Tape (S : Type) where
  left : List S
  here : S
  right : List S
  head : Int
  deriving DecidableEq, Repr

namespace Tape
variable {S : Type} [Symbol S]

def ofInput : List S → Tape S
  | [] => ⟨[], Symbol.blank, [], 0⟩
  | symbol :: rest => ⟨[], symbol, rest, 0⟩

def empty : Tape S := ofInput []

def read (tape : Tape S) : S := tape.here

def write (tape : Tape S) (symbol : S) : Tape S := { tape with here := symbol }

def shift (tape : Tape S) : Direction → Tape S
  | .left => ⟨tape.left.tail, tape.left.headD Symbol.blank, tape.here :: tape.right, tape.head - 1⟩
  | .right => ⟨tape.here :: tape.left, tape.right.headD Symbol.blank, tape.right.tail, tape.head + 1⟩
  | .stay => tape

def offsetBound : Nat := Nat.pow 2 63

/-- Holds the cells from offset 0 on, with the head at offset `head`, and blanks up to
there where the cells end sooner. -/
def ofCells? (cells : List S) (head : Nat) : Option (Tape S) :=
  if head < offsetBound then some (head.repeat (shift · .right) (ofInput cells)) else none

def peek (tape : Tape S) (offset : Int) : S :=
  let distance := offset - tape.head
  if distance < 0 then tape.left.getD (-distance - 1).toNat Symbol.blank
  else (tape.here :: tape.right).getD distance.toNat Symbol.blank

def setCell (symbol : S) : Nat → List S → List S
  | 0, cells => symbol :: cells.tail
  | n + 1, cells => cells.headD Symbol.blank :: setCell symbol n cells.tail

def poke (tape : Tape S) (offset : Int) (symbol : S) : Tape S :=
  let distance := offset - tape.head
  if distance < 0 then { tape with left := setCell symbol (-distance - 1).toNat tape.left }
  else if distance = 0 then tape.write symbol
  else { tape with right := setCell symbol (distance - 1).toNat tape.right }

def cells (tape : Tape S) : List S := tape.left.reverse ++ tape.here :: tape.right

def headIndex (tape : Tape S) : Nat := tape.left.length

def origin (tape : Tape S) : Int := tape.head - tape.left.length

def last (tape : Tape S) : Int := tape.head + tape.right.length

variable [DecidableEq S]

def output (tape : Tape S) : List S := trim Symbol.isBlank tape.cells

def render (tape : Tape S) : String := Symbol.join tape.cells

end Tape

namespace Tape
variable {S : Type} [Symbol S]

theorem peekHead (tape : Tape S) : tape.peek tape.head = tape.read := by simp [peek, read]

theorem getDSetCell (symbol : S) (n m : Nat) (cells : List S) :
    (setCell symbol n cells).getD m Symbol.blank =
      if m = n then symbol else cells.getD m Symbol.blank := by
  induction n generalizing m cells with
  | zero => cases m <;> cases cells <;> simp [setCell]
  | succ n ih =>
    cases m with
    | zero => cases cells <;> simp [setCell]
    | succ m =>
      cases cells with
      | nil => have h := ih m []; simp only [List.getD_nil] at h; simpa [setCell] using h
      | cons cell rest => simpa [setCell] using ih m rest

theorem peekLeft (tape : Tape S) {n : Nat} {offset : Int} (found : offset = tape.head - (n + 1)) :
    tape.peek offset = tape.left.getD n Symbol.blank := by
  have distance : offset - tape.head = -((n : Int) + 1) := by omega
  have index : (-(-((n : Int) + 1)) - 1).toNat = n := by omega
  have negative : -((n : Int) + 1) < 0 := by omega
  simp only [peek, distance, if_pos negative, index]

theorem peekRight (tape : Tape S) {n : Nat} {offset : Int} (found : offset = tape.head + n) :
    tape.peek offset = (tape.here :: tape.right).getD n Symbol.blank := by
  have distance : offset - tape.head = n := by omega
  have same : ¬ (n : Int) < 0 := by omega
  simp only [peek, distance, if_neg same, Int.toNat_natCast]

theorem offsetCases (head offset : Int) :
    (∃ n : Nat, offset = head - (n + 1)) ∨ ∃ n : Nat, offset = head + n := by
  by_cases h : offset < head
  · exact .inl ⟨(head - offset - 1).toNat, by omega⟩
  · exact .inr ⟨(offset - head).toNat, by omega⟩

theorem peekWrite (tape : Tape S) (symbol : S) (offset : Int) :
    (tape.write symbol).peek offset = if offset = tape.head then symbol else tape.peek offset := by
  rcases offsetCases tape.head offset with ⟨n, found⟩ | ⟨n, found⟩
  · rw [if_neg (by omega), peekLeft tape found, peekLeft (tape.write symbol) found]
    rfl
  · rw [peekRight tape found, peekRight (tape.write symbol) found]
    cases n with
    | zero => rw [if_pos (by omega)]; rfl
    | succ n => rw [if_neg (by omega)]; rfl

theorem peekShift (tape : Tape S) (direction : Direction) (offset : Int) :
    (tape.shift direction).peek offset = tape.peek offset := by
  cases direction with
  | stay => rfl
  | left =>
    rcases offsetCases (tape.head - 1) offset with ⟨n, found⟩ | ⟨n, found⟩
    · rw [peekLeft (tape.shift .left) found, peekLeft tape (n := n + 1) (by omega)]
      cases h : tape.left <;> simp [shift, h]
    · rw [peekRight (tape.shift .left) found]
      cases n with
      | zero =>
        rw [peekLeft tape (n := 0) (by omega)]
        cases h : tape.left <;> simp [shift, h]
      | succ n => rw [peekRight tape (n := n) (by omega)]; rfl
  | right =>
    rcases offsetCases (tape.head + 1) offset with ⟨n, found⟩ | ⟨n, found⟩
    · rw [peekLeft (tape.shift .right) found]
      cases n with
      | zero => rw [peekRight tape (n := 0) (by omega)]; rfl
      | succ n => rw [peekLeft tape (n := n) (by omega)]; rfl
    · rw [peekRight (tape.shift .right) found, peekRight tape (n := n + 1) (by omega)]
      cases h : tape.right <;> cases n <;> simp [shift, h]

theorem peekPoke (tape : Tape S) (offset other : Int) (symbol : S) :
    (tape.poke offset symbol).peek other = if other = offset then symbol else tape.peek other := by
  by_cases negative : offset - tape.head < 0
  · simp only [poke, if_pos negative]
    rcases offsetCases tape.head other with ⟨m, found⟩ | ⟨m, found⟩
    · rw [peekLeft tape found]
      refine (peekLeft _ (by exact found)).trans ((getDSetCell ..).trans ?_)
      by_cases h : other = offset
      · rw [if_pos h, if_pos (by omega)]
      · rw [if_neg h, if_neg (by omega)]
    · rw [if_neg (by omega), peekRight tape found]
      exact peekRight _ (by exact found)
  · by_cases zero : offset - tape.head = 0
    · have same : offset = tape.head := by omega
      simp only [poke, if_neg negative, if_pos zero]
      rw [peekWrite, same]
    · simp only [poke, if_neg negative, if_neg zero]
      rcases offsetCases tape.head other with ⟨m, found⟩ | ⟨m, found⟩
      · rw [if_neg (by omega), peekLeft tape found]
        exact peekLeft _ (by exact found)
      · rw [peekRight tape found]
        apply (peekRight _ (by exact found)).trans
        cases m with
        | zero => rw [if_neg (by omega)]; rfl
        | succ m =>
          rw [List.getD_cons_succ, List.getD_cons_succ, getDSetCell]
          by_cases h : other = offset
          · rw [if_pos h, if_pos (by omega)]
          · rw [if_neg h, if_neg (by omega)]

end Tape
end Multitape
