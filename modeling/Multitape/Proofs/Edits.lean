import Mathlib.Logic.Function.Basic
import Multitape.Proofs.Abstract
import Multitape.Proofs.Growth

/-! A tape under any edits. It shows at each offset what has been put there last, or what it was
laid with, and it holds no more cells than it must: its range is the smallest one with offset 0,
the cells it was laid with, all the places that its head has been at and all those that were
written to from afar. -/
namespace Multitape
variable {S : Type} [Symbol S]

namespace Tape

inductive Edit (S : Type) where
  | write (symbol : S)
  | shift (move : Direction)
  | poke (offset : Int) (symbol : S)
  deriving DecidableEq, Repr

def edit (tape : Tape S) : Edit S → Tape S
  | .write symbol => tape.write symbol
  | .shift move => tape.shift move
  | .poke offset symbol => tape.poke offset symbol

inductive Laid : List S → Int → Tape S → Prop where
  | empty : Laid [] 0 Tape.empty
  | input (cells : List S) : Laid cells 0 (ofInput cells)
  | cells {cells : List S} {head : Nat} {tape : Tape S} (made : ofCells? cells head = some tape) :
      Laid cells head tape

/-- What has been done to a tape: where its head is now, the symbols put at offsets, the last
one first, and the offsets that had to be held. -/
structure Log (S : Type) where
  head : Int
  puts : List (Int × S)
  places : List Int

namespace Log

def start (cells : List S) (head : Int) : Log S :=
  ⟨head, [], head :: 0 :: (List.range cells.length).map Int.ofNat⟩

def edit (log : Log S) : Edit S → Log S
  | .write symbol => { log with puts := (log.head, symbol) :: log.puts }
  | .shift move =>
    let head := log.head + move.offset
    { log with head, places := head :: log.places }
  | .poke offset symbol =>
    { log with puts := (offset, symbol) :: log.puts, places := offset :: log.places }

end Log

def laidAt (cells : List S) (offset : Int) : S :=
  if 0 ≤ offset then cells.getD offset.toNat Symbol.blank else Symbol.blank

structure Records (cells : List S) (log : Log S) (tape : Tape S) : Prop where
  head : tape.head = log.head
  seen : ∀ offset, tape.peek offset = (log.puts.lookup offset).getD (laidAt cells offset)
  range : ∀ first last, first ≤ tape.origin ∧ tape.last ≤ last ↔
    ∀ place ∈ log.places, first ≤ place ∧ place ≤ last

section
variable {cells : List S} {head : Int} {log : Log S} {tape other : Tape S} {place : Int}

theorem laidMoved (laid : Laid cells head tape) :
    ∃ count : Nat, head = count ∧ tape = count.repeat (shift · .right) (ofInput cells) := by
  cases laid with
  | empty => exact ⟨0, rfl, rfl⟩
  | input => exact ⟨0, rfl, rfl⟩
  | cells made =>
    unfold ofCells? at made
    split at made
    · exact ⟨_, rfl, (Option.some.inj made).symm⟩
    · cases made

theorem lastInput (cells : List S) : (ofInput cells).last = max ((cells.length : Int) - 1) 0 := by
  cases cells with
  | nil => rfl
  | cons symbol rest =>
    simp only [ofInput, last, List.length_cons]
    omega

theorem recordsLaid (laid : Laid cells head tape) : tape.Records cells (.start cells head) := by
  obtain ⟨count, rfl, rfl⟩ := laidMoved laid
  obtain ⟨head, origin, last, seen⟩ := headMoved cells count
  rw [lastInput] at last
  refine ⟨head, fun offset => (seen offset).trans (peekInput cells offset), fun low high => ?_⟩
  simp only [Log.start, List.forall_mem_cons, List.forall_mem_map, List.mem_range, Int.ofNat_eq_natCast]
  constructor
  · intro ⟨front, back⟩
    exact ⟨by omega, by omega, fun place less => by omega⟩
  · intro ⟨atHead, atZero, each⟩
    refine ⟨by omega, ?_⟩
    rcases Nat.eq_zero_or_pos cells.length with none | some
    · omega
    · have final := each (cells.length - 1) (Nat.sub_one_lt_of_lt some)
      omega

omit [Symbol S] in
theorem lookupPut (puts : List (Int × S)) (place offset : Int) (symbol : S) :
    ((place, symbol) :: puts).lookup offset =
      if offset = place then some symbol else puts.lookup offset := by
  rw [List.lookup_cons]
  by_cases here : offset = place
  · rw [if_pos here, beq_iff_eq.mpr here]
  · rw [if_neg here, beq_eq_false_iff_ne.mpr here]

theorem seenPut (records : tape.Records cells log) {symbol : S}
    (put : ∀ offset, other.peek offset = if offset = place then symbol else tape.peek offset)
    (offset : Int) : other.peek offset =
      (((place, symbol) :: log.puts).lookup offset).getD (laidAt cells offset) := by
  rw [put, lookupPut, records.seen]
  split <;> rfl

theorem rangeHeld (records : tape.Records cells log)
    (held : other.origin = min tape.origin place ∧ other.last = max tape.last place)
    (first last : Int) : first ≤ other.origin ∧ other.last ≤ last ↔
      ∀ offset ∈ place :: log.places, first ≤ offset ∧ offset ≤ last := by
  obtain ⟨origin, final⟩ := held
  rw [List.forall_mem_cons, ← records.range, origin, final]
  omega

theorem recordsEdit (records : tape.Records cells log) (change : Edit S) :
    (tape.edit change).Records cells (log.edit change) := by
  have head := records.head
  cases change with
  | write symbol =>
    have seen := seenPut records (tape.peekWrite symbol)
    rw [head] at seen
    exact { head, seen, range := records.range }
  | shift move =>
    have range := rangeHeld records (tape.rangeShift move)
    rw [head] at range
    exact {
      head := (tape.headShift move).trans (congrArg (· + move.offset) head)
      seen offset := (tape.peekShift move offset).trans (records.seen offset)
      range }
  | poke offset symbol =>
    exact {
      head := (tape.headPoke offset symbol).trans head
      seen := seenPut records fun other => tape.peekPoke offset other symbol
      range := rangeHeld records (tape.rangePoke offset symbol) }

/- Induction on the edits, from the first one on. -/
theorem recordsEdits (records : tape.Records cells log) (changes : List (Edit S)) :
    (changes.foldl edit tape).Records cells (changes.foldl Log.edit log) := by
  induction changes generalizing tape log with
  | nil => exact records
  | cons change changes ih => exact ih (recordsEdit records change)

end

theorem coversEdit (tape : Tape S) (change : Edit S) : (tape.edit change).Covers tape := by
  cases change with
  | write symbol => exact ⟨Int.le_refl _, Int.le_refl _⟩
  | shift move =>
    obtain ⟨origin, last⟩ := tape.rangeShift move
    exact ⟨by rw [edit, origin]; exact Int.min_le_left .., by rw [edit, last]; exact Int.le_max_left ..⟩
  | poke offset symbol =>
    obtain ⟨origin, last⟩ := tape.rangePoke offset symbol
    exact ⟨by rw [edit, origin]; exact Int.min_le_left .., by rw [edit, last]; exact Int.le_max_left ..⟩

theorem coversEdits (tape : Tape S) (changes : List (Edit S)) :
    (changes.foldl edit tape).Covers tape := by
  induction changes generalizing tape with
  | nil => exact ⟨Int.le_refl _, Int.le_refl _⟩
  | cons change changes ih => exact (ih (tape.edit change)).trans (coversEdit tape change)

end Tape

def Row.edit (row : Row S) : Tape.Edit S → Row S
  | .write symbol => row.write symbol
  | .shift move =>
    let head := row.head + move.offset
    { row with head }.grown head
  | .poke offset symbol => row.poke offset symbol

namespace Tape

theorem rowEdit (tape : Tape S) (change : Edit S) : (tape.edit change).row = tape.row.edit change := by
  cases change with
  | write symbol => exact rowWrite tape symbol
  | shift move => exact (rowShift tape move).trans Row.grownExtended.symm
  | poke offset symbol => exact rowPoke tape offset symbol

theorem rowEdits (tape : Tape S) (changes : List (Edit S)) :
    (changes.foldl edit tape).row = changes.foldl Row.edit tape.row := by
  induction changes generalizing tape with
  | nil => rfl
  | cons change changes ih => rw [List.foldl_cons, List.foldl_cons, ih, rowEdit]

/-- How a tape is looked at and changed: cells and offsets tell the same, and no change is seen
anywhere but where it is made. -/
structure Regular (tape : Tape S) : Prop where
  inside : tape.origin ≤ tape.head ∧ tape.head ≤ tape.last
  length : (tape.cells.length : Int) = tape.last - tape.origin + 1
  cells : ∀ place < tape.cells.length, tape.cells[place]? = some (tape.peek (tape.origin + place))
  under : tape.cells[tape.headIndex]? = some tape.read
  read : tape.read = tape.peek tape.head
  write : ∀ symbol, (tape.write symbol).head = tape.head ∧
    (tape.write symbol).peek = Function.update tape.peek tape.head symbol
  shift : ∀ move, (tape.shift move).head = tape.head + move.offset ∧
    (tape.shift move).peek = tape.peek
  poke : ∀ offset symbol, (tape.poke offset symbol).head = tape.head ∧
    (tape.poke offset symbol).peek = Function.update tape.peek offset symbol

theorem regular (tape : Tape S) : tape.Regular where
  inside := tape.headInside
  length := tape.lengthCells
  cells _ inside := tape.cellSeen inside
  under := by
    unfold headIndex cells
    rw [List.getElem?_append_right (by simp), List.length_reverse, Nat.sub_self]
    rfl
  read := tape.peekHead.symm
  write symbol := ⟨rfl, funext fun offset => (tape.peekWrite symbol offset).trans
    (Function.update_apply ..).symm⟩
  shift move := ⟨tape.headShift move, funext (tape.peekShift move)⟩
  poke offset symbol := ⟨tape.headPoke offset symbol, funext fun other =>
    (tape.peekPoke offset other symbol).trans (Function.update_apply ..).symm⟩

theorem ofCellsIff {cells : List S} {head : Nat} :
    (∃ tape, ofCells? cells head = some tape) ↔ head < offsetBound := by
  unfold ofCells?
  split <;> simp_all

theorem followsEdits :
    (∀ (cells : List S) (head : Nat),
      (∃ tape, ofCells? cells head = some tape) ↔ head < offsetBound) ∧
    ∀ {cells : List S} {head : Int} {tape : Tape S}, Laid cells head tape →
      ∀ changes : List (Edit S),
        let now := changes.foldl edit tape
        now.Records cells (changes.foldl Log.edit (.start cells head)) ∧
        now.row = changes.foldl Row.edit (Row.ofCells cells head) ∧
        (now.origin ≤ 0 ∧ 0 ≤ now.last) ∧ now.Regular ∧
        ∀ later : List (Edit S), (later.foldl edit now).Covers now := by
  refine ⟨fun _ _ => ofCellsIff, fun {cells head tape} laid changes => ?_⟩
  have records := recordsLaid laid
  have zero : tape.origin ≤ 0 ∧ 0 ≤ tape.last :=
    (records.range tape.origin tape.last).mp ⟨Int.le_refl _, Int.le_refl _⟩ 0 (by simp [Log.start])
  have covers := tape.coversEdits changes
  obtain ⟨count, rfl, rfl⟩ := laidMoved laid
  refine ⟨recordsEdits records changes, ?_, ⟨covers.1.trans zero.1, zero.2.trans covers.2⟩,
    regular _, coversEdits _⟩
  rw [rowEdits, rowMoved]

/- A symbol written, two steps to the left of the word, and one put far behind it. -/
theorem followsEditsAround :
    let tape : Tape Char := ⟨['a'], 'b', [], 1⟩
    let now := [.write 'c', .shift .left, .shift .left, .poke 3 'd'].foldl edit tape
    Laid ['a', 'b'] 1 tape ∧ now.cells = ['_', 'a', 'c', '_', 'd'] ∧ now.head = -1 ∧
      now.peek 0 = 'a' ∧ now.peek 1 = 'c' ∧ now.peek 3 = 'd' ∧ now.peek 4 = '_' ∧
      ∀ first last, first ≤ now.origin ∧ now.last ≤ last ↔ first ≤ -1 ∧ 3 ≤ last := by
  have made : ofCells? ['a', 'b'] 1 = some (⟨['a'], 'b', [], 1⟩ : Tape Char) := rfl
  obtain ⟨⟨head, seen, range⟩, -⟩ := followsEdits.2 (.cells made)
    [.write 'c', .shift .left, .shift .left, .poke 3 'd']
  refine ⟨.cells made, rfl, head, seen 0, seen 1, seen 3, seen 4, fun first last => ?_⟩
  have each : _ ↔ ∀ place ∈ [3, -1, 0, 1, 0, 0, 1], first ≤ place ∧ place ≤ last := range first last
  refine each.trans ⟨fun all => ⟨(all (-1) (by decide)).1, (all 3 (by decide)).2⟩,
    fun ⟨front, back⟩ place held => ?_⟩
  have inside : -1 ≤ place ∧ place ≤ 3 := by
    revert place
    decide
  exact ⟨front.trans inside.1, inside.2.trans back⟩

end Tape
end Multitape
