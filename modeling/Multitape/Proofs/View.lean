import Multitape.Proofs.Output
import Multitape.Proofs.Row

/-! A tape as it looks from outside: the symbols by offset. The cells that it holds are those in
its range, one for each offset of it, and blank is seen everywhere else. So what a tape holds
apart from the blanks at both ends depends on nothing but what is seen: neither on where the
head is, nor on how many blanks have been met. -/
namespace Multitape
variable {S : Type} [Symbol S]

theorem getBlanksBehind (cells : List S) (count place : Nat) :
    (cells ++ List.replicate count Symbol.blank).getD place Symbol.blank =
      cells.getD place Symbol.blank := by
  rcases Nat.lt_or_ge place cells.length with inside | behind
  · rw [List.getD_append _ _ _ _ inside]
  · rw [List.getD_append_right _ _ _ _ behind, List.getD_eq_default cells _ behind,
      List.getD_eq_getElem?_getD, List.getElem?_replicate]
    split <;> rfl

namespace Row
variable (row : Row S)

/- Behind the last cell there is no symbol to be found, so only the first cell is a bound. -/
theorem peekFrom (offset : Int) : row.peek offset =
    if row.origin ≤ offset then row.cells.getD (offset - row.origin).toNat Symbol.blank
    else Symbol.blank := by
  unfold peek index
  by_cases start : row.origin ≤ offset
  · by_cases stop : offset ≤ row.last
    · rw [if_pos ⟨start, stop⟩, if_pos start]
    · have beyond : row.cells.length ≤ (offset - row.origin).toNat := by
        unfold last at stop
        omega
      rw [if_neg (fun inside => stop inside.2), if_pos start, List.getD_eq_default _ _ beyond]
  · rw [if_neg (fun inside => start inside.1), if_neg start]

theorem cellSeen {place : Nat} (inside : place < row.cells.length) :
    row.cells[place]? = some (row.peek (row.origin + place)) := by
  have distance : (row.origin + place - row.origin).toNat = place := by omega
  rw [peekFrom, if_pos (by omega), distance, List.getElem?_eq_getElem inside,
    List.getD_eq_getElem _ _ inside]

theorem seenOutside {offset : Int} (outside : offset < row.origin ∨ row.last < offset) :
    row.peek offset = Symbol.blank :=
  if_neg (by omega)

end Row

namespace Tape

def window (tape : Tape S) (first : Int) (count : Nat) : List S :=
  (List.range count).map fun place : Nat => tape.peek (first + place)

omit [Symbol S] in
theorem lengthCells (tape : Tape S) : (tape.cells.length : Int) = tape.last - tape.origin + 1 := by
  simp only [cells, last, origin, List.length_append, List.length_reverse, List.length_cons]
  omega

theorem cellSeen (tape : Tape S) {place : Nat} (inside : place < tape.cells.length) :
    tape.cells[place]? = some (tape.peek (tape.origin + place)) := by
  rw [← rowPeek]
  exact tape.row.cellSeen inside

theorem seenOutside (tape : Tape S) {offset : Int} (outside : offset < tape.origin ∨ tape.last < offset) :
    tape.peek offset = Symbol.blank := by
  rw [← rowPeek]
  exact tape.row.seenOutside (by rwa [rowLast])

theorem windowJoin (tape : Tape S) (first : Int) (count more : Nat) :
    tape.window first (count + more) = tape.window first count ++ tape.window (first + count) more := by
  unfold window
  rw [List.range_add, List.map_append, List.map_map]
  congr 2
  funext place
  simp only [Function.comp_apply, Int.natCast_add, Int.add_assoc]

theorem windowOutside (tape : Tape S) (first : Int) (count : Nat)
    (outside : first + count ≤ tape.origin ∨ tape.last < first) :
    tape.window first count = List.replicate count Symbol.blank := by
  refine List.eq_replicate_iff.mpr ⟨by simp [window], fun symbol mem => ?_⟩
  obtain ⟨place, within, rfl⟩ := List.mem_map.mp mem
  have less := List.mem_range.mp within
  exact tape.seenOutside (by omega)

theorem windowCells (tape : Tape S) : tape.window tape.origin tape.cells.length = tape.cells := by
  apply List.ext_getElem?
  intro place
  by_cases inside : place < tape.cells.length
  · rw [tape.cellSeen inside, window, List.getElem?_map, List.getElem?_range inside]
    rfl
  · have short : (tape.window tape.origin tape.cells.length).length ≤ place := by
      rw [window, List.length_map, List.length_range]
      exact Nat.le_of_not_lt inside
    rw [List.getElem?_eq_none short, List.getElem?_eq_none (Nat.le_of_not_lt inside)]

theorem windowPadded (tape : Tape S) (before after : Nat) :
    tape.window (tape.origin - before) (before + tape.cells.length + after) =
      List.replicate before Symbol.blank ++ tape.cells ++ List.replicate after Symbol.blank := by
  have length := tape.lengthCells
  rw [windowJoin, windowJoin, tape.windowOutside _ before (.inl (by omega)),
    Int.sub_add_cancel, windowCells, tape.windowOutside _ after (.inr (by omega))]

variable [DecidableEq S]

/- Any window that holds the range will do. -/
theorem outputWindow (tape : Tape S) (first : Int) (count : Nat) (front : first ≤ tape.origin)
    (back : tape.last < first + count) : tape.output = trim Symbol.isBlank (tape.window first count) := by
  have length := tape.lengthCells
  obtain ⟨before, start⟩ : ∃ before : Nat, first = tape.origin - before :=
    ⟨(tape.origin - first).toNat, by omega⟩
  obtain ⟨after, size⟩ : ∃ after, count = before + tape.cells.length + after :=
    ⟨count - (before + tape.cells.length), by omega⟩
  have blank : ∀ count, ∀ symbol ∈ List.replicate count (Symbol.blank : S), Symbol.isBlank symbol :=
    fun count => blanksIff.mpr ⟨count, rfl⟩
  rw [start, size, windowPadded, trimAfter (blank after), trimBefore (blank before), output]

/- The window is wide enough for both tapes. -/
theorem outputOfSeen {one other : Tape S} (far : Int)
    (alike : ∀ offset, one.peek (offset + far) = other.peek offset) : one.output = other.output := by
  let first := min (one.origin - far) other.origin
  let count := (max (one.last - far) other.last - first + 1).toNat
  have same : one.window (first + far) count = other.window first count := by
    unfold window
    congr 1
    funext place
    rw [Int.add_right_comm, alike]
  have range := one.lengthCells
  have range' := other.lengthCells
  rw [one.outputWindow (first + far) count (by omega) (by omega),
    other.outputWindow first count (by omega) (by omega), same]

end Tape

end Multitape
