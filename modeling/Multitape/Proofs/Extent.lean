import Mathlib.Order.Bounds.Defs
import Multitape.Proofs.Abstract
import Multitape.Proofs.View

/-! From where to where a tape is written on. Two searches of the cells, one from each end, come
upon the first and the last of them that is not blank, and these stand at the first and the last
of all offsets that show a symbol other than blank. So the output is what is seen from the one
offset to the other, and nothing if blank is all that is seen. -/
namespace Multitape

section
variable {α : Type} {drop keep : α → Bool} {before after : List α} {x : α}

def lastKept? (keep : α → Bool) (xs : List α) : Option Nat :=
  (xs.reverse.findIdx? keep).map fun back => xs.length - 1 - back

def betweenKept (keep : α → Bool) (xs : List α) : List α :=
  match xs.findIdx? keep, lastKept? keep xs with
  | some first, some last => (xs.take (last + 1)).drop first
  | _, _ => []

theorem firstKept (dropped : ∀ y ∈ before, ¬ keep y) (kept : keep x) :
    (before ++ x :: after).findIdx? keep = some before.length := by
  have none : before.findIdx? keep = none :=
    List.findIdx?_eq_none_iff.mpr fun y mem => Bool.eq_false_iff.mpr (dropped y mem)
  rw [List.findIdx?_append, none, List.findIdx?_cons, if_pos kept]
  simp

theorem lastKept (dropped : ∀ y ∈ after, ¬ keep y) (kept : keep x) :
    lastKept? keep (before ++ x :: after) = some before.length := by
  have reversed : (before ++ x :: after).reverse = after.reverse ++ x :: before.reverse := by simp
  have last : (after.reverse ++ x :: before.reverse).findIdx? keep = some after.length := by
    rw [firstKept (fun y mem => dropped y (List.mem_reverse.mp mem)) kept, List.length_reverse]
  rw [lastKept?, reversed, last, Option.map_some, List.length_append, List.length_cons]
  congr 1
  omega

/- Both searches stop at an end of the middle part, if there is one. -/
theorem betweenTrim (xs : List α) : betweenKept (fun x => !drop x) xs = trim drop xs := by
  obtain ⟨before, after, split, front, back, first, last⟩ := trimIff.mp (rfl : trim drop xs = _)
  generalize trim drop xs = inner at *
  have passed : ∀ {ys : List α}, (∀ y ∈ ys, drop y) → ∀ y ∈ ys, ¬ (!drop y) := by
    intro ys all y mem
    simpa using all y mem
  rcases List.eq_nil_or_concat' inner with rfl | ⟨init, final, rfl⟩
  · have none : xs.findIdx? (fun x => !drop x) = none := by
      refine List.findIdx?_eq_none_iff.mpr fun y mem => ?_
      rw [split, List.append_nil] at mem
      simpa using (List.mem_append.mp mem).elim (front y) (back y)
    rw [betweenKept, none]
  · obtain ⟨start, rest, same⟩ : ∃ start rest, init ++ [final] = start :: rest :=
      List.exists_cons_of_ne_nil (by simp)
    have found : xs.findIdx? (fun x => !drop x) = some before.length := by
      rw [split, same, List.append_assoc, List.cons_append]
      refine firstKept (passed front) ?_
      simpa [same] using first
    have found' : lastKept? (fun x => !drop x) xs = some (before ++ init).length := by
      rw [split, ← List.append_assoc, List.append_assoc (before ++ init), List.singleton_append]
      refine lastKept (passed back) ?_
      simpa using last
    have taken : (before ++ (init ++ [final]) ++ after).take ((before ++ init).length + 1) =
        before ++ (init ++ [final]) :=
      List.take_left' (by simp [Nat.add_assoc])
    rw [betweenKept, found, found', split]
    dsimp only
    rw [taken, List.drop_left]

end

variable {S : Type} [Symbol S]

namespace Tape

/- Blanks around the cells are not seen: it is as if they had been laid from that offset on. -/
theorem peekBetween {tape : Tape S} {before after : Nat} {inner : List S}
    (cells : tape.cells = List.replicate before Symbol.blank ++ inner ++
      List.replicate after Symbol.blank) (offset : Int) :
    tape.peek (offset + (tape.origin + before)) = (ofInput inner).peek offset := by
  rw [← rowPeek, Row.peekFrom, peekInput]
  simp only [row, cells]
  rw [getBlanksBehind]
  by_cases start : 0 ≤ offset
  · have place : (offset + (tape.origin + before) - tape.origin).toNat =
        (List.replicate before (Symbol.blank : S)).length + offset.toNat := by
      rw [List.length_replicate]
      omega
    rw [if_pos start, if_pos (by omega), place, List.getD_append_right _ _ _ _ (by omega),
      Nat.add_sub_cancel_left]
  · rw [if_neg start]
    split
    · rw [List.getD_append _ _ _ _ (by rw [List.length_replicate]; omega),
        List.getD_replicate _ (by omega)]
    · rfl

theorem windowBetween {tape : Tape S} {first : Int} {inner : List S}
    (shown : ∀ offset, tape.peek (offset + first) = (ofInput inner).peek offset) :
    tape.window first inner.length = inner := by
  apply List.ext_getElem
  · simp [window]
  · intro place left right
    have here := shown place
    rw [peekInput, if_pos (Int.natCast_nonneg place), Int.toNat_natCast,
      List.getD_eq_getElem _ _ right] at here
    rw [← here, Int.add_comm]
    simp [window]

def support (tape : Tape S) : Set Int := {offset | tape.peek offset ≠ Symbol.blank}

section
variable {tape : Tape S} {first : Int} {inner : List S}
  (shown : ∀ offset, tape.peek (offset + first) = (ofInput inner).peek offset)
include shown

theorem supportIff {offset : Int} : offset ∈ tape.support ↔
    ∃ place : Nat, offset = first + place ∧ ∃ symbol ∈ inner[place]?, symbol ≠ Symbol.blank := by
  have here : tape.peek offset = (ofInput inner).peek (offset - first) := by
    rw [← shown, Int.sub_add_cancel]
  change tape.peek offset ≠ Symbol.blank ↔ _
  rw [here, peekInput]
  constructor
  · intro other
    by_cases behind : 0 ≤ offset - first
    · rw [if_pos behind] at other
      refine ⟨(offset - first).toNat, by omega, ?_⟩
      rw [List.getD_eq_getElem?_getD] at other
      cases held : inner[(offset - first).toNat]? with
      | none => simp [held] at other
      | some symbol => exact ⟨symbol, rfl, by simpa [held] using other⟩
    · exact absurd (if_neg behind) other
  · intro ⟨place, same, symbol, held, other⟩
    subst same
    have distance : (first + place - first).toNat = place := by omega
    have found : inner[place]? = some symbol := held
    rw [if_pos (by omega), distance, List.getD_eq_getElem?_getD, found]
    exact other

theorem supportLeast (filled : inner ≠ []) (start : inner.head? ≠ some Symbol.blank) :
    IsLeast tape.support first := by
  constructor
  · obtain ⟨symbol, rest, rfl⟩ := List.exists_cons_of_ne_nil filled
    exact (supportIff shown).mpr ⟨0, by omega, symbol, rfl, by simpa using start⟩
  · intro offset other
    obtain ⟨place, rfl, -⟩ := (supportIff shown).mp other
    omega

theorem supportGreatest (filled : inner ≠ []) (final : inner.getLast? ≠ some Symbol.blank) :
    IsGreatest tape.support (first + (inner.length - 1)) := by
  have size := List.length_pos_iff.mpr filled
  constructor
  · refine (supportIff shown).mpr ⟨inner.length - 1, by omega, inner.getLast filled, ?_, ?_⟩
    · rw [← List.getLast?_eq_getElem?, List.getLast?_eq_some_getLast filled]
      rfl
    · simpa [List.getLast?_eq_some_getLast filled] using final
  · intro offset other
    obtain ⟨place, rfl, symbol, held, -⟩ := (supportIff shown).mp other
    obtain ⟨inside, -⟩ := List.getElem?_eq_some_iff.mp held
    omega

end

variable [DecidableEq S]

def outputBySearch (tape : Tape S) : List S := betweenKept (fun symbol => !Symbol.isBlank symbol) tape.cells

/- The output as it would be laid again, at the offset where it is seen. -/
theorem outputShown (tape : Tape S) : ∃ first, (∀ offset,
    tape.peek (offset + first) = (ofInput tape.output).peek offset) ∧
      tape.output.head? ≠ some Symbol.blank ∧ tape.output.getLast? ≠ some Symbol.blank := by
  obtain ⟨before, after, cells, ends⟩ := outputIff.mp (rfl : tape.output = _)
  exact ⟨tape.origin + before, peekBetween cells, ends⟩

theorem outputCanonical (tape : Tape S) : tape.outputBySearch = tape.output ∧
    (tape.output = [] ↔ ∀ offset, tape.peek offset = Symbol.blank) ∧
    (tape.output ≠ [] → ∃ first last, IsLeast tape.support first ∧ IsGreatest tape.support last ∧
      tape.output = tape.window first (last - first + 1).toNat) ∧
    tape.output.head? ≠ some Symbol.blank ∧ tape.output.getLast? ≠ some Symbol.blank ∧
    (ofInput tape.output).output = tape.output ∧
    ∀ (other : Tape S) (far : Int), (∀ offset, other.peek (offset + far) = tape.peek offset) →
      other.output = tape.output := by
  obtain ⟨first, shown, start, final⟩ := tape.outputShown
  have empty : tape.output = [] ↔ ∀ offset, tape.peek offset = Symbol.blank := by
    constructor
    · intro none offset
      rw [none] at shown
      rw [← Int.sub_add_cancel offset first, shown, peekInput]
      simp
    · intro blank
      by_contra filled
      exact (supportLeast shown filled start).1 (blank first)
  refine ⟨betweenTrim _, empty, fun filled => ?_, start, final, (outputOfSeen first shown).symm,
    fun other far alike => outputOfSeen far alike⟩
  have size : (first + (tape.output.length - 1) - first + 1).toNat = tape.output.length := by omega
  refine ⟨first, first + (tape.output.length - 1), supportLeast shown filled start,
    supportGreatest shown filled final, ?_⟩
  rw [size, windowBetween shown]

/- A blank in the middle stays, those at the ends of the one tape are not there on the other. -/
theorem outputCanonicalShifted :
    let one : Tape Char := ⟨['_', 'a', '_'], 'b', ['_', '_'], 2⟩
    let other : Tape Char := ⟨[], 'a', ['_', 'b'], 7⟩
    (∀ offset, other.peek (offset + 7) = one.peek offset) ∧ other.output = one.output ∧
      one.output = ['a', '_', 'b'] ∧ ∃ first last, IsLeast one.support first ∧
        IsGreatest one.support last ∧ one.output = one.window first (last - first + 1).toNat := by
  intro one other
  obtain ⟨-, -, extremes, -, -, -, same⟩ := outputCanonical one
  have cells : one.cells = List.replicate 1 '_' ++ ['a', '_', 'b'] ++ List.replicate 2 '_' := rfl
  have cells' : other.cells = List.replicate 0 '_' ++ ['a', '_', 'b'] ++ List.replicate 0 '_' := rfl
  have alike : ∀ offset, other.peek (offset + 7) = one.peek offset := by
    intro offset
    have shown : one.peek (offset + 0) = _ := peekBetween cells offset
    have shown' : other.peek (offset + 7) = _ := peekBetween cells' offset
    rw [shown', ← shown, Int.add_zero]
  exact ⟨alike, same other 7 alike, by decide, extremes (by decide)⟩

end Tape
end Multitape
