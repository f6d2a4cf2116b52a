import Multitape.Proofs.SingleTape.Shown

/-! Steps on a part of the tape. A scan needs no cells but its own: with any others in front of
them the compiled machine takes the same steps, its head never comes there, and those cells stay
as they are. -/
namespace Multitape

namespace Tape
variable {S : Type}

/-- The tape behind further cells, nearest first. Its offset 0 comes to stand at `edge`. -/
def raised (tape : Tape S) (under : List S) (edge : Int) : Tape S :=
  ⟨tape.left ++ under, tape.here, tape.right, tape.head + edge⟩

variable [Symbol S] {tape : Tape S} {under : List S} {edge : Int}

theorem raisedShift {move : Direction} (inside : move = .left → tape.left ≠ []) :
    (tape.raised under edge).shift move = (tape.shift move).raised under edge := by
  cases move with
  | stay => rfl
  | right => simp [raised, shift, Int.add_right_comm]
  | left =>
    obtain ⟨symbol, rest, split⟩ := List.exists_cons_of_ne_nil (inside rfl)
    have head : tape.head + edge - 1 = tape.head - 1 + edge := by omega
    simp [raised, shift, split, head]

theorem peekRaised (anchored : tape.Anchored) {offset : Int} (before : offset < edge) :
    (tape.raised under edge).peek offset =
      under.getD (edge - 1 - offset).toNat Symbol.blank := by
  have same : tape.head = tape.left.length := anchored
  have place : offset = (tape.raised under edge).head -
      ((tape.left.length + (edge - 1 - offset).toNat : Nat) + 1) := by
    simp only [raised, same]
    omega
  rw [peekLeft _ place]
  simp [raised, List.getElem?_append_right]

end Tape

namespace SingleTape
variable {S : Type} [Symbol S] [DecidableEq S] {machine : Machine S} {mode : TapeMode}
  {compiled : SingleTape S} {state : State} {tape : Tape Token} {scan next : Scan S}

/- Tapes that end at offset 0 hold back no move, as the head stands behind `edge` then. -/
theorem shiftRaised {phase : Phase S} {instruction : Instruction S} {rest : List (Cell S)}
    (shows : Shows compiled state tape scan)
    (applies : Applies machine mode scan next phase instruction rest) {run : TapeMode}
    {edge : Int} (bounded : run = .rightInfinite → 0 ≤ edge) (under : List Token) (token : Token) :
    run.shift ((tape.raised under edge).write token) instruction.move =
      ((tape.write token).shift instruction.move).raised under edge := by
  have inside : instruction.move = .left → (tape.write token).left ≠ [] := by
    intro left none
    have empty : scan.left.map Cell.token = [] := shows.left.symm.trans none
    exact applies.inside left (List.map_eq_nil_iff.mp empty)
  have free : ¬ (run = .rightInfinite ∧ instruction.move = .left ∧
      ((tape.raised under edge).write token).head = 0) := by
    rintro ⟨right, left, zero⟩
    have anchored : tape.head = tape.left.length := shows.anchored
    have filled : 0 < tape.left.length := List.length_pos_iff.mpr (inside left)
    have start : tape.head + edge = 0 := zero
    have := bounded right
    omega
  rw [TapeMode.shift, if_neg free]
  exact Tape.raisedShift inside

variable [LawfulSymbol S] (result : Compiled machine mode compiled) (several : 2 ≤ machine.tapes)
include result several

theorem raisedStep (shows : Shows compiled state tape scan) (step : Step machine mode scan next) :
    ∃ later moved, Shows compiled later moved next ∧ ∀ run under edge,
      (run = .rightInfinite → 0 ≤ edge) →
        compiled.machine.step? run ⟨state, [tape.raised under edge]⟩ =
          some ⟨later, [moved.raised under edge]⟩ := by
  obtain ⟨phase, instruction, rest, applies⟩ := stepApplies step
  obtain ⟨number, rfl, found, following⟩ := shownRule result several shows applies
  refine ⟨_, _, shownTape shows applies following, fun run under edge bounded => ?_⟩
  have reads : (tape.raised under edge).read = tape.read := rfl
  simp only [Machine.step?, Configuration.symbols, List.map_cons, List.map_nil, reads, found,
    Instruction.rule, act, shiftRaised shows applies bounded]

/- Induction on the steps of the scan. -/
theorem raisedTravel (shows : Shows compiled state tape scan)
    (travel : Travel machine mode scan next) :
    ∃ steps later moved, Shows compiled later moved next ∧ ∀ run under edge,
      (run = .rightInfinite → 0 ≤ edge) →
        compiled.machine.after? run ⟨state, [tape.raised under edge]⟩ steps =
            some ⟨later, [moved.raised under edge]⟩ ∧
          ∀ n ≤ steps, ∃ between, ∃ there : Tape Token, there.Anchored ∧
            compiled.machine.after? run ⟨state, [tape.raised under edge]⟩ n =
              some ⟨between, [there.raised under edge]⟩ := by
  induction travel with
  | refl =>
    refine ⟨0, state, tape, shows, fun run under edge _ => ⟨rfl, fun n none => ?_⟩⟩
    obtain rfl := Nat.le_zero.mp none
    exact ⟨state, tape, shows.anchored, rfl⟩
  | tail _ last ih =>
    obtain ⟨steps, now, there, shown, before⟩ := ih
    obtain ⟨later, moved, shows', step⟩ := raisedStep result several shown last.1
    refine ⟨steps + 1, later, moved, shows', fun run under edge bounded => ?_⟩
    obtain ⟨reached, all⟩ := before run under edge bounded
    have arrived := (afterSucc reached).trans (step run under edge bounded)
    refine ⟨arrived, fun n le => ?_⟩
    rcases Nat.lt_or_eq_of_le le with less | rfl
    · exact all n (Nat.le_of_lt_succ less)
    · exact ⟨later, moved, shows'.anchored, arrived⟩

end SingleTape
end Multitape
