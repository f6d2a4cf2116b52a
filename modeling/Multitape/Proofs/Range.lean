import Multitape.Proofs.Observed

/-! How far a run can come on its tapes. The cells that a tape holds make up a range around
offset 0 which each move extends by one cell at most, at the place the head has come to, and
which never gets smaller. So after some steps no head is further from offset 0 than that, and
no range goes further than the heads and the input. -/
namespace Multitape
variable {S : Type} [Symbol S]

namespace Tape
variable {tape : Tape S} {size n : Nat}

omit [Symbol S] in
theorem headInside (tape : Tape S) : tape.origin ≤ tape.head ∧ tape.head ≤ tape.last := by
  unfold origin last
  omega

theorem rangeShift (tape : Tape S) (move : Direction) :
    (tape.shift move).origin = min tape.origin (tape.head + move.offset) ∧
      (tape.shift move).last = max tape.last (tape.head + move.offset) := by
  obtain ⟨left, here, right, head⟩ := tape
  cases move with
  | stay =>
    simp only [shift, origin, last, Direction.offset]
    omega
  | left =>
    cases left <;> simp only [shift, origin, last, Direction.offset, List.tail_cons, List.tail_nil,
      List.length_cons, List.length_nil] <;> omega
  | right =>
    cases right <;> simp only [shift, origin, last, Direction.offset, List.tail_cons,
      List.tail_nil, List.length_cons, List.length_nil] <;> omega

theorem headShift (tape : Tape S) (move : Direction) :
    (tape.shift move).head = tape.head + move.offset := by
  cases move with
  | left => rfl
  | right => rfl
  | stay => exact (Int.add_zero tape.head).symm

def Covers (tape other : Tape S) : Prop := tape.origin ≤ other.origin ∧ other.last ≤ tape.last

omit [Symbol S] in
theorem Covers.trans {first second third : Tape S} (one : first.Covers second)
    (two : second.Covers third) : first.Covers third :=
  ⟨one.1.trans two.1, two.2.trans one.2⟩

theorem coversShift (mode : TapeMode) (tape : Tape S) (move : Direction) :
    (mode.shift tape move).Covers tape := by
  unfold TapeMode.shift
  split
  · exact ⟨Int.le_refl _, Int.le_refl _⟩
  · obtain ⟨origin, last⟩ := tape.rangeShift move
    exact ⟨by omega, by omega⟩

structure Reaches (tape : Tape S) (size n : Nat) : Prop where
  zero : tape.origin ≤ 0 ∧ 0 ≤ tape.last
  head : -(n : Int) ≤ tape.head ∧ tape.head ≤ n
  range : -(n : Int) ≤ tape.origin ∧ tape.last ≤ max (max ((size : Int) - 1) n) 0

theorem reachesInput {input : List S} (fits : input.length ≤ size) :
    (ofInput input).Reaches size 0 := by
  cases input with
  | nil => constructor <;> simp [ofInput, origin, last]
  | cons symbol rest =>
    rw [List.length_cons] at fits
    constructor <;> simp only [ofInput, origin, last, List.length_nil] <;> omega

omit [Symbol S] in
theorem reachesLater (reaches : tape.Reaches size n) : tape.Reaches size (n + 1) := by
  obtain ⟨zero, head, range⟩ := reaches
  exact ⟨zero, by omega, by omega⟩

theorem reachesShift (mode : TapeMode) (reaches : tape.Reaches size n) (move : Direction) :
    (mode.shift tape move).Reaches size (n + 1) := by
  unfold TapeMode.shift
  split
  · exact reachesLater reaches
  · obtain ⟨zero, head, range⟩ := reaches
    obtain ⟨origin, last⟩ := tape.rangeShift move
    have moved := tape.headShift move
    have one : -1 ≤ move.offset ∧ move.offset ≤ 1 := by cases move <;> decide
    exact ⟨by omega, by omega, by omega⟩

end Tape

theorem tapeOfAct {mode : TapeMode} {tapes : List (Tape S)} {write : List S}
    {moves : List Direction} {index : Nat} {new : Tape S}
    (found : (act mode tapes write moves)[index]? = some new) :
    ∃ old, tapes[index]? = some old ∧
      (new = old ∨ ∃ symbol move, new = mode.shift (old.write symbol) move) := by
  induction tapes generalizing index write moves with
  | nil => simp [act] at found
  | cons first tapes ih =>
    cases write with
    | nil => exact ⟨new, by simpa [act] using found, .inl rfl⟩
    | cons symbol write =>
      cases moves with
      | nil => exact ⟨new, by simpa [act] using found, .inl rfl⟩
      | cons move moves =>
        cases index with
        | zero =>
          simp only [act, List.getElem?_cons_zero] at found
          exact ⟨first, rfl, .inr ⟨symbol, move, (Option.some.inj found).symm⟩⟩
        | succ index =>
          simp only [act, List.getElem?_cons_succ] at found ⊢
          exact ih found

variable [DecidableEq S] {machine : Machine S} {mode : TapeMode} {start now next : Configuration S}

/- A tape after a step is the one in its place before, at most written on and moved once. -/
theorem tapeOfStep {index : Nat} {new : Tape S} (step : machine.step? mode now = some next)
    (found : next.tapes[index]? = some new) : ∃ old, now.tapes[index]? = some old ∧
      (new = old ∨ ∃ symbol move, new = mode.shift (old.write symbol) move) := by
  obtain ⟨number, -, ⟨rule, -, rfl⟩ | ⟨-, rfl⟩⟩ := stepIff.mp step
  · exact tapeOfAct found
  · exact ⟨new, found, .inl rfl⟩

theorem reachesStep {size n : Nat} (reaches : ∀ tape ∈ now.tapes, tape.Reaches size n)
    (step : machine.step? mode now = some next) :
    ∀ tape ∈ next.tapes, tape.Reaches size (n + 1) := by
  intro tape mem
  obtain ⟨index, found⟩ := List.mem_iff_getElem?.mp mem
  obtain ⟨old, before, rfl | ⟨symbol, move, rfl⟩⟩ := tapeOfStep step found
  · exact Tape.reachesLater (reaches tape (List.mem_of_getElem? before))
  · obtain ⟨zero, head, range⟩ := reaches old (List.mem_of_getElem? before)
    have written : (old.write symbol).Reaches size n := ⟨zero, head, range⟩
    exact Tape.reachesShift mode written move

theorem reachesAfter {input : List S} {n : Nat}
    (reached : machine.after? mode (.start machine.tapes input) n = some now) :
    ∀ tape ∈ now.tapes, tape.Reaches input.length n := by
  induction n generalizing now with
  | zero =>
    obtain rfl := Option.some.inj reached
    intro tape mem
    rcases List.mem_cons.mp mem with rfl | blank
    · exact Tape.reachesInput (Nat.le_refl _)
    · rw [List.eq_of_mem_replicate blank]
      exact Tape.reachesInput (Nat.zero_le _)
  | succ n ih =>
    obtain ⟨before, found, step⟩ := Option.bind_eq_some_iff.mp reached
    exact reachesStep (ih found) step

theorem coversStep {index : Nat} {new : Tape S} (step : machine.step? mode now = some next)
    (found : next.tapes[index]? = some new) :
    ∃ old, now.tapes[index]? = some old ∧ new.Covers old := by
  obtain ⟨old, before, rfl | ⟨symbol, move, rfl⟩⟩ := tapeOfStep step found
  · exact ⟨new, before, Int.le_refl _, Int.le_refl _⟩
  · exact ⟨old, before, Tape.coversShift mode (old.write symbol) move⟩

/- Induction on the steps from the earlier configuration to the later one. -/
theorem coversAfter {earlier n index : Nat} {before : Configuration S} {new : Tape S}
    (le : earlier ≤ n) (first : machine.after? mode start earlier = some before)
    (reached : machine.after? mode start n = some now) (found : now.tapes[index]? = some new) :
    ∃ old, before.tapes[index]? = some old ∧ new.Covers old := by
  induction n, le using Nat.le_induction generalizing now new with
  | base =>
    obtain rfl := Option.some.inj (first.symm.trans reached)
    exact ⟨new, found, Int.le_refl _, Int.le_refl _⟩
  | succ n le ih =>
    obtain ⟨middle, there, step⟩ := Option.bind_eq_some_iff.mp reached
    obtain ⟨between, held, covers⟩ := coversStep step found
    obtain ⟨old, here, covers'⟩ := ih there held
    exact ⟨old, here, covers.trans covers'⟩

end Multitape
