import Multitape.Proofs.Range

/-! The two tape modes. They differ in one move, to the left from offset 0: where the tape ends
there the head stays, and elsewhere the tape holds offset -1 from then on. So two runs with the
same bound end alike exactly when no tape has come to hold a cell in front of offset 0. -/
namespace Multitape
variable {S : Type} [Symbol S]

theorem shiftInside {tape : Tape S} {move : Direction} (inside : 0 ≤ (tape.shift move).origin) :
    TapeMode.shift .rightInfinite tape move = tape.shift move := by
  refine if_neg ?_
  rintro ⟨-, rfl, zero⟩
  have extended := (tape.rangeShift .left).1
  simp only [Direction.offset] at extended
  omega

/- Induction on the tapes, as the tapes are acted on one by one. -/
theorem actInside {tapes : List (Tape S)} {write : List S} {moves : List Direction}
    (inside : ∀ tape ∈ act .biInfinite tapes write moves, 0 ≤ tape.origin) :
    act .rightInfinite tapes write moves = act .biInfinite tapes write moves := by
  induction tapes generalizing write moves with
  | nil => simp [act]
  | cons tape tapes ih =>
    cases write with
    | nil => simp [act]
    | cons symbol write =>
      cases moves with
      | nil => simp [act]
      | cons move moves =>
        have free : TapeMode.shift .biInfinite (tape.write symbol) move =
            (tape.write symbol).shift move := if_neg (by simp)
        simp only [act, List.forall_mem_cons, free] at inside ⊢
        rw [shiftInside inside.1, ih inside.2]

variable [DecidableEq S] {machine : Machine S} {mode : TapeMode} {start now next : Configuration S}

theorem stepInside (step : machine.step? .biInfinite now = some next)
    (inside : ∀ tape ∈ next.tapes, 0 ≤ tape.origin) :
    machine.step? .rightInfinite now = some next := by
  obtain ⟨number, state, ⟨rule, found, rfl⟩ | none⟩ := stepIff.mp step
  · rw [← actInside inside]
    exact stepIff.mpr ⟨number, state, .inl ⟨rule, found, rfl⟩⟩
  · exact stepIff.mpr ⟨number, state, .inr none⟩

theorem lengthStep (step : machine.step? mode now = some next) :
    next.tapes.length = now.tapes.length := by
  obtain ⟨number, -, ⟨rule, -, rfl⟩ | ⟨-, rfl⟩⟩ := stepIff.mp step
  · exact lengthAct ..
  · rfl

/- A cell that a tape has come to hold is held ever after. -/
theorem insideBefore (step : machine.step? mode now = some next)
    (inside : ∀ tape ∈ next.tapes, 0 ≤ tape.origin) : ∀ tape ∈ now.tapes, 0 ≤ tape.origin := by
  intro tape mem
  obtain ⟨index, bound, rfl⟩ := List.mem_iff_getElem.mp mem
  have within : index < next.tapes.length := by rwa [lengthStep step]
  obtain ⟨old, here, covers⟩ := coversStep step (List.getElem?_eq_getElem within)
  obtain rfl := Option.some.inj ((List.getElem?_eq_getElem bound).symm.trans here)
  exact (inside _ (List.getElem_mem within)).trans covers.1

/- Induction on the steps: what the last tapes hold decides about every step before. -/
theorem afterInside {n : Nat} (reached : machine.after? .biInfinite start n = some now)
    (inside : ∀ tape ∈ now.tapes, 0 ≤ tape.origin) :
    machine.after? .rightInfinite start n = some now := by
  induction n generalizing now with
  | zero => exact reached
  | succ n ih =>
    obtain ⟨before, found, step⟩ := Option.bind_eq_some_iff.mp reached
    rw [afterSucc (ih found (insideBefore step inside))]
    exact stepInside step inside

theorem modesAgree {bound : Nat} {input : List S} {outcome : Outcome S}
    (ran : machine.run ⟨bound, .biInfinite⟩ input = .ok outcome) :
    machine.run ⟨bound, .rightInfinite⟩ input = .ok outcome ↔
      ∀ tape ∈ outcome.tapes, tape.origin = 0 := by
  have known := knownOfRun ran
  constructor
  · intro same tape mem
    obtain ⟨n, last, ends, rfl⟩ := (runIff known).mp same
    have anchored := (soundAfter (soundStart known) ends.1).anchored rfl tape mem
    have head : tape.head = tape.left.length := anchored
    unfold Tape.origin
    omega
  · intro inside
    obtain ⟨n, last, ends, rfl⟩ := (runIff known).mp ran
    have within : ∀ tape ∈ last.tapes, 0 ≤ tape.origin :=
      fun tape mem => Int.le_of_eq (inside tape mem).symm
    exact (runIff known).mpr ⟨n, last, ⟨afterInside ends.1 within, ends.2⟩, rfl⟩

/- On a word it comes back to where it started, and on an empty tape it goes beyond that. -/
def returner : Machine Char where
  tapes := 1
  alphabet := copier.alphabet
  table := ((Table.empty.push ⟨0, ['a'], .ordinary 1, ['a'], [.right]⟩
      (Table.getNoneIff.mpr (by simp [Table.empty]))).push
    ⟨1, ['_'], .halt, ['_'], [.left]⟩
      (Table.getNoneIff.mpr (by simp [Table.push, Table.empty, Rule.key]))).push
    ⟨0, ['_'], .halt, ['_'], [.left]⟩
      (Table.getNoneIff.mpr (by simp [Table.push, Table.empty, Rule.key]))
  hasTapes := Nat.one_pos
  fits rule mem := by
    simp only [Table.push, Table.empty, Array.toList_push, List.nil_append, List.cons_append,
      List.mem_cons, List.not_mem_nil, or_false] at mem
    rcases mem with rfl | rfl | rfl <;>
      exact ⟨rfl, rfl, rfl, by simp [copier, Alphabet.memIff, Symbol.blank]⟩

theorem modesAgreeReturner : ∃ outcome beyond,
    returner.run ⟨5, .biInfinite⟩ ['a'] = .ok outcome ∧ outcome.steps = 2 ∧
      returner.run ⟨5, .rightInfinite⟩ ['a'] = .ok outcome ∧
      returner.run ⟨5, .biInfinite⟩ [] = .ok beyond ∧ beyond.steps = 1 ∧
      returner.run ⟨5, .rightInfinite⟩ [] ≠ .ok beyond := by
  have rules : returner.table.rules.toList = [⟨0, ['a'], .ordinary 1, ['a'], [.right]⟩,
      ⟨1, ['_'], .halt, ['_'], [.left]⟩, ⟨0, ['_'], .halt, ['_'], [.left]⟩] := by
    simp [returner, Table.push, Table.empty]
  have goes : ⟨0, ['a'], .ordinary 1, ['a'], [.right]⟩ ∈ returner.table.rules.toList := by
    simp [rules]
  have comes : ⟨1, ['_'], .halt, ['_'], [.left]⟩ ∈ returner.table.rules.toList := by simp [rules]
  have leaves : ⟨0, ['_'], .halt, ['_'], [.left]⟩ ∈ returner.table.rules.toList := by simp [rules]
  have gone : returner.after? .biInfinite (.start 1 ['a']) 1 =
      some ⟨.ordinary 1, [⟨['a'], '_', [], 1⟩]⟩ := (afterSucc rfl).trans (stepOfRule goes rfl rfl)
  have come : returner.after? .biInfinite (.start 1 ['a']) 2 =
      some ⟨.halt, [⟨[], 'a', ['_'], 0⟩]⟩ := (afterSucc gone).trans (stepOfRule comes rfl rfl)
  have left : returner.after? .biInfinite (.start 1 []) 1 =
      some ⟨.halt, [⟨[], '_', ['_'], -1⟩]⟩ := (afterSucc rfl).trans (stepOfRule leaves rfl rfl)
  have back := runOfEnds rfl (show returner.Ends .biInfinite (.start 1 ['a']) 5 2 _ from
    ⟨come, by decide, .inr rfl⟩)
  have away := runOfEnds rfl (show returner.Ends .biInfinite (.start 1 []) 5 1 _ from
    ⟨left, by decide, .inr rfl⟩)
  exact ⟨_, _, back, rfl, (modesAgree back).mpr (by decide), away, rfl,
    fun same => absurd ((modesAgree away).mp same) (by decide)⟩

end Multitape
