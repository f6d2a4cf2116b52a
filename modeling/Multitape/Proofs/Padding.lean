import Multitape.Proofs.Abstract
import Multitape.Proofs.View

/-! Blanks behind the input. They are cells that the tape holds from the start, and nothing else:
the abstract machine has blanks there in any case. So both runs show one run of the abstract
machine, and what is told of them at the end is what is seen on their tapes. -/
namespace Multitape
variable {S : Type} [Symbol S]

/-- The same head, and the same symbol at every offset, whatever cells the tapes hold. -/
structure Tape.Alike (one other : Tape S) : Prop where
  head : one.head = other.head
  seen : ∀ offset, one.peek offset = other.peek offset

theorem showsAlike {tapes : Nat} {one other : Configuration S} {drawn : Abstract S tapes}
    (shown : one.Shows drawn) (shown' : other.Shows drawn) :
    List.Forall₂ Tape.Alike one.tapes other.tapes := by
  refine List.forall₂_iff_get.mpr ⟨shown.count.trans shown'.count.symm, fun index bound bound' => ?_⟩
  let place : Fin tapes := ⟨index, shown.count ▸ bound⟩
  obtain ⟨head, seen⟩ := shown.tape place one.tapes[index] (List.getElem?_eq_getElem bound)
  obtain ⟨head', seen'⟩ := shown'.tape place other.tapes[index] (List.getElem?_eq_getElem bound')
  exact ⟨head.trans head'.symm, fun offset => (seen offset).trans (seen' offset).symm⟩

def padded (input : List S) (count : Nat) : List S := input ++ List.replicate count Symbol.blank

variable [DecidableEq S] {machine : Machine S}

namespace Abstract

theorem afterPadded (mode : TapeMode) (input : List S) (count n : Nat) :
    after machine mode (padded input count) n = after machine mode input n := by
  induction n with
  | zero =>
    unfold after start padded
    simp only [getBlanksBehind]
  | succ n ih => rw [after, ih, after]

theorem lifetimePadded (mode : TapeMode) (input : List S) (count : Nat) :
    lifetime machine mode (padded input count) = lifetime machine mode input := by
  unfold lifetime
  simp only [afterPadded]

end Abstract

theorem refusePadded (alphabet : Alphabet S) (input : List S) (count : Nat) :
    alphabet.refuse? (padded input count) = alphabet.refuse? input := by
  cases refused : alphabet.refuse? input with
  | none =>
    refine refuseNoneIff.mpr fun symbol mem => ?_
    rcases List.mem_append.mp mem with old | blank
    · exact refuseNoneIff.mp refused symbol old
    · rw [List.eq_of_mem_replicate blank]
      exact alphabet.blankMem
  | some cause =>
    obtain ⟨known, symbol, rest, rfl, inside, foreign, told⟩ := refuseSomeIff.mp refused
    exact refuseSomeIff.mpr ⟨known, symbol, padded rest count, by simp [padded], inside, foreign, told⟩

namespace Run
variable {config : Config} {input : List S} {run : Run S}

theorem followsFinish (started : start machine config input = .ok run) :
    Follows machine config input config.maxSteps run.finish := by
  have begun := followsStart started
  have remaining : run.remaining = config.maxSteps := by
    rw [Run.remaining, begun.sameConfig, Nat.le_zero.mp begun.within, Nat.sub_zero]
  rw [finish, ← callsAdvance, remaining]
  exact followsCalls started _

end Run

structure Outcome.Alike (one other : Outcome S) : Prop where
  verdict : one.verdict = other.verdict
  steps : one.steps = other.steps
  state : one.state = other.state
  tapes : List.Forall₂ Tape.Alike one.tapes other.tapes
  output : one.output = other.output
  outputText : one.outputText = other.outputText

theorem outputAlike {one other : Outcome S} (tapes : List.Forall₂ Tape.Alike one.tapes other.tapes) :
    one.output = other.output := by
  have outputs : one.tapes.map Tape.output = other.tapes.map Tape.output := by
    rw [← List.forall₂_eq_eq_eq, List.forall₂_map_left_iff, List.forall₂_map_right_iff]
    refine tapes.imp fun tape again alike => Tape.outputOfSeen 0 fun offset => ?_
    rw [Int.add_zero, alike.seen]
  unfold Outcome.output
  rw [← List.getLast?_map, ← List.getLast?_map, outputs]

/- Both runs take the steps that the one run of the abstract machine takes within the bound. -/
theorem outcomesAlike {config : Config} {input : List S} {count : Nat} {run longer : Run S}
    (started : Run.start machine config input = .ok run)
    (started' : Run.start machine config (padded input count) = .ok longer) :
    run.outcome.Alike longer.outcome := by
  have follows := Run.followsFinish started
  have follows' := Run.followsFinish started'
  have steps : run.finish.steps = longer.finish.steps := by
    have counted := Run.stepsOf follows'
    rw [Abstract.lifetimePadded, ← Run.stepsOf follows] at counted
    exact (Nat.cast_inj.mp counted).symm
  have shown := follows.agrees
  have shown' := follows'.agrees
  rw [Abstract.afterPadded, ← steps] at shown'
  have state : run.finish.state = longer.finish.state := shown.state.trans shown'.state.symm
  have tapes : List.Forall₂ Tape.Alike run.outcome.tapes longer.outcome.tapes :=
    showsAlike shown shown'
  have output := outputAlike tapes
  exact {
    verdict := congrArg (fun state => state.verdict?.getD .stepBoundExceeded) state
    steps, state, tapes, output
    outputText := congrArg Symbol.join output }

theorem blanksBehindUnseen (machine : Machine S) (config : Config) (input : List S) (count : Nat) :
    (∃ cause, machine.run config input = .error cause ∧
      machine.run config (padded input count) = .error cause) ∨
    ∃ one other, machine.run config input = .ok one ∧
      machine.run config (padded input count) = .ok other ∧ one.Alike other := by
  have same := refusePadded machine.alphabet input count
  unfold Machine.run
  cases refused : machine.alphabet.refuse? input with
  | some cause =>
    rw [startErrorIff.mpr refused, startErrorIff.mpr (same.trans refused)]
    exact .inl ⟨cause, rfl, rfl⟩
  | none =>
    have started := startAccepted config (refuseNoneIff.mp refused)
    have started' := startAccepted config (refuseNoneIff.mp (same.trans refused))
    rw [started, started']
    exact .inr ⟨_, _, rfl, rfl, outcomesAlike started started'⟩

end Multitape
