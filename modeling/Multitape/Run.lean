import Multitape.Run.Step

/-! Runs under a step bound. A run holds its machine and the one configuration it has
reached; it ends in a terminal state or when the bound is spent, and a terminal state that
the last step reaches counts as such. -/
namespace Multitape

structure Config where
  maxSteps : Nat := 10000
  tapeMode : TapeMode := .biInfinite
  deriving DecidableEq, Repr

structure Snapshot (S : Type) where
  step : Nat
  state : State
  tapes : List (Tape S)
  deriving DecidableEq, Repr

/-- The end of a run. The steps include one into the rejecting state for want of a rule. -/
structure Outcome (S : Type) where
  verdict : Verdict
  steps : Nat
  tapes : List (Tape S)
  state : State
  deriving DecidableEq, Repr

namespace Outcome
variable {S : Type} [Symbol S] [DecidableEq S]

def accepted (outcome : Outcome S) : Bool := outcome.verdict = .accept

def rejected (outcome : Outcome S) : Bool := outcome.verdict = .reject

def output (outcome : Outcome S) : List S := (outcome.tapes.getLast?.map Tape.output).getD []

def outputText (outcome : Outcome S) : String := Symbol.join outcome.output

end Outcome

structure Run (S : Type) [Symbol S] extends Configuration S where
  machine : Machine S
  config : Config
  steps : Nat

namespace Run
variable {S : Type} [Symbol S] [DecidableEq S]

def start (machine : Machine S) (config : Config) (input : List S) : Except InputError (Run S) :=
  match machine.alphabet.refuse? input with
  | some cause => .error cause
  | none => .ok { Configuration.start machine.tapes input with machine, config, steps := 0 }

def verdict? (run : Run S) : Option Verdict :=
  run.state.verdict?.or
    (if run.config.maxSteps ≤ run.steps then some .stepBoundExceeded else none)

def step? (run : Run S) : Option (Run S) :=
  if run.config.maxSteps ≤ run.steps then none
  else (run.machine.step? run.config.tapeMode run.toConfiguration).map fun next =>
    { run with toConfiguration := next, steps := run.steps + 1 }

theorem stepNoneIffVerdict (run : Run S) : run.step? = none ↔ run.verdict?.isSome := by
  unfold step? verdict?
  split
  · simp
  · simp [stepNoneIff, State.isTerminalIff]

def advance : Nat → Run S → Run S
  | 0, run => run
  | n + 1, run => match run.step? with
    | none => run
    | some next => advance n next

def remaining (run : Run S) : Nat := run.config.maxSteps - run.steps

def finish (run : Run S) : Run S := run.advance run.remaining

def trail : Nat → Run S → List (Run S)
  | 0, _ => []
  | n + 1, run => match run.step? with
    | none => []
    | some next => next :: trail n next

def ahead (run : Run S) : List (Run S) := run.trail run.remaining

def snapshot (run : Run S) : Snapshot S := ⟨run.steps, run.state, run.tapes⟩

def outcome (run : Run S) : Outcome S :=
  let last := run.finish
  ⟨last.state.verdict?.getD .stepBoundExceeded, last.steps, last.tapes, last.state⟩

theorem lastTrail (n : Nat) (run : Run S) :
    ((run.trail n).getLast?).getD run = run.advance n := by
  induction n generalizing run with
  | zero => rfl
  | succ n ih =>
    simp only [trail, advance]
    cases run.step? with
    | none => rfl
    | some next =>
      simp only [List.getLast?_cons, ← ih next]
      cases (trail n next).getLast? <;> rfl

end Run

def Machine.run {S : Type} [Symbol S] [DecidableEq S] (machine : Machine S) (config : Config)
    (input : List S) : Except InputError (Outcome S) :=
  (Run.start machine config input).map Run.outcome

end Multitape
