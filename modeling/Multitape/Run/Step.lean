import Multitape.Machine.Basic
import Multitape.Tape

/-! One step of a machine. A configuration is a state and the tapes. In an ordinary state
the rule for the symbols under the heads writes, moves and names the next state; where no
rule applies the machine enters the rejecting state and touches no tape. -/
namespace Multitape

inductive TapeMode where
  | biInfinite
  /-- Offset 0 is the left end; a move to the left from there leaves the head in place. -/
  | rightInfinite
  deriving DecidableEq, Hashable, Repr

def TapeMode.shift {S : Type} [Symbol S] (mode : TapeMode) (tape : Tape S) (move : Direction) :
    Tape S :=
  if mode = .rightInfinite ∧ move = .left ∧ tape.head = 0 then tape else tape.shift move

structure Configuration (S : Type) where
  state : State
  tapes : List (Tape S)
  deriving DecidableEq, Repr

namespace Configuration
variable {S : Type} [Symbol S]

def start (tapes : Nat) (input : List S) : Configuration S :=
  ⟨.start, Tape.ofInput input :: List.replicate (tapes - 1) Tape.empty⟩

def symbols (configuration : Configuration S) : List S := configuration.tapes.map Tape.read

end Configuration

variable {S : Type} [Symbol S]

def act (mode : TapeMode) : List (Tape S) → List S → List Direction → List (Tape S)
  | tape :: tapes, symbol :: write, move :: moves =>
    mode.shift (tape.write symbol) move :: act mode tapes write moves
  | tapes, _, _ => tapes

theorem lengthAct (mode : TapeMode) (tapes : List (Tape S)) (write : List S)
    (moves : List Direction) : (act mode tapes write moves).length = tapes.length := by
  induction tapes generalizing write moves with
  | nil => simp [act]
  | cons tape tapes ih => cases write <;> cases moves <;> simp [act, ih]

def Machine.step? [DecidableEq S] (machine : Machine S) (mode : TapeMode)
    (now : Configuration S) : Option (Configuration S) :=
  match now.state with
  | .ordinary number =>
    match machine.table.get? number now.symbols with
    | some rule => some ⟨rule.next, act mode now.tapes rule.write rule.moves⟩
    | none => some ⟨.reject, now.tapes⟩
  | _ => none

theorem stepNoneIff [DecidableEq S] (machine : Machine S) (mode : TapeMode)
    (now : Configuration S) : machine.step? mode now = none ↔ now.state.isTerminal := by
  cases now with
  | mk state tapes =>
    cases state with
    | ordinary number =>
      simp only [Machine.step?, State.isTerminal, State.number?]
      split <;> simp
    | _ => simp [Machine.step?, State.isTerminal, State.number?]

/- All that a step can do: the rule for what is read is applied, or there is none. -/
theorem stepIff [DecidableEq S] {machine : Machine S} {mode : TapeMode}
    {now next : Configuration S} : machine.step? mode now = some next ↔
      ∃ number, now.state = .ordinary number ∧
        ((∃ rule, machine.table.get? number now.symbols = some rule ∧
            next = ⟨rule.next, act mode now.tapes rule.write rule.moves⟩) ∨
          machine.table.get? number now.symbols = none ∧ next = ⟨.reject, now.tapes⟩) := by
  obtain ⟨state, tapes⟩ := now
  cases state with
  | ordinary number =>
    simp only [Machine.step?]
    cases found : machine.table.get? number (Configuration.symbols ⟨.ordinary number, tapes⟩) <;>
      simp [found, eq_comm (a := next)]
  | _ => simp [Machine.step?]

end Multitape
