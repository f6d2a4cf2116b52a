import Multitape.Text.Numeral

/-! States of a machine and the verdicts of its runs. Ordinary states are numbered and
state 0 starts every run; the three terminal states have no rules of their own. -/
namespace Multitape

inductive Verdict where
  | accept
  | reject
  | halt
  | stepBoundExceeded
  deriving DecidableEq, Repr

def Verdict.text : Verdict → String
  | accept => "accept"
  | reject => "reject"
  | halt => "halt"
  | stepBoundExceeded => "step bound exceeded"

inductive State where
  | ordinary (number : Nat)
  | accept
  | reject
  | halt
  deriving DecidableEq, Hashable, Repr

namespace State

def start : State := ordinary 0

def ofField? (field : String) : Option State :=
  if field = "y" ∨ field = "accept" then some accept
  else if field = "n" ∨ field = "reject" then some reject
  else if field = "h" ∨ field = "halt" then some halt
  else (Numeral.read? Numeral.stateBound field).map ordinary

def text : State → String
  | ordinary number => number.repr
  | accept => "y"
  | reject => "n"
  | halt => "h"

def number? : State → Option Nat
  | ordinary number => some number
  | _ => none

def verdict? : State → Option Verdict
  | ordinary _ => none
  | accept => some .accept
  | reject => some .reject
  | halt => some .halt

def isTerminal (state : State) : Bool := state.number? = none

theorem isTerminalIff (state : State) : state.isTerminal ↔ state.verdict?.isSome := by
  cases state <;> simp [isTerminal, number?, verdict?]

end State
end Multitape
