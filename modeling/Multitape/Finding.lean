import Multitape.Machine.Basic

/-! Likely mistakes in a machine. They are advice: every machine can be run. -/
namespace Multitape

inductive Finding where
  | startWithoutRules
  | unreachableStates (states : List Nat)
  | missingRules (states : List Nat)
  | noTerminalState
  deriving DecidableEq, Repr

namespace Finding

def join (states : List Nat) : String := ", ".intercalate (states.map Nat.repr)

def text : Finding → String
  | startWithoutRules => "Start state 0 has no transitions"
  | unreachableStates states => s!"Unreachable states: {join states}"
  | missingRules states => s!"States without transitions (implicit reject): {join states}"
  | noTerminalState => "No transition enters y, n or h"

def states? : Finding → Option (List Nat)
  | unreachableStates states | missingRules states => some states
  | _ => none

end Finding

namespace Table
variable {S : Type}

def sources (table : Table S) : List Nat :=
  Ascending.ofList (table.rules.toList.map Rule.state)

def entered (table : Table S) : List Nat :=
  Ascending.ofList (table.rules.toList.filterMap (·.next.number?))

def successors (table : Table S) (state : Nat) : List Nat :=
  (table.leaving state).filterMap (·.next.number?)

/-- The states met from `todo` on beside those `seen`. Each state's rules are followed once,
so one unit of fuel for each state to start with and for each rule is enough. -/
def visit (table : Table S) : (fuel : Nat) → (todo seen : List Nat) → List Nat
  | 0, _, seen => seen
  | _, [], seen => seen
  | fuel + 1, state :: todo, seen =>
    if state ∈ seen then visit table fuel todo seen
    else visit table fuel (table.successors state ++ todo) (state :: seen)

def reachable (table : Table S) : List Nat := table.visit (table.rules.size + 1) [0] []

end Table

namespace Machine
variable {S : Type} [Symbol S]

def checkStart (machine : Machine S) : Option Finding :=
  if machine.table.leaving 0 = [] then some .startWithoutRules else none

def about (finding : List Nat → Finding) : List Nat → Option Finding
  | [] => none
  | states => some (finding states)

def checkUnreachable (machine : Machine S) : Option Finding :=
  let reachable := machine.table.reachable
  about .unreachableStates (machine.table.sources.filter (· ∉ reachable))

def checkMissing (machine : Machine S) : Option Finding :=
  let sources := machine.table.sources
  about .missingRules (machine.table.entered.filter (· ∉ sources))

def checkTerminal (machine : Machine S) : Option Finding :=
  let rules := machine.table.rules.toList
  if rules ≠ [] ∧ rules.all (!·.next.isTerminal) then some .noTerminalState else none

def findings (machine : Machine S) : List Finding :=
  [machine.checkStart, machine.checkUnreachable, machine.checkMissing,
    machine.checkTerminal].filterMap id

end Machine
end Multitape
