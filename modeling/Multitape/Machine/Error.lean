/-! What keeps rules and symbols from making up a machine, and an input from being run. -/
namespace Multitape

inductive DefinitionError where
  | noTapes
  | duplicateSymbol (symbol : String)
  | unknownSymbol (symbol : String)
  | arity (expected found : Nat)
  /-- `index` counts the rules before the first one with this key; `read` is tape text. -/
  | duplicateRule (state : Nat) (read : String) (index : Nat)
  deriving DecidableEq, Repr

def DefinitionError.message : DefinitionError → String
  | noTapes => "A machine needs at least one tape"
  | duplicateSymbol symbol => s!"Symbol '{symbol}' is declared twice"
  | unknownSymbol symbol => s!"Symbol '{symbol}' is not in the alphabet"
  | arity expected found =>
    s!"Expected {expected} symbols and directions per transition, found {found}"
  | duplicateRule state read _ =>
    s!"Transition for state {state} reading [{read}] is already defined"

inductive InputError where
  /-- `position` counts the symbols of the input before this one. -/
  | unknownSymbol (symbol : String) (position : Nat)
  deriving DecidableEq, Repr

def InputError.message : InputError → String
  | unknownSymbol symbol position =>
    s!"Input symbol '{symbol}' at position {position} is not in the alphabet"

end Multitape
