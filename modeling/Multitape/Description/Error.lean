import Multitape.Description.Record
import Multitape.Machine.Error
import Multitape.State

/-! What keeps a text from describing a machine. All but a missing line name the line
they are about. -/
namespace Multitape

namespace Description

inductive Count where
  | states
  | tapes
  | alphabet
  | rules
  deriving DecidableEq, Repr

def Count.text : Count → String
  | states => "state count"
  | tapes => "tape count"
  | alphabet => "alphabet size"
  | rules => "transition count"

inductive HeaderFault where
  | fieldCount (found : Nat)
  | notACount (field : String)
  | noTapes
  deriving DecidableEq, Repr

def HeaderFault.text : HeaderFault → String
  | fieldCount found => s!"expected 4 counts, found {found}"
  | notACount field => s!"'{field}' is not a count"
  | noTapes => "a machine needs at least one tape"

end Description

open Description in
inductive DescriptionError where
  | malformed (cause : SyntaxError)
  | missingHeader
  | missingAlphabet
  | malformedHeader (line : Nat) (fault : HeaderFault)
  | invalidSymbol (line : Nat) (field : String)
  | invalidDirection (line : Nat) (field : String)
  | invalidState (line : Nat) (field : String)
  | terminalSource (line : Nat) (state : State)
  | arity (line expected found : Nat)
  | invalid (line : Nat) (cause : DefinitionError)
  | duplicateRule (line previous : Nat)
  | countMismatch (line : Nat) (count : Count) (declared found : Nat)
  deriving DecidableEq, Repr

namespace DescriptionError

def line? : DescriptionError → Option Nat
  | malformed cause => some cause.position.line
  | missingHeader | missingAlphabet => none
  | malformedHeader line _ | invalidSymbol line _ | invalidDirection line _ | invalidState line _
  | terminalSource line _ | arity line _ _ | invalid line _ | duplicateRule line _
  | countMismatch line _ _ _ => some line

def message : DescriptionError → String
  | malformed _ => "Syntax error:"
  | missingHeader => "Missing header line"
  | missingAlphabet => "Missing alphabet line"
  | malformedHeader line fault => s!"line {line}: malformed header: {fault.text}"
  | invalidSymbol line field => s!"line {line}: '{field}' is not a valid symbol"
  | invalidDirection line field =>
    s!"line {line}: '{field}' is not a direction (expected L, N or R)"
  | invalidState line field => s!"line {line}: '{field}' is not a state"
  | terminalSource line state =>
    s!"line {line}: terminal state '{state.text}' cannot have transitions"
  | arity line expected found => s!"line {line}: expected {expected} fields, found {found}"
  | invalid line cause => s!"line {line}: {cause.message}"
  | duplicateRule line previous =>
    s!"line {line}: duplicate transition, first defined on line {previous}"
  | countMismatch line count declared found =>
    s!"line {line}: declared {count.text} {declared} does not match the {found} found"

end DescriptionError
end Multitape
