import Multitape.Description.Error
import Multitape.Machine.Text

/-! From records to a machine. The first record holds the counts, the second the alphabet
and each further one a rule: `q, r_1, ..., r_k, q', w_1, d_1, ..., w_k, d_k`. The records
are judged in this order and the first fault is the answer; the counts of rules and of
states are compared last. -/
namespace Multitape
namespace Description

abbrev Result := Except DescriptionError

structure Header where
  line : Nat
  states : Nat
  tapes : Nat
  alphabet : Nat
  rules : Nat
  deriving DecidableEq, Repr

def readCount (line : Nat) (field : String) : Result Nat :=
  match Numeral.read? Numeral.countBound field with
  | some count => .ok count
  | none => .error (.malformedHeader line (.notACount field))

def readHeader (record : Record) : Result Header :=
  match record.fields with
  | [states, tapes, alphabet, rules] => do
    let states ← readCount record.line states
    let tapes ← readCount record.line tapes
    let alphabet ← readCount record.line alphabet
    let rules ← readCount record.line rules
    if tapes = 0 then .error (.malformedHeader record.line .noTapes)
    else .ok ⟨record.line, states, tapes, alphabet, rules⟩
  | fields => .error (.malformedHeader record.line (.fieldCount fields.length))

def readState (line : Nat) (field : String) : Result State :=
  match State.ofField? field with
  | some state => .ok state
  | none => .error (.invalidState line field)

def readSource (line : Nat) (field : String) : Result Nat := do
  match ← readState line field with
  | .ordinary number => .ok number
  | terminal => .error (.terminalSource line terminal)

def readDirection (line : Nat) (field : String) : Result Direction :=
  match Direction.ofField? field with
  | some direction => .ok direction
  | none => .error (.invalidDirection line field)

def checkCount (header : Header) (count : Count) (declared found : Nat) : Result Unit :=
  if declared = found then .ok () else .error (.countMismatch header.line count declared found)

variable {S : Type} [Symbol S]

def readSymbol (line : Nat) (field : String) : Result S :=
  match Symbol.ofField? field with
  | some symbol => .ok symbol
  | none => .error (.invalidSymbol line field)

def readActions (line : Nat) : List String → Result (List S × List Direction)
  | symbol :: move :: rest => do
    let symbol ← readSymbol line symbol
    let move ← readDirection line move
    let (symbols, moves) ← readActions line rest
    return (symbol :: symbols, move :: moves)
  | _ => .ok ([], [])

/-- The number of fields is a count like any other, so it wraps around behind the last one. -/
def ruleWidth (tapes : Nat) : Nat := (2 + 3 * tapes) % Numeral.countBound

/-- Where the width has wrapped around, a record that has it may end before the target. It has no
reading then, and the fault that this gives stands for that. -/
def readRule (tapes : Nat) (record : Record) : Result (Rule S) :=
  let line := record.line
  let arity : DescriptionError := .arity line (ruleWidth tapes) record.fields.length
  if record.fields.length % Numeral.countBound ≠ ruleWidth tapes then .error arity
  else match record.fields with
    | [] => .error arity
    | source :: fields => do
      let state ← readSource line source
      match fields.drop tapes with
      | [] => .error arity
      | target :: actions =>
        let read ← (fields.take tapes).mapM (readSymbol line)
        let next ← readState line target
        let (write, moves) ← readActions line actions
        return { state, read, next, write, moves }

variable [DecidableEq S]

/-- Adds the rules of these records. `lines` has the lines of all of them, so that a
repeated key can name the line that had it first. -/
def addRules (lines : List Nat) (machine : Machine S) : List Record → Result (Machine S)
  | [] => .ok machine
  | record :: rest => do
    let rule ← readRule machine.tapes record
    match machine.add rule with
    | .ok larger => addRules lines larger rest
    | .error (.duplicateRule _ _ index) =>
      .error (.duplicateRule record.line (lines.getD index record.line))
    | .error cause => .error (.invalid record.line cause)

def readAlphabet (header : Header) (record : Record) : Result (Machine S) := do
  let symbols ← record.fields.mapM (readSymbol record.line)
  let machine ← (Machine.empty header.tapes symbols).mapError (.invalid record.line)
  checkCount header .alphabet header.alphabet symbols.length
  return machine

def machineOf : List Record → Result (Machine S)
  | [] => .error .missingHeader
  | first :: rest => do
    let header ← readHeader first
    match rest with
    | [] => .error .missingAlphabet
    | second :: rules =>
      let start ← readAlphabet header second
      let machine ← addRules (rules.map Record.line) start rules
      checkCount header .rules header.rules machine.table.rules.size
      checkCount header .states header.states machine.stateCount
      return machine

end Description

def Machine.ofText {S : Type} [Symbol S] [DecidableEq S] (text : String) :
    Except DescriptionError (Machine S) := do
  let records ← (Description.records text).mapError .malformed
  Description.machineOf records

end Multitape
