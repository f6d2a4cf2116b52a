import Multitape.Json.Reader
import Multitape.Run

/-! The JSON forms of the values. A name stands for a value of an enumeration, also as the
one key of an object that holds null. Objects are written with their keys in ascending
order and read with them in any; a rule may be given as an array of its parts instead. -/
namespace Multitape

namespace Json

def choice? {α : Type} (name : α → String) (values : List α) (json : Json) : Option α :=
  let literal? := match json with
    | .string literal | .object [(literal, .null)] => some literal
    | _ => none
  (literal?.bind denoted?).bind fun found => values.find? (name · = found)

/-- The one value under a key, where all keys denote texts. -/
def field? (fields : List (String × Json)) (key : String) : Option Json :=
  match fields.filter (·.1 = key) with
  | [(_, value)] => some value
  | _ => none

end Json

namespace Verdict

def name : Verdict → String
  | accept => "Accept"
  | reject => "Reject"
  | halt => "Halt"
  | stepBoundExceeded => "StepBoundExceeded"

def json (verdict : Verdict) : Json := .text verdict.name

def ofJson? (json : Json) : Option Verdict :=
  json.choice? name [accept, reject, halt, stepBoundExceeded]

end Verdict

namespace Direction

def name : Direction → String
  | left => "Left"
  | right => "Right"
  | stay => "Stay"

def json (direction : Direction) : Json := .text direction.name

def ofJson? (json : Json) : Option Direction := json.choice? name [left, right, stay]

end Direction

namespace TapeMode

def name : TapeMode → String
  | biInfinite => "BiInfinite"
  | rightInfinite => "RightInfinite"

def json (mode : TapeMode) : Json := .text mode.name

def ofJson? (json : Json) : Option TapeMode := json.choice? name [biInfinite, rightInfinite]

end TapeMode

namespace State

def name : State → String
  | ordinary _ => "Ordinary"
  | accept => "Accept"
  | reject => "Reject"
  | halt => "Halt"

def json (state : State) : Json :=
  match state with
  | ordinary number => .record [(state.name, .nat number)]
  | terminal => .text terminal.name

def ofJson? (json : Json) : Option State :=
  match json with
  | .object [(key, .number literal)] =>
    if Json.denoted? key = some (ordinary 0).name then
      ((Json.number literal).natural? Numeral.stateBound).map ordinary
    else none
  | _ => json.choice? name [accept, reject, halt]

end State

namespace Symbol
variable {S : Type} [Symbol S]

def json (symbol : S) : Json := .text (text symbol)

def ofJson? (json : Json) : Option S := json.text?.bind ofText?

end Symbol

namespace Json
variable {S : Type} [Symbol S]

def symbols (symbols : List S) : Json := .array (symbols.map Symbol.json)

def symbols? (json : Json) : Option (List S) := json.items?.bind (·.mapM Symbol.ofJson?)

end Json

namespace Rule
variable {S : Type} [Symbol S]

def json (rule : Rule S) : Json :=
  .record [("directions", .array (rule.moves.map Direction.json)), ("next_state", rule.next.json),
    ("read", .symbols rule.read), ("state", .nat rule.state), ("write", .symbols rule.write)]

def ofParts? (state read next write moves : Json) : Option (Rule S) := do
  let state ← state.natural? Numeral.stateBound
  let read ← read.symbols?
  let next ← State.ofJson? next
  let write ← write.symbols?
  let moves ← moves.items?.bind (·.mapM Direction.ofJson?)
  return { state, read, next, write, moves }

def ofJson? : Json → Option (Rule S)
  | .array [state, read, next, write, moves] => ofParts? state read next write moves
  | .object fields => do
    let fields ← fields.mapM fun (key, value) => (Json.denoted? key).map (·, value)
    ofParts? (← Json.field? fields "state") (← Json.field? fields "read")
      (← Json.field? fields "next_state") (← Json.field? fields "write")
      (← Json.field? fields "directions")
  | _ => none

end Rule

section
variable {S : Type} [Symbol S]

def Tape.json (tape : Tape S) : Json :=
  .record [("cells", .symbols tape.cells), ("head", .int tape.head), ("origin", .int tape.origin)]

def Json.tapes (tapes : List (Tape S)) : Json := .array (tapes.map Tape.json)

def Snapshot.json (snapshot : Snapshot S) : Json :=
  .record [("state", snapshot.state.json), ("step", .nat snapshot.step),
    ("tapes", .tapes snapshot.tapes)]

def Outcome.json (outcome : Outcome S) (output : String) : Json :=
  .record [("output", .text output), ("state", outcome.state.json), ("steps", .nat outcome.steps),
    ("tapes", .tapes outcome.tapes), ("verdict", outcome.verdict.json)]

end
end Multitape
