import Multitape.Alphabet
import Multitape.Layout.Cell
import Multitape.Tape

/-! Several tapes on one: `^ first / second / ... / last $`. Each segment holds the cells
of one tape, and the cell under its head is marked. Blanks may precede the layout and
anything may follow it. -/
namespace Multitape.Layout
variable {S : Type} [Symbol S]

def segment (tape : Tape S) : List (Cell S) :=
  tape.left.reverse.map .plain ++ .marked tape.here :: tape.right.map .plain

def segments (tapes : List (Tape S)) : List (Cell S) :=
  List.intercalate [.separator] (tapes.map segment)

def encode (tapes : List (Tape S)) : List Token :=
  Cell.leftSign :: (segments tapes).map Cell.token ++ [Cell.rightSign]

def tapeOf? (before : List S) : List (Cell S) → Option (Tape S)
  | .plain symbol :: rest => tapeOf? (symbol :: before) rest
  | .marked symbol :: rest => do
    let after ← rest.mapM fun
      | .plain symbol => some symbol
      | _ => none
    return ⟨before, symbol, after, before.length⟩
  | _ => none

def cutSegments : List (Cell S) → List (List (Cell S))
  | [] => [[]]
  | .separator :: rest => [] :: cutSegments rest
  | cell :: rest => match cutSegments rest with
    | [] => [[cell]]
    | first :: others => (cell :: first) :: others

def contents? (tokens : List Token) : Option (List Token) :=
  match tokens.dropWhile Symbol.isBlank with
  | [] => none
  | first :: rest =>
    if first = Cell.leftSign ∧ Cell.rightSign ∈ rest then
      some (rest.takeWhile (· ≠ Cell.rightSign))
    else none

def decode? (tokens : List Token) (count : Nat) : Option (List (Tape S)) := do
  let cells ← (← contents? tokens).mapM Cell.ofToken?
  let tapes ← (cutSegments cells).mapM (tapeOf? [])
  if tapes.length = count then some tapes else none

variable [DecidableEq S]

/-- The output on a tape of tokens: of a layout, the contents of its last tape; of a tape
without a left end, its own contents, if they are plain. -/
def output? (tape : Tape Token) (count : Nat) : Option (List S) :=
  if Cell.leftSign ∈ tape.cells then do
    let tapes ← decode? tape.cells count
    return (← tapes.getLast?).output
  else
    tape.output.mapM fun token => match Cell.ofToken? token with
      | some (.plain symbol) => some symbol
      | _ => none

def encodeInput (alphabet : Alphabet S) (input : List S) : Except InputError (List Token) :=
  match alphabet.refuse? input with
  | some cause => .error cause
  | none => .ok (input.map Symbol.toToken ++ [Cell.rightSign])

end Multitape.Layout
