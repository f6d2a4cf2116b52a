import Multitape.Symbol

/-! The cells of a tape that holds several. Each is a token: a source symbol, plain or,
under the head of its tape, marked by a star in front; or one of the three signs that
delimit the tapes. -/
namespace Multitape

inductive Cell (S : Type) where
  | plain (symbol : S)
  | marked (symbol : S)
  | leftEnd
  | separator
  | rightEnd
  deriving DecidableEq, Hashable, Repr

namespace Cell
variable {S : Type}

def leftSign : Token := ⟨"^"⟩

def separatorSign : Token := ⟨"/"⟩

def rightSign : Token := ⟨"$"⟩

def symbol? : Cell S → Option S
  | plain symbol | marked symbol => some symbol
  | _ => none

def isBoundary (cell : Cell S) : Bool := cell.symbol?.isNone

variable [Symbol S]

def token : Cell S → Token
  | plain symbol => Symbol.toToken symbol
  | marked symbol => ⟨"*" ++ Symbol.text symbol⟩
  | leftEnd => leftSign
  | separator => separatorSign
  | rightEnd => rightSign

def ofToken? (token : Token) : Option (Cell S) :=
  match token.text.toList with
  | ['^'] => some leftEnd
  | ['/'] => some separator
  | ['$'] => some rightEnd
  | '*' :: symbol => (Symbol.ofField? (String.ofList symbol)).map marked
  | _ => (Symbol.ofField? token.text).map plain

/-- Whether a symbol would be mistaken for a sign or for a marked symbol. -/
def isReserved (symbol : S) : Bool :=
  match (Symbol.text symbol).toList with
  | ['^'] | ['/'] | ['$'] | '*' :: _ => true
  | _ => false

end Cell
end Multitape
