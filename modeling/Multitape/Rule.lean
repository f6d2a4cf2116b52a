import Multitape.Direction
import Multitape.State
import Multitape.Symbol

/-! One rule of a machine: in `state`, with the symbols `read` under the heads, write
`write`, move each head and go on in `next`. -/
namespace Multitape

structure Rule (S : Type) where
  state : Nat
  read : List S
  next : State
  write : List S
  moves : List Direction
  deriving DecidableEq, Repr

namespace Rule
variable {S : Type}

/-- What the rule applies to. No two rules of a machine have one key. -/
def key (rule : Rule S) : Nat × List S := (rule.state, rule.read)

def states (rule : Rule S) : List Nat := rule.state :: rule.next.number?.toList

variable [Symbol S]

def fields (rule : Rule S) : List String :=
  rule.state.repr :: rule.read.map Symbol.text ++ rule.next.text ::
    (rule.write.zip rule.moves).flatMap fun (symbol, move) => [Symbol.text symbol, move.text]

def text (rule : Rule S) : String := ",".intercalate rule.fields

end Rule
end Multitape
