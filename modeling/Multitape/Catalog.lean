import Multitape.Catalog.Texts
import Multitape.Description.Machine
import Multitape.Failure

/-! Machines that come with the library. A key is matched as it stands and a name without
regard to the case of ASCII letters, which are all the letters that names have. -/
namespace Multitape.Catalog

structure Entry where
  key : String
  name : String
  sample : String
  text : String
  deriving DecidableEq, Repr

def entries : List Entry :=
  [⟨"copy", "Tape copy", "011", copyText⟩,
    ⟨"binary-palindrome", "Binary palindrome", "0110", palindromeText⟩,
    ⟨"unary-addition", "Unary addition", "11+111", additionText⟩,
    ⟨"binary-increment", "Binary increment", "1011", incrementText⟩,
    ⟨"two-tape-equality", "Two-tape equality", "0110=0110", equalityText⟩]

def Entry.machine (entry : Entry) : Except DescriptionError (Machine Char) :=
  Machine.ofText entry.text

def at? (index : Nat) : Except Failure Entry :=
  match entries[index]? with
  | some entry => .ok entry
  | none => .error (.notFound s!"index {index}")

def find? (name : String) : Except Failure Entry :=
  match entries.find? fun entry => entry.key = name || entry.name.toLower = name.toLower with
  | some entry => .ok entry
  | none => .error (.notFound name)

def occurs (part : List Char) : List Char → Bool
  | [] => part = []
  | c :: rest => part.isPrefixOf (c :: rest) || occurs part rest

def search (query : String) : List Nat :=
  (entries.zipIdx.filter fun (entry, _) =>
    occurs query.toLower.toList entry.name.toLower.toList).map (·.2)

structure Info where
  index : Nat
  entry : Entry
  tapes : Nat
  stateCount : Nat
  ruleCount : Nat

def info? (index : Nat) : Except Failure Info := do
  let entry ← at? index
  let machine ← entry.machine.mapError .description
  return ⟨index, entry, machine.tapes, machine.stateCount, machine.table.rules.size⟩

end Multitape.Catalog
