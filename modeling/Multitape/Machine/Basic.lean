import Multitape.Alphabet
import Multitape.Table

/-! A machine with one or more tapes. It starts `empty` and gains its rules one by one by
`add`, which refuses a rule that does not fit. So every machine there is has rules that
fit its tapes and its alphabet, and no two rules with one key. -/
namespace Multitape

structure Rule.Fits {S : Type} [Symbol S] (rule : Rule S) (tapes : Nat) (alphabet : Alphabet S) :
    Prop where
  read : rule.read.length = tapes
  write : rule.write.length = tapes
  moves : rule.moves.length = tapes
  symbols : ∀ symbol ∈ rule.read ++ rule.write, symbol ∈ alphabet

structure Machine (S : Type) [Symbol S] where
  tapes : Nat
  alphabet : Alphabet S
  table : Table S
  hasTapes : 0 < tapes
  fits : ∀ rule ∈ table.rules.toList, rule.Fits tapes alphabet

namespace Machine
variable {S : Type} [Symbol S] [DecidableEq S]

omit [DecidableEq S] in
theorem fitsAt {machine : Machine S} {index : Nat} {rule : Rule S}
    (here : machine.table.rules[index]? = some rule) : rule.Fits machine.tapes machine.alphabet :=
  machine.fits rule (Array.mem_toList_iff.mpr (Array.mem_of_getElem? here))

def empty (tapes : Nat) (symbols : List S) : Except DefinitionError (Machine S) :=
  if h : tapes = 0 then .error .noTapes
  else do
    let alphabet ← Alphabet.ofList symbols
    .ok ⟨tapes, alphabet, .empty, Nat.pos_of_ne_zero h, by simp [Table.empty]⟩

def badArity? (tapes : Nat) (rule : Rule S) : Option Nat :=
  [rule.read.length, rule.write.length, rule.moves.length].find? (· ≠ tapes)

def foreign? (alphabet : Alphabet S) (rule : Rule S) : Option S :=
  (rule.read ++ rule.write).find? (· ∉ alphabet)

theorem fitsOfChecks {tapes : Nat} {alphabet : Alphabet S} {rule : Rule S}
    (arity : badArity? tapes rule = none) (known : foreign? alphabet rule = none) :
    rule.Fits tapes alphabet := by
  simp only [badArity?, foreign?, List.find?_eq_none, decide_eq_true_eq, Decidable.not_not]
    at arity known
  exact ⟨arity _ (by simp), arity _ (by simp), arity _ (by simp), known⟩

def add (machine : Machine S) (rule : Rule S) : Except DefinitionError (Machine S) :=
  match arity : badArity? machine.tapes rule with
  | some found => .error (.arity machine.tapes found)
  | none =>
    match known : foreign? machine.alphabet rule with
    | some symbol => .error (.unknownSymbol (Symbol.text symbol))
    | none =>
      match fresh : machine.table.get? rule.state rule.read with
      | some _ =>
        .error (.duplicateRule rule.state (Symbol.join rule.read)
          ((machine.table.position? rule.state rule.read).getD 0))
      | none => .ok { machine with
          table := machine.table.push rule fresh
          fits := by
            intro other mem
            simp only [Table.push, Array.toList_push, List.mem_append, List.mem_singleton] at mem
            rcases mem with old | rfl
            · exact machine.fits other old
            · exact fitsOfChecks arity known }

def stateCount (machine : Machine S) : Nat := machine.table.states.length

instance : BEq (Machine S) where
  beq a b := a.tapes = b.tapes && a.alphabet.symbols = b.alphabet.symbols && a.table == b.table

end Machine
end Multitape
