import Multitape.Machine.Basic

/-! The description of a machine: a line of counts, a line with the alphabet and a line
for each rule. The alphabet line is never left empty; a machine that declares no symbol
declares the blank instead. -/
namespace Multitape.Machine
variable {S : Type} [Symbol S] [DecidableEq S]

def declared (machine : Machine S) : List S :=
  if machine.alphabet.symbols = [] then [Symbol.blank] else machine.alphabet.symbols

def counts (machine : Machine S) : List Nat :=
  [machine.stateCount, machine.tapes, machine.declared.length, machine.table.rules.size]

def lines (machine : Machine S) : List String :=
  " ".intercalate (machine.counts.map Nat.repr) ::
    ",".intercalate (machine.declared.map Symbol.text) ::
    machine.table.rules.toList.map Rule.text

def text (machine : Machine S) : String :=
  String.join (machine.lines.map (· ++ "\n"))

end Multitape.Machine
