import Multitape.Proofs.SingleTape.Numbering

/-! Where each phase may stand. What moves a mark does so for a rule that goes on in an
ordinary state, and on the side to which the rule moves; what goes back over separators has
no more of them to pass than there are. The instructions lead from such phases to such
phases, so every phase that gets a number is well formed. -/
namespace Multitape.SingleTape
open Instruction
variable {S : Type} [Symbol S]

def Lead (holds : Phase S → Prop) (instructions : List (Instruction S)) : Prop :=
  ∀ instruction ∈ instructions, ∀ next, instruction.target = .phase next → holds next

section
variable {holds : Phase S → Prop} {first second : List (Instruction S)} {α : Type} {list : List α}
omit [Symbol S]

@[simp] theorem leadTerminal {read write : Cell S} {state : State} {move : Direction} :
    Lead holds (⟨read, .terminal state, write, move⟩ :: second) ↔ Lead holds second := by
  simp [Lead]

end

section
variable (machine : Machine S)

end

variable [DecidableEq S] {machine : Machine S} {mode : TapeMode} {rule tape : Nat}

section
variable (machine mode)

structure Ongoing (rule tape : Nat) (source : Rule S) : Prop where
  rule : machine.table.rules[rule]? = some source
  tape : tape < machine.tapes
  goesOn : ∃ state, source.next = .ordinary state

def WellFormed : Phase S → Prop
  | .start | .terminator | .rewind (.read _) => True
  | .carry symbol _ => symbol ∈ machine.alphabet
  | .separator tape => 1 ≤ tape ∧ tape < machine.tapes
  | .layBlank tape => tape < machine.tapes
  | .rewind (.cleanup terminal) => terminal.isTerminal
  | .read state seen => seen = [] ∨ seen.length ≤ machine.tapes ∧
      ∃ rule ∈ machine.table.rules.toList, rule.state = state ∧ seen <+: rule.read
  | .write rule tape => rule < machine.table.rules.size ∧ tape < machine.tapes
  | .move rule tape _ | .shift rule tape _ => ∃ source, Ongoing machine rule tape source
  | .markNext rule tape =>
    ∃ source, Ongoing machine rule tape source ∧ source.moves[tape]? = some .right
  | .markPrevious rule tape =>
    ∃ source, Ongoing machine rule tape source ∧ source.moves[tape]? = some .left
  | .insertBlank rule tape =>
    mode = .biInfinite ∧
      ∃ source, Ongoing machine rule tape source ∧ source.moves[tape]? = some .left
  | .remark rule tape =>
    mode = .rightInfinite ∧
      ∃ source, Ongoing machine rule tape source ∧ source.moves[tape]? = some .left
  | .back rule tape remaining =>
    (∃ source, Ongoing machine rule tape source) ∧ tape + 1 < machine.tapes ∧
      1 ≤ remaining ∧ remaining ≤ machine.tapes - 1 - tape
  | .cleanup terminal tape => terminal.isTerminal ∧ tape < machine.tapes

end

end Multitape.SingleTape
