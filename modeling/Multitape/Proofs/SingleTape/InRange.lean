import Multitape.Proofs.SingleTape.Placed
import Multitape.Proofs.SingleTape.Worklist

/-! Compiling looks nothing up that is not there. The rule of a phase, what it writes and how
it moves on the segment, and every number that is counted down are in range when the
instructions of the phase are put together; and so is each number of the queue when its turn
comes. -/
namespace Multitape.SingleTape
open Instruction Numbering
variable {S : Type} [Symbol S] [DecidableEq S] {machine : Machine S} {mode : TapeMode}
  {rule tape : Nat}

section
variable (machine)

def writtenBy? (rule tape : Nat) : Option S := do (← machine.table.rules[rule]?).write[tape]?

def movedBy? (rule tape : Nat) : Option Direction := do
  (← machine.table.rules[rule]?).moves[tape]?

def resumeAfter? (rule : Nat) : Option Resume := do
  match (← machine.table.rules[rule]?).next with
  | .ordinary state => return .read state
  | terminal => return .cleanup terminal

def startMove? (rule tape : Nat) : Option (Phase S) := do
  return .move rule tape ((← movedBy? machine rule tape) = .stay)

def minus? (n m : Nat) : Option Nat := if m ≤ n then some (n - m) else none

def endRead? (state : Nat) (seen : List S) : Option (Instruction S) :=
  match machine.table.position? state seen with
  | some rule => do return pass .rightEnd .left (.write rule (← minus? machine.tapes 1))
  | none => some (pass .rightEnd .left (.rewind (.cleanup .reject)))

def endWrite? (rule tape : Nat) : Option (Instruction S) :=
  if tape > 0 then do return pass .separator .left (.write rule (← minus? tape 1))
  else do
    match ← resumeAfter? machine rule with
    | .read _ => return pass .leftEnd .right (← startMove? machine rule 0)
    | .cleanup terminal => return beginCleanup terminal

def endMove? (rule tape : Nat) : Option (Instruction S) :=
  if tape + 1 < machine.tapes then do
    return pass .separator .right (← startMove? machine rule (tape + 1))
  else do return pass .rightEnd .left (.rewind (← resumeAfter? machine rule))

def afterShift? (rule tape : Nat) : Option (Phase S) :=
  if tape + 1 < machine.tapes then do
    return .back rule tape (← minus? (← minus? machine.tapes 1) tape)
  else do return .rewind (← resumeAfter? machine rule)

def endBack? (rule tape remaining : Nat) : Option (Instruction S) :=
  if remaining > 1 then do
    return pass .separator .left (.back rule tape (← minus? remaining 1))
  else do return pass .separator .right (← startMove? machine rule (tape + 1))

end

/-- The instructions with every rule, symbol and move looked up by its place and every
difference checked. There are none if one of them is out of range. -/
def instructions? (machine : Machine S) (mode : TapeMode) (phase : Phase S) :
    Option (List (Instruction S)) :=
  let symbols := machine.alphabet.withBlank
  match phase with
  | .read state seen =>
    if seen.length < machine.tapes then some (instructions machine mode phase)
    else do
      let last ← endRead? machine state seen
      return symbols.map (fun symbol => pass (.plain symbol) .right phase) ++
        [pass .separator .right phase, last]
  | .write rule tape => do
    let written ← writtenBy? machine rule tape
    let last ← endWrite? machine rule tape
    return symbols.flatMap (fun symbol =>
      [pass (.plain symbol) .left phase, put (.marked symbol) phase (.marked written) .left]) ++
      [last]
  | .move rule tape done => do
    let move ← movedBy? machine rule tape
    let last ← endMove? machine rule tape
    return symbols.flatMap (fun symbol =>
      [pass (.plain symbol) .right phase,
        match done, move with
        | false, .right => put (.marked symbol) (.markNext rule tape) (.plain symbol) .right
        | false, .left => put (.marked symbol) (.markPrevious rule tape) (.plain symbol) .left
        | _, _ => pass (.marked symbol) .right phase]) ++ [last]
  | .shift rule tape carried =>
    if carried = .rightEnd then do
      return [put (.plain Symbol.blank) (← afterShift? machine rule tape) .rightEnd .left]
    else some (instructions machine mode phase)
  | .back rule tape remaining => do
    let last ← endBack? machine rule tape remaining
    return (contents machine).map (pass · .left phase) ++ [last]
  | _ => some (instructions machine mode phase)

namespace Worklist

inductive Reaches (machine : Machine S) (mode : TapeMode) (first : Worklist S) : Worklist S → Prop
  | begins : Reaches machine mode first first
  | turn {state : Nat} {waiting : List Nat} {numbering : Numbering S} {built : Machine Token}
      {phase : Phase S} {grown : Worklist S}
      (before : Reaches machine mode first ⟨state :: waiting, numbering, built⟩)
      (here : numbering.phase? state = some phase)
      (expanded : expand machine mode state phase ⟨waiting, numbering, built⟩ = .ok grown) :
    Reaches machine mode first grown

end Worklist

open Worklist

variable (machine mode) in
structure Sound (phase : Phase S) : Prop where
  formed : WellFormed machine mode phase
  inRange : instructions? machine mode phase = some (instructions machine mode phase)
  writes state seen rule tape : phase = .read state seen →
    .write rule tape ∈ successors machine mode phase →
      tape = machine.tapes - 1 ∧ seen.length = machine.tapes ∧
        ∃ source, machine.table.rules[rule]? = some source ∧ source.key = (state, seen)

end Multitape.SingleTape
