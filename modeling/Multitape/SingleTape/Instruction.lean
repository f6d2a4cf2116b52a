import Multitape.Machine.Basic
import Multitape.Run.Step
import Multitape.SingleTape.Phase

/-! What a phase does on each cell it can meet. This is the whole meaning of the one-tape
machine; how its states are numbered is another matter. -/
namespace Multitape.SingleTape

inductive Target (S : Type) where
  | phase (next : Phase S)
  | terminal (state : State)
  deriving DecidableEq, Repr

structure Instruction (S : Type) where
  read : Cell S
  target : Target S
  write : Cell S
  move : Direction
  deriving DecidableEq, Repr

namespace Instruction
variable {S : Type}

def pass (cell : Cell S) (move : Direction) (next : Phase S) : Instruction S :=
  ⟨cell, .phase next, cell, move⟩

def put (cell : Cell S) (next : Phase S) (write : Cell S) (move : Direction) : Instruction S :=
  ⟨cell, .phase next, write, move⟩

end Instruction

open Instruction

variable {S : Type} [Symbol S] [DecidableEq S]

section
variable (machine : Machine S)

def contents : List (Cell S) :=
  machine.alphabet.withBlank.map .plain ++ machine.alphabet.withBlank.map .marked

def cells : List (Cell S) := contents machine ++ [.separator, .rightEnd]

def boundaryAfter (tape : Nat) : Cell S :=
  if tape + 1 < machine.tapes then .separator else .rightEnd

def boundaryBefore (tape : Nat) : Cell S := if tape = 0 then .leftEnd else .separator

def writtenBy (rule tape : Nat) : S :=
  ((machine.table.rules[rule]?.bind (·.write[tape]?))).getD Symbol.blank

def movedBy (rule tape : Nat) : Direction :=
  ((machine.table.rules[rule]?.bind (·.moves[tape]?))).getD .stay

def resumeAfter (rule : Nat) : Resume :=
  match (machine.table.rules[rule]?.map Rule.next).getD .reject with
  | .ordinary state => .read state
  | terminal => .cleanup terminal

/-- Starts to move the mark of a segment; a rule that stays there has done so already. -/
def startMove (rule tape : Nat) : Phase S :=
  .move rule tape (movedBy machine rule tape = .stay)

def isKnown (state : Nat) (seen : List S) : Bool :=
  (machine.table.leaving state).any fun rule => seen.isPrefixOf rule.read

/-- What follows once a mark has left its segment and the cells behind it have moved:
back to the segment after it, or on from the left end. -/
def afterShift (rule tape : Nat) : Phase S :=
  if tape + 1 < machine.tapes then .back rule tape (machine.tapes - 1 - tape)
  else .rewind (resumeAfter machine rule)

end

def beginCleanup (terminal : State) : Instruction S :=
  put .leftEnd (.cleanup terminal 0) (.plain Symbol.blank) .right

def instructions (machine : Machine S) (mode : TapeMode) (phase : Phase S) :
    List (Instruction S) :=
  let symbols := machine.alphabet.withBlank
  let contents := contents machine
  let blank : Cell S := .plain Symbol.blank
  let markedBlank : Cell S := .marked Symbol.blank
  match phase with
  | .start =>
    symbols.map (fun symbol => put (.plain symbol) (.carry symbol true) .leftEnd .right) ++
      [put .rightEnd (.layBlank 0) .leftEnd .right]
  | .carry carried first =>
    let cell : Cell S := if first then .marked carried else .plain carried
    symbols.map (fun symbol => put (.plain symbol) (.carry symbol false) cell .right) ++
      [put .rightEnd (.separator 1) cell .right]
  | .separator tape => [put blank (.layBlank tape) .separator .right]
  | .layBlank tape =>
    [put blank (if tape + 1 < machine.tapes then .separator (tape + 1) else .terminator)
      markedBlank .right]
  | .terminator => [put blank (.rewind (.read 0)) .rightEnd .left]
  | .rewind resume =>
    (cells machine).map (pass · .left phase) ++
      [match resume with
        | .read state => pass .leftEnd .right (.read state [])
        | .cleanup terminal => beginCleanup terminal]
  | .read state seen =>
    let rejecting : Phase S := .rewind (.cleanup .reject)
    symbols.map (fun symbol => pass (.plain symbol) .right phase) ++
      pass .separator .right phase ::
      if seen.length < machine.tapes then
        symbols.map fun symbol =>
          if isKnown machine state (seen ++ [symbol]) then
            pass (.marked symbol) .right (.read state (seen ++ [symbol]))
          else pass (.marked symbol) .left rejecting
      else
        [pass .rightEnd .left <| match machine.table.position? state seen with
          | some rule => .write rule (machine.tapes - 1)
          | none => rejecting]
  | .write rule tape =>
    symbols.flatMap (fun symbol =>
      [pass (.plain symbol) .left phase,
        put (.marked symbol) phase (.marked (writtenBy machine rule tape)) .left]) ++
      [match tape, resumeAfter machine rule with
        | tape + 1, _ => pass .separator .left (.write rule tape)
        | 0, .read _ => pass .leftEnd .right (startMove machine rule 0)
        | 0, .cleanup terminal => beginCleanup terminal]
  | .move rule tape done =>
    symbols.flatMap (fun symbol =>
      [pass (.plain symbol) .right phase,
        match done, movedBy machine rule tape with
        | false, .right => put (.marked symbol) (.markNext rule tape) (.plain symbol) .right
        | false, .left => put (.marked symbol) (.markPrevious rule tape) (.plain symbol) .left
        | _, _ => pass (.marked symbol) .right phase]) ++
      [if tape + 1 < machine.tapes then
        pass .separator .right (startMove machine rule (tape + 1))
      else pass .rightEnd .left (.rewind (resumeAfter machine rule))]
  | .markNext rule tape =>
    let boundary := boundaryAfter machine tape
    symbols.map (fun symbol =>
      put (.plain symbol) (.move rule tape true) (.marked symbol) .right) ++
      [put boundary (.shift rule tape boundary) markedBlank .right]
  | .markPrevious rule tape =>
    symbols.map (fun symbol =>
      put (.plain symbol) (.move rule tape true) (.marked symbol) .right) ++
      [pass (boundaryBefore tape) .right <| match mode with
        | .biInfinite => .insertBlank rule tape
        | .rightInfinite => .remark rule tape]
  | .insertBlank rule tape =>
    symbols.map fun symbol =>
      put (.plain symbol) (.shift rule tape (.plain symbol)) markedBlank .right
  | .remark rule tape =>
    symbols.map fun symbol =>
      put (.plain symbol) (.move rule tape true) (.marked symbol) .right
  | .shift rule tape carried =>
    if carried = .rightEnd then [put blank (afterShift machine rule tape) .rightEnd .left]
    else (cells machine).map fun cell => put cell (.shift rule tape cell) carried .right
  | .back rule tape remaining =>
    contents.map (pass · .left phase) ++
      [if remaining > 1 then pass .separator .left (.back rule tape (remaining - 1))
      else pass .separator .right (startMove machine rule (tape + 1))]
  | .cleanup terminal tape =>
    if tape + 1 < machine.tapes then
      contents.map (put · phase blank .right) ++
        [put .separator (.cleanup terminal (tape + 1)) blank .right]
    else
      symbols.flatMap (fun symbol =>
        [pass (.plain symbol) .right phase,
          put (.marked symbol) phase (.plain symbol) .right]) ++
        [⟨.rightEnd, .terminal terminal, blank, .stay⟩]

end Multitape.SingleTape
