import Multitape.SingleTape.Instruction

/-! States for phases. They stand in the order in which a walk over the instructions from the
first phase, breadth first, comes upon them, and their positions give them their numbers. -/
namespace Multitape.SingleTape
variable {S : Type} [Symbol S] [DecidableEq S]

local instance hashableSymbol : Hashable S := ⟨fun symbol => hash (Symbol.text symbol)⟩

structure Numbering (S : Type) [Symbol S] [DecidableEq S] where
  phases : Array (Phase S)
  numbers : Std.HashMap (Phase S) Nat
  agrees : ∀ (phase : Phase S) (number : Nat),
    numbers[phase]? = some number ↔ phases[number]? = some phase

namespace Numbering

def empty : Numbering S := ⟨#[], ∅, by simp⟩

theorem agreesPush (numbering : Numbering S) {phase : Phase S}
    (fresh : numbering.numbers[phase]? = none) (other : Phase S) (number : Nat) :
    (numbering.numbers.insert phase numbering.phases.size)[other]? = some number ↔
      (numbering.phases.push phase)[number]? = some other := by
  have kept := numbering.agrees
  rw [Std.HashMap.getElem?_insert, Array.getElem?_push]
  by_cases same : phase = other
  · subst same
    have absent : ¬ numbering.phases[number]? = some phase := by
      rw [← kept, fresh]; simp
    simp only [beq_self_eq_true, if_true, Option.some.injEq]
    split <;> grind
  · have different : (phase == other) = false := by simpa using same
    simp only [different, Bool.false_eq_true, if_false, kept]
    split
    · subst number; simp [same]
    · rfl

def add (numbering : Numbering S) (phase : Phase S) : Numbering S :=
  match fresh : numbering.numbers[phase]? with
  | some _ => numbering
  | none =>
    { phases := numbering.phases.push phase
      numbers := numbering.numbers.insert phase numbering.phases.size
      agrees := numbering.agreesPush fresh }

def phase? (numbering : Numbering S) (state : Nat) : Option (Phase S) := numbering.phases[state]?

def position (numbering : Numbering S) (phase : Phase S) : Nat := numbering.numbers[phase]?.getD 0

/-- A state number is what 32 bits hold of a position, so it wraps around behind the last one. -/
def stateAt (position : Nat) : Nat := position % Numeral.stateBound

def stateOf (numbering : Numbering S) (phase : Phase S) : Nat := stateAt (numbering.position phase)

def explore (successors : Phase S → List (Phase S)) :
    (fuel next : Nat) → Numbering S → Numbering S
  | 0, _, numbering => numbering
  | fuel + 1, next, numbering =>
    match numbering.phase? next with
    | none => numbering
    | some phase =>
      explore successors fuel (next + 1) ((successors phase).foldl add numbering)

end Numbering

def Target.phase? : Target S → Option (Phase S)
  | .phase next => some next
  | .terminal _ => none

def successors (machine : Machine S) (mode : TapeMode) (phase : Phase S) : List (Phase S) :=
  (instructions machine mode phase).filterMap (·.target.phase?)

def possiblePhases (machine : Machine S) : List (Phase S) :=
  let symbols := machine.alphabet.withBlank
  let tapes := List.range machine.tapes
  let states := 0 :: machine.table.states
  let terminals : List State := [.accept, .reject, .halt]
  [Phase.start, .terminator] ++
    symbols.flatMap (fun symbol => [Phase.carry symbol true, .carry symbol false]) ++
    tapes.flatMap (fun tape =>
      [Phase.separator tape, .layBlank tape] ++ terminals.map (Phase.cleanup · tape)) ++
    terminals.map (Phase.rewind <| .cleanup ·) ++
    states.flatMap (fun state => [Phase.rewind (.read state), .read state []]) ++
    machine.table.rules.toList.flatMap (fun rule =>
      tapes.map fun tape => Phase.read rule.state (rule.read.take (tape + 1))) ++
    (List.range machine.table.rules.size).flatMap fun rule => tapes.flatMap fun tape =>
      [Phase.write rule tape, .move rule tape true, .move rule tape false, .markNext rule tape,
        .markPrevious rule tape, .insertBlank rule tape, .remark rule tape] ++
      (cells machine).map (Phase.shift rule tape ·) ++ tapes.map (Phase.back rule tape ·)

def numbering (machine : Machine S) (mode : TapeMode) : Numbering S :=
  .explore (successors machine mode) (possiblePhases machine).length 0 (.add .empty .start)

end Multitape.SingleTape
