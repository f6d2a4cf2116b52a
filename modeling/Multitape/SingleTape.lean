import Multitape.Layout
import Multitape.Machine.Text
import Multitape.SingleTape.Numbering

/-! A machine with several tapes as a machine with one, over tokens. Its states are the
numbered phases, its rules their instructions, and its tape holds the layout of the
source tapes. Refused are machines with one tape and symbols that layouts reserve. -/
namespace Multitape

inductive CompileError where
  | tooFewTapes (tapes : Nat)
  | reservedSymbol (symbol : String)
  | definition (cause : DefinitionError)
  deriving DecidableEq, Repr

def CompileError.message : CompileError → String
  | tooFewTapes tapes => s!"Compilation needs at least 2 tapes, the machine has {tapes}"
  | reservedSymbol symbol => s!"Symbol '{symbol}' is reserved by the single-tape encoding"
  | definition cause => s!"Generated machine is invalid: {cause.message}"

namespace SingleTape
variable {S : Type} [Symbol S] [DecidableEq S]

def tokens (machine : Machine S) : List Token :=
  let symbols := machine.alphabet.withBlank
  (symbols.filter (!Symbol.isBlank ·)).map (Cell.plain · |>.token) ++
    symbols.map (Cell.marked · |>.token) ++
    [Cell.leftSign, Cell.separatorSign, Cell.rightSign]

def Target.state (numbering : Numbering S) : Target S → State
  | .phase next => .ordinary (numbering.stateOf next)
  | .terminal state => state

def Instruction.rule (numbering : Numbering S) (state : Nat) (instruction : Instruction S) :
    Rule Token where
  state
  read := [instruction.read.token]
  next := instruction.target.state numbering
  write := [instruction.write.token]
  moves := [instruction.move]

def rulesAt (machine : Machine S) (mode : TapeMode) (numbering : Numbering S) (position : Nat) :
    List (Rule Token) :=
  let state := Numbering.stateAt position
  (numbering.phase? state).toList.flatMap fun phase =>
    (instructions machine mode phase).map (·.rule numbering state)

def rules (machine : Machine S) (mode : TapeMode) (numbering : Numbering S) :
    List (Rule Token) :=
  (List.range numbering.phases.size).flatMap (rulesAt machine mode numbering)

end SingleTape

structure SingleTape (S : Type) [Symbol S] where
  machine : Machine Token
  alphabet : Alphabet S
  sourceTapes : Nat
  tapeMode : TapeMode
  phases : Array (SingleTape.Phase S)

namespace SingleTape
variable {S : Type} [Symbol S] [DecidableEq S]

def phase? (compiled : SingleTape S) : State → Option (Phase S)
  | .ordinary number => compiled.phases[number]?
  | _ => none

def refuse? (machine : Machine S) : Option CompileError :=
  if machine.tapes < 2 then some (.tooFewTapes machine.tapes)
  else (machine.alphabet.symbols.find? Cell.isReserved).map fun symbol =>
    .reservedSymbol (Symbol.text symbol)

def compile (machine : Machine S) (mode : TapeMode) : Except CompileError (SingleTape S) :=
  match refuse? machine with
  | some cause => .error cause
  | none => do
    let numbering := numbering machine mode
    let start ← (Machine.empty 1 (tokens machine)).mapError .definition
    let compiled ← ((rules machine mode numbering).foldlM Machine.add start).mapError .definition
    return ⟨compiled, machine.alphabet, machine.tapes, mode, numbering.phases⟩

def encodeInput (compiled : SingleTape S) (input : List S) : Except InputError (List Token) :=
  Layout.encodeInput compiled.alphabet input

def decodeLayout? (compiled : SingleTape S) (cells : List Token) : Option (List (Tape S)) :=
  Layout.decode? cells compiled.sourceTapes

def output? (compiled : SingleTape S) (tape : Tape Token) : Option (List S) :=
  Layout.output? tape compiled.sourceTapes

end SingleTape
end Multitape
