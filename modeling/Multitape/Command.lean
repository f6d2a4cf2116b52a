import Multitape.Command.Arguments
import Multitape.Run

/-! The commands: run a machine, compile it, check it, or list the catalog. -/
namespace Multitape

namespace Command

structure RunOptions where
  machine : Option String := none
  /-- Without an input the machine's sample is run, if it has one. -/
  input : Option String := none
  tokens : Bool := false
  maxSteps : Option Nat := none
  rightInfinite : Bool := false
  compiled : Bool := false
  trace : Bool := false
  json : Bool := false
  deriving DecidableEq, Repr

structure CompileOptions where
  machine : Option String := none
  tokens : Bool := false
  rightInfinite : Bool := false
  phases : Bool := false
  output : Option String := none
  deriving DecidableEq, Repr

structure CheckOptions where
  machine : Option String := none
  tokens : Bool := false
  deriving DecidableEq, Repr

def raise : Bool → Option Bool
  | true => none
  | false => some true

def fill {α : Type} (value : α) : Option α → Option (Option α)
  | some _ => none
  | none => some (some value)

def runGrammar : Grammar RunOptions where
  switches :=
    [⟨'t', "tokens", .flag fun o => do return { o with tokens := ← raise o.tokens }⟩,
      ⟨'m', "max-steps", .value fun text o => do
        return { o with maxSteps := ← fill (← Numeral.read? Numeral.countBound text) o.maxSteps }⟩,
      ⟨'r', "right-infinite", .flag fun o => do
        return { o with rightInfinite := ← raise o.rightInfinite }⟩,
      ⟨'c', "compiled", .flag fun o => do return { o with compiled := ← raise o.compiled }⟩,
      ⟨'d', "trace", .flag fun o => do return { o with trace := ← raise o.trace }⟩,
      ⟨'j', "json", .flag fun o => do return { o with json := ← raise o.json }⟩]
  place text o := match o.machine with
    | none => some { o with machine := some text }
    | some _ => do return { o with input := ← fill text o.input }

def compileGrammar : Grammar CompileOptions where
  switches :=
    [⟨'t', "tokens", .flag fun o => do return { o with tokens := ← raise o.tokens }⟩,
      ⟨'r', "right-infinite", .flag fun o => do
        return { o with rightInfinite := ← raise o.rightInfinite }⟩,
      ⟨'p', "phases", .flag fun o => do return { o with phases := ← raise o.phases }⟩,
      ⟨'o', "output", .value fun text o => do
        if text = "" then none else return { o with output := ← fill text o.output }⟩]
  place text o := do return { o with machine := ← fill text o.machine }

def checkGrammar : Grammar CheckOptions where
  switches := [⟨'t', "tokens", .flag fun o => do return { o with tokens := ← raise o.tokens }⟩]
  place text o := do return { o with machine := ← fill text o.machine }

def listGrammar : Grammar Unit where
  switches := []
  place _ _ := none

end Command

open Command in
inductive Command where
  | run (machine : String) (options : RunOptions)
  | compile (machine : String) (options : CompileOptions)
  | check (machine : String) (tokens : Bool)
  | list
  deriving DecidableEq, Repr

namespace Command

def required : Option String → Except Stop String
  | some machine => .ok machine
  | none => .error .refused

def help : List String → Except Stop Command
  | [] => .error .asked
  | [name] =>
    if name ∈ ["run", "compile", "check", "list", "help"] then .error .asked else .error .refused
  | _ => .error .refused

def ofArguments : List String → Except Stop Command
  | "run" :: rest => do
    let options ← runGrammar.read .none rest {}
    return .run (← required options.machine) options
  | "compile" :: rest => do
    let options ← compileGrammar.read .none rest {}
    return .compile (← required options.machine) options
  | "check" :: rest => do
    let options ← checkGrammar.read .none rest {}
    return .check (← required options.machine) options.tokens
  | "list" :: rest => do
    listGrammar.read .none rest ()
    return .list
  | "help" :: rest => help rest
  | "--help" :: _ | "--version" :: _ => .error .asked
  | argument :: _ => match argument.toList with
    | '-' :: 'h' :: _ | '-' :: 'V' :: _ => .error .asked
    | _ => .error .refused
  | [] => .error .refused

end Command
end Multitape
