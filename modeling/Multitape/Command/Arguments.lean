/-! Reading the arguments of a command. Switches stand anywhere among the positional
arguments. One is called by its letter after a dash, where several letters may share the
dash, or by its long name after two dashes; a value is attached to either or is the next
argument. After a double dash all arguments are positional. -/
namespace Multitape.Command

inductive Stop where
  | refused
  | asked
  deriving DecidableEq, Repr

inductive Effect (α : Type) where
  | flag (set : α → Option α)
  | value (set : String → α → Option α)
  | ask

structure Switch (α : Type) where
  letter : Char
  name : String
  effect : Effect α

structure Grammar (α : Type) where
  switches : List (Switch α)
  place : String → α → Option α

namespace Grammar
variable {α : Type} (grammar : Grammar α)

def accept : Option α → Except Stop α
  | some options => .ok options
  | none => .error .refused

def all (grammar : Grammar α) : List (Switch α) := ⟨'h', "help", .ask⟩ :: grammar.switches

def isSwitch (argument : List Char) : Bool :=
  match argument with
  | '-' :: _ :: _ => true
  | _ => false

inductive Pending (α : Type) where
  | none
  | value (set : String → α → Option α)

/-- The letters behind a dash. What follows the letter of a switch with a value is the
value, less an equals sign in front. -/
def letters : List Char → α → Except Stop (α × Pending α)
  | [], options => .ok (options, .none)
  | letter :: rest, options =>
    match grammar.all.find? (·.letter = letter) with
    | none => .error .refused
    | some switch => match switch.effect with
      | .ask => .error .asked
      | .flag set => do letters rest (← accept (set options))
      | .value set => match rest with
        | [] => .ok (options, .value set)
        | '=' :: value | value => return (← accept (set (String.ofList value) options), .none)

def long (name : String) (value : Option String) (options : α) :
    Except Stop (α × Pending α) :=
  match grammar.all.find? (·.name = name) with
  | none => .error .refused
  | some switch => match switch.effect, value with
    | .ask, none => .error .asked
    | .flag set, none => return (← accept (set options), .none)
    | .value set, none => .ok (options, .value set)
    | .value set, some value => return (← accept (set value options), .none)
    | _, some _ => .error .refused

def switch (argument : List Char) (options : α) : Except Stop (α × Pending α) :=
  match argument with
  | '-' :: '-' :: text =>
    let value := match text.dropWhile (· ≠ '=') with
      | [] => none
      | _ :: value => some (String.ofList value)
    grammar.long (String.ofList (text.takeWhile (· ≠ '='))) value options
  | _ => grammar.letters argument.tail options

def read : Pending α → List String → α → Except Stop α
  | .none, [], options => .ok options
  | .value _, [], _ => .error .refused
  | .value set, argument :: rest, options => do
    if isSwitch argument.toList then .error .refused
    else read .none rest (← accept (set argument options))
  | .none, argument :: rest, options => do
    if argument = "--" then
      accept (rest.foldlM (fun options argument => grammar.place argument options) options)
    else if isSwitch argument.toList then
      let (options, pending) ← grammar.switch argument.toList options
      read pending rest options
    else read .none rest (← accept (grammar.place argument options))

end Grammar
end Multitape.Command
