import Multitape.Description.Line

/-! The records of a description. A line is empty, a comment, or a record: fields, which
are runs of characters other than commas, spaces and tabs. The first record is the header.
Between its fields a comma may be left out; in every other record one comma stands between
two fields. A comment may follow the fields of a record only at the very end of the text. -/
namespace Multitape.Description

structure Record where
  line : Nat
  fields : List String
  deriving DecidableEq, Repr

inductive Expected where
  | description
  | field
  | textEnd
  deriving DecidableEq, Repr

structure SyntaxError where
  position : Position
  expected : List Expected
  deriving DecidableEq, Repr

inductive Lexeme where
  | comma (column : Nat)
  | field (column : Nat) (chars : List Char)
  deriving DecidableEq, Repr

namespace Lexeme

def extend (column : Nat) (c : Char) : List Lexeme → List Lexeme
  | .field start chars :: rest =>
    if start = column + 1 then .field column (c :: chars) :: rest
    else .field column [c] :: .field start chars :: rest
  | rest => .field column [c] :: rest

def ofChars (column : Nat) : List Char → List Lexeme
  | [] => []
  | c :: rest =>
    let later := ofChars (column + 1) rest
    if c = ' ' ∨ c = '\t' then later
    else if c = ',' then .comma column :: later
    else extend column c later

def ofLine (line : Line) : List Lexeme := ofChars line.start.column line.chars

def isComment : Lexeme → Bool
  | .field _ ('#' :: _) => true
  | _ => false

def column : Lexeme → Nat
  | comma column => column
  | field column _ => column

end Lexeme

section
variable (line : Line)

def placeOf : List Lexeme → Position
  | [] => line.stop
  | lexeme :: _ => ⟨line.start.line, lexeme.column⟩

def noField (rest : List Lexeme) : SyntaxError := ⟨placeOf line rest, [.field]⟩

def headerTail : List Lexeme → Except SyntaxError (List String)
  | [] => .ok []
  | .field _ chars :: rest => (headerTail rest).map (String.ofList chars :: ·)
  | .comma _ :: .field _ chars :: rest => (headerTail rest).map (String.ofList chars :: ·)
  | .comma _ :: rest => .error (noField line rest)

def recordTail : List Lexeme → Except SyntaxError (List String)
  | [] => .ok []
  | .comma _ :: .field _ chars :: rest => (recordTail rest).map (String.ofList chars :: ·)
  | .comma _ :: rest => .error (noField line rest)
  | lexeme :: rest =>
    if lexeme.isComment then
      if line.ends = .textEnd then .ok [] else .error ⟨line.stop, [.textEnd]⟩
    else .error ⟨placeOf line (lexeme :: rest), [.textEnd]⟩

/-- A record that starts with a comma. Nothing but a description starts at the first
character of a text. -/
def noFirstField (rest : List Lexeme) : SyntaxError :=
  let position := placeOf line rest
  ⟨position, if position = .first then [.description] else [.textEnd, .field]⟩

def recordOf? (isHeader : Bool) : Except SyntaxError (Option Record) :=
  match Lexeme.ofLine line with
  | [] => .ok none
  | .comma column :: rest => .error (noFirstField line (.comma column :: rest))
  | .field column chars :: rest =>
    if (Lexeme.field column chars).isComment then .ok none
    else
      let tail := if isHeader then headerTail line rest else recordTail line rest
      tail.map fun fields => some ⟨line.start.line, String.ofList chars :: fields⟩

end

def recordsOf (isHeader : Bool) : List Line → Except SyntaxError (List Record)
  | [] => .ok []
  | line :: rest => do
    match ← recordOf? line isHeader with
    | none => recordsOf isHeader rest
    | some record => return record :: (← recordsOf false rest)

def records (text : String) : Except SyntaxError (List Record) := recordsOf true (lines text)

end Multitape.Description
