import Multitape.Json.Quoted

/-! JSON as it is written: a tree whose strings and numbers keep their literals. What a
literal stands for is asked with `text?` and `natural?`; so a string that denotes no text
is still a value, which a reader may skip. -/
namespace Multitape

inductive Json where
  | null
  | bool (value : Bool)
  | number (literal : List Char)
  | string (literal : List Char)
  | array (items : List Json)
  | object (fields : List (List Char × Json))
  deriving Repr

namespace Json

def text (value : String) : Json := .string (Quoted.encode value.toList)

def int (value : Int) : Json := .number (toString value).toList

def nat (value : Nat) : Json := int value

def record (fields : List (String × Json)) : Json :=
  .object (fields.map fun (key, value) => (Quoted.encode key.toList, value))

def denoted? (literal : List Char) : Option String := (Quoted.decode? literal).map String.ofList

def text? : Json → Option String
  | .string literal => denoted? literal
  | _ => none

def natural? (bound : Nat) : Json → Option Nat
  | .number literal =>
    if literal.all Char.isDigit then
      some (Nat.ofDigitChars 10 literal 0) |>.filter (· < bound)
    else none
  | _ => none

def items? : Json → Option (List Json)
  | .array items => some items
  | _ => none

/-! ### Writing, over several lines -/

def newline (depth : Nat) : List Char := '\n' :: List.replicate (2 * depth) ' '

def quoted (literal : List Char) : List Char := '"' :: literal ++ ['"']

mutual

def write (depth : Nat) : Json → List Char
  | .null => "null".toList
  | .bool value => (if value then "true" else "false").toList
  | .number literal => literal
  | .string literal => quoted literal
  | .array items => match items with
    | [] => ['[', ']']
    | first :: rest =>
      '[' :: newline (depth + 1) ++ write (depth + 1) first ++ writeItems depth rest ++
        newline depth ++ [']']
  | .object fields => match fields with
    | [] => ['{', '}']
    | (key, first) :: rest =>
      '{' :: newline (depth + 1) ++ quoted key ++ [':', ' '] ++ write (depth + 1) first ++
        writeFields depth rest ++ newline depth ++ ['}']

def writeItems (depth : Nat) : List Json → List Char
  | [] => []
  | item :: rest => ',' :: newline (depth + 1) ++ write (depth + 1) item ++ writeItems depth rest

def writeFields (depth : Nat) : List (List Char × Json) → List Char
  | [] => []
  | (key, value) :: rest =>
    ',' :: newline (depth + 1) ++ quoted key ++ [':', ' '] ++ write (depth + 1) value ++
      writeFields depth rest

end

def pretty (value : Json) : String := String.ofList (write 0 value)

end Json
end Multitape
