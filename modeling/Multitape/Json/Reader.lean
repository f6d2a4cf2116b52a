import Multitape.Json

/-! Reading JSON text. A reader takes a value from the front and leaves the rest. -/
namespace Multitape.Json

def isSpace (c : Char) : Bool := c = ' ' || c = '\t' || c = '\n' || c = '\r'

def skipSpace (text : List Char) : List Char := text.dropWhile isSpace

def isNumberChar (c : Char) : Bool :=
  c.isDigit || c = '+' || c = '-' || c = '.' || c = 'e' || c = 'E'

def isWhole (digits : List Char) : Bool := digits = ['0'] || digits.head?.any (· ≠ '0')

def isExponent : List Char → Bool
  | '+' :: digits | '-' :: digits | digits => digits ≠ [] && digits.all Char.isDigit

def isNumberTail : List Char → Bool
  | '.' :: rest =>
    rest.head?.any Char.isDigit && match rest.dropWhile Char.isDigit with
      | [] => true
      | e :: exponent => (e = 'e' || e = 'E') && isExponent exponent
  | e :: exponent => (e = 'e' || e = 'E') && isExponent exponent
  | [] => true

def isNumber (literal : List Char) : Bool :=
  let unsigned := match literal with
    | '-' :: rest => rest
    | rest => rest
  isWhole (unsigned.takeWhile Char.isDigit) && isNumberTail (unsigned.dropWhile Char.isDigit)

def word? (word : String) (value : Json) (text : List Char) : Option (Json × List Char) :=
  if word.toList.isPrefixOf text then some (value, text.drop word.length) else none

def number? (text : List Char) : Option (Json × List Char) :=
  let literal := text.takeWhile isNumberChar
  if isNumber literal then some (.number literal, text.dropWhile isNumberChar) else none

mutual

def value? : (fuel : Nat) → List Char → Option (Json × List Char)
  | 0, _ => none
  | fuel + 1, text => match skipSpace text with
    | '"' :: rest => (Quoted.literal? rest).map fun (literal, rest) => (.string literal, rest)
    | '[' :: rest => match skipSpace rest with
      | ']' :: rest => some (.array [], rest)
      | rest => (itemList? fuel rest).map fun (items, rest) => (.array items, rest)
    | '{' :: rest => match skipSpace rest with
      | '}' :: rest => some (.object [], rest)
      | rest => (fieldList? fuel rest).map fun (fields, rest) => (.object fields, rest)
    | 't' :: rest => word? "true" (.bool true) ('t' :: rest)
    | 'f' :: rest => word? "false" (.bool false) ('f' :: rest)
    | 'n' :: rest => word? "null" .null ('n' :: rest)
    | rest => number? rest

def itemList? : (fuel : Nat) → List Char → Option (List Json × List Char)
  | 0, _ => none
  | fuel + 1, text => do
    let (item, rest) ← value? fuel text
    match skipSpace rest with
    | ']' :: rest => some ([item], rest)
    | ',' :: rest => (itemList? fuel rest).map fun (items, rest) => (item :: items, rest)
    | _ => none

def fieldList? : (fuel : Nat) → List Char → Option (List (List Char × Json) × List Char)
  | 0, _ => none
  | fuel + 1, text => do
    let '"' :: rest := skipSpace text | none
    let (key, rest) ← Quoted.literal? rest
    let ':' :: rest := skipSpace rest | none
    let (value, rest) ← value? fuel rest
    match skipSpace rest with
    | '}' :: rest => some ([(key, value)], rest)
    | ',' :: rest => (fieldList? fuel rest).map fun (fields, rest) => ((key, value) :: fields, rest)
    | _ => none

end

/-- The value that a text is, with space around it. Every call below another has taken a
character or is the first one on a value, so twice the length bounds their depth. -/
def read? (text : String) : Option Json := do
  let chars := text.toList
  let (value, rest) ← value? (2 * chars.length + 2) chars
  if skipSpace rest = [] then some value else none

end Multitape.Json
