import Multitape.Text.Blank

/-! Tape symbols. A machine is built over one symbol type: `Char`, one character per
symbol, or `Token`, any text. Both have the blank `_`, a way to read one field of a
description, and a way to split and join the text of a tape. -/
namespace Multitape

/-- A symbol of any length. Fields hold only some tokens; a machine built rule by rule
may use all of them. -/
structure Token where
  text : String
  deriving DecidableEq, Hashable, Repr

class Symbol (S : Type) where
  /-- Every alphabet contains the blank, declared or not. -/
  blank : S
  text : S → String
  ofText? : String → Option S
  ofToken? : Token → Option S
  split : String → List S
  join : List S → String

namespace Symbol

def mark : Char := '|'

def isFieldChar (c : Char) : Bool := !Text.isBlank c && c ≠ ',' && c ≠ mark

def isField (text : String) : Bool := text.toList ≠ [] && text.toList.all isFieldChar

def onlyChar? (text : String) : Option Char :=
  match text.toList with
  | [c] => some c
  | _ => none

instance : Symbol Char where
  blank := '_'
  text c := String.ofList [c]
  ofText? := onlyChar?
  ofToken? token := if isField token.text then onlyChar? token.text else none
  split := String.toList
  join := String.ofList

/-- Tokens between marks, without the blanks around them; empty ones do not count. -/
def tokens (text : String) : List Token :=
  (((Text.pieces mark text.toList).map Text.trimmed).filter (· ≠ [])).map fun piece =>
    ⟨String.ofList piece⟩

instance : Symbol Token where
  blank := ⟨"_"⟩
  text := Token.text
  ofText? text := some ⟨text⟩
  ofToken? := some
  split := tokens
  join symbols := "|".intercalate (symbols.map Token.text)

variable {S : Type} [Symbol S]

def ofField? (field : String) : Option S := if isField field then ofText? field else none

def toToken (symbol : S) : Token := ⟨text symbol⟩

def isBlank [DecidableEq S] (symbol : S) : Bool := symbol = blank

theorem isBlankBlank [DecidableEq S] : isBlank (blank : S) := by simp [isBlank]

end Symbol
end Multitape
