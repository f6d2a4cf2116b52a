/-! Text between the quotes of a JSON string. Writing escapes quotes, backslashes and
control characters and nothing else. Reading knows all escapes; `literal?` finds where a
string ends and checks the form of its escapes, `decode?` says what they stand for, which
half of a surrogate pair on its own does not. -/
namespace Multitape.Json.Quoted

def shortEscapes : List (Char × Char) :=
  [('"', '"'), ('\\', '\\'), ('b', '\x08'), ('f', '\x0c'), ('n', '\n'), ('r', '\r'), ('t', '\t')]

def hexDigit (n : Nat) : Char := (Nat.toDigits 16 n).headD '0'

def encodeChar (c : Char) : List Char :=
  match shortEscapes.find? (·.2 = c) with
  | some (letter, _) => ['\\', letter]
  | none =>
    if c.toNat < 0x20 then ['\\', 'u', '0', '0', hexDigit (c.toNat / 16), hexDigit (c.toNat % 16)]
    else [c]

def encode (text : List Char) : List Char := text.flatMap encodeChar

def hexValue? (c : Char) : Option Nat :=
  if c.isDigit then some (c.toNat - '0'.toNat)
  else if 'a' ≤ c ∧ c ≤ 'f' then some (c.toNat - 'a'.toNat + 10)
  else if 'A' ≤ c ∧ c ≤ 'F' then some (c.toNat - 'A'.toNat + 10)
  else none

def unit? (a b c d : Char) : Option Nat := do
  let a ← hexValue? a
  let b ← hexValue? b
  let c ← hexValue? c
  let d ← hexValue? d
  return ((a * 16 + b) * 16 + c) * 16 + d

def shortEscape? (letter : Char) : Option Char :=
  if letter = '/' then some '/' else (shortEscapes.find? (·.1 = letter)).map (·.2)

def literal? : List Char → Option (List Char × List Char)
  | '"' :: rest => some ([], rest)
  | '\\' :: 'u' :: a :: b :: c :: d :: rest => do
    let _ ← unit? a b c d
    let (chars, rest) ← literal? rest
    return ('\\' :: 'u' :: a :: b :: c :: d :: chars, rest)
  | '\\' :: letter :: rest => do
    let _ ← shortEscape? letter
    let (chars, rest) ← literal? rest
    return ('\\' :: letter :: chars, rest)
  | c :: rest =>
    if c.toNat < 0x20 then none
    else do
      let (chars, rest) ← literal? rest
      return (c :: chars, rest)
  | [] => none

def isHighHalf (unit : Nat) : Bool := 0xD800 ≤ unit && unit < 0xDC00

def isLowHalf (unit : Nat) : Bool := 0xDC00 ≤ unit && unit < 0xE000

def joinHalves (high low : Nat) : Char :=
  Char.ofNat (0x10000 + (high - 0xD800) * 0x400 + (low - 0xDC00))

def decode? : List Char → Option (List Char)
  | [] => some []
  | '\\' :: 'u' :: a :: b :: c :: d :: '\\' :: 'u' :: e :: f :: g :: h :: rest => do
    let first ← unit? a b c d
    let second ← unit? e f g h
    if isHighHalf first then
      if isLowHalf second then return joinHalves first second :: (← decode? rest) else none
    else if isLowHalf first then none
    else return Char.ofNat first :: (← decode? ('\\' :: 'u' :: e :: f :: g :: h :: rest))
  | '\\' :: 'u' :: a :: b :: c :: d :: rest => do
    let unit ← unit? a b c d
    if isHighHalf unit ∨ isLowHalf unit then none
    else return Char.ofNat unit :: (← decode? rest)
  | '\\' :: letter :: rest => do
    let c ← shortEscape? letter
    return c :: (← decode? rest)
  | c :: rest => do return c :: (← decode? rest)

end Multitape.Json.Quoted
