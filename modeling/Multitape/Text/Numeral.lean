/-! Decimal numerals as descriptions and command lines write them: digits, with at most
one plus sign in front. Leading zeros are allowed and a minus sign never is. -/
namespace Multitape.Numeral

def stateBound : Nat := Nat.pow 2 32

def countBound : Nat := Nat.pow 2 64

def digits? (text : List Char) : Option Nat :=
  if text ≠ [] ∧ text.all Char.isDigit then some (Nat.ofDigitChars 10 text 0) else none

def unsigned : List Char → List Char
  | '+' :: rest => rest
  | text => text

def read? (bound : Nat) (text : String) : Option Nat :=
  (digits? (unsigned text.toList)).filter (· < bound)

theorem readBelow {bound n : Nat} {text : String} (h : read? bound text = some n) : n < bound := by
  simp only [read?, Option.filter_eq_some_iff, decide_eq_true_eq] at h
  exact h.2

end Multitape.Numeral
