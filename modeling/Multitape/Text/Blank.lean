import Multitape.Trim

/-! Blank characters of running text, after the Unicode property `White_Space`.
Machine descriptions have a narrower notion of their own: there only space and tab
separate fields, and the other members of this table are refused inside a symbol. -/
namespace Multitape.Text

def blankRanges : List (Nat × Nat) :=
  [(0x0009, 0x000D), (0x0020, 0x0020), (0x0085, 0x0085), (0x00A0, 0x00A0), (0x1680, 0x1680),
   (0x2000, 0x200A), (0x2028, 0x2029), (0x202F, 0x202F), (0x205F, 0x205F), (0x3000, 0x3000)]

def isBlank (c : Char) : Bool :=
  blankRanges.any fun range => range.1 ≤ c.toNat && c.toNat ≤ range.2

def trimmed (text : List Char) : List Char := trim isBlank text

def pieces (mark : Char) : List Char → List (List Char)
  | [] => [[]]
  | c :: rest =>
    if c = mark then [] :: pieces mark rest
    else match pieces mark rest with
      | [] => [[c]]
      | piece :: others => (c :: piece) :: others

end Multitape.Text
