/-! Head movements. -/
namespace Multitape

inductive Direction where
  | left
  | right
  | stay
  deriving DecidableEq, Repr

namespace Direction

def ofField? : String → Option Direction
  | "L" => some left
  | "R" => some right
  | "N" => some stay
  | _ => none

def text : Direction → String
  | left => "L"
  | right => "R"
  | stay => "N"

theorem ofFieldText (direction : Direction) : ofField? direction.text = some direction := by
  cases direction <;> rfl

def offset : Direction → Int
  | left => -1
  | right => 1
  | stay => 0

end Direction
end Multitape
