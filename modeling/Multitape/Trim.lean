/-! Cutting a list at both ends: the elements that `drop` names go, up to the first
and after the last one that it does not name. -/
namespace Multitape

def trim {α : Type} (drop : α → Bool) (xs : List α) : List α :=
  ((xs.dropWhile drop).reverse.dropWhile drop).reverse

end Multitape
