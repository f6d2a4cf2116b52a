/-! The lines of a text. A line ends at a line feed, at a carriage return, or at both in
this order. Positions count otherwise: a carriage return on its own is one more column of
the line it stands on. -/
namespace Multitape.Description

structure Position where
  line : Nat
  column : Nat
  deriving DecidableEq, Repr

def Position.first : Position := ⟨1, 1⟩

inductive Break where
  | lineFeed
  | pair
  | carriageReturn
  | textEnd
  deriving DecidableEq, Repr

def cutChar : Char → List (List Char × Break) → List (List Char × Break)
  | '\n', lines => ([], .lineFeed) :: lines
  | '\r', ([], .lineFeed) :: lines => ([], .pair) :: lines
  | '\r', lines => ([], .carriageReturn) :: lines
  | c, (chars, ends) :: lines => (c :: chars, ends) :: lines
  | c, [] => [([c], .textEnd)]

def cut (text : List Char) : List (List Char × Break) := text.foldr cutChar [([], .textEnd)]

structure Line where
  start : Position
  chars : List Char
  ends : Break
  deriving DecidableEq, Repr

def Line.next (line : Line) : Position :=
  match line.ends with
  | .lineFeed | .pair => ⟨line.start.line + 1, 1⟩
  | .carriageReturn | .textEnd => ⟨line.start.line, line.start.column + line.chars.length + 1⟩

def Line.stop (line : Line) : Position :=
  ⟨line.start.line, line.start.column + line.chars.length⟩

def place (start : Position) : List (List Char × Break) → List Line
  | [] => []
  | (chars, ends) :: rest =>
    let line : Line := ⟨start, chars, ends⟩
    line :: place line.next rest

def lines (text : String) : List Line := place .first (cut text.toList)

def Break.text : Break → List Char
  | lineFeed => ['\n']
  | pair => ['\r', '\n']
  | carriageReturn => ['\r']
  | textEnd => []

theorem flattenCut (text : List Char) :
    (cut text).flatMap (fun (chars, ends) => chars ++ ends.text) = text := by
  induction text with
  | nil => rfl
  | cons c rest ih =>
    rw [show cut (c :: rest) = cutChar c (cut rest) from rfl]
    generalize cut rest = lines at *
    subst ih
    unfold cutChar
    split <;> simp [Break.text]

end Multitape.Description
