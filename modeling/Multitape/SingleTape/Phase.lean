import Multitape.Layout.Cell
import Multitape.State

/-! The phases of a one-tape machine that runs one with several tapes. It first copies its
input into a layout. Then for each source step it reads the marked symbols on a sweep to
the right, writes on a sweep back, and moves the marks on a third sweep; a mark that
leaves its segment inserts a blank there and shifts the rest of the layout by one cell.
When the source machine stops, all but the last tape is erased. -/
namespace Multitape.SingleTape

inductive Stage where
  | copying
  | reading
  | writing
  | moving
  | cleanup
  deriving DecidableEq, Repr

inductive Resume where
  | read (state : Nat)
  | cleanup (terminal : State)
  deriving DecidableEq, Hashable, Repr

/-- A state of the machine, as what it remembers: `rule` is the position of a source rule
in its table and `tape` the number of the segment at work. -/
inductive Phase (S : Type) where
  -- Puts the left end in place of the first input cell.
  | start
  -- Puts down the symbol picked up one cell before, until the input ends.
  | carry (symbol : S) (first : Bool)
  -- Puts down the separator in front of a segment.
  | separator (tape : Nat)
  -- Puts down the one blank of a segment.
  | layBlank (tape : Nat)
  -- Puts down the right end.
  | terminator
  -- Goes back to the left end.
  | rewind (resume : Resume)
  -- Collects the marked symbols.
  | read (state : Nat) (seen : List S)
  -- Writes into the marked cells of the segments from `tape` down.
  | write (rule tape : Nat)
  -- Moves the mark of a segment, unless that is done.
  | move (rule tape : Nat) (done : Bool)
  -- Marks the cell to the right of the old mark.
  | markNext (rule tape : Nat)
  -- Marks the cell to the left of the old mark.
  | markPrevious (rule tape : Nat)
  -- Puts down a marked blank at the start of a segment.
  | insertBlank (rule tape : Nat)
  -- Marks the first cell of a segment again.
  | remark (rule tape : Nat)
  -- Puts down a cell and picks up the one in its place.
  | shift (rule tape : Nat) (carried : Cell S)
  -- Goes back over separators, to go on with the segment after `tape`.
  | back (rule tape remaining : Nat)
  -- Erases a segment, or takes the mark from the last one.
  | cleanup (terminal : State) (tape : Nat)
  deriving DecidableEq, Hashable, Repr

namespace Phase
variable {S : Type}

def stage : Phase S → Stage
  | start | carry .. | separator _ | layBlank _ | terminator => .copying
  | rewind (.read _) | read .. => .reading
  | write .. => .writing
  | move .. | markNext .. | markPrevious .. | insertBlank .. | remark .. | shift .. | back .. =>
    .moving
  | rewind (.cleanup _) | cleanup .. => .cleanup

def text [Symbol S] : Phase S → String
  | start => "start"
  | carry symbol first => s!"carry {Symbol.text symbol}" ++ if first then " (first)" else ""
  | separator tape => s!"separator {tape}"
  | layBlank tape => s!"lay blank {tape}"
  | terminator => "terminator"
  | rewind (.read state) => s!"rewind to read {state}"
  | rewind (.cleanup terminal) => s!"rewind to cleanup {terminal.text}"
  | read state seen => s!"read {state} [{Symbol.join seen}]"
  | write rule tape => s!"write rule {rule} tape {tape}"
  | move rule tape done => s!"move rule {rule} tape {tape}" ++ if done then " (done)" else ""
  | markNext rule tape => s!"mark next rule {rule} tape {tape}"
  | markPrevious rule tape => s!"mark previous rule {rule} tape {tape}"
  | insertBlank rule tape => s!"insert blank rule {rule} tape {tape}"
  | remark rule tape => s!"remark rule {rule} tape {tape}"
  | shift rule tape carried => s!"shift {carried.token.text} rule {rule} tape {tape}"
  | back rule tape remaining => s!"return {remaining} rule {rule} tape {tape}"
  | cleanup terminal tape => s!"cleanup {terminal.text} tape {tape}"

end Phase
end Multitape.SingleTape
