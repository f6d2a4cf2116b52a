import Multitape.Proofs.Decoding
import Multitape.Proofs.Range
import Multitape.Proofs.Row

/-! The rows of a run in 64-bit arithmetic. Every offset that is computed has to be a signed
number of that width, every cell is looked up by its place from the first one, and the cells
that a row lacks are put on one by one; where a number does not fit or there is no such cell,
there is no result. A run of fewer than 2^62 steps on an input shorter than that always has
one, and it is the run as it is without any such limit. -/
namespace Multitape
variable {S : Type} [Symbol S]

structure IsOffset (n : Int) : Prop where
  above : -(Tape.offsetBound : Int) ≤ n
  below : n < Tape.offsetBound

instance (n : Int) : Decidable (IsOffset n) :=
  decidable_of_iff (-(Tape.offsetBound : Int) ≤ n ∧ n < Tape.offsetBound)
    ⟨fun both => ⟨both.1, both.2⟩, fun fits => ⟨fits.above, fits.below⟩⟩

def offset? (n : Int) : Option Int := if IsOffset n then some n else none

/-- Half of the bound of offsets, so that the distance of two such offsets is one. -/
def stepBound : Nat := Nat.pow 2 62

theorem offsetSome {n : Int} (fits : IsOffset n) : offset? n = some n := if_pos fits

theorem twiceBound : Tape.offsetBound = 2 * stepBound := rfl

namespace Row

def place? (row : Row S) (offset : Int) : Option Nat := do
  let distance ← offset? (offset - row.origin)
  if distance < 0 then none else some distance.toNat

def read? (row : Row S) : Option S := do
  row.cells[← row.place? row.head]?

def write? (row : Row S) (symbol : S) : Option (Row S) := do
  let place ← row.place? row.head
  if place < row.cells.length then some { row with cells := row.cells.set place symbol } else none

def last? (row : Row S) : Option Int := do
  let length ← offset? row.cells.length
  let behind ← offset? (row.origin + length)
  offset? (behind - 1)

/-- A blank in front as long as the offset lies there. The loop has to end by itself: when the
rounds run out there is no result. -/
def growFront? (offset : Int) : Nat → Row S → Option (Row S)
  | 0, _ => none
  | rounds + 1, row =>
    if offset < row.origin then do
      let origin ← offset? (row.origin - 1)
      growFront? offset rounds { row with cells := Symbol.blank :: row.cells, origin }
    else some row

def growBack? (offset : Int) : Nat → Row S → Option (Row S)
  | 0, _ => none
  | rounds + 1, row => do
    let last ← row.last?
    if last < offset then
      growBack? offset rounds { row with cells := row.cells ++ [Symbol.blank] }
    else some row

def extended? (row : Row S) (offset : Int) : Option (Row S) := do
  let row ← growFront? offset ((row.origin - offset).toNat + 1) row
  growBack? offset ((offset - row.last).toNat + 1) row

def shift? (row : Row S) (move : Direction) : Option (Row S) := do
  let head ← offset? (row.head + move.offset)
  { row with head }.extended? head

end Row

def TapeMode.shiftRow? (mode : TapeMode) (row : Row S) (move : Direction) : Option (Row S) :=
  if mode = .rightInfinite ∧ move = .left ∧ row.head = 0 then some row else row.shift? move

def Row.act? (mode : TapeMode) : List (Row S) → List S → List Direction → Option (List (Row S))
  | row :: rows, symbol :: write, move :: moves => do
    let moved ← mode.shiftRow? (← row.write? symbol) move
    return moved :: (← act? mode rows write moves)
  | rows, _, _ => some rows

section
variable [DecidableEq S]

def Machine.stepRows? (machine : Machine S) (mode : TapeMode) :
    State × List (Row S) → Option (State × List (Row S))
  | (.ordinary number, rows) => do
    let symbols ← rows.mapM Row.read?
    match machine.table.get? number symbols with
    | some rule => return (rule.next, ← Row.act? mode rows rule.write rule.moves)
    | none => return (.reject, rows)
  | _ => none

def Machine.afterRows? (machine : Machine S) (mode : TapeMode) (input : List S) :
    Nat → Option (State × List (Row S))
  | 0 => some (.start, Row.ofInput input :: List.replicate (machine.tapes - 1) (Row.ofInput []))
  | n + 1 => (machine.afterRows? mode input n).bind (machine.stepRows? mode)

end

namespace Row
variable {row : Row S} {offset : Int}

/- Induction on the cells to put in front. -/
theorem growFrontTo (fits : IsOffset offset) (origin : IsOffset row.origin) :
    growFront? offset ((row.origin - offset).toNat + 1) row =
      some { row with
        cells := List.replicate (row.origin - offset).toNat Symbol.blank ++ row.cells
        origin := min row.origin offset } := by
  obtain ⟨above, below⟩ := fits
  obtain ⟨_, high⟩ := origin
  generalize left : (row.origin - offset).toNat = n
  induction n generalizing row with
  | zero =>
    rw [growFront?, if_neg (by omega), Int.min_eq_left (by omega)]
    rfl
  | succ n ih =>
    have next := offsetSome (n := row.origin - 1) ⟨by omega, by omega⟩
    have rest := @ih { row with cells := Symbol.blank :: row.cells, origin := row.origin - 1 }
      (by dsimp only; omega) (by dsimp only; omega) (by dsimp only; omega)
    rw [growFront?, if_pos (by omega), next]
    simp only [Option.bind_eq_bind, Option.bind_some, rest]
    rw [Int.min_eq_right (by omega), Int.min_eq_right (by omega), List.replicate_succ',
      List.append_assoc]
    rfl

omit [Symbol S] in
theorem lastFits (origin : IsOffset (row.origin - 1)) (behind : IsOffset (row.last + 1))
    (length : IsOffset row.cells.length) : row.last? = some row.last := by
  obtain ⟨low, _⟩ := origin
  obtain ⟨_, high⟩ := behind
  have ends : row.last = row.origin + row.cells.length - 1 := rfl
  have size := offsetSome length
  have next := offsetSome (n := row.origin + row.cells.length) ⟨by omega, by omega⟩
  have last := offsetSome (n := row.last) ⟨by omega, by omega⟩
  simp only [last?, size, next, Option.bind_eq_bind, Option.bind_some, ← ends, last]

/- Induction on the cells to put behind. -/
theorem growBackTo (origin : IsOffset (row.origin - 1)) (behind : IsOffset (row.last + 1))
    (length : IsOffset row.cells.length) (fits : IsOffset (offset + 1))
    (wide : IsOffset (offset - row.origin + 1)) :
    growBack? offset ((offset - row.last).toNat + 1) row =
      some { row with
        cells := row.cells ++ List.replicate (offset - row.last).toNat Symbol.blank } := by
  generalize left : (offset - row.last).toNat = n
  induction n generalizing row with
  | zero =>
    rw [growBack?, lastFits origin behind length]
    simp only [Option.bind_eq_bind, Option.bind_some]
    rw [if_neg (by omega), List.replicate_zero, List.append_nil]
  | succ n ih =>
    let longer : Row S := { row with cells := row.cells ++ [Symbol.blank] }
    have size : longer.cells.length = row.cells.length + 1 := List.length_append
    have last : longer.last = row.last + 1 := by
      simp only [Row.last, size, longer]
      omega
    have ends : row.last = row.origin + row.cells.length - 1 := rfl
    obtain ⟨low, high⟩ := behind
    have rest := @ih longer origin ⟨by omega, by have := fits.below; omega⟩
      ⟨by omega, by have := wide.below; omega⟩ wide (by omega)
    rw [growBack?, lastFits origin ⟨low, high⟩ length]
    simp only [Option.bind_eq_bind, Option.bind_some]
    rw [if_pos (by omega), rest]
    simp [longer, List.replicate_succ]

theorem extendedFits (low : IsOffset (min row.origin offset - 1))
    (high : IsOffset (max row.last offset + 1))
    (wide : IsOffset (max row.last offset - min row.origin offset + 1)) :
    row.extended? offset = some (row.extended offset) := by
  have ends : row.last = row.origin + row.cells.length - 1 := rfl
  obtain ⟨above, _⟩ := low
  obtain ⟨_, below⟩ := high
  obtain ⟨_, narrow⟩ := wide
  let grown : Row S := { row with
    cells := List.replicate (row.origin - offset).toNat Symbol.blank ++ row.cells
    origin := min row.origin offset }
  have front : growFront? offset ((row.origin - offset).toNat + 1) row = some grown :=
    growFrontTo ⟨by omega, by omega⟩ ⟨by omega, by omega⟩
  have origin : grown.origin = min row.origin offset := rfl
  have size : grown.cells.length = (row.origin - offset).toNat + row.cells.length := by
    simp [grown]
  have last : grown.last = row.last := by
    rw [ends, Row.last, size, origin]
    omega
  have back : growBack? offset ((offset - grown.last).toNat + 1) grown =
      some (row.extended offset) := by
    rw [growBackTo ⟨by omega, by omega⟩ ⟨by omega, by omega⟩ ⟨by omega, by omega⟩
      ⟨by omega, by omega⟩ ⟨by omega, by omega⟩, last]
    rfl
  exact Option.bind_eq_some_iff.mpr ⟨grown, front, back⟩

structure Bounded (row : Row S) : Prop where
  origin : -(stepBound : Int) < row.origin
  last : row.last < stepBound
  inside : row.origin ≤ row.head ∧ row.head ≤ row.last

def Movable (row : Row S) : Prop := -(stepBound : Int) < row.head - 1 ∧ row.head + 1 < stepBound

omit [Symbol S] in
theorem placeFits (bounded : row.Bounded) :
    row.place? row.head = some (row.index row.head) ∧ row.index row.head < row.cells.length := by
  obtain ⟨origin, last, inside⟩ := bounded
  have ends : row.last = row.origin + row.cells.length - 1 := rfl
  have twice := twiceBound
  have distance := offsetSome (n := row.head - row.origin) ⟨by omega, by omega⟩
  constructor
  · simp only [place?, distance, Option.bind_eq_bind, Option.bind_some]
    exact if_neg (by omega)
  · unfold index
    omega

theorem readFits (bounded : row.Bounded) : row.read? = some row.read := by
  obtain ⟨place, below⟩ := placeFits bounded
  simp [read?, read, place, List.getElem?_eq_getElem below]

omit [Symbol S] in
theorem writeFits (bounded : row.Bounded) (symbol : S) :
    row.write? symbol = some (row.write symbol) := by
  obtain ⟨place, below⟩ := placeFits bounded
  simp only [write?, place, Option.bind_eq_bind, Option.bind_some]
  exact if_pos below

theorem shiftFits (bounded : row.Bounded) (movable : row.Movable) (move : Direction) :
    row.shift? move = some (row.shift move) := by
  obtain ⟨origin, last, inside⟩ := bounded
  obtain ⟨left, right⟩ := movable
  have twice := twiceBound
  have one : -1 ≤ move.offset ∧ move.offset ≤ 1 := by cases move <;> decide
  let moved : Row S := { row with head := row.head + move.offset }
  have origin' : moved.origin = row.origin := rfl
  have last' : moved.last = row.last := rfl
  have head := offsetSome (n := row.head + move.offset) ⟨by omega, by omega⟩
  have grown : moved.extended? (row.head + move.offset) =
      some (moved.extended (row.head + move.offset)) :=
    extendedFits ⟨by omega, by omega⟩ ⟨by omega, by omega⟩ ⟨by omega, by omega⟩
  simp only [shift?, head, Option.bind_eq_bind, Option.bind_some]
  exact grown

theorem shiftModeFits (mode : TapeMode) (bounded : row.Bounded) (movable : row.Movable)
    (move : Direction) : mode.shiftRow? row move = some (mode.shiftRow row move) := by
  unfold TapeMode.shiftRow? TapeMode.shiftRow
  split
  · rfl
  · exact shiftFits bounded movable move

omit [Symbol S] in
theorem boundedWrite (bounded : row.Bounded) (symbol : S) : (row.write symbol).Bounded := by
  obtain ⟨origin, last, inside⟩ := bounded
  have same : (row.write symbol).last = row.last := by simp [write, Row.last]
  exact ⟨origin, by rwa [same], by rwa [same]⟩

theorem actFits (mode : TapeMode) {rows : List (Row S)} (bounded : ∀ row ∈ rows, row.Bounded)
    (movable : ∀ row ∈ rows, row.Movable) (write : List S) (moves : List Direction) :
    act? mode rows write moves = some (act mode rows write moves) := by
  induction rows generalizing write moves with
  | nil => simp [act?, act]
  | cons row rows ih =>
    cases write with
    | nil => simp [act?, act]
    | cons symbol write =>
      cases moves with
      | nil => simp [act?, act]
      | cons move moves =>
        have here := bounded row (by simp)
        have free : (row.write symbol).Movable := movable row (by simp)
        have rest := ih (fun other mem => bounded other (List.mem_cons_of_mem _ mem))
          (fun other mem => movable other (List.mem_cons_of_mem _ mem)) write moves
        simp only [act?, act, writeFits here symbol,
          shiftModeFits mode (boundedWrite here symbol) free move, rest, Option.bind_eq_bind,
          Option.bind_some, Option.pure_def]

end Row

omit [Symbol S] in
theorem boundedReaches {tape : Tape S} {size n : Nat} (reaches : tape.Reaches size n)
    (short : size < stepBound) (few : n < stepBound) : tape.row.Bounded := by
  have length := tape.rowLast
  obtain ⟨_, _, origin, last⟩ := reaches
  have origin' : tape.row.origin = tape.origin := rfl
  exact ⟨by omega, by omega, by rw [length]; exact tape.headInside⟩

omit [Symbol S] in
theorem movableReaches {tape : Tape S} {size n : Nat} (reaches : tape.Reaches size n)
    (few : n + 1 < stepBound) : tape.row.Movable := by
  obtain ⟨_, head, _⟩ := reaches
  have head' : tape.row.head = tape.head := rfl
  constructor <;> omega

variable [DecidableEq S] {machine : Machine S} {mode : TapeMode} {now next : Configuration S}
  {input : List S} {size n : Nat}

omit [DecidableEq S] in
theorem symbolsFit (reaches : ∀ tape ∈ now.tapes, tape.Reaches size n) (short : size < stepBound)
    (few : n < stepBound) : (now.tapes.map Tape.row).mapM Row.read? = some now.symbols := by
  rw [← rowsSymbols now]
  apply mapMSome
  intro row mem
  obtain ⟨tape, held, rfl⟩ := List.mem_map.mp mem
  exact Row.readFits (boundedReaches (reaches tape held) short few)

theorem stepFits (reaches : ∀ tape ∈ now.tapes, tape.Reaches size n) (short : size < stepBound)
    (few : n + 1 < stepBound) (step : machine.step? mode now = some next) :
    machine.stepRows? mode (now.state, now.tapes.map Tape.row) =
      some (next.state, next.tapes.map Tape.row) := by
  have read := symbolsFit reaches short (Nat.lt_of_succ_lt few)
  have bounded : ∀ row ∈ now.tapes.map Tape.row, row.Bounded := by
    intro row mem
    obtain ⟨tape, held, rfl⟩ := List.mem_map.mp mem
    exact boundedReaches (reaches tape held) short (Nat.lt_of_succ_lt few)
  have movable : ∀ row ∈ now.tapes.map Tape.row, row.Movable := by
    intro row mem
    obtain ⟨tape, held, rfl⟩ := List.mem_map.mp mem
    exact movableReaches (reaches tape held) few
  obtain ⟨number, state, next⟩ := stepIff.mp step
  simp only [Machine.stepRows?, state, read, Option.bind_eq_bind, Option.bind_some]
  obtain ⟨rule, found, rfl⟩ | ⟨found, rfl⟩ := next
  · simp [found, Row.actFits mode bounded movable, rowsAct]
  · simp [found]

theorem afterFits (short : input.length < stepBound) (few : n < stepBound)
    (reached : machine.after? mode (.start machine.tapes input) n = some now) :
    machine.afterRows? mode input n = some (now.state, now.tapes.map Tape.row) := by
  induction n generalizing now with
  | zero =>
    obtain rfl := Option.some.inj reached
    simp [Machine.afterRows?, Configuration.start, Tape.rowOfInput, Tape.empty]
  | succ n ih =>
    obtain ⟨before, found, step⟩ := Option.bind_eq_some_iff.mp reached
    rw [Machine.afterRows?, ih (Nat.lt_of_succ_lt few) found]
    exact stepFits (reachesAfter found) short few step

namespace Run

theorem stepsCall (run : Run S) : run.steps ≤ run.call.2.steps := by
  rw [callStep]
  cases step : run.step? with
  | none => exact Nat.le_refl _
  | some next =>
    obtain ⟨-, later, -, rfl⟩ := nextIff.mp step
    exact Nat.le_succ _

theorem stepsCalls (run : Run S) {earlier n : Nat} (le : earlier ≤ n) :
    (run.calls earlier).steps ≤ (run.calls n).steps := by
  induction n, le using Nat.le_induction with
  | base => exact Nat.le_refl _
  | succ n le ih => exact ih.trans (stepsCall _)

end Run

theorem tapesStayInBounds (machine : Machine S) (config : Config) (input : List S)
    (known : ∀ symbol ∈ input, symbol ∈ machine.alphabet) :
    ∃ run : Run S, Run.start machine config input = .ok run ∧ ∀ n,
      let now := run.calls n
      machine.after? config.tapeMode (.start machine.tapes input) now.steps =
        some now.toConfiguration ∧
      now.tapes.length = machine.tapes ∧
      (∀ tape ∈ now.tapes, tape.Over machine.alphabet ∧
        (tape.origin ≤ tape.head ∧ tape.head ≤ tape.last) ∧
        tape.Reaches input.length now.steps ∧
        (config.tapeMode = .rightInfinite → tape.origin = 0 ∧ 0 ≤ tape.head)) ∧
      (∀ earlier ≤ n, ∀ (index : Nat) (new : Tape S), now.tapes[index]? = some new →
        ∃ old, (run.calls earlier).tapes[index]? = some old ∧ new.Covers old) ∧
      (input.length < stepBound → now.steps < stepBound →
        machine.afterRows? config.tapeMode input now.steps =
          some (now.state, now.tapes.map Tape.row) ∧
        (now.tapes.map Tape.row).mapM Row.read? = some now.symbols) := by
  obtain ⟨run, started, rfl, rfl, begins, fresh⟩ := startShape config known
  refine ⟨run, started, fun n => ?_⟩
  have course : ∀ n, run.machine.after? run.config.tapeMode (.start run.machine.tapes input)
      (run.calls n).steps = some (run.calls n).toConfiguration := by
    intro n
    rw [← begins]
    exact (Run.courseCalls fresh n).reached
  have sound := soundAfter (soundStart known) (course n)
  have reaches := reachesAfter (course n)
  refine ⟨course n, sound.count, fun tape mem => ?_, fun earlier le index new found => ?_,
    fun short few => ⟨afterFits short few (course n), symbolsFit reaches short few⟩⟩
  · refine ⟨sound.lettered tape mem, tape.headInside, reaches tape mem, fun right => ?_⟩
    have anchored : tape.head = tape.left.length := sound.anchored right tape mem
    unfold Tape.origin
    omega
  · exact coversAfter (run.stepsCalls le) (course earlier) (course n) found

/- A call takes the one step, and the rows of the run are the same with all numbers checked. -/
theorem tapesStayInBoundsCopier : ∃ run : Run Char,
    Run.start copier ⟨10, .biInfinite⟩ ['a'] = .ok run ∧ (run.calls 1).steps = 1 ∧
      (∀ tape ∈ (run.calls 1).tapes, tape.Reaches 1 1) ∧
      copier.afterRows? .biInfinite ['a'] 1 =
        some (.accept, (run.calls 1).tapes.map Tape.row) := by
  obtain ⟨run, started, holds⟩ :=
    tapesStayInBounds copier ⟨10, .biInfinite⟩ ['a'] knownCopier
  obtain ⟨reached, count, each, earlier, bounded⟩ := holds 1
  have moved : (run.calls 1).steps = 1 ∧ (run.calls 1).state = .accept := by
    have taken := run.callStep
    have accepts := copierAccepts .biInfinite
    obtain rfl := Except.ok.inj started
    change _ = (Option.map _ (copier.step? .biInfinite (.start 2 ['a']))).getD _ at taken
    rw [accepts] at taken
    exact ⟨congrArg Run.steps taken, congrArg (·.state) taken⟩
  rw [moved.1, moved.2] at bounded
  refine ⟨run, started, moved.1, fun tape mem => ?_, (bounded (by decide) (by decide)).1⟩
  have reaches := (each tape mem).2.2.1
  rwa [moved.1] at reaches

end Multitape
