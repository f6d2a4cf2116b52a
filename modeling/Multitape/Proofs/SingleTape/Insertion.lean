import Multitape.Proofs.SingleTape.Raised
import Multitape.Proofs.SingleTape.RulePhases

/-! A segment grows by one cell, wherever it stands. When its mark is to go on from the boundary
behind it, or from before its first cell, a marked blank is put there, and everything from there
to the right end comes to stand one cell further right, as it was. The head does not come to the
left of the new cell, and what is there does not matter. From there the sweep goes on: on the
first cell of the next segment, or, behind the last one, back from its last cell. -/
namespace Multitape

namespace Layout
variable {S : Type}

def start : List (Tape S) → Nat
  | [] => 1
  | tape :: before => tape.cells.length + 1 + start before

def unmarked (before : List (Tape S)) (symbols : List S) (after : List (Tape S)) :
    List (Cell S) :=
  .leftEnd :: List.intercalate [.separator]
    (before.map segment ++ symbols.map .plain :: after.map segment) ++ [.rightEnd]

theorem startNext (before : List (Tape S)) (tape : Tape S) :
    start (before ++ [tape]) = start before + tape.cells.length + 1 := by
  induction before with
  | nil =>
    simp only [List.nil_append, start]
    omega
  | cons first before ih =>
    simp only [List.cons_append, start, ih]
    omega

theorem lengthFront (done : List (Tape S)) : (front done).length = start done.reverse := by
  induction done with
  | nil => rfl
  | cons tape done ih =>
    rw [List.reverse_cons, startNext, ← ih]
    simp only [front, segment, Tape.cells, List.cons_append, List.length_cons, List.length_append,
      List.length_reverse, List.length_map]
    omega

theorem unmarkedAround (before : List (Tape S)) (symbols : List S) (after : List (Tape S)) :
    unmarked before symbols after =
      (front before.reverse).reverse ++ (symbols.map .plain ++ behind after) :=
  framedAround before (symbols.map .plain) after

/- The layout cut anywhere up to the end of this segment. -/
theorem encodeAround [Symbol S] {before after : List (Tape S)} {grown : Tape S}
    {cells rest : List (Cell S)}
    (shape : cells ++ rest = (front before.reverse).reverse ++ segment grown) :
    encode (before ++ grown :: after) = (cells ++ (rest ++ behind after)).map Cell.token ∧
      cells.length + rest.length = start before + grown.cells.length := by
  constructor
  · have around := wholeAround before.reverse grown after
    rw [← shape, List.reverse_reverse, List.append_assoc] at around
    rw [encodeWhole, around]
  · have same := congrArg List.length shape
    rw [List.length_append, List.length_append, List.length_reverse, lengthFront,
      List.reverse_reverse] at same
    rw [same]
    simp [segment, Tape.cells]

theorem insertedAt {α : Type} (xs ys : List α) (y : α) :
    (xs ++ ys).insertIdx xs.length y = xs ++ y :: ys := by
  induction xs with
  | nil => rfl
  | cons x xs ih => simp [ih]

/- The mark is put in at its place, and the tokens behind stand one place further on. -/
theorem encodeGrown [Symbol S] (before : List (Tape S)) (tape : Tape S) (after : List (Tape S)) :
    encode (before ++ tape :: after) =
      ((unmarked before (tape.left.reverse ++ tape.right) after).map Cell.token).insertIdx
        (start before + tape.left.length) (Cell.marked tape.here).token := by
  let prior : List (Cell S) := (front before.reverse).reverse ++ tape.left.reverse.map .plain
  have shape : prior ++ .marked tape.here :: tape.right.map .plain =
      (front before.reverse).reverse ++ segment tape := by
    simp [prior, segment]
  have bare : unmarked before (tape.left.reverse ++ tape.right) after =
      prior ++ (tape.right.map .plain ++ behind after) := by
    simp [prior, unmarkedAround]
  have place : start before + tape.left.length = (prior.map Cell.token).length := by
    simp [prior, lengthFront]
  clear_value prior
  rw [(encodeAround shape).1, bare, place, List.cons_append, List.map_append, List.map_append,
    insertedAt, List.map_cons]

end Layout

structure Tape.Holds (tape : Tape Token) (origin : Int) (tokens : List Token) (place : Nat) :
    Prop where
  cells : ∃ blanks, tape.cells = tokens ++ List.replicate blanks Symbol.blank
  origin : tape.origin = origin
  place : tape.headIndex = place

theorem Tape.holdsIff {tape : Tape Token} {origin : Int} {before ahead : List Token} :
    tape.Holds origin (before ++ ahead) before.length ↔
      tape.left = before.reverse ∧ tape.head = origin + before.length ∧
        ∃ blanks, tape.here :: tape.right = ahead ++ List.replicate blanks Symbol.blank := by
  constructor
  · intro holds
    obtain ⟨blanks, cells⟩ := holds.cells
    have place : tape.left.reverse.length = before.length := by
      simpa [headIndex] using holds.place
    rw [Tape.cells, List.append_assoc] at cells
    obtain ⟨left, ahead⟩ := List.append_inj cells place
    have start := holds.origin
    rw [List.length_reverse] at place
    simp only [Tape.origin, place] at start
    exact ⟨by rw [← left, List.reverse_reverse], by omega, blanks, ahead⟩
  · rintro ⟨left, head, blanks, ahead⟩
    refine ⟨⟨blanks, ?_⟩, ?_, ?_⟩
    · rw [Tape.cells, left, ahead, List.reverse_reverse, List.append_assoc]
    · rw [Tape.origin, left, head, List.length_reverse]
      omega
    · rw [Tape.headIndex, left, List.length_reverse]

theorem Tape.holdsSome (origin : Int) {tokens : List Token} {place : Nat}
    (inside : place ≤ tokens.length) : ∃ tape : Tape Token, tape.Holds origin tokens place := by
  have length : (tokens.take place).length = place := List.length_take_of_le inside
  have split := List.take_append_drop place tokens
  generalize tokens.take place = before at length split
  generalize tokens.drop place = ahead at split
  subst split length
  cases ahead with
  | nil => exact ⟨⟨before.reverse, Symbol.blank, [], _⟩, Tape.holdsIff.mpr ⟨rfl, rfl, 1, rfl⟩⟩
  | cons token tokens =>
    exact ⟨⟨before.reverse, token, tokens, _⟩, Tape.holdsIff.mpr ⟨rfl, rfl, 0, by simp⟩⟩

namespace SingleTape
open Instruction
variable {S : Type} [Symbol S]

section
variable [DecidableEq S] (compiled : SingleTape S)

/-- Some steps lead from the one state and tape to the other. On the way the head does not come
to the left of where it stands at first, and the cells there stay as they are. -/
def GetsTo (run : TapeMode) (state : State) (tape : Tape Token) (later : State)
    (moved : Tape Token) : Prop :=
  ∃ steps, compiled.machine.after? run ⟨state, [tape]⟩ steps = some ⟨later, [moved]⟩ ∧
    ∀ n ≤ steps, ∃ between there,
      compiled.machine.after? run ⟨state, [tape]⟩ n = some ⟨between, [there]⟩ ∧
        tape.head ≤ there.head ∧ ∀ offset < tape.head, there.peek offset = tape.peek offset

/-- The sweep for this rule goes on behind the segment of `grown`: at the first cell of the next
segment, or, if there is none, at its last cell on the way back. -/
def GoesOnBehind (rule : Nat) (source : Rule S) (next : Nat) (before : List (Tape S))
    (grown : Tape S) (later : State) (place : Nat) : List (Tape S) → Prop
  | [] => compiled.phase? later = some (.rewind (.read next)) ∧
      place + 1 = Layout.start before + grown.cells.length
  | _ :: _ => compiled.phase? later = some
        (.move rule (before.length + 1) (source.moves[before.length + 1]? = some .stay)) ∧
      place = Layout.start (before ++ [grown])

def Inserts (run : TapeMode) (state : State) (tape : Tape Token) (origin : Int)
    (leading : List Token) (rule : Nat) (source : Rule S) (next : Nat) (before : List (Tape S))
    (grown : Tape S) (after : List (Tape S)) : Prop :=
  ∃ later moved place, compiled.GetsTo run state tape later moved ∧
    moved.Holds origin (leading ++ Layout.encode (before ++ grown :: after))
      (leading.length + place) ∧
    compiled.GoesOnBehind rule source next before grown later place after

end

variable [DecidableEq S] [LawfulSymbol S] {machine : Machine S} {mode : TapeMode}
  {compiled : SingleTape S} {state : State} {tape : Tape Token}

theorem getsToTravel (result : Compiled machine mode compiled) (several : 2 ≤ machine.tapes)
    {phase : Phase S} {ahead : List (Cell S)} {next : Scan S} {run : TapeMode}
    (here : compiled.phase? state = some phase)
    (shown : ∃ blanks, tape.here :: tape.right =
      ahead.map Cell.token ++ List.replicate blanks Symbol.blank)
    (bounded : run = .rightInfinite → 0 ≤ tape.head)
    (travel : Travel machine mode ⟨.phase phase, [], ahead⟩ next) :
    ∃ later moved, Shows compiled later moved next ∧
      compiled.GetsTo run state tape later (moved.raised tape.left tape.head) := by
  let own : Tape Token := ⟨[], tape.here, tape.right, 0⟩
  have whole : own.raised tape.left tape.head = tape := by simp [own, Tape.raised]
  have target : StateOf compiled state (.phase phase) := by
    cases state with
    | ordinary number => exact ⟨number, rfl, here⟩
    | _ => cases here
  obtain ⟨steps, later, moved, shows, all⟩ := raisedTravel result several
    (show Shows compiled state own _ from ⟨target, rfl, rfl, shown⟩) travel
  obtain ⟨reached, between⟩ := all run tape.left tape.head bounded
  rw [whole] at reached between
  refine ⟨later, moved, shows, steps, reached, fun n le => ?_⟩
  obtain ⟨now, there, anchored, found⟩ := between n le
  have inside : there.head = there.left.length := anchored
  refine ⟨now, _, found, ?_, fun offset before => ?_⟩
  · simp only [Tape.raised]
    omega
  · have same : (own.raised tape.left tape.head).peek offset = tape.left.getD _ _ :=
      Tape.peekRaised (show own.Anchored from rfl) before
    rw [whole] at same
    exact (Tape.peekRaised anchored before).trans same.symm

omit [DecidableEq S] [LawfulSymbol S] in
theorem raisedHolds {scan : Scan S} (shows : Shows compiled state tape scan)
    (under : List Token) (origin : Int) :
    (tape.raised under.reverse (origin + under.length)).Holds origin
      (under ++ (scan.left.reverse ++ scan.ahead).map Cell.token)
      (under.length + scan.left.length) := by
  obtain ⟨beyond, ahead⟩ := shows.ahead
  have anchored : tape.head = tape.left.length := shows.anchored
  have raised : (tape.raised under.reverse (origin + under.length)).Holds origin
      ((under ++ scan.left.reverse.map Cell.token) ++ scan.ahead.map Cell.token)
      (under ++ scan.left.reverse.map Cell.token).length := by
    refine Tape.holdsIff.mpr ⟨?_, ?_, beyond, ahead⟩
    · simp [Tape.raised, shows.left]
    · simp only [Tape.raised, anchored, shows.left, List.length_append, List.length_map,
        List.length_reverse]
      omega
  simpa using raised

omit [DecidableEq S] [LawfulSymbol S] in
theorem resumedCells {left : List (Cell S)} {index rule : Nat} {after : List (Tape S)}
    (inside : left ≠ []) :
    let scan := Scan.resumed machine rule index left after
    scan.left.reverse ++ scan.ahead = left.reverse ++ Layout.behind after := by
  obtain ⟨cell, cells, rfl⟩ := List.exists_cons_of_ne_nil inside
  cases after <;> simp [Scan.resumed, Scan.back, Layout.behind]

section
variable {rule next : Nat} {source : Rule S} {before after : List (Tape S)} {grown : Tape S}
  {left : List (Cell S)} (here : machine.table.rules[rule]? = some source)
  (ordinary : source.next = .ordinary next)
  (count : before.length + 1 + after.length = machine.tapes) (inside : left ≠ [])
include here ordinary count inside

omit [DecidableEq S] [LawfulSymbol S] in
theorem resumedGoesOn {under : Nat}
    (size : under + left.length = Layout.start before + grown.cells.length)
    (target : StateOf compiled state
      (Scan.resumed machine rule before.length left after).target) :
    compiled.GoesOnBehind rule source next before grown state
      (under + (Scan.resumed machine rule before.length left after).left.length) after := by
  obtain ⟨cell, cells, rfl⟩ := List.exists_cons_of_ne_nil inside
  cases after with
  | nil =>
    obtain ⟨number, rfl, phase⟩ := target
    rw [resumeAfterOrdinary here ordinary] at phase
    exact ⟨phase, size⟩
  | cons tape after =>
    obtain ⟨number, rfl, phase⟩ := target
    have room : before.length + 1 < machine.tapes := by
      rw [List.length_cons] at count
      omega
    refine ⟨?_, ?_⟩
    · simpa [SingleTape.phase?, startMove, movesAt here room] using phase
    · rw [Layout.startNext]
      simp only [Scan.resumed, List.length_cons] at size ⊢
      omega

/- The cells that the head has left behind, and those that the sweep has passed since, are those
up to the end of the segment that has grown. -/
theorem insertsOf (result : Compiled machine mode compiled) (several : 2 ≤ machine.tapes)
    {run : TapeMode} {origin : Int} {leading : List Token} {phase : Phase S}
    {cells ahead : List (Cell S)} (known : compiled.phase? state = some phase)
    (holds : tape.Holds origin (leading ++ (cells ++ ahead).map Cell.token)
      (leading.length + cells.length))
    (bounded : run = .rightInfinite → 0 ≤ origin)
    (travel : Travel machine mode ⟨.phase phase, [], ahead⟩
      (.resumed machine rule before.length left after))
    (shape : cells ++ left.reverse = (Layout.front before.reverse).reverse ++ Layout.segment grown) :
    compiled.Inserts run state tape origin leading rule source next before grown after := by
  let under := leading ++ cells.map Cell.token
  have split : leading ++ (cells ++ ahead).map Cell.token = under ++ ahead.map Cell.token := by
    simp [under]
  have length : leading.length + cells.length = under.length := by simp [under]
  rw [split, length] at holds
  obtain ⟨back, head, shown⟩ := Tape.holdsIff.mp holds
  have ahead : run = .rightInfinite → 0 ≤ tape.head := by
    intro right
    have := bounded right
    omega
  obtain ⟨later, moved, shows, gets⟩ := getsToTravel result several known shown ahead travel
  rw [back, head] at gets
  obtain ⟨whole, size⟩ : Layout.encode (before ++ grown :: after) = _ ∧ _ :=
    Layout.encodeAround shape
  refine ⟨later, _, cells.length +
    (Scan.resumed machine rule before.length left after).left.length, gets, ?_, ?_⟩
  · have holds := raisedHolds shows under origin
    rw [resumedCells inside] at holds
    rw [whole]
    simpa [under, Nat.add_assoc] using holds
  · rw [List.length_reverse] at size
    exact resumedGoesOn here ordinary count inside size shows.target

end

omit [LawfulSymbol S] in
theorem stateOfNumbered (result : Compiled machine mode compiled) {phase : Phase S}
    (numbered : Numbered machine mode phase) : ∃ state, compiled.phase? state = some phase := by
  refine ⟨.ordinary ((numbering machine mode).stateOf phase), ?_⟩
  simpa only [phase?, result.phases] using Numbering.getStateOf result.few numbered

def stretcher : Machine Char where
  tapes := 3
  alphabet := ⟨['x'], by decide⟩
  table := Table.empty.push ⟨0, ['x', '_', '_'], .ordinary 0, ['x', 'x', 'x'], [.left, .right, .stay]⟩
    (Table.getNoneIff.mpr (by simp [Table.empty]))
  hasTapes := by decide
  fits rule mem := by
    obtain rfl : rule = _ := by simpa [Table.push, Table.empty] using mem
    exact ⟨rfl, rfl, rfl, by simp [Alphabet.memIff, Symbol.blank]⟩

/-- Wherever the segment stands that has lost its mark: from the boundary behind it, or from its
first cell, it gets a marked blank behind its last cell or in front of its first one, and the
sweep for the rule goes on behind it. All else of the layout is the same, put off by one cell
behind the mark. -/
theorem insertsAnywhere (ok : compile machine mode = .ok compiled) {rule next : Nat}
    {source : Rule S} (here : machine.table.rules[rule]? = some source)
    (ordinary : source.next = .ordinary next) {before after : List (Tape S)} {symbols : List S}
    (count : before.length + 1 + after.length = machine.tapes)
    (lettered : ∀ t ∈ after, t.Over machine.alphabet) {run : TapeMode} {origin : Int}
    (bounded : run = .rightInfinite → 0 ≤ origin) (leading : List Token) :
    let tokens := (Layout.unmarked before symbols after).map Cell.token
    let mark := (Cell.marked (Symbol.blank : S)).token
    (compiled.phase? state = some (.markNext rule before.length) →
      tape.Holds origin (leading ++ tokens)
        (leading.length + (Layout.start before + symbols.length)) →
      compiled.Inserts run state tape origin leading rule source next before
        ⟨symbols.reverse, Symbol.blank, [], symbols.length⟩ after) ∧
    (compiled.phase? state = some (.insertBlank rule before.length) →
      symbols ≠ [] → (∀ symbol ∈ symbols, symbol ∈ machine.alphabet) →
      tape.Holds origin (leading ++ tokens) (leading.length + Layout.start before) →
      compiled.Inserts run state tape origin leading rule source next before
        ⟨[], Symbol.blank, symbols, 0⟩ after) ∧
    Layout.encode (before ++ ⟨symbols.reverse, Symbol.blank, [], symbols.length⟩ :: after) =
      tokens.insertIdx (Layout.start before + symbols.length) mark ∧
    Layout.encode (before ++ ⟨[], Symbol.blank, symbols, 0⟩ :: after) =
      tokens.insertIdx (Layout.start before) mark := by
  obtain ⟨several, -, result⟩ := ofCompile ok
  let front : List (Cell S) := (Layout.front before.reverse).reverse
  have length : front.length = Layout.start before := by
    simp only [front, List.length_reverse, Layout.lengthFront, List.reverse_reverse]
  intro tokens mark
  refine ⟨fun phase holds => ?_, fun phase some known holds => ?_, ?_, ?_⟩
  · have split : Layout.unmarked before symbols after =
        (front ++ symbols.map .plain) ++ Layout.behind after := by
      rw [Layout.unmarkedAround, List.append_assoc]
    have place : Layout.start before + symbols.length = (front ++ symbols.map Cell.plain).length := by
      rw [List.length_append, List.length_map, length]
    unfold tokens at holds
    rw [split, place] at holds
    exact insertsOf here ordinary count (List.cons_ne_nil _ _) result several phase holds bounded
      (insertsBehind count lettered) (by simp [front, Layout.segment])
  · obtain ⟨symbol, rest, rfl⟩ := List.exists_cons_of_ne_nil some
    unfold tokens at holds
    rw [Layout.unmarkedAround, ← length] at holds
    exact insertsOf here ordinary count (by simp) result several phase holds bounded
      (insertsBefore count lettered known) (by simp [Layout.segment])
  · rw [Layout.encodeGrown, List.reverse_reverse, List.append_nil, List.length_reverse]
  · exact Layout.encodeGrown before ⟨[], Symbol.blank, symbols, 0⟩ after

/- The layout in the middle of whose segments a cell is appended, and the one in front of whose
first segment one is put. -/
theorem insertsStretcher : ∃ compiled source, compile stretcher .biInfinite = .ok compiled ∧
    (∃ state tape, compiled.phase? state = some (.markNext 0 1) ∧
      tape.Holds 0 ((Layout.unmarked [⟨[], 'x', [], 0⟩] ['x'] [.empty]).map Cell.token) 4 ∧
      compiled.Inserts .biInfinite state tape 0 [] 0 source 0 [⟨[], 'x', [], 0⟩]
        ⟨['x'], '_', [], 1⟩ [.empty]) ∧
    ∃ state tape, compiled.phase? state = some (.insertBlank 0 0) ∧
      tape.Holds 0 ((Layout.unmarked [] ['x'] [.empty, .empty]).map Cell.token) 1 ∧
      compiled.Inserts .biInfinite state tape 0 [] 0 source 0 [] ⟨[], '_', ['x'], 0⟩
        [.empty, .empty] := by
  obtain ⟨compiled, ok, result⟩ : ∃ compiled, compile stretcher .biInfinite = .ok compiled ∧
    Compiled stretcher .biInfinite compiled := compiles (by decide)
      (by simp [Free, stretcher, Cell.isReserved, Symbol.text])
      (numberedFew (by decide) (by decide))
  have several : 2 ≤ stretcher.tapes := by decide
  let source : Rule Char :=
    ⟨0, ['x', '_', '_'], .ordinary 0, ['x', 'x', 'x'], [.left, .right, .stay]⟩
  have here : stretcher.table.rules[0]? = some source := rfl
  have first : Numbered stretcher .biInfinite (.read source.state []) := numberedFirstRead several
  have blank : (Tape.empty : Tape Char).Over stretcher.alphabet := Tape.overOfInput (by simp)
  refine ⟨compiled, source, ok, ?_, ?_⟩
  · have appends : Numbered stretcher .biInfinite (.markNext 0 1) :=
      numberedMarkNext several here first rfl rfl rfl
    obtain ⟨state, phase⟩ := stateOfNumbered result appends
    obtain ⟨tape, holds⟩ : ∃ tape : Tape Token, tape.Holds 0
        ((Layout.unmarked [⟨[], 'x', [], 0⟩] ['x'] [.empty]).map Cell.token) 4 :=
      Tape.holdsSome 0 (by decide)
    exact ⟨state, tape, phase, holds,
      (insertsAnywhere ok here rfl rfl (by simpa using blank) (by simp) []).1 phase holds⟩
  · have prepends : Numbered stretcher .biInfinite (.insertBlank 0 0) :=
      numberedInsertBlank several here first rfl rfl rfl rfl
    obtain ⟨state, phase⟩ := stateOfNumbered result prepends
    obtain ⟨tape, holds⟩ : ∃ tape : Tape Token, tape.Holds 0
        ((Layout.unmarked [] ['x'] [.empty, .empty]).map Cell.token) 1 :=
      Tape.holdsSome 0 (by decide)
    exact ⟨state, tape, phase, holds,
      (insertsAnywhere ok here rfl rfl (by simpa using blank) (by simp) []).2.1 phase (by simp)
        (by simp [stretcher, Alphabet.memIff]) holds⟩

end SingleTape
end Multitape
