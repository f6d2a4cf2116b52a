import Mathlib.Data.List.Induction
import Multitape.Proofs.WellFormed

/-! Decoding in one pass over the tokens. Between two of them it keeps the tapes that are done,
the symbols of the segment at work and the place of its mark, and it stops at the first right
end or at the first token that does not fit. It gives what cutting the layout first gives, so it
undoes the encoding, and what it accepts are the well-formed layouts. -/
namespace Multitape.Layout
variable {S : Type} [Symbol S]

structure Pass (S : Type) where
  done : List (Tape S)
  symbols : List S
  mark : Option Nat

namespace Pass

def close (pass : Pass S) : Option (Pass S) := do
  let tape ← Tape.ofCells? pass.symbols (← pass.mark)
  return ⟨pass.done ++ [tape], [], none⟩

def run (count : Nat) (pass : Pass S) : List Token → Option (List (Tape S))
  | [] => none
  | token :: rest => do
    match ← Cell.ofToken? token with
    | .plain symbol => run count { pass with symbols := pass.symbols ++ [symbol] } rest
    | .marked symbol =>
      if pass.mark.isSome then none
      else run count ⟨pass.done, pass.symbols ++ [symbol], some pass.symbols.length⟩ rest
    | .separator => run count (← pass.close) rest
    | .rightEnd =>
      let closed ← pass.close
      if closed.done.length = count then some closed.done else none
    | .leftEnd => none

end Pass

def decodeInPass? (tokens : List Token) (count : Nat) : Option (List (Tape S)) :=
  match tokens.dropWhile Symbol.isBlank with
  | [] => none
  | token :: rest => do
    match ← (Cell.ofToken? token : Option (Cell S)) with
    | .leftEnd => Pass.run count ⟨[], [], none⟩ rest
    | _ => none

/- The head moves over one cell after the other until it stands on the last one. -/
theorem shiftsTo (left : List S) (here : S) (right : List S) :
    left.length.repeat (Tape.shift · .right) (Tape.ofInput (left ++ here :: right)) =
      ⟨left.reverse, here, right, left.length⟩ := by
  induction left using List.reverseRecOn generalizing here right with
  | nil => rfl
  | append_singleton left symbol ih =>
    rw [List.length_append, List.length_singleton, List.append_assoc, List.singleton_append]
    rw [Nat.repeat, ih]
    simp [Tape.shift]

theorem ofCellsAt (left : List S) (here : S) (right : List S)
    (short : left.length < Tape.offsetBound) :
    Tape.ofCells? (left ++ here :: right) left.length =
      some ⟨left.reverse, here, right, left.length⟩ := by
  rw [Tape.ofCells?, if_pos short, shiftsTo]

inductive Pass.Holds (pass : Pass S) : List (Cell S) → Prop
  | unmarked (none : pass.mark = none) : Holds pass (pass.symbols.map .plain)
  | marked {left : List S} {here : S} {right : List S} (mark : pass.mark = some left.length)
      (symbols : pass.symbols = left ++ here :: right) :
      Holds pass (left.map .plain ++ .marked here :: right.map .plain)

namespace Pass
variable {count : Nat} {pass : Pass S} {opened : List (Cell S)}

omit [Symbol S] in
theorem holdsPlain (holds : pass.Holds opened) (symbol : S) :
    Holds { pass with symbols := pass.symbols ++ [symbol] } (opened ++ [.plain symbol]) := by
  cases holds with
  | unmarked none =>
    have same : pass.symbols.map Cell.plain ++ [.plain symbol] =
        (pass.symbols ++ [symbol]).map Cell.plain := by simp
    rw [same]
    exact .unmarked none
  | @marked left here right mark symbols =>
    have same : left.map Cell.plain ++ .marked here :: right.map Cell.plain ++ [.plain symbol] =
        left.map Cell.plain ++ .marked here :: (right ++ [symbol]).map Cell.plain := by simp
    rw [same]
    exact .marked mark (by simp [symbols])

omit [Symbol S] in
theorem holdsMarked (holds : pass.Holds opened) (none : pass.mark = none) (symbol : S) :
    Holds ⟨pass.done, pass.symbols ++ [symbol], some pass.symbols.length⟩
      (opened ++ [.marked symbol]) := by
  cases holds with
  | unmarked _ => exact @Holds.marked S ⟨_, _, _⟩ pass.symbols symbol [] rfl rfl
  | marked mark _ =>
    rw [mark] at none
    cases none

/- Only a marked segment can be closed, and that gives its tape. -/
theorem closed {next : Pass S} (holds : pass.Holds opened) (close : pass.close = some next) :
    ∃ tape : Tape S, tape.Anchored ∧ segment tape = opened ∧ next = ⟨pass.done ++ [tape], [], none⟩ := by
  obtain ⟨mark, found, close⟩ := Option.bind_eq_some_iff.mp close
  obtain ⟨tape, made, close⟩ := Option.bind_eq_some_iff.mp close
  cases close
  cases holds with
  | unmarked none =>
    rw [none] at found
    cases found
  | @marked left here right marked symbols =>
    rw [marked] at found
    cases found
    rw [symbols] at made
    have short : left.length < Tape.offsetBound := by
      unfold Tape.ofCells? at made
      split at made
      · assumption
      · cases made
    rw [ofCellsAt left here right short] at made
    cases made
    exact ⟨_, by simp [Tape.Anchored], by simp [segment], rfl⟩

end Pass

def Continues (done : List (Tape S)) (opened : List (Cell S)) (tokens : List Token)
    (tapes : List (Tape S)) : Prop :=
  ∃ (first : Tape S) (others : List (Tape S)) (inner : List (Cell S)) (trailing : List Token),
    tapes = done ++ first :: others ∧ (∀ tape ∈ first :: others, tape.Anchored) ∧
    opened ++ inner = segment first ∧ (∀ cell ∈ inner ++ behind others, cell.Legible) ∧
    tokens = (inner ++ behind others).map Cell.token ++ trailing

theorem continuesCell {done : List (Tape S)} {opened : List (Cell S)} {rest : List Token}
    {tapes : List (Tape S)} {cell : Cell S} (legible : cell.Legible)
    (later : Continues done (opened ++ [cell]) rest tapes) :
    Continues done opened (cell.token :: rest) tapes := by
  obtain ⟨first, others, inner, trailing, rfl, anchored, parts, known, rfl⟩ := later
  exact ⟨first, others, cell :: inner, trailing, rfl, anchored, by simpa using parts,
    List.forall_mem_cons.mpr ⟨legible, known⟩, rfl⟩

variable [LawfulSymbol S]

/- Induction on the tokens. -/
theorem continuesOfRun {count : Nat} {pass : Pass S} {opened : List (Cell S)}
    {tokens : List Token} {tapes : List (Tape S)} (holds : pass.Holds opened)
    (ran : pass.run count tokens = some tapes) :
    tapes.length = count ∧ Continues pass.done opened tokens tapes := by
  induction tokens generalizing pass opened with
  | nil => cases ran
  | cons token rest ih =>
    obtain ⟨cell, read, went⟩ := Option.bind_eq_some_iff.mp ran
    obtain ⟨legible, rfl⟩ := Cell.ofTokenIff.mp read
    clear ran read
    cases cell with
    | plain symbol =>
      obtain ⟨counted, later⟩ := ih (Pass.holdsPlain holds symbol) went
      exact ⟨counted, continuesCell legible later⟩
    | marked symbol =>
      dsimp only at went
      split at went
      · cases went
      · rename_i unmarked
        have none : pass.mark = none := by simpa using unmarked
        obtain ⟨counted, later⟩ := ih (Pass.holdsMarked holds none symbol) went
        exact ⟨counted, continuesCell legible later⟩
    | separator =>
      obtain ⟨next, close, went⟩ := Option.bind_eq_some_iff.mp went
      obtain ⟨tape, here, rfl, rfl⟩ := Pass.closed holds close
      obtain ⟨counted, first, others, inner, trailing, rfl, anchored, parts, known, rfl⟩ :=
        ih (.unmarked rfl) went
      obtain rfl : inner = segment first := parts
      exact ⟨counted, tape, first :: others, [], trailing, by simp,
        List.forall_mem_cons.mpr ⟨here, anchored⟩, by simp,
        List.forall_mem_cons.mpr ⟨legible, known⟩, rfl⟩
    | rightEnd =>
      obtain ⟨next, close, went⟩ := Option.bind_eq_some_iff.mp went
      obtain ⟨tape, here, rfl, rfl⟩ := Pass.closed holds close
      split at went
      · rename_i counted
        cases went
        exact ⟨counted, tape, [], [], rest, rfl, by simpa using here, by simp,
          by simpa [behind] using legible, rfl⟩
      · cases went
    | leftEnd => cases went

theorem decodedOfPass {tokens : List Token} {count : Nat} {tapes : List (Tape S)}
    (read : decodeInPass? tokens count = some tapes) : decode? tokens count = some tapes := by
  have whole := List.takeWhile_append_dropWhile (p := Symbol.isBlank) (l := tokens)
  rw [blanksInFront] at whole
  generalize (tokens.takeWhile Symbol.isBlank).length = blanks at whole
  unfold decodeInPass? at read
  split at read
  · cases read
  · rename_i token rest behind
    rw [behind] at whole
    obtain ⟨cell, first, went⟩ := Option.bind_eq_some_iff.mp read
    obtain ⟨-, rfl⟩ := Cell.ofTokenIff.mp first
    cases cell with
    | leftEnd =>
      obtain ⟨counted, tape, others, inner, trailing, rfl, anchored, parts, known, rfl⟩ :=
        continuesOfRun (.unmarked rfl) went
      obtain rfl : inner = segment tape := parts
      rw [← segmentsCons] at known whole
      have legible : ∀ cell ∈ segments (tape :: others), cell.Legible :=
        fun cell mem => known cell (List.mem_append_left _ mem)
      refine decodeIff.mpr ⟨⟨by simp, counted, anchored, legible⟩, blanks, trailing, ?_⟩
      rw [← whole]
      simp [encode, Cell.token]
    | plain symbol => cases went
    | marked symbol => cases went
    | separator => cases went
    | rightEnd => cases went

namespace Pass
variable {count : Nat} {pass : Pass S}

omit [LawfulSymbol S] in
theorem runPlain {symbols : List S} {rest : List Token}
    (legible : ∀ symbol ∈ symbols, (Cell.plain symbol).Legible) :
    pass.run count ((symbols.map Cell.plain).map Cell.token ++ rest) =
      run count { pass with symbols := pass.symbols ++ symbols } rest := by
  induction symbols generalizing pass with
  | nil => simp
  | cons symbol symbols ih =>
    obtain ⟨first, later⟩ := List.forall_mem_cons.mp legible
    rw [List.map_cons, List.map_cons, List.cons_append, run, Cell.ofTokenLegible first]
    change run count { pass with symbols := pass.symbols ++ [symbol] } _ = _
    rw [ih later]
    simp

omit [LawfulSymbol S] in
theorem runSegment {done : List (Tape S)} {tape : Tape S} {rest : List Token}
    (legible : ∀ cell ∈ segment tape, cell.Legible) :
    run count ⟨done, [], none⟩ ((segment tape).map Cell.token ++ rest) =
      run count ⟨done, tape.cells, some tape.left.length⟩ rest := by
  have left : ∀ symbol ∈ tape.left.reverse, (Cell.plain symbol).Legible := fun symbol mem =>
    legible _ (memSegment.mpr (.inl ⟨symbol, List.mem_reverse.mp mem, rfl⟩))
  have right : ∀ symbol ∈ tape.right, (Cell.plain symbol).Legible := fun symbol mem =>
    legible _ (memSegment.mpr (.inr (.inr ⟨symbol, mem, rfl⟩)))
  have here : (Cell.marked tape.here).Legible := legible _ (memSegment.mpr (.inr (.inl rfl)))
  rw [segment, List.map_append, List.append_assoc, runPlain left, List.map_cons, List.cons_append,
    run, Cell.ofTokenLegible here]
  change run count ⟨done, _, _⟩ _ = _
  rw [runPlain right]
  simp [Tape.cells]

omit [LawfulSymbol S] in
theorem closeSegment {done : List (Tape S)} {tape : Tape S} (anchored : tape.Anchored)
    (short : tape.left.length < Tape.offsetBound) :
    close ⟨done, tape.cells, some tape.left.length⟩ = some ⟨done ++ [tape], [], none⟩ := by
  have made := ofCellsAt tape.left.reverse tape.here tape.right (by simpa using short)
  rw [List.length_reverse, List.reverse_reverse] at made
  have same : Tape.mk tape.left tape.here tape.right tape.left.length = tape :=
    congrArg (Tape.mk tape.left tape.here tape.right) anchored.symm
  rw [same] at made
  exact Option.bind_eq_some_iff.mpr ⟨tape, made, rfl⟩

omit [LawfulSymbol S] in
theorem runBehind {done tapes : List (Tape S)} {tape : Tape S} {trailing : List Token}
    (fits : ∀ other ∈ tape :: tapes, other.Anchored ∧ other.left.length < Tape.offsetBound)
    (legible : ∀ cell ∈ behind tapes, cell.Legible)
    (counted : (done ++ tape :: tapes).length = count) :
    run count ⟨done, tape.cells, some tape.left.length⟩
      ((behind tapes).map Cell.token ++ trailing) = some (done ++ tape :: tapes) := by
  induction tapes generalizing done tape with
  | nil =>
    obtain ⟨anchored, short⟩ := fits tape (by simp)
    have read : Cell.ofToken? Cell.rightSign = some (.rightEnd : Cell S) :=
      Cell.ofTokenLegible (legible .rightEnd (by simp [behind]))
    refine Option.bind_eq_some_iff.mpr ⟨.rightEnd, read, ?_⟩
    exact Option.bind_eq_some_iff.mpr ⟨_, closeSegment anchored short, if_pos counted⟩
  | cons next tapes ih =>
    obtain ⟨⟨anchored, short⟩, later⟩ := List.forall_mem_cons.mp fits
    have read : Cell.ofToken? Cell.separatorSign = some (.separator : Cell S) :=
      Cell.ofTokenLegible (legible .separator (by simp [behind]))
    have inside : ∀ cell ∈ segment next, cell.Legible := fun cell mem =>
      legible cell (by simp [behind, mem])
    have outside : ∀ cell ∈ behind tapes, cell.Legible := fun cell mem =>
      legible cell (by simp [behind, mem])
    refine Option.bind_eq_some_iff.mpr ⟨.separator, read, ?_⟩
    refine Option.bind_eq_some_iff.mpr ⟨_, closeSegment anchored short, ?_⟩
    change run count _ ((segment next ++ behind tapes).map Cell.token ++ trailing) = _
    rw [List.map_append, List.append_assoc, runSegment inside, ih later outside]
    · simp
    · simpa using counted

end Pass

omit [Symbol S] [LawfulSymbol S] in
theorem lengthSegments {tapes : List (Tape S)} {tape : Tape S} (mem : tape ∈ tapes) :
    (segment tape).length ≤ (segments tapes).length := by
  induction tapes with
  | nil => cases mem
  | cons first tapes ih =>
    cases tapes with
    | nil =>
      obtain rfl := List.mem_singleton.mp mem
      rw [segmentsOne]
    | cons next tapes =>
      rw [segmentsMore, List.length_append, List.length_cons]
      rcases List.mem_cons.mp mem with rfl | later
      · omega
      · have := ih later
        omega

/- Offsets have a bound of their own, which only a list as long as that could exceed. -/
theorem decodeOnePass {tokens : List Token} {count : Nat} (short : tokens.length ≤ Tape.offsetBound) :
    decodeInPass? tokens count = (decode? tokens count : Option (List (Tape S))) := by
  apply Option.ext
  intro tapes
  refine ⟨decodedOfPass, fun read => ?_⟩
  obtain ⟨⟨filled, counted, anchored, legible⟩, blanks, trailing, rfl⟩ := decodeIff.mp read
  have front := unblanked tapes blanks trailing
  have fits : ∀ tape ∈ tapes, tape.Anchored ∧ tape.left.length < Tape.offsetBound := by
    intro tape mem
    have part := lengthSegments mem
    have held : (segment tape).length = tape.left.length + tape.right.length + 1 := by
      simp [segment]
      omega
    simp only [encode, List.length_append, List.length_replicate, List.length_cons,
      List.length_map] at short
    exact ⟨anchored tape mem, by omega⟩
  cases tapes with
  | nil => exact absurd rfl filled
  | cons tape others =>
    have split : (segments (tape :: others)).map Cell.token ++ Cell.rightSign :: trailing =
        (segment tape).map Cell.token ++ ((behind others).map Cell.token ++ trailing) := by
      have cells := congrArg (List.map Cell.token) (segmentsCons tape others)
      rw [← List.append_assoc, ← List.map_append, ← cells]
      simp [Cell.token]
    have read : Cell.ofToken? Cell.leftSign = some (.leftEnd : Cell S) :=
      Cell.ofTokenLegible (show (Cell.leftEnd : Cell S).Legible from trivial)
    have inside : ∀ cell ∈ segment tape, cell.Legible :=
      legibleSegments.mp legible tape (by simp)
    have outside : ∀ cell ∈ behind others, cell.Legible := by
      intro cell mem
      have whole : cell ∈ segments (tape :: others) ++ [.rightEnd] := by
        rw [segmentsCons]
        exact List.mem_append_right _ mem
      rcases List.mem_append.mp whole with held | last
      · exact legible cell held
      · rw [List.mem_singleton.mp last]
        trivial
    unfold decodeInPass?
    rw [front, split]
    refine Option.bind_eq_some_iff.mpr ⟨.leftEnd, read, ?_⟩
    dsimp only
    rw [Pass.runSegment inside]
    exact Pass.runBehind fits outside counted

/- The first two parts are two readings of `decodeIff`; the third says without tapes what they
have in common, and the last that one pass is enough. -/
theorem codecExact :
    (∀ (tapes : List (Tape S)) (blanks : Nat) (trailing : List Token), tapes ≠ [] →
      (∀ tape ∈ tapes, ∀ symbol ∈ tape.cells, ¬ Cell.isReserved symbol ∧ Symbol.Readable symbol) →
      ∃ decoded : List (Tape S),
        decode? (List.replicate blanks Symbol.blank ++ encode tapes ++ trailing) tapes.length =
            some decoded ∧
          (∀ tape ∈ decoded, tape.origin = 0) ∧
          decoded.map Tape.cells = tapes.map Tape.cells ∧
          decoded.map Tape.headIndex = tapes.map Tape.headIndex) ∧
    (∀ (tokens : List Token) (count : Nat) (decoded : List (Tape S)),
      decode? tokens count = some decoded →
        1 ≤ count ∧ decoded.length = count ∧
          Cell.rightSign ∈ tokens.dropWhile Symbol.isBlank ∧ framed tokens = encode decoded) ∧
    (∀ (tokens : List Token) (count : Nat),
      (∃ decoded : List (Tape S), decode? tokens count = some decoded) ↔
        WellFormed S tokens count) ∧
    ∀ (tokens : List Token) (count : Nat), tokens.length ≤ Tape.offsetBound →
      decodeInPass? tokens count = (decode? tokens count : Option (List (Tape S))) := by
  refine ⟨?_, ?_, fun _ _ => decodedIff, fun _ _ => decodeOnePass⟩
  · intro tapes blanks trailing filled clear
    have legible : ∀ cell ∈ segments tapes, cell.Legible :=
      legibleSegments.mpr fun tape mem => legibleSegment (clear tape mem)
    refine ⟨tapes.map grounded, decodeEncode filled legible blanks trailing, ?_, ?_, ?_⟩
    · intro tape mem
      obtain ⟨other, -, rfl⟩ := List.mem_map.mp mem
      simp [Tape.origin, grounded]
    · simp [Tape.cells, grounded, Function.comp_def]
    · simp [Tape.headIndex, grounded, Function.comp_def]
  · intro tokens count decoded read
    obtain ⟨⟨filled, rfl, -, legible⟩, blanks, trailing, rfl⟩ := decodeIff.mp read
    refine ⟨List.length_pos_iff.mpr filled, rfl, ?_, framedEncode legible blanks trailing⟩
    rw [unblanked]
    simp

theorem codecOfPair :
    (∃ decoded : List (Tape Char), decodeInPass? (List.replicate 2 Symbol.blank ++
          encode [Tape.ofInput ['a', 'b'], .empty] ++ [⟨"*^"⟩]) 2 = some decoded ∧
        (∀ tape ∈ decoded, tape.origin = 0) ∧
        decoded.map Tape.cells = [['a', 'b'], ['_']] ∧ decoded.map Tape.headIndex = [0, 0]) ∧
      ¬ WellFormed Char [⟨"^"⟩, ⟨"*a"⟩, ⟨"*b"⟩, ⟨"$"⟩] 1 := by
  obtain ⟨restores, -, accepts, passes⟩ := codecExact (S := Char)
  constructor
  · rw [passes _ 2 (by decide)]
    refine restores [Tape.ofInput ['a', 'b'], .empty] 2 [⟨"*^"⟩] (by simp) ?_
    have a : ¬ Cell.isReserved 'a' ∧ Symbol.Readable 'a' := by decide
    have b : ¬ Cell.isReserved 'b' ∧ Symbol.Readable 'b' := by decide
    have blank : ¬ Cell.isReserved '_' ∧ Symbol.Readable '_' := by decide
    simp [Tape.cells, Tape.ofInput, Tape.empty, Symbol.blank, a, b, blank]
  · rw [← accepts]
    rintro ⟨decoded, read⟩
    cases read

end Multitape.Layout
