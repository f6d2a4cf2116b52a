import Multitape.Proofs.Decoding

/-! Which lists of tokens are decoded, said without tapes. Between the left end and the first
right end stand segments with separators between them, and each segment has plain symbols and
one marked one. What is decoded is encoded again to the very tokens that were read. -/
namespace Multitape

def Cell.isMarked {S : Type} : Cell S → Bool
  | marked _ => true
  | _ => false

namespace Layout
variable {S : Type}

def MarkedOnce (cells : List (Cell S)) : Prop :=
  (∀ cell ∈ cells, ¬ cell.isBoundary) ∧ cells.countP Cell.isMarked = 1

theorem plainOfUnmarked {cells : List (Cell S)} (symbols : ∀ cell ∈ cells, ¬ cell.isBoundary)
    (unmarked : cells.countP Cell.isMarked = 0) : ∃ right : List S, right.map .plain = cells := by
  induction cells with
  | nil => exact ⟨[], rfl⟩
  | cons cell cells ih =>
    have held := symbols cell (by simp)
    have later : ∀ other ∈ cells, ¬ other.isBoundary := fun other mem =>
      symbols other (List.mem_cons_of_mem cell mem)
    cases cell with
    | plain symbol =>
      obtain ⟨right, rfl⟩ := ih later (by simpa [Cell.isMarked] using unmarked)
      exact ⟨symbol :: right, rfl⟩
    | marked symbol => simp [Cell.isMarked] at unmarked
    | _ => exact absurd rfl held

theorem markedOnceIff {cells : List (Cell S)} :
    MarkedOnce cells ↔ ∃ tape : Tape S, tape.Anchored ∧ segment tape = cells := by
  constructor
  · rintro ⟨symbols, once⟩
    induction cells with
    | nil => simp at once
    | cons cell cells ih =>
      have held := symbols cell (by simp)
      have later : ∀ other ∈ cells, ¬ other.isBoundary := fun other mem =>
        symbols other (List.mem_cons_of_mem cell mem)
      cases cell with
      | plain symbol =>
        obtain ⟨tape, -, rfl⟩ := ih later (by simpa [Cell.isMarked] using once)
        exact ⟨grounded ⟨tape.left ++ [symbol], tape.here, tape.right, 0⟩, rfl, by
          simp [segment, grounded]⟩
      | marked symbol =>
        rw [List.countP_cons_of_pos rfl] at once
        obtain ⟨right, rfl⟩ := plainOfUnmarked later (Nat.succ.inj once)
        exact ⟨⟨[], symbol, right, 0⟩, rfl, rfl⟩
      | _ => exact absurd rfl held
  · rintro ⟨tape, -, rfl⟩
    refine ⟨fun cell mem => ?_, ?_⟩
    · rcases memSegment.mp mem with ⟨_, _, rfl⟩ | rfl | ⟨_, _, rfl⟩ <;> simp [Cell.isBoundary, Cell.symbol?]
    · have plain : ∀ symbols : List S, (symbols.map Cell.plain).countP Cell.isMarked = 0 := by
        intro symbols
        simp [List.countP_eq_zero, Cell.isMarked]
      rw [segment, List.countP_append, List.countP_cons_of_pos rfl, plain, plain]

theorem tapesOfParts {parts : List (List (Cell S))} (once : ∀ part ∈ parts, MarkedOnce part) :
    ∃ tapes : List (Tape S), (∀ tape ∈ tapes, tape.Anchored) ∧ tapes.map segment = parts := by
  induction parts with
  | nil => exact ⟨[], by simp, rfl⟩
  | cons part parts ih =>
    obtain ⟨tape, first, rfl⟩ := markedOnceIff.mp (once part (by simp))
    obtain ⟨tapes, anchored, rfl⟩ := ih fun other mem => once other (List.mem_cons_of_mem _ mem)
    exact ⟨tape :: tapes, List.forall_mem_cons.mpr ⟨first, anchored⟩, rfl⟩

variable [Symbol S]

variable (S) in
/-- Blanks, then the left end, so many segments and the right end, each cell told by its token. -/
def WellFormed (tokens : List Token) (count : Nat) : Prop :=
  ∃ parts : List (List (Cell S)), parts ≠ [] ∧ parts.length = count ∧
    (∀ part ∈ parts, MarkedOnce part ∧ ∀ cell ∈ part, cell.Legible) ∧
    ∃ blanks trailing, tokens = List.replicate blanks Symbol.blank ++ Cell.leftSign ::
      ([Cell.separator].intercalate parts).map Cell.token ++ Cell.rightSign :: trailing

def framed (tokens : List Token) : List Token :=
  (tokens.dropWhile Symbol.isBlank).takeWhile (· ≠ Cell.rightSign) ++ [Cell.rightSign]

theorem unblanked (tapes : List (Tape S)) (blanks : Nat) (trailing : List Token) :
    (List.replicate blanks Symbol.blank ++ encode tapes ++ trailing).dropWhile Symbol.isBlank =
      Cell.leftSign :: ((segments tapes).map Cell.token ++ Cell.rightSign :: trailing) := by
  rw [← dropsBlanks blanks]
  simp [encode]

theorem framedEncode {tapes : List (Tape S)} (legible : ∀ cell ∈ segments tapes, cell.Legible)
    (blanks : Nat) (trailing : List Token) :
    framed (List.replicate blanks Symbol.blank ++ encode tapes ++ trailing) = encode tapes := by
  rw [framed, unblanked, List.takeWhile_cons_of_pos (by decide), takesInner (signFresh legible),
    encode]

theorem legibleSegment {tape : Tape S}
    (clear : ∀ symbol ∈ tape.cells, ¬ Cell.isReserved symbol ∧ Symbol.Readable symbol) :
    ∀ cell ∈ segment tape, cell.Legible := by
  intro cell inside
  rcases memSegment.mp inside with ⟨symbol, left, rfl⟩ | rfl | ⟨symbol, right, rfl⟩
  · exact (clear symbol (by simp [Tape.cells, left])).symm
  · exact (clear tape.here (by simp [Tape.cells])).2
  · exact (clear symbol (by simp [Tape.cells, right])).symm

theorem legibleSegments {tapes : List (Tape S)} :
    (∀ cell ∈ segments tapes, cell.Legible) ↔ ∀ tape ∈ tapes, ∀ cell ∈ segment tape, cell.Legible := by
  constructor
  · intro legible tape mem cell inside
    exact legible cell (segmentsOfMem mem inside)
  · intro legible cell mem
    rcases memSegments mem with rfl | ⟨tape, here, inside⟩
    · trivial
    · exact legible tape here cell inside

variable [LawfulSymbol S]

theorem decodedIff {tokens : List Token} {count : Nat} :
    (∃ tapes : List (Tape S), decode? tokens count = some tapes) ↔ WellFormed S tokens count := by
  constructor
  · rintro ⟨tapes, read⟩
    obtain ⟨⟨filled, counted, anchored, legible⟩, blanks, trailing, rfl⟩ := decodeIff.mp read
    refine ⟨tapes.map segment, by simpa using filled, by rw [List.length_map, counted], ?_,
      blanks, trailing, by simp [encode, segments]⟩
    intro part mem
    obtain ⟨tape, here, rfl⟩ := List.mem_map.mp mem
    exact ⟨markedOnceIff.mpr ⟨tape, anchored tape here, rfl⟩, legibleSegments.mp legible tape here⟩
  · rintro ⟨parts, filled, counted, parted, blanks, trailing, rfl⟩
    obtain ⟨tapes, anchored, rfl⟩ := tapesOfParts fun part mem => (parted part mem).1
    refine ⟨tapes, decodeIff.mpr ⟨⟨by simpa using filled, by simpa using counted, anchored, ?_⟩,
      blanks, trailing, by simp [encode, segments]⟩⟩
    apply legibleSegments.mpr
    exact fun tape mem => (parted (segment tape) (List.mem_map_of_mem mem)).2

end Layout
end Multitape
