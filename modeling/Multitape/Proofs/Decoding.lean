import Mathlib.Data.List.TakeWhile
import Multitape.Proofs.Layout

/-! Decoding and encoding are inverse to each other. A text of tokens is accepted exactly when
it is a layout of as many tapes as are asked for, behind blanks and in front of anything, in
which every token is read as the cell it stands for; and the tapes that come back are those of
the layout, cell by cell and with their heads, each from offset 0 on. -/
namespace Multitape

/- Element by element: a walk whose every result is known. -/
theorem mapMSome {α β : Type} {f : α → Option β} {g : α → β} {xs : List α}
    (each : ∀ x ∈ xs, f x = some (g x)) : xs.mapM f = some (xs.map g) := by
  induction xs with
  | nil => rfl
  | cons x xs ih =>
    have later := ih fun y mem => each y (List.mem_cons_of_mem _ mem)
    rw [List.mapM_cons, each x (by simp), later]
    rfl

/- A reader that accepts just the written forms of what satisfies `valid`, along a list. -/
theorem mapMIff {α β : Type} {f : α → Option β} {write : β → α} {valid : β → Prop}
    (each : ∀ {x y}, f x = some y ↔ valid y ∧ write y = x) {xs : List α} {ys : List β} :
    xs.mapM f = some ys ↔ (∀ y ∈ ys, valid y) ∧ ys.map write = xs := by
  constructor
  · intro read
    induction xs generalizing ys with
    | nil =>
      cases read
      simp
    | cons x xs ih =>
      rw [List.mapM_cons] at read
      obtain ⟨y, first, read⟩ := Option.bind_eq_some_iff.mp read
      obtain ⟨rest, later, read⟩ := Option.bind_eq_some_iff.mp read
      cases read
      obtain ⟨holds, same⟩ := each.mp first
      obtain ⟨others, tail⟩ := ih later
      exact ⟨List.forall_mem_cons.mpr ⟨holds, others⟩, by rw [List.map_cons, same, tail]⟩
  · rintro ⟨holds, rfl⟩
    rw [List.mapM_map]
    have read := mapMSome (f := f ∘ write) (g := id) fun y mem => each.mpr ⟨holds y mem, rfl⟩
    rwa [List.map_id] at read

namespace Layout
variable {S : Type}

def grounded (tape : Tape S) : Tape S := { tape with head := tape.left.length }

theorem segmentGrounded (tape : Tape S) : segment (grounded tape) = segment tape := rfl

theorem segmentsGrounded (tapes : List (Tape S)) :
    segments (tapes.map grounded) = segments tapes := by
  simp only [segments, List.map_map, Function.comp_def, segmentGrounded]

theorem cutBefore {cells rest : List (Cell S)} (inside : .separator ∉ cells) :
    cutSegments (cells ++ .separator :: rest) = cells :: cutSegments rest := by
  induction cells with
  | nil => rfl
  | cons cell cells ih =>
    rw [List.mem_cons, not_or] at inside
    rw [List.cons_append, cutSegments]
    · rw [ih inside.2]
    · exact fun same => inside.1 same.symm

theorem cutLast {cells : List (Cell S)} (inside : .separator ∉ cells) : cutSegments cells = [cells] := by
  induction cells with
  | nil => rfl
  | cons cell cells ih =>
    rw [List.mem_cons, not_or] at inside
    rw [cutSegments]
    · rw [ih inside.2]
    · exact fun same => inside.1 same.symm

theorem noSeparator (tape : Tape S) : Cell.separator ∉ segment tape := by
  intro mem
  rcases memSegment.mp mem with ⟨_, _, same⟩ | same | ⟨_, _, same⟩ <;> cases same

theorem cutAll {tapes : List (Tape S)} (some : tapes ≠ []) :
    cutSegments (segments tapes) = tapes.map segment := by
  induction tapes with
  | nil => exact absurd rfl some
  | cons tape tapes ih =>
    cases tapes with
    | nil => rw [segmentsOne, cutLast (noSeparator tape), List.map_singleton]
    | cons next tapes =>
      rw [segmentsMore, cutBefore (noSeparator tape), ih (by simp), List.map_cons, List.map_cons]
      rfl

/- Nothing is lost in cutting, and there is always at least one segment. -/
theorem joinCut (cells : List (Cell S)) :
    cutSegments cells ≠ [] ∧ [Cell.separator].intercalate (cutSegments cells) = cells := by
  induction cells with
  | nil => exact ⟨by simp [cutSegments], rfl⟩
  | cons cell cells ih =>
    obtain ⟨filled, joined⟩ := ih
    obtain ⟨first, others, split⟩ := List.exists_cons_of_ne_nil filled
    rw [split] at joined
    unfold cutSegments
    split
    · cases ‹_ :: _ = []›
    · rename_i rest same
      cases same
      rw [split, List.intercalate_cons_cons, joined]
      simp
    · rename_i inner rest other same
      cases same
      rw [split]
      cases others with
      | nil => simpa [List.intercalate] using joined
      | cons second others =>
        rw [List.intercalate_cons_cons] at joined ⊢
        simp [← joined]

theorem tapeOfCells (before left : List S) (here : S) (right : List S) :
    tapeOf? before (left.map .plain ++ .marked here :: right.map .plain) =
      some ⟨left.reverse ++ before, here, right, (left.reverse ++ before).length⟩ := by
  induction left generalizing before with
  | nil =>
    have plain : right.mapM (fun symbol => some symbol) = some (right.map id) :=
      mapMSome fun _ _ => rfl
    simp only [List.map_nil, List.nil_append, tapeOf?, List.mapM_map]
    change (right.mapM fun symbol => some symbol).bind _ = _
    rw [plain, List.map_id]
    rfl
  | cons symbol left ih => simp [tapeOf?, ih]

theorem tapeOfSegment (tape : Tape S) : tapeOf? [] (segment tape) = some (grounded tape) := by
  unfold segment
  rw [tapeOfCells]
  simp [grounded]

/- Induction on the cells up to the mark; behind it there are only plain ones. -/
theorem segmentOfTape {before : List S} {cells : List (Cell S)} {tape : Tape S}
    (read : tapeOf? before cells = some tape) :
    tape.Anchored ∧ segment tape = before.reverse.map .plain ++ cells := by
  induction cells generalizing before with
  | nil => cases read
  | cons cell cells ih =>
    cases cell with
    | plain symbol =>
      obtain ⟨anchored, same⟩ := ih read
      exact ⟨anchored, by simpa using same⟩
    | marked symbol =>
      obtain ⟨after, plain, made⟩ := Option.bind_eq_some_iff.mp read
      cases made
      have same : after.map Cell.plain = cells := by
        refine ((@mapMIff _ _ _ Cell.plain (fun _ => True) ?_ cells after).mp plain).2
        intro cell symbol
        cases cell <;> simp [eq_comm]
      exact ⟨rfl, by rw [segment, same]⟩
    | leftEnd => cases read
    | separator => cases read
    | rightEnd => cases read

theorem tapeOfIff {cells : List (Cell S)} {tape : Tape S} :
    tapeOf? [] cells = some tape ↔ tape.Anchored ∧ segment tape = cells := by
  constructor
  · exact segmentOfTape
  · rintro ⟨anchored, rfl⟩
    have same : grounded tape = tape := congrArg (Tape.mk tape.left tape.here tape.right) anchored.symm
    rw [tapeOfSegment, same]

theorem cutTapesIff {cells : List (Cell S)} {tapes : List (Tape S)} :
    (cutSegments cells).mapM (tapeOf? []) = some tapes ↔
      tapes ≠ [] ∧ (∀ tape ∈ tapes, tape.Anchored) ∧ segments tapes = cells := by
  rw [mapMIff tapeOfIff]
  obtain ⟨filled, joined⟩ := joinCut cells
  constructor
  · rintro ⟨anchored, same⟩
    refine ⟨?_, anchored, by rw [segments, same, joined]⟩
    rintro rfl
    exact filled same.symm
  · rintro ⟨some, anchored, rfl⟩
    exact ⟨anchored, (cutAll some).symm⟩

theorem notRightEnd {tapes : List (Tape S)} {cell : Cell S} (mem : cell ∈ segments tapes) :
    cell ≠ .rightEnd := by
  rintro rfl
  rcases memSegments mem with same | ⟨tape, _, within⟩
  · cases same
  · rcases memSegment.mp within with ⟨_, _, same⟩ | same | ⟨_, _, same⟩ <;> cases same

theorem takesInner {inner : List Token} (fresh : Cell.rightSign ∉ inner) (trailing : List Token) :
    (inner ++ Cell.rightSign :: trailing).takeWhile (· ≠ Cell.rightSign) = inner := by
  have inside : ∀ token ∈ inner, decide (token ≠ Cell.rightSign) := by
    intro token mem
    exact decide_eq_true fun same => fresh (same ▸ mem)
  rw [List.takeWhile_append_of_pos inside, List.takeWhile_cons_of_neg (by simp), List.append_nil]

theorem blanksInFront (tokens : List Token) : tokens.takeWhile Symbol.isBlank =
    List.replicate (tokens.takeWhile Symbol.isBlank).length Symbol.blank := by
  apply List.eq_replicate_of_mem
  intro token mem
  have blank : Symbol.isBlank token := List.mem_takeWhile_imp mem
  simpa [Symbol.isBlank] using blank

theorem dropsBlanks (blanks : Nat) (rest : List Token) :
    (List.replicate blanks Symbol.blank ++ Cell.leftSign :: rest).dropWhile Symbol.isBlank =
      Cell.leftSign :: rest := by
  have front : ∀ token ∈ List.replicate blanks (Symbol.blank : Token), Symbol.isBlank token := by
    intro token mem
    rw [List.eq_of_mem_replicate mem]
    exact Symbol.isBlankBlank
  rw [List.dropWhile_append_of_pos front, List.dropWhile_cons_of_neg (by decide)]

/- Blanks in front, then the signs of both ends, of which the right one comes only once. -/
theorem contentsIff {tokens inner : List Token} : contents? tokens = some inner ↔
    Cell.rightSign ∉ inner ∧ ∃ blanks trailing, tokens =
      List.replicate blanks Symbol.blank ++ Cell.leftSign :: (inner ++ Cell.rightSign :: trailing) := by
  constructor
  · intro read
    have whole := List.takeWhile_append_dropWhile (p := Symbol.isBlank) (l := tokens)
    rw [blanksInFront] at whole
    unfold contents? at read
    split at read
    · cases read
    · rename_i first rest behind
      rw [behind] at whole
      split at read
      · rename_i signs
        obtain ⟨rfl, mem⟩ := signs
        obtain ⟨inner, trailing, rfl, fresh⟩ := List.eq_append_cons_of_mem mem
        rw [takesInner fresh] at read
        cases read
        exact ⟨fresh, _, trailing, whole.symm⟩
      · cases read
  · rintro ⟨fresh, blanks, trailing, rfl⟩
    have signs : Cell.leftSign = Cell.leftSign ∧
        Cell.rightSign ∈ inner ++ Cell.rightSign :: trailing := ⟨rfl, by simp⟩
    rw [contents?, dropsBlanks]
    dsimp only
    rw [if_pos signs, takesInner fresh]

variable [Symbol S]

theorem signFresh {tapes : List (Tape S)} (legible : ∀ cell ∈ segments tapes, cell.Legible) :
    Cell.rightSign ∉ (segments tapes).map Cell.token := by
  intro mem
  obtain ⟨cell, inside, same⟩ := List.mem_map.mp mem
  have read := Cell.ofTokenLegible (legible cell inside)
  have sign := Cell.ofTokenLegible (show (Cell.rightEnd : Cell S).Legible from trivial)
  rw [same] at read
  exact notRightEnd inside (Option.some.inj (read.symm.trans sign))

variable [LawfulSymbol S]

theorem decodeIff {tokens : List Token} {count : Nat} {tapes : List (Tape S)} :
    decode? tokens count = some tapes ↔
      (tapes ≠ [] ∧ tapes.length = count ∧ (∀ tape ∈ tapes, tape.Anchored) ∧
        ∀ cell ∈ segments tapes, cell.Legible) ∧
      ∃ blanks trailing,
        tokens = List.replicate blanks Symbol.blank ++ encode tapes ++ trailing := by
  constructor
  · intro read
    obtain ⟨inner, found, read⟩ := Option.bind_eq_some_iff.mp read
    obtain ⟨cells, decoded, read⟩ := Option.bind_eq_some_iff.mp read
    obtain ⟨other, made, read⟩ := Option.bind_eq_some_iff.mp read
    split at read
    · rename_i counted
      cases read
      obtain ⟨-, blanks, trailing, rfl⟩ := contentsIff.mp found
      obtain ⟨legible, rfl⟩ := (mapMIff Cell.ofTokenIff).mp decoded
      obtain ⟨some, anchored, rfl⟩ := cutTapesIff.mp made
      exact ⟨⟨some, counted, anchored, legible⟩, blanks, trailing, by simp [encode]⟩
    · cases read
  · rintro ⟨⟨some, rfl, anchored, legible⟩, blanks, trailing, rfl⟩
    have found : contents? (List.replicate blanks Symbol.blank ++ encode tapes ++ trailing) =
        .some ((segments tapes).map Cell.token) :=
      contentsIff.mpr ⟨signFresh legible, blanks, trailing, by simp [encode]⟩
    have cells : ((segments tapes).map Cell.token).mapM Cell.ofToken? = .some (segments tapes) :=
      (mapMIff Cell.ofTokenIff).mpr ⟨legible, rfl⟩
    have made : (cutSegments (segments tapes)).mapM (tapeOf? []) = .some tapes :=
      cutTapesIff.mpr ⟨some, anchored, rfl⟩
    unfold decode?
    rw [found]
    simp only [Option.bind_eq_bind, Option.bind_some, cells, made, if_true]

theorem decodeEncode {tapes : List (Tape S)} (some : tapes ≠ [])
    (legible : ∀ cell ∈ segments tapes, cell.Legible) (blanks : Nat) (trailing : List Token) :
    decode? (List.replicate blanks Symbol.blank ++ encode tapes ++ trailing) tapes.length =
      .some (tapes.map grounded) := by
  have anchored : ∀ tape ∈ tapes.map grounded, tape.Anchored := by
    intro tape mem
    obtain ⟨other, _, rfl⟩ := List.mem_map.mp mem
    rfl
  refine decodeIff.mpr ⟨⟨by simpa using some, List.length_map .., anchored, ?_⟩, blanks, trailing, ?_⟩
  · rwa [segmentsGrounded]
  · rw [encode, encode, segmentsGrounded]

end Layout
end Multitape
