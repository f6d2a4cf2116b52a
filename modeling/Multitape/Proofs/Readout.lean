import Multitape.Proofs.Output
import Multitape.Proofs.WellFormed

/-! The output that is read from a tape of tokens. From a layout it is the output of the last
tape in it, and it is still the same when nothing but the symbols of that tape are left, with
blanks around them. A tape without a left end is read just when all that is on it between its
blanks are plain symbols, and these are its output. -/
namespace Multitape.Layout
variable {S : Type} [Symbol S] [DecidableEq S] [LawfulSymbol S] {tape : Tape Token}
  {output : List S} {before after count : Nat}

theorem outputLaidOut {tapes : List (Tape S)} (filled : tapes ≠ [])
    (legible : ∀ cell ∈ segments tapes, cell.Legible) {blanks : Nat} {trailing : List Token}
    (cells : tape.cells = List.replicate blanks Symbol.blank ++ encode tapes ++ trailing) :
    output? tape tapes.length = some (tapes.getLast filled).output := by
  have signed : Cell.leftSign ∈ tape.cells := by simp [cells, encode]
  have decoded := decodeEncode filled legible blanks trailing
  rw [← cells] at decoded
  have last : (tapes.map grounded).getLast? = some (grounded (tapes.getLast filled)) := by
    rw [List.getLast?_map, List.getLast?_eq_some_getLast filled]
    rfl
  rw [output?, if_pos signed, decoded]
  simp only [Option.bind_eq_bind, Option.bind_some, last]
  rfl

omit [DecidableEq S] in
/- Token by token, what reads as plain symbols is what they are written as. -/
theorem plainIff {tokens : List Token} :
    tokens.map Cell.ofToken? = output.map (fun symbol => some (.plain symbol)) ↔
      (∀ symbol ∈ output, (Cell.plain symbol).Legible) ∧ output.map Symbol.toToken = tokens := by
  induction tokens generalizing output with
  | nil => cases output <;> simp
  | cons token tokens ih =>
    cases output with
    | nil => simp
    | cons symbol output =>
      simp only [List.map_cons, List.cons.injEq, List.forall_mem_cons, ih, Cell.ofTokenIff]
      exact and_and_and_comm

theorem outputUnsigned (unsigned : Cell.leftSign ∉ tape.cells) : output? tape count = some output ↔
    (∀ symbol ∈ output, (Cell.plain symbol).Legible) ∧ output.map Symbol.toToken = tape.output := by
  rw [output?, if_neg unsigned]
  refine mapMIff fun {token symbol} => ?_
  change _ ↔ (Cell.plain symbol).Legible ∧ (Cell.plain symbol).token = token
  rw [← Cell.ofTokenIff]
  cases read : (Cell.ofToken? token : Option (Cell S)) with
  | none => simp
  | some cell => cases cell <;> simp

theorem outputUnsignedIff (unsigned : Cell.leftSign ∉ tape.cells) :
    output? tape count = some output ↔ ∃ before inner after,
      tape.cells = List.replicate before Symbol.blank ++ inner ++
          List.replicate after Symbol.blank ∧
        inner.head? ≠ some Symbol.blank ∧ inner.getLast? ≠ some Symbol.blank ∧
        inner.map Cell.ofToken? = output.map fun symbol => some (.plain symbol) := by
  rw [outputUnsigned unsigned]
  constructor
  · intro read
    obtain ⟨legible, same⟩ := read
    obtain ⟨before, after, cells, first, last⟩ := outputIff.mp same.symm
    exact ⟨before, _, after, cells, first, last, plainIff.mpr ⟨legible, rfl⟩⟩
  · intro parts
    obtain ⟨before, inner, after, cells, first, last, plain⟩ := parts
    obtain ⟨legible, rfl⟩ := plainIff.mp plain
    exact ⟨legible, (outputIff.mpr ⟨before, after, cells, first, last⟩).symm⟩

section
variable {kept : Tape S} (cells : tape.cells = List.replicate before Symbol.blank ++
  kept.cells.map Symbol.toToken ++ List.replicate after Symbol.blank)
include cells

/- Blanks of the tape itself go along with those around it. -/
theorem outputPadded : tape.output = kept.output.map Symbol.toToken := by
  have same : ∀ symbol : S, Symbol.isBlank (Symbol.toToken symbol) = Symbol.isBlank symbol := by
    intro symbol
    simp [Symbol.isBlank, Symbol.toTokenBlankIff]
  rw [Tape.output, cells, trimAfter, trimBefore, trimMap same, Tape.output]
  · exact blanksIff.mpr ⟨before, rfl⟩
  · exact blanksIff.mpr ⟨after, rfl⟩

omit [DecidableEq S] [LawfulSymbol S] in
theorem unsignedPadded (legible : ∀ symbol ∈ kept.cells, (Cell.plain symbol).Legible) :
    Cell.leftSign ∉ tape.cells := by
  have sign := Cell.ofTokenLegible (show (Cell.leftEnd : Cell S).Legible from trivial)
  have blank : ∀ count, Cell.leftSign ∉ List.replicate count Symbol.blank :=
    fun count mem => absurd (List.eq_of_mem_replicate mem) (by decide)
  rw [cells, List.mem_append, List.mem_append, List.mem_map]
  intro held
  obtain (front | ⟨symbol, mem, same⟩) | back := held
  · exact blank before front
  · have plain := Cell.ofTokenLegible (legible symbol mem)
    rw [show (Cell.plain symbol).token = Cell.leftSign from same] at plain
    cases sign.symm.trans plain
  · exact blank after back

theorem outputUnmarked (legible : ∀ symbol ∈ kept.cells, (Cell.plain symbol).Legible) :
    output? tape count = some kept.output := by
  rw [outputUnsigned (unsignedPadded cells legible)]
  exact ⟨fun symbol mem => legible symbol (memTrim mem), (outputPadded cells).symm⟩

end

theorem readingsAgree :
    (∀ (tapes : List (Tape S)) (filled : tapes ≠ []),
      (∀ tape ∈ tapes, ∀ symbol ∈ tape.cells, ¬ Cell.isReserved symbol ∧ Symbol.Readable symbol) →
      ∀ tape : Tape Token,
        ((∃ blanks trailing,
            tape.cells = List.replicate blanks Symbol.blank ++ encode tapes ++ trailing) ∨
          ∃ before after, tape.cells = List.replicate before Symbol.blank ++
            (tapes.getLast filled).cells.map Symbol.toToken ++ List.replicate after Symbol.blank) →
        output? tape tapes.length = some (tapes.getLast filled).output) ∧
    ∀ (tape : Tape Token) (count : Nat) (output : List S), Cell.leftSign ∉ tape.cells →
      (output? tape count = some output ↔ ∃ before inner after,
        tape.cells = List.replicate before Symbol.blank ++ inner ++
            List.replicate after Symbol.blank ∧
          inner.head? ≠ some Symbol.blank ∧ inner.getLast? ≠ some Symbol.blank ∧
          inner.map Cell.ofToken? = output.map fun symbol => some (.plain symbol)) := by
  refine ⟨fun tapes filled clear tape held => ?_, fun _ _ _ => outputUnsignedIff⟩
  rcases held with ⟨blanks, trailing, cells⟩ | ⟨before, after, cells⟩
  · have legible : ∀ cell ∈ segments tapes, cell.Legible :=
      legibleSegments.mpr fun tape mem => legibleSegment (clear tape mem)
    exact outputLaidOut filled legible cells
  · have last := clear _ (List.getLast_mem filled)
    exact outputUnmarked cells fun symbol mem => (last symbol mem).symm

/- The second tape has a blank at its end, which is marked in the layout. -/
theorem readingsAgreePair :
    output? ⟨[⟨"*a"⟩, ⟨"^"⟩, ⟨"_"⟩], ⟨"/"⟩, [⟨"b"⟩, ⟨"*_"⟩, ⟨"$"⟩, ⟨"*^"⟩], 7⟩ 2 = some ['b'] ∧
      output? ⟨[], ⟨"_"⟩, [⟨"b"⟩, ⟨"_"⟩, ⟨"_"⟩], -2⟩ 2 = some ['b'] ∧
      output? ⟨[⟨"a"⟩], ⟨"_"⟩, [⟨"b"⟩], 0⟩ 2 = some ['a', '_', 'b'] := by
  obtain ⟨agree, reads⟩ := readingsAgree (S := Char)
  have clear : ∀ tape ∈ [Tape.ofInput ['a'], ⟨['b'], '_', [], 1⟩], ∀ symbol ∈ tape.cells,
      ¬ Cell.isReserved symbol ∧ Symbol.Readable symbol := by
    have a : ¬ Cell.isReserved 'a' ∧ Symbol.Readable 'a' := by decide
    have b : ¬ Cell.isReserved 'b' ∧ Symbol.Readable 'b' := by decide
    have blank : ¬ Cell.isReserved '_' ∧ Symbol.Readable '_' := by decide
    simp [Tape.cells, Tape.ofInput, a, b, blank]
  refine ⟨agree _ (by simp) clear _ (.inl ⟨1, [⟨"*^"⟩], rfl⟩),
    agree _ (by simp) clear _ (.inr ⟨1, 1, rfl⟩), ?_⟩
  exact (reads _ 2 _ (by decide)).mpr ⟨0, [⟨"a"⟩, ⟨"_"⟩, ⟨"b"⟩], 0, rfl, by decide, by decide, rfl⟩

end Multitape.Layout
