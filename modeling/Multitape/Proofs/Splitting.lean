import Multitape.Proofs.Configuration
import Multitape.Proofs.Description.RoundTrip
import Multitape.Proofs.Output

/-! The text of a tape, joined from symbols and split into symbols. For characters each undoes
the other. Splitting into tokens drops empty pieces and the blanks around a piece, so it undoes
joining for just the lists without tokens to which that would happen. Such are all lists that
come from a text, and the output of every machine that has a description: its text, split, is
the output again. -/
namespace Multitape
open Symbol Description

namespace Text
variable {mark : Char} {text : List Char}

theorem piecesSplit (mark : Char) (text : List Char) : pieces mark text = text.splitOn mark := by
  induction text with
  | nil => rfl
  | cons c rest ih =>
    obtain ⟨piece, others, split⟩ := List.exists_cons_of_ne_nil (List.splitOn_ne_nil mark rest)
    rw [List.splitOn_cons_eq_if_modifyHead, pieces, ih, split]
    simp [List.modifyHead]

theorem unmarkedPieces : ∀ piece ∈ pieces mark text, mark ∉ piece := by
  induction text with
  | nil => simp [pieces]
  | cons c rest ih =>
    unfold pieces
    split
    · exact List.forall_mem_cons.mpr ⟨List.not_mem_nil, ih⟩
    · rename_i other
      split
      · simpa using Ne.symm other
      · rename_i first others split
        obtain ⟨unmarked, later⟩ := List.forall_mem_cons.mp (split ▸ ih)
        refine List.forall_mem_cons.mpr ⟨?_, later⟩
        simpa using ⟨Ne.symm other, unmarked⟩

end Text

/-- Put between marks, the token is found again: it is not empty, no mark is in it, and neither
its first nor its last character is a blank. -/
structure Token.Separable (token : Token) : Prop where
  filled : token.text.toList ≠ []
  unmarked : Symbol.mark ∉ token.text.toList
  first : ∀ c ∈ token.text.toList.head?, ¬ Text.isBlank c
  last : ∀ c ∈ token.text.toList.getLast?, ¬ Text.isBlank c

namespace Symbol

theorem separableTokens {text : String} : ∀ token ∈ tokens text, token.Separable := by
  intro token mem
  obtain ⟨piece, kept, rfl⟩ := List.mem_map.mp mem
  obtain ⟨trims, filled⟩ := List.mem_filter.mp kept
  obtain ⟨raw, cut, rfl⟩ := List.mem_map.mp trims
  obtain ⟨-, -, -, -, -, first, last⟩ :=
    trimIff.mp (show trim Text.isBlank raw = Text.trimmed raw from rfl)
  constructor
  · simpa using filled
  · rw [String.toList_ofList]
    exact fun marked => Text.unmarkedPieces raw cut (memTrim marked)
  · rwa [String.toList_ofList]
  · rwa [String.toList_ofList]

/- Between marks a separable token is neither trimmed nor dropped. -/
theorem tokensPieces {symbols : List Token} (separable : ∀ token ∈ symbols, token.Separable) :
    ((symbols.map (·.text.toList)).map Text.trimmed).filter (· ≠ []) =
      symbols.map (·.text.toList) := by
  have trimmed : (symbols.map (·.text.toList)).map Text.trimmed = symbols.map (·.text.toList) := by
    rw [List.map_map]
    exact List.map_congr_left fun token mem =>
      trimSelf (separable token mem).first (separable token mem).last
  rw [trimmed, List.filter_eq_self]
  intro piece mem
  obtain ⟨token, inside, rfl⟩ := List.mem_map.mp mem
  exact decide_eq_true (separable token inside).filled

theorem tokensJoin {symbols : List Token} (separable : ∀ token ∈ symbols, token.Separable) :
    tokens (join symbols) = symbols := by
  have text : (join symbols).toList = [mark].intercalate (symbols.map (·.text.toList)) := by
    simp [join, String.toList_intercalate, mark, Function.comp_def]
  have cut : ((Text.pieces mark (join symbols).toList).map Text.trimmed).filter (· ≠ []) =
      symbols.map (·.text.toList) := by
    rw [text, Text.piecesSplit]
    cases symbols with
    | nil => rfl
    | cons token rest =>
      rw [List.splitOn_intercalate mark ?_ (by simp), tokensPieces separable]
      intro piece mem
      obtain ⟨token, inside, rfl⟩ := List.mem_map.mp mem
      exact (separable token inside).unmarked
  rw [tokens, cut, List.map_map]
  simp [Function.comp_def]

theorem tokensJoinIff {symbols : List Token} :
    tokens (join symbols) = symbols ↔ ∀ token ∈ symbols, token.Separable := by
  constructor
  · intro same token mem
    rw [← same] at mem
    exact separableTokens token mem
  · exact tokensJoin

theorem separableReadable {token : Token} (readable : Readable token) : token.Separable := by
  have field : isField token.text := readableIff.mp readable
  simp only [isField, Bool.and_eq_true, decide_eq_true_eq, List.all_eq_true, isFieldChar,
    Bool.not_eq_true'] at field
  obtain ⟨filled, each⟩ := field
  refine ⟨filled, fun marked => (each _ marked).2 rfl, fun c first => ?_, fun c last => ?_⟩
  · simp [(each c (List.mem_of_mem_head? first)).1.1]
  · simp [(each c (List.mem_of_mem_getLast? last)).1.1]

end Symbol

section
variable {S : Type} [Symbol S] [DecidableEq S] {machine : Machine S} {config : Config}
  {input : List S} {outcome : Outcome S}

theorem outputKnown (ran : machine.run config input = .ok outcome) :
    ∀ symbol ∈ outcome.output, symbol ∈ machine.alphabet := by
  have known := knownOfRun ran
  obtain ⟨n, last, ends, rfl⟩ := (runIff known).mp ran
  have sound := soundAfter (soundStart known) ends.1
  intro symbol mem
  simp only [Configuration.outcome, Outcome.output] at mem
  cases final : last.tapes.getLast? with
  | none => simp [final] at mem
  | some tape =>
    rw [final] at mem
    exact sound.lettered tape (List.mem_of_getLast? final) symbol (memTrim mem)

theorem outputReadable [LawfulSymbol S] {text : String} (read : Machine.ofText text = .ok machine)
    (ran : machine.run config input = .ok outcome) :
    ∀ symbol ∈ outcome.output, Readable symbol := by
  intro symbol mem
  rcases Alphabet.memIff.mp (outputKnown ran symbol mem) with rfl | declared
  · exact readableBlank
  · exact (acceptedParts read).2.1 symbol declared

end

theorem splittingUndoesJoining :
    ((∀ symbols : List Token, split (join symbols) = symbols ↔
          ∀ token ∈ symbols, token.Separable) ∧
      (∀ text, (∀ token ∈ (split text : List Token), token.Separable) ∧
        split (join (split text : List Token)) = (split text : List Token)) ∧
      (∀ field token, (ofField? field : Option Token) = some token → token.Separable) ∧
      ∀ text (machine : Machine Token), Machine.ofText text = .ok machine →
        ∀ config input outcome, machine.run config input = .ok outcome →
          split outcome.outputText = outcome.output) ∧
    (∀ symbols : List Char, split (join symbols) = symbols) ∧
    (∀ text, join (split text : List Char) = text) ∧
    ∀ (machine : Machine Char) config input outcome, machine.run config input = .ok outcome →
      split outcome.outputText = outcome.output := by
  have apart : ∀ text, (∀ token ∈ (split text : List Token), token.Separable) :=
    fun text => separableTokens
  have chars : ∀ symbols : List Char, split (join symbols) = symbols := by
    intro symbols
    exact String.toList_ofList
  refine ⟨⟨fun symbols => tokensJoinIff, fun text => ⟨apart text, tokensJoin (apart text)⟩, ?_, ?_⟩,
    chars, fun text => String.ofList_toList, fun machine config input outcome _ => chars _⟩
  · intro field token read
    exact separableReadable (ofFieldReadable read).2
  · intro text machine read config input outcome ran
    exact tokensJoin fun token mem => separableReadable (outputReadable read ran token mem)

/- A token of two characters, in a list and around a blank on a tape. -/
theorem splittingUndoesJoiningPair :
    split (join [(⟨"ab"⟩ : Token), ⟨"c"⟩]) = [(⟨"ab"⟩ : Token), ⟨"c"⟩] ∧
    ∃ (machine : Machine Token) (outcome : Outcome Token),
      Machine.ofText "1 1 1 1\nab\n0,ab,h,ab,N" = .ok machine ∧
      machine.run ⟨5, .biInfinite⟩ [⟨"ab"⟩, ⟨"_"⟩, ⟨"ab"⟩] = .ok outcome ∧
      outcome.outputText = "ab|_|ab" ∧ split outcome.outputText = outcome.output := by
  obtain ⟨⟨joined, -, -, runs⟩, -⟩ := splittingUndoesJoining
  let rule : Rule Token := ⟨0, [⟨"ab"⟩], .halt, [⟨"ab"⟩], [.stay]⟩
  have spells : Spells 1 ["0", "ab", "h", "ab", "N"] rule :=
    ⟨rfl, by decide, rfl, by decide, by decide, rfl, by decide, rfl, by decide⟩
  have describes : Describes ⟨1, ["1", "1", "1", "1"]⟩ ⟨2, ["ab"]⟩
      [⟨3, ["0", "ab", "h", "ab", "N"]⟩] 1 [(⟨"ab"⟩ : Token)] [rule] := {
    counts := by decide
    positive := by decide
    letters := by decide
    distinct := by decide
    spelled := .cons spells .nil
    known := by simp [rule]
    keys := by decide }
  obtain ⟨machine, made, tapes, symbols, rules⟩ := machineOfDescribed describes
  have records : records "1 1 1 1\nab\n0,ab,h,ab,N" = .ok [⟨1, ["1", "1", "1", "1"]⟩, ⟨2, ["ab"]⟩,
    ⟨3, ["0", "ab", "h", "ab", "N"]⟩] := rfl
  have read : Machine.ofText "1 1 1 1\nab\n0,ab,h,ab,N" = .ok machine :=
    bindOkIff.mpr ⟨_, mapErrorOkIff.mpr records, made⟩
  let input : List Token := [⟨"ab"⟩, ⟨"_"⟩, ⟨"ab"⟩]
  have known : ∀ symbol ∈ input, symbol ∈ machine.alphabet := by
    simp [input, Alphabet.memIff, symbols, Symbol.blank]
  have halting : rule ∈ machine.table.rules.toList := by simp [rules]
  have halts : machine.Ends .biInfinite (.start machine.tapes input) 5 1
      ⟨.halt, [.ofInput input]⟩ := by
    rw [tapes]
    exact ⟨(afterSucc rfl).trans (stepOfRule halting rfl rfl), by decide, .inr rfl⟩
  have ran := runOfEnds (refuseNoneIff.mpr known) halts
  refine ⟨(joined _).mpr ?_, machine, _, read, ran, by decide, runs _ machine read _ _ _ ran⟩
  intro token mem
  simp only [List.mem_cons, List.not_mem_nil, or_false] at mem
  rcases mem with rfl | rfl <;> exact separableReadable (by decide)

end Multitape
