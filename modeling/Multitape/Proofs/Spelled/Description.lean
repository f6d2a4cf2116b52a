import Multitape.Proofs.Description.Described
import Multitape.Proofs.Spelled.Run

/-! One description read twice. What is read as a machine over one symbol type is read over
tokens too, and gives that machine with its symbols written as tokens. -/
namespace Multitape
open Symbol (toToken)
variable {S : Type} [Symbol S] [LawfulSymbol S]

theorem spelledField {field : String} {symbol : S} (read : Symbol.ofField? field = some symbol) :
    (Symbol.ofField? field : Option Token) = some (toToken symbol) := by
  obtain ⟨rfl, readable⟩ := Symbol.ofFieldReadable read
  unfold Symbol.ofField?
  rw [if_pos (Symbol.readableIff.mp readable)]
  rfl

namespace Description

/- A field that is read as a symbol of the rule is read as its token. -/
theorem spelledPlace {field : Option String} {symbols : List S} {place : Nat}
    (less : place < symbols.length) (read : field.bind Symbol.ofField? = symbols[place]?) :
    (field.bind Symbol.ofField? : Option Token) = (symbols.map toToken)[place]? := by
  rw [List.getElem?_eq_getElem less] at read
  obtain ⟨text, rfl, read⟩ := Option.bind_eq_some_iff.mp read
  rw [List.getElem?_map, List.getElem?_eq_getElem less]
  exact spelledField read

theorem spelledFields {fields : List String} {symbols : List S}
    (letters : fields.map Symbol.ofField? = symbols.map some) :
    (fields.map Symbol.ofField? : List (Option Token)) = (symbols.map toToken).map some := by
  obtain ⟨size, read⟩ := mapSomeIff.mp letters
  refine mapSomeIff.mpr ⟨(List.length_map ..).trans size, fun place less => ?_⟩
  exact spelledPlace (size ▸ less) (read place less)

theorem spelledSpells {tapes : Nat} {fields : List String} {rule : Rule S}
    (spells : Spells tapes fields rule) : Spells tapes fields rule.spelled where
  width := spells.width
  source := spells.source
  reads := (List.length_map ..).trans spells.reads
  read tape less := spelledPlace (spells.reads ▸ less) (spells.read tape less)
  next := spells.next
  writes := (List.length_map ..).trans spells.writes
  write tape less := spelledPlace (spells.writes ▸ less) (spells.write tape less)
  turns := spells.turns
  moves := spells.moves

theorem spelledDescribes {header alphabet : Record} {others : List Record} {tapes : Nat}
    {symbols : List S} {rules : List (Rule S)}
    (describes : Describes header alphabet others tapes symbols rules) :
    Describes header alphabet others tapes (symbols.map toToken) (rules.map Rule.spelled) where
  counts := by
    rw [describes.counts, List.length_map, List.length_map, statesOf, statesOf, List.flatMap_map]
    rfl
  positive := describes.positive
  letters := spelledFields describes.letters
  distinct := describes.distinct.map fun _ _ => Symbol.toTokenInjective
  spelled := List.forall₂_map_right_iff.mpr (describes.spelled.imp fun _ _ => spelledSpells)
  known := by
    intro other mapped token used
    obtain ⟨rule, mem, rfl⟩ := List.mem_map.mp mapped
    have written : token ∈ (rule.read ++ rule.write).map toToken := by
      rw [List.map_append]
      exact used
    obtain ⟨symbol, inside, rfl⟩ := List.mem_map.mp written
    exact (describes.known rule mem symbol inside).imp Symbol.toTokenBlankIff.mpr
      (List.mem_map_of_mem ·)
  keys := by
    have keyed : (rules.map Rule.spelled).map Rule.key =
        (rules.map Rule.key).map (Prod.map id (List.map toToken)) := by
      rw [List.map_map, List.map_map]
      rfl
    rw [keyed]
    exact describes.keys.map (Function.Injective.prodMap Function.injective_id spelledListInjective)

variable [DecidableEq S]

theorem spelledOfText {text : String} {machine : Machine S} (read : Machine.ofText text = .ok machine) :
    ∃ spelled, Machine.ofText text = .ok spelled ∧ machine.SpelledBy spelled := by
  obtain ⟨found, split, made⟩ := bindOkIff.mp read
  obtain ⟨header, alphabet, others, rfl, describes⟩ := describedOfMachine made
  obtain ⟨spelled, made, tapes, symbols, rules⟩ := machineOfDescribed (spelledDescribes describes)
  exact ⟨spelled, bindOkIff.mpr ⟨_, split, made⟩, tapes, symbols, rules⟩

end Description
end Multitape
