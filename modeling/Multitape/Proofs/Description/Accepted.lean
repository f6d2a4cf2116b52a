import Multitape.Proofs.Description.Rebuilt

/-! What an accepted description says about its machine. Its numbers are below their bounds,
since each of them has been read from a field. Its declared symbols are read back from their
texts, and the first of them does not start a comment, since it stands in a record. -/
namespace Multitape
namespace Description

theorem rowsUncommented {isHeader : Bool} {before : List Char}
    {lines : List (List Char × Break)} {found : List Record}
    (rows : Rows isHeader before lines found) :
    ∀ record ∈ found, record.fields ≠ [] ∧ ¬ commented record.fields := by
  induction rows with
  | done => simp
  | idle _ _ ih => exact ih
  | row row _ ih =>
    cases row with
    | fields blank plain counted =>
      refine List.forall_mem_cons.mpr ⟨⟨List.cons_ne_nil _ _, ?_⟩, ih⟩
      simpa [commented, opensComment] using counted

theorem recordsUncommented {text : String} {found : List Record} (read : records text = .ok found) :
    ∀ record ∈ found, record.fields ≠ [] ∧ ¬ commented record.fields := by
  obtain ⟨_, _, _, rows⟩ := formatRead.mp read
  exact rowsUncommented rows

variable {S : Type} [Symbol S]

theorem describesBelow {header alphabet : Record} {others : List Record} {tapes : Nat}
    {symbols : List S} {rules : List (Rule S)}
    (describes : Describes header alphabet others tapes symbols rules) :
    tapes < Numeral.countBound ∧ symbols.length < Numeral.countBound ∧
      rules.length < Numeral.countBound := by
  have below : ∀ count, some count ∈ header.fields.map (Numeral.read? Numeral.countBound) →
      count < Numeral.countBound := by
    intro count mem
    obtain ⟨field, -, read⟩ := List.mem_map.mp mem
    exact Numeral.readBelow read
  rw [describes.counts] at below
  exact ⟨below _ (by simp), below _ (by simp), below _ (by simp)⟩

theorem spellsBounded {tapes : Nat} {fields : List String} {rule : Rule S}
    (spells : Spells tapes fields rule) : rule.Bounded := by
  have bounded : ∀ {field : Option String} {state : State},
      field.bind State.ofField? = some state → state.Bounded := by
    intro field state read
    obtain ⟨text, -, found⟩ := Option.bind_eq_some_iff.mp read
    exact State.boundedOfField found
  intro number mem
  rcases List.mem_cons.mp mem with rfl | mem
  · exact bounded spells.source _ (by simp [State.number?])
  · exact bounded spells.next number mem

theorem boundedRules {tapes : Nat} {records : List Record} {rules : List (Rule S)}
    (spelled : List.Forall₂ (fun record rule => Spells tapes record.fields rule) records rules) :
    ∀ rule ∈ rules, rule.Bounded := by
  induction spelled with
  | nil => simp
  | cons first _ ih => exact List.forall_mem_cons.mpr ⟨spellsBounded first, ih⟩

theorem readableLetters [LawfulSymbol S] {fields : List String} {symbols : List S}
    (letters : fields.map Symbol.ofField? = symbols.map some) :
    symbols.map Symbol.text = fields ∧ ∀ symbol ∈ symbols, Symbol.Readable symbol := by
  induction symbols generalizing fields with
  | nil => simpa using letters.symm
  | cons symbol symbols ih =>
    obtain ⟨field, fields, rfl, head, tail⟩ := List.map_eq_cons_iff.mp letters
    obtain ⟨text, first⟩ := Symbol.ofFieldReadable head
    obtain ⟨texts, readable⟩ := ih tail
    exact ⟨by rw [List.map_cons, text, texts], List.forall_mem_cons.mpr ⟨first, readable⟩⟩

theorem ofTextDescribed [DecidableEq S] {text : String} {machine : Machine S}
    (read : Machine.ofText text = .ok machine) : ∃ header alphabet others,
      records text = .ok (header :: alphabet :: others) ∧
      Describes header alphabet others machine.tapes machine.alphabet.symbols
        machine.table.rules.toList := by
  obtain ⟨found, split, made⟩ := bindOkIff.mp read
  obtain ⟨header, alphabet, others, rfl, describes⟩ := describedOfMachine made
  exact ⟨header, alphabet, others, mapErrorOkIff.mp split, describes⟩

end Description
end Multitape
