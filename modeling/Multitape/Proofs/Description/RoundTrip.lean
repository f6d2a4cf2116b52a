import Multitape.Proofs.Description.Accepted

/-! A machine and its text. Reading the text gives the machine back, with the blank declared
if nothing was, unless the alphabet line starts like a comment: then the line is lost, the
rules are one record short and the text is refused. What a description describes never has
such an alphabet, so its machine always comes back. -/
namespace Multitape
open Description
variable {S : Type} [Symbol S] [DecidableEq S]

def Machine.ReadsBack (machine : Machine S) (symbols : List S) : Prop :=
  ∃ again, Machine.ofText machine.text = .ok again ∧ again.tapes = machine.tapes ∧
    again.alphabet.symbols = symbols ∧ again.table.rules = machine.table.rules ∧
    again.text = machine.text

omit [Symbol S] in
theorem sameRules {a b : Table S} (rules : a.rules = b.rules) : a.same b := by
  unfold Table.same
  simp only [rules, decide_true, Bool.true_and, Array.all_eq_true_iff_forall_mem,
    decide_eq_true_eq]
  intro rule mem
  exact Table.getIff.mpr ⟨Array.mem_toList_iff.mpr mem, rfl⟩

variable {machine again : Machine S}

theorem sameParts (tapes : again.tapes = machine.tapes)
    (symbols : again.alphabet.symbols = machine.alphabet.symbols)
    (rules : again.table.rules = machine.table.rules) : again == machine :=
  Machine.sameIff.mpr ⟨tapes, symbols, sameRules rules⟩

omit [DecidableEq S] in
theorem declaredOfFilled (filled : machine.alphabet.symbols ≠ []) :
    machine.declared = machine.alphabet.symbols := if_neg filled

omit [DecidableEq S] in
theorem textOfParts (tapes : again.tapes = machine.tapes)
    (symbols : again.alphabet.symbols = machine.declared)
    (rules : again.table.rules = machine.table.rules) : again.text = machine.text := by
  have declared : again.declared = machine.declared := by
    rw [Machine.declared, symbols, if_neg declaredFilled]
  simp only [Machine.text, Machine.lines, Machine.counts, Machine.stateCount, Table.states,
    declared, tapes, rules]

section
variable [LawfulSymbol S]

theorem readsBack (fits : machine.Representable)
    (readable : ∀ symbol ∈ machine.alphabet.symbols, Symbol.Readable symbol)
    (uncommented : ¬ commented (machine.declared.map Symbol.text)) :
    machine.ReadsBack machine.declared := by
  obtain ⟨again, read, tapes, symbols, rules⟩ := rebuilt fits readable uncommented
  exact ⟨again, read, tapes, symbols, rules, textOfParts tapes symbols rules⟩

/- A field holds the comment sign like any other character. -/
example : Symbol.Readable '#' ∧ opensComment (Symbol.text '#') := by decide

/- Whatever the first rule means as an alphabet, there is one rule less than declared. -/
theorem commentRefused (fits : machine.Representable)
    (readable : ∀ symbol ∈ machine.alphabet.symbols, Symbol.Readable symbol)
    (lost : commented (machine.declared.map Symbol.text)) :
    ∃ fault, (Machine.ofText machine.text : Except DescriptionError (Machine S)) =
      .error fault := by
  cases result : (Machine.ofText machine.text : Except DescriptionError (Machine S)) with
  | error fault => exact ⟨fault, rfl⟩
  | ok again =>
    obtain ⟨header, alphabet, others, split, describes⟩ := ofTextDescribed result
    rw [recordsOfText readable, kept, if_pos lost, keptRules] at split
    obtain ⟨rfl, rules⟩ := List.cons.inj (Except.ok.inj split)
    have counts := (countsRead fits).symm.trans describes.counts
    have declared : machine.table.rules.size = again.table.rules.toList.length := by
      simp only [Machine.counts, List.map_cons, List.cons.injEq, Option.some.injEq] at counts
      exact counts.2.2.2.1
    have length := congrArg List.length rules
    rw [lengthRuleRecords, List.length_cons, Array.length_toList,
      describes.spelled.length_eq] at length
    omega

theorem acceptedParts {text : String} (read : Machine.ofText text = .ok machine) :
    machine.Representable ∧
      (∀ symbol ∈ machine.alphabet.symbols, Symbol.Readable symbol) ∧
      machine.alphabet.symbols ≠ [] ∧
      ¬ commented (machine.alphabet.symbols.map Symbol.text) := by
  obtain ⟨header, alphabet, others, split, describes⟩ := ofTextDescribed read
  obtain ⟨filled, bare⟩ := recordsUncommented split alphabet (by simp)
  obtain ⟨texts, readable⟩ := readableLetters describes.letters
  obtain ⟨tapes, symbols, rules⟩ := describesBelow describes
  rw [← texts] at filled bare
  refine ⟨?_, readable, by simpa using filled, bare⟩
  exact { tapes, symbols, rules, states := boundedRules describes.spelled }

/- The two halves meet in `readsBack`: a machine that comes from a text fulfils what it asks
of a machine that has been built. -/
theorem textRoundTrip :
    (∀ machine : Machine S, machine.Representable →
      (∀ symbol ∈ machine.alphabet.symbols, Symbol.Readable symbol) →
        (∀ first rest, machine.alphabet.symbols = first :: rest →
          ¬ opensComment (Symbol.text first) → machine.ReadsBack (first :: rest)) ∧
        (machine.alphabet.symbols = [] → machine.ReadsBack [Symbol.blank]) ∧
        (∀ first rest, machine.alphabet.symbols = first :: rest →
          opensComment (Symbol.text first) →
            ∃ fault, (Machine.ofText machine.text : Except DescriptionError (Machine S)) =
              .error fault)) ∧
    ∀ text (machine : Machine S), Machine.ofText text = .ok machine →
      ∃ again, Machine.ofText machine.text = .ok again ∧ again == machine := by
  constructor
  · intro machine fits readable
    refine ⟨?_, ?_, ?_⟩
    · intro first rest shape bare
      have declared : machine.declared = first :: rest := by
        rw [declaredOfFilled (by simp [shape]), shape]
      rw [← declared]
      apply readsBack fits readable
      rw [declared]
      exact bare
    · intro empty
      have declared : machine.declared = [Symbol.blank] := if_pos empty
      rw [← declared]
      apply readsBack fits readable
      rw [declared, List.map_singleton, LawfulSymbol.textBlank]
      decide
    · intro first rest shape sign
      apply commentRefused fits readable
      rw [declaredOfFilled (by simp [shape]), shape]
      exact sign
  · intro text machine read
    obtain ⟨fits, readable, filled, bare⟩ := acceptedParts read
    have declared := declaredOfFilled filled
    obtain ⟨again, reread, tapes, symbols, rules, -⟩ :=
      readsBack fits readable (by rwa [declared])
    exact ⟨again, reread, sameParts tapes (symbols.trans declared) rules⟩

end

theorem copierTextRoundTrip : copier.ReadsBack ['a'] ∧
    ∃ text, ∃ machine : Machine Char, Machine.ofText text = .ok machine ∧
      ∃ again, Machine.ofText machine.text = .ok again ∧ again == machine := by
  have fits : copier.Representable := {
    tapes := by decide
    symbols := by decide
    rules := by decide
    states := by
      intro rule mem
      obtain rfl : rule = _ := by simpa [copier, Table.push, Table.empty] using mem
      simp [Rule.Bounded, Rule.states, State.number?, Numeral.stateBound] }
  have readable : ∀ symbol ∈ copier.alphabet.symbols, Symbol.Readable symbol := by
    intro symbol mem
    obtain rfl := List.mem_singleton.mp mem
    decide
  have back := (textRoundTrip.1 copier fits readable).1 'a' [] rfl (by decide)
  refine ⟨back, ?_⟩
  obtain ⟨again, read, -⟩ := back
  exact ⟨copier.text, again, read, textRoundTrip.2 copier.text again read⟩

end Multitape
