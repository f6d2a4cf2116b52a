import Mathlib.Data.List.Perm.Subperm
import Multitape.Proofs.Description.Described
import Multitape.Proofs.Description.Fields
import Multitape.Proofs.Description.Records

/-! The text of a machine as records, and the machine that these records describe. It has the
rules in the order of their declaration, and the counts that the text declares are the ones
found. -/
namespace Multitape
open Description
variable {S : Type} [Symbol S]

/-- State numbers fit 32 bits and counts fit 64, as everywhere in a description. -/
structure Machine.Representable (machine : Machine S) : Prop where
  tapes : machine.tapes < Numeral.countBound
  symbols : machine.alphabet.symbols.length < Numeral.countBound
  rules : machine.table.rules.size < Numeral.countBound
  states : ∀ rule ∈ machine.table.rules.toList, rule.Bounded

def ruleRecords (number : Nat) : List (Rule S) → List Record
  | [] => []
  | rule :: rest => ⟨number, rule.fields⟩ :: ruleRecords (number + 1) rest

theorem countedRepr (n : Nat) (fields : List String) : commented (n.repr :: fields) = false := by
  obtain ⟨c, digits, head, digit⟩ := reprHead n
  have other : c ≠ '#' := by
    rintro rfl
    exact absurd digit (by decide)
  simp [commented, opensComment, head, other]

theorem keptRules (rules : List (Rule S)) (number : Nat) :
    kept number (rules.map Rule.fields) = ruleRecords number rules := by
  induction rules generalizing number with
  | nil => rfl
  | cons rule rest ih =>
    have counted : commented rule.fields = false := countedRepr rule.state _
    rw [List.map_cons, kept, counted, ih]
    rfl

theorem lengthRuleRecords (rules : List (Rule S)) (number : Nat) :
    (ruleRecords number rules).length = rules.length := by
  induction rules generalizing number with
  | nil => rfl
  | cons rule rest ih => simp [ruleRecords, ih]

variable {machine : Machine S}

theorem declaredFilled : machine.declared ≠ [] := by
  unfold Machine.declared
  split
  · simp
  · assumption

theorem declaredNodup : machine.declared.Nodup := by
  unfold Machine.declared
  split
  · simp
  · exact machine.alphabet.distinct

theorem memDeclared {symbol : S} (known : symbol ∈ machine.alphabet) :
    symbol = Symbol.blank ∨ symbol ∈ machine.declared := by
  rcases known with rfl | mem
  · exact .inl rfl
  · right
    unfold Machine.declared
    rwa [if_neg (List.ne_nil_of_mem mem)]

section
variable [LawfulSymbol S]
  (readable : ∀ symbol ∈ machine.alphabet.symbols, Symbol.Readable symbol)
include readable

theorem readableDeclared : ∀ symbol ∈ machine.declared, Symbol.Readable symbol := by
  intro symbol mem
  unfold Machine.declared at mem
  split at mem
  · obtain rfl := List.mem_singleton.mp mem
    exact Symbol.readableBlank
  · exact readable symbol mem

theorem readableRule {rule : Rule S} (mem : rule ∈ machine.table.rules.toList) :
    ∀ symbol ∈ rule.read ++ rule.write, Symbol.Readable symbol := by
  intro symbol used
  rcases (machine.fits rule mem).symbols symbol used with rfl | declared
  · exact Symbol.readableBlank
  · exact readable symbol declared

/- A first symbol that starts with the comment sign takes the alphabet out of the records. -/
theorem recordsOfText : records machine.text = .ok (⟨1, machine.counts.map Nat.repr⟩ ::
    kept 2 (machine.declared.map Symbol.text :: machine.table.rules.toList.map Rule.fields)) := by
  have shape : machine.lines = row true (machine.counts.map Nat.repr) ::
      (machine.declared.map Symbol.text :: machine.table.rules.toList.map Rule.fields).map
        (row false) := by
    simp [Machine.lines, row, Rule.text, Function.comp_def]
  rw [Machine.text, shape]
  apply recordsJoined
  · simp [Machine.counts]
  · intro fields mem
    rcases List.mem_cons.mp mem with rfl | mem
    · simpa using declaredFilled
    · obtain ⟨rule, -, rfl⟩ := List.mem_map.mp mem
      simp [Rule.fields]
  · simp [Machine.counts, countedRepr]
  · intro fields mem field inside
    apply plainOfField
    rcases List.mem_cons.mp mem with rfl | mem
    · obtain ⟨count, -, rfl⟩ := List.mem_map.mp inside
      exact Symbol.fieldRepr count
    · rcases List.mem_cons.mp mem with rfl | mem
      · obtain ⟨symbol, declared, rfl⟩ := List.mem_map.mp inside
        exact Symbol.readableIff.mp (readableDeclared readable symbol declared)
      · obtain ⟨rule, here, rfl⟩ := List.mem_map.mp mem
        exact Symbol.fieldRule (fun symbol used =>
          Symbol.readableIff.mp (readableRule readable here symbol used)) field inside

end

/- The states are distinct numbers below the bound, so there are not too many of them. -/
theorem stateCountBelow (bounded : ∀ rule ∈ machine.table.rules.toList, rule.Bounded) :
    machine.stateCount < Numeral.countBound := by
  have below : machine.table.states ⊆ List.range Numeral.stateBound := by
    intro number mem
    obtain ⟨rule, here, among⟩ := List.mem_flatMap.mp (Ascending.memOfList.mp mem)
    exact List.mem_range.mpr (bounded rule here number among)
  have distinct : machine.table.states.Nodup := (Ascending.pairwiseOfList _).imp Nat.ne_of_lt
  have most : machine.table.states.length ≤ Numeral.stateBound := by
    simpa using (List.subperm_of_subset distinct below).length_le
  exact Nat.lt_of_le_of_lt most (by decide)

theorem declaredBelow (fits : machine.Representable) :
    machine.declared.length < Numeral.countBound := by
  unfold Machine.declared
  split
  · exact Nat.one_lt_two_pow (by decide)
  · exact fits.symbols

theorem countsRead (fits : machine.Representable) :
    (machine.counts.map Nat.repr).map (Numeral.read? Numeral.countBound) =
      machine.counts.map some := by
  simp only [Machine.counts, List.map_cons, List.map_nil,
    Numeral.readRepr (stateCountBelow fits.states), Numeral.readRepr fits.tapes,
    Numeral.readRepr (declaredBelow fits), Numeral.readRepr fits.rules]

theorem describedRules {tapes : Nat} {alphabet : Alphabet S} {rules : List (Rule S)}
    (fits : ∀ rule ∈ rules, rule.Fits tapes alphabet) (bounded : ∀ rule ∈ rules, rule.Bounded)
    (readable : ∀ rule ∈ rules, ∀ symbol ∈ rule.read ++ rule.write, Symbol.Readable symbol)
    (number : Nat) : List.Forall₂ (fun record rule => Spells tapes record.fields rule)
      (ruleRecords number rules) rules := by
  induction rules generalizing number with
  | nil => exact .nil
  | cons rule rules ih =>
    obtain ⟨firstFits, fits⟩ := List.forall_mem_cons.mp fits
    obtain ⟨firstBounded, bounded⟩ := List.forall_mem_cons.mp bounded
    obtain ⟨firstReadable, readable⟩ := List.forall_mem_cons.mp readable
    have first := readRuleFields firstFits firstBounded firstReadable number
    exact .cons (readRuleIff.mp first) (ih fits bounded readable (number + 1))

variable [DecidableEq S]

theorem rebuilt [LawfulSymbol S] (fits : machine.Representable)
    (readable : ∀ symbol ∈ machine.alphabet.symbols, Symbol.Readable symbol)
    (uncommented : ¬ commented (machine.declared.map Symbol.text)) :
    ∃ again, Machine.ofText machine.text = .ok again ∧ again.tapes = machine.tapes ∧
      again.alphabet.symbols = machine.declared ∧ again.table.rules = machine.table.rules := by
  have kept : kept 2 (machine.declared.map Symbol.text ::
      machine.table.rules.toList.map Rule.fields) = ⟨2, machine.declared.map Symbol.text⟩ ::
        ruleRecords 3 machine.table.rules.toList := by
    rw [Description.kept, if_neg uncommented, keptRules]
  have describes : Describes ⟨1, machine.counts.map Nat.repr⟩
      ⟨2, machine.declared.map Symbol.text⟩ (ruleRecords 3 machine.table.rules.toList)
      machine.tapes machine.declared machine.table.rules.toList := {
    counts := by
      rw [countsRead fits, Machine.counts, stateCountOf, Array.length_toList]
      rfl
    positive := machine.hasTapes
    letters := by
      rw [List.map_map]
      exact List.map_congr_left (readableDeclared readable)
    distinct := declaredNodup
    spelled := describedRules machine.fits fits.states (fun _ mem => readableRule readable mem) 3
    known rule mem symbol used := memDeclared ((machine.fits rule mem).symbols symbol used)
    keys := machine.table.distinct }
  obtain ⟨again, made, tapes, symbols, rules⟩ := machineOfDescribed describes
  refine ⟨again, ?_, tapes, symbols, Array.toList_inj.mp rules⟩
  unfold Machine.ofText
  rw [recordsOfText readable, kept]
  exact made

end Multitape
