import Multitape.Proofs.Description.Described
import Multitape.Proofs.Tables

/-! Rules in any order. A description does not depend on the order of its rules, nor on the
lines that its records stand on: with the rules in another order the same machine is described,
and what is refused in one order is refused in every other. The first fault found may then be
another one. -/
namespace Multitape

namespace Description
variable {S : Type} [Symbol S] {header alphabet : Record} {others : List Record} {tapes : Nat}
  {symbols : List S} {rules : List (Rule S)}

omit [Symbol S] in
theorem statesOfOrdered {ordered : List (Rule S)} (order : ordered.Perm rules) :
    statesOf ordered = statesOf rules := by
  unfold statesOf
  rw [List.toFinset_eq_of_perm _ _ (order.flatMap_right Rule.states)]

/- Each record takes the rule that it spells along. -/
theorem describesOrdered {header' alphabet' : Record} {others' : List Record}
    (counts : header'.fields = header.fields) (letters : alphabet'.fields = alphabet.fields)
    (order : (others'.map Record.fields).Perm (others.map Record.fields))
    (describes : Describes header alphabet others tapes symbols rules) :
    ∃ ordered : List (Rule S), ordered.Perm rules ∧
      Describes header' alphabet' others' tapes symbols ordered := by
  obtain ⟨ordered, spelled, behind⟩ :=
    List.perm_comp_forall₂ order (spelledFieldsIff.mpr describes.spelled)
  refine ⟨ordered, behind, ?_⟩
  exact {
    counts := by rw [counts, describes.counts, statesOfOrdered behind, behind.length_eq]
    positive := describes.positive
    letters := by rw [letters, describes.letters]
    distinct := describes.distinct
    spelled := spelledFieldsIff.mp spelled
    known := fun rule mem => describes.known rule (behind.mem_iff.mp mem)
    keys := (behind.map Rule.key).nodup_iff.mpr describes.keys }

variable [DecidableEq S]

theorem machineOfOrdered {header' alphabet' : Record} {others' : List Record} {machine : Machine S}
    (counts : header'.fields = header.fields) (letters : alphabet'.fields = alphabet.fields)
    (order : (others'.map Record.fields).Perm (others.map Record.fields))
    (made : machineOf (header :: alphabet :: others) = .ok machine) :
    ∃ again, machineOf (header' :: alphabet' :: others') = .ok again ∧
      again.tapes = machine.tapes ∧ again.alphabet.symbols = machine.alphabet.symbols ∧
      again.table.rules.toList.Perm machine.table.rules.toList := by
  obtain ⟨_, _, _, same, describes⟩ := describedOfMachine made
  cases same
  obtain ⟨ordered, behind, describes'⟩ := describesOrdered counts letters order describes
  obtain ⟨again, made', tapes, symbols, rules⟩ := machineOfDescribed describes'
  exact ⟨again, made', tapes, symbols, by rwa [rules]⟩

end Description

open Description

variable {S : Type} [Symbol S] [DecidableEq S]

theorem ruleOrderUnseen {text other : String} {header header' alphabet alphabet' : Record}
    {rules rules' : List Record} (split : records text = .ok (header :: alphabet :: rules))
    (split' : records other = .ok (header' :: alphabet' :: rules'))
    (counts : header'.fields = header.fields) (letters : alphabet'.fields = alphabet.fields)
    (order : (rules'.map Record.fields).Perm (rules.map Record.fields)) :
    ((∃ machine : Machine S, Machine.ofText text = .ok machine) ↔
      ∃ machine : Machine S, Machine.ofText other = .ok machine) ∧
    ∀ one again : Machine S, Machine.ofText text = .ok one → Machine.ofText other = .ok again →
      again == one ∧ again.stateCount = one.stateCount ∧
        ∀ config input, again.run config input = one.run config input := by
  rw [ofTextRead split, ofTextRead split']
  constructor
  · constructor
    · intro ⟨machine, made⟩
      obtain ⟨again, made', -⟩ := machineOfOrdered counts letters order made
      exact ⟨again, made'⟩
    · intro ⟨machine, made⟩
      obtain ⟨again, made', -⟩ := machineOfOrdered counts.symm letters.symm order.symm made
      exact ⟨again, made'⟩
  · intro one again made made'
    obtain ⟨_, remade, tapes, symbols, behind⟩ := machineOfOrdered counts letters order made
    obtain rfl := Except.ok.inj (made'.symm.trans remade)
    refine ⟨Machine.sameIff.mpr ⟨tapes, symbols, Table.samePermIff.mpr behind⟩, ?_, ?_⟩
    · rw [stateCountOf, stateCountOf, statesOfOrdered behind]
    · refine runOfLooks (Table.getPermIff.mpr behind) tapes fun symbol => ?_
      rw [Alphabet.memIff, Alphabet.memIff, symbols]

/- The rules the other way round, and on other lines. -/
theorem ruleOrderUnseenTurned : ∃ one again : Machine Char,
    Machine.ofText "1 1 1 2\na\n0,a,h,a,N\n0,_,y,_,N\n" = .ok one ∧
      Machine.ofText "1,1,1,2\na\n\n0,_,y,_,N\n0,a,h,a,N\n" = .ok again ∧ again == one ∧
      again.stateCount = 1 ∧ ∀ config input, again.run config input = one.run config input := by
  let first : Rule Char := ⟨0, ['a'], .halt, ['a'], [.stay]⟩
  let second : Rule Char := ⟨0, ['_'], .accept, ['_'], [.stay]⟩
  have split : records "1 1 1 2\na\n0,a,h,a,N\n0,_,y,_,N\n" =
      .ok [⟨1, ["1", "1", "1", "2"]⟩, ⟨2, ["a"]⟩, ⟨3, ["0", "a", "h", "a", "N"]⟩,
        ⟨4, ["0", "_", "y", "_", "N"]⟩] := by decide
  have split' : records "1,1,1,2\na\n\n0,_,y,_,N\n0,a,h,a,N\n" =
      .ok [⟨1, ["1", "1", "1", "2"]⟩, ⟨2, ["a"]⟩, ⟨4, ["0", "_", "y", "_", "N"]⟩,
        ⟨5, ["0", "a", "h", "a", "N"]⟩] := by decide
  have describes : Describes ⟨1, ["1", "1", "1", "2"]⟩ ⟨2, ["a"]⟩
      [⟨3, ["0", "a", "h", "a", "N"]⟩, ⟨4, ["0", "_", "y", "_", "N"]⟩] 1 ['a'] [first, second] := {
    counts := by decide
    positive := by decide
    letters := by decide
    distinct := List.nodup_singleton _
    spelled := .cons (readRuleIff.mp ⟨rfl, rfl⟩) (.cons (readRuleIff.mp ⟨rfl, rfl⟩) .nil)
    known := by simp [first, second, Symbol.blank]
    keys := by decide }
  obtain ⟨one, made, -, -, rules⟩ := machineOfDescribed describes
  have read := (ofTextRead split).trans made
  have alike := ruleOrderUnseen (S := Char) split split' rfl rfl (.swap ..)
  obtain ⟨again, reread⟩ := alike.1.mp ⟨one, read⟩
  obtain ⟨same, states, runs⟩ := alike.2 one again read reread
  refine ⟨one, again, read, reread, same, ?_, runs⟩
  rw [states, stateCountOf, rules]
  decide

end Multitape
