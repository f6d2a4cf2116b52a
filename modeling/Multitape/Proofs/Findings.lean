import Mathlib.Data.List.Sort
import Multitape.Proofs.Reachable

/-! What is reported of a machine. The states in a finding are listed in ascending order, each
once, and they are all the ones that the finding is about: those with rules that no path of
rules enters, or those that a rule enters and that have none. Of a machine in which every state
is on such a path and has rules of its own there is nothing to report, but for a missing end. -/
namespace Multitape
variable {S : Type} {listed : List Nat}

theorem Ascending.filterIff {numbers : List Nat} {keep : Nat → Prop} [DecidablePred keep] :
    (ofList numbers).filter keep = listed ↔
      listed.Pairwise (· < ·) ∧ ∀ number, number ∈ listed ↔ number ∈ numbers ∧ keep number := by
  have sorted : ((ofList numbers).filter keep).Pairwise (· < ·) := (pairwiseOfList numbers).filter _
  have members : ∀ number, number ∈ (ofList numbers).filter keep ↔ number ∈ numbers ∧ keep number := by
    intro number
    rw [List.mem_filter, memOfList, decide_eq_true_iff]
  constructor
  · intro same
    rw [← same]
    exact ⟨sorted, members⟩
  · intro listing
    obtain ⟨ascending, all⟩ := listing
    exact sorted.eq_of_mem_iff ascending fun number => (members number).trans (all number).symm

namespace Table
variable {table : Table S}

theorem unreachableIff : table.sources.filter (· ∉ table.reachable) = listed ↔
    listed.Pairwise (· < ·) ∧ ∀ number, number ∈ listed ↔
      (∃ rule ∈ table.rules.toList, rule.state = number) ∧ ¬ table.Reached number := by
  unfold sources
  simp only [Ascending.filterIff, List.mem_map, memReachable]

theorem missingIff : table.entered.filter (· ∉ table.sources) = listed ↔
    listed.Pairwise (· < ·) ∧ ∀ number, number ∈ listed ↔
      (∃ rule ∈ table.rules.toList, rule.next = .ordinary number) ∧
        ∀ rule ∈ table.rules.toList, rule.state ≠ number := by
  have source : ∀ number, number ∉ table.sources ↔
      ∀ rule ∈ table.rules.toList, rule.state ≠ number := by
    intro number
    rw [sources, Ascending.memOfList, List.mem_map, not_exists]
    simp only [not_and, ne_eq]
  unfold entered
  simp only [Ascending.filterIff, List.mem_filterMap, State.numberIff, source]

structure Live (table : Table S) (size : Nat) : Prop where
  states : table.states = List.range size
  entered : ∀ number, 0 < number → number < size →
    ∃ rule ∈ table.rules.toList, rule.state < number ∧ rule.next = .ordinary number
  leaves : ∀ number < size, ∃ rule ∈ table.rules.toList, rule.state = number

theorem liveReached {size number : Nat} (live : table.Live size) (less : number < size) :
    table.Reached number := by
  induction number using Nat.strongRecOn with
  | _ number ih =>
    rcases Nat.eq_zero_or_pos number with rfl | positive
    · exact .start
    · obtain ⟨rule, mem, before, enters⟩ := live.entered number positive less
      exact .next (ih rule.state before (by omega)) mem enters

end Table

variable [Symbol S] {machine : Machine S} {size : Nat}

theorem aboutIff {make : List Nat → Finding} {states : List Nat} {finding : Finding} :
    some finding = Machine.about make states ↔
      ∃ listed, finding = make listed ∧ listed ≠ [] ∧ states = listed := by
  cases states <;> simp [Machine.about]

/- What is reported, by the four checks in their order. -/
theorem memFindings {finding : Finding} : finding ∈ machine.findings ↔
    (finding = .startWithoutRules ∧ machine.table.leaving 0 = []) ∨
    (∃ listed, finding = .unreachableStates listed ∧ listed ≠ [] ∧
      machine.table.sources.filter (· ∉ machine.table.reachable) = listed) ∨
    (∃ listed, finding = .missingRules listed ∧ listed ≠ [] ∧
      machine.table.entered.filter (· ∉ machine.table.sources) = listed) ∨
    (finding = .noTerminalState ∧ machine.table.rules.toList ≠ [] ∧
      ∀ rule ∈ machine.table.rules.toList, ¬ rule.next.isTerminal) := by
  have start : some finding = machine.checkStart ↔
      finding = .startWithoutRules ∧ machine.table.leaving 0 = [] := by
    rw [Machine.checkStart, Option.some_eq_ite_none_right, Option.some.injEq, and_comm]
  have terminal : some finding = machine.checkTerminal ↔
      finding = .noTerminalState ∧ machine.table.rules.toList ≠ [] ∧
        ∀ rule ∈ machine.table.rules.toList, ¬ rule.next.isTerminal := by
    simp only [Machine.checkTerminal, Option.some_eq_ite_none_right, Option.some.injEq,
      List.all_eq_true, Bool.not_eq_true', Bool.not_eq_true, and_comm]
  rw [← start, ← terminal, ← aboutIff, ← aboutIff]
  simp [Machine.findings, Machine.checkUnreachable, Machine.checkMissing]

theorem memStart : Finding.startWithoutRules ∈ machine.findings ↔
    ∀ rule ∈ machine.table.rules.toList, rule.state ≠ 0 := by
  simp [memFindings, List.eq_nil_iff_forall_not_mem, Table.memLeaving]

theorem memUnreachable : Finding.unreachableStates listed ∈ machine.findings ↔
    listed ≠ [] ∧ listed.Pairwise (· < ·) ∧ ∀ number, number ∈ listed ↔
      (∃ rule ∈ machine.table.rules.toList, rule.state = number) ∧
        ¬ machine.table.Reached number := by
  rw [← Table.unreachableIff, memFindings]
  simp only [reduceCtorEq, false_and, exists_false, or_false, false_or,
    Finding.unreachableStates.injEq, exists_eq_left']

theorem memMissing : Finding.missingRules listed ∈ machine.findings ↔
    listed ≠ [] ∧ listed.Pairwise (· < ·) ∧ ∀ number, number ∈ listed ↔
      (∃ rule ∈ machine.table.rules.toList, rule.next = .ordinary number) ∧
        ∀ rule ∈ machine.table.rules.toList, rule.state ≠ number := by
  rw [← Table.missingIff, memFindings]
  simp only [reduceCtorEq, false_and, exists_false, or_false, false_or,
    Finding.missingRules.injEq, exists_eq_left']

theorem memNoTerminal : Finding.noTerminalState ∈ machine.findings ↔
    machine.table.rules.toList ≠ [] ∧ ∀ rule ∈ machine.table.rules.toList, ¬ rule.next.isTerminal := by
  simp [memFindings]

/- The loop ends, and in one way only. What it has not visited is what the second check reports. -/
theorem findingsExact (machine : Machine S) :
    (∃ turns visited, machine.table.Searches [0] [] turns visited ∧
      turns ≤ machine.table.rules.size + 1 ∧
      (∀ others seen, machine.table.Searches [0] [] others seen → others = turns ∧ seen = visited) ∧
      machine.checkUnreachable =
        Machine.about .unreachableStates (machine.table.sources.filter (· ∉ visited))) ∧
    (∀ listed, Finding.unreachableStates listed ∈ machine.findings ↔
      listed ≠ [] ∧ listed.Pairwise (· < ·) ∧ ∀ number, number ∈ listed ↔
        (∃ rule ∈ machine.table.rules.toList, rule.state = number) ∧
          ¬ machine.table.Reached number) ∧
    ∀ listed, Finding.missingRules listed ∈ machine.findings ↔
      listed ≠ [] ∧ listed.Pairwise (· < ·) ∧ ∀ number, number ∈ listed ↔
        (∃ rule ∈ machine.table.rules.toList, rule.next = .ordinary number) ∧
          ∀ rule ∈ machine.table.rules.toList, rule.state ≠ number := by
  obtain ⟨turns, visited, loop, few, done⟩ :=
    Table.searchesEnd Table.searchedStart machine.table.unfollowedStart
  have same : ∀ number, number ∈ machine.table.reachable ↔ number ∈ visited :=
    fun number => Table.memReachable.trans (Table.searchedAll done).symm
  refine ⟨⟨turns, visited, loop, few, fun others seen other => ?_, ?_⟩,
    fun listed => memUnreachable, fun listed => memMissing⟩
  · exact Table.searchesOnce other loop
  · unfold Machine.checkUnreachable
    simp only [same]

section
variable (live : machine.table.Live size)
include live

theorem liveStart (positive : 0 < size) : machine.checkStart = none := by
  obtain ⟨rule, mem, zero⟩ := live.leaves 0 positive
  exact if_neg (List.ne_nil_of_mem (Table.memLeaving.mpr ⟨mem, zero⟩))

theorem liveBelow {rule : Rule S} (mem : rule ∈ machine.table.rules.toList) :
    rule.state < size ∧ ∀ number, rule.next = .ordinary number → number < size := by
  have below : ∀ {number}, number ∈ machine.table.states → number < size := by
    intro number among
    rw [live.states] at among
    exact List.mem_range.mp among
  exact ⟨below (Table.memStates.mpr ⟨rule, mem, .inl rfl⟩),
    fun number enters => below (Table.memStates.mpr ⟨rule, mem, .inr enters⟩)⟩

theorem liveUnreachable : machine.checkUnreachable = none := by
  have all : machine.table.sources.filter (· ∉ machine.table.reachable) = [] := by
    refine List.filter_eq_nil_iff.mpr fun number source => ?_
    obtain ⟨rule, mem, rfl⟩ := List.mem_map.mp (Ascending.memOfList.mp source)
    simpa using Table.memReachable.mpr (Table.liveReached live (liveBelow live mem).1)
  exact congrArg (Machine.about .unreachableStates) all

theorem liveMissing : machine.checkMissing = none := by
  have all : machine.table.entered.filter (· ∉ machine.table.sources) = [] := by
    refine List.filter_eq_nil_iff.mpr fun number among => ?_
    obtain ⟨rule, mem, enters⟩ := List.mem_filterMap.mp (Ascending.memOfList.mp among)
    obtain ⟨other, mem', same⟩ :=
      live.leaves number ((liveBelow live mem).2 number (State.numberIff.mp enters))
    have source : number ∈ machine.table.sources :=
      Ascending.memOfList.mpr (List.mem_map.mpr ⟨other, mem', same⟩)
    simpa using source
  exact congrArg (Machine.about .missingRules) all

theorem liveFindings (positive : 0 < size) :
    machine.findings = [] ∨ machine.findings = [.noTerminalState] := by
  unfold Machine.findings
  rw [liveStart live positive, liveUnreachable live, liveMissing live]
  unfold Machine.checkTerminal
  dsimp only
  split
  · exact .inr rfl
  · exact .inl rfl

end
end Multitape
