import Mathlib.Data.List.Nodup
import Mathlib.Data.List.Perm.Subperm
import Multitape.Proofs.Machine
import Multitape.Proofs.Run

/-! Tables as functions. Equality of tables looks up the rules of the one in the other and not
the other way round, and is equality of the two functions all the same: no key comes twice, so
as many rules, all of them found, are the same rules in another order. A run asks a machine for
nothing but its tapes, what belongs to its alphabet, and the rule for a key. -/
namespace Multitape
variable {S : Type} [DecidableEq S]

namespace Table
variable {a b : Table S}

omit [DecidableEq S] in
theorem rulesNodup (table : Table S) : table.rules.toList.Nodup := .of_map _ table.distinct

theorem getOwn {rule : Rule S} : a.get? rule.state rule.read = some rule ↔ rule ∈ a.rules.toList :=
  getIff.trans (and_iff_left rfl)

theorem samePermIff : a == b ↔ a.rules.toList.Perm b.rules.toList := by
  have unfolded : (a == b) = true ↔ a.rules.size = b.rules.size ∧
      ∀ rule ∈ a.rules.toList, rule ∈ b.rules.toList := by
    change a.same b = true ↔ _
    simp only [same, Bool.and_eq_true, decide_eq_true_eq, Array.all_eq_true_iff_forall_mem, getOwn,
      Array.mem_toList_iff]
  rw [unfolded]
  constructor
  · rintro ⟨size, found⟩
    have few : b.rules.toList.length ≤ a.rules.toList.length := by simp [size]
    exact (List.subperm_of_subset a.rulesNodup found).perm_of_length_le few
  · intro order
    exact ⟨by simpa using order.length_eq, fun rule => order.mem_iff.mp⟩

theorem getPermIff : (∀ state read, a.get? state read = b.get? state read) ↔
    a.rules.toList.Perm b.rules.toList := by
  rw [List.perm_ext_iff_of_nodup a.rulesNodup b.rulesNodup]
  constructor
  · intro looks rule
    rw [← getOwn, ← getOwn, looks]
  · intro members state read
    ext rule
    rw [getIff, getIff, members]

theorem sameEquivalence : Equivalence fun a b : Table S => (a == b) = true where
  refl _ := samePermIff.mpr (.refl _)
  symm order := samePermIff.mpr (samePermIff.mp order).symm
  trans one two := samePermIff.mpr ((samePermIff.mp one).trans (samePermIff.mp two))

end Table

variable [Symbol S]

/- The keys are as distinct in the one order as in the other. -/
theorem addOrdered {start built : Machine S} {rules others : List (Rule S)}
    (order : rules.Perm others) (added : rules.foldlM Machine.add start = .ok built) :
    ∃ other, others.foldlM Machine.add start = .ok other ∧ (other.table == built.table) := by
  obtain ⟨tapes, alphabet, all⟩ := addAllShape added
  have behind := order.append_left start.table.rules.toList
  have fits : ∀ rule ∈ others, rule.Fits start.tapes start.alphabet := by
    intro rule mem
    rw [← tapes, ← alphabet]
    apply built.fits
    rw [all]
    exact List.mem_append_right _ (order.mem_iff.mpr mem)
  have distinct := built.table.distinct
  rw [all] at distinct
  obtain ⟨other, added', -, -, all'⟩ := addAll fits ((behind.map _).nodup_iff.mp distinct)
  refine ⟨other, added', Table.samePermIff.mpr ?_⟩
  rw [all, all']
  exact behind.symm

section
variable {a b : Machine S} (looks : ∀ state read, a.table.get? state read = b.table.get? state read)
include looks

theorem stepOfLooks (mode : TapeMode) (now : Configuration S) : a.step? mode now = b.step? mode now := by
  obtain ⟨state, tapes⟩ := now
  cases state with
  | ordinary number => simp only [Machine.step?, looks]
  | _ => rfl

theorem afterOfLooks (mode : TapeMode) (start : Configuration S) (n : Nat) :
    a.after? mode start n = b.after? mode start n := by
  induction n with
  | zero => rfl
  | succ n ih => simp only [Machine.after?, ih, funext (stepOfLooks looks mode)]

variable (tapes : a.tapes = b.tapes) (members : ∀ symbol, symbol ∈ a.alphabet ↔ symbol ∈ b.alphabet)
include tapes members

theorem runOfLooks (config : Config) (input : List S) : a.run config input = b.run config input := by
  have refused : a.alphabet.refuse? input = b.alphabet.refuse? input := by
    simp only [Alphabet.refuse?, members]
  obtain ⟨bound, mode⟩ := config
  cases verdict : a.alphabet.refuse? input with
  | some cause =>
    simp only [Machine.run, Run.start, verdict, refused.symm.trans verdict]
  | none =>
    obtain ⟨n, last, ends⟩ := endsExists a mode (.start a.tapes input) bound
    have ends' : b.Ends mode (.start b.tapes input) bound n last := by
      rw [← tapes]
      exact ⟨(afterOfLooks looks mode _ n).symm.trans ends.1, ends.2⟩
    rw [runOfEnds verdict ends, runOfEnds (refused.symm.trans verdict) ends']

end

/- The last two parts say the same of the machines that have the tables: built from the same
rules in any order, and run on any input. -/
theorem tablesEqualAsFunctions :
    (∀ a b : Table S, a == b ↔ ∀ state read, a.get? state read = b.get? state read) ∧
    (Equivalence fun a b : Table S => (a == b) = true) ∧
    (∀ (start built : Machine S) (rules others : List (Rule S)), rules.Perm others →
      rules.foldlM Machine.add start = .ok built →
      ∃ other, others.foldlM Machine.add start = .ok other ∧ (other.table == built.table) ∧
        ∀ table : Table S, (table == other.table) = (table == built.table) ∧
          (other.table == table) = (built.table == table)) ∧
    ∀ a b : Machine S, a.tapes = b.tapes → (∀ symbol, symbol ∈ a.alphabet ↔ symbol ∈ b.alphabet) →
      a.table == b.table → ∀ config input, a.run config input = b.run config input := by
  refine ⟨fun a b => Table.samePermIff.trans Table.getPermIff.symm, Table.sameEquivalence, ?_, ?_⟩
  · intro start built rules others order added
    obtain ⟨other, added', same⟩ := addOrdered order added
    refine ⟨other, added', same, fun table => ⟨?_, ?_⟩⟩
    · exact Bool.eq_iff_iff.mpr ⟨fun left => Table.sameEquivalence.trans left same,
        fun left => Table.sameEquivalence.trans left (Table.sameEquivalence.symm same)⟩
    · exact Bool.eq_iff_iff.mpr
        ⟨fun right => Table.sameEquivalence.trans (Table.sameEquivalence.symm same) right,
          fun right => Table.sameEquivalence.trans same right⟩
  · intro a b tapes members same
    exact runOfLooks (Table.getPermIff.mpr (Table.samePermIff.mp same)) tapes members

/- The same two rules in either order, and the blank declared by one of the machines only. -/
theorem tablesEqualTurned : ∃ one other turned : Machine Char,
    one.alphabet.symbols = ['a'] ∧ other.alphabet.symbols = ['_', 'a'] ∧
      one.table.rules.toList.map Rule.state = [0, 1] ∧
      other.table.rules.toList.map Rule.state = [1, 0] ∧ turned.table == one.table ∧
      ∀ bound, one.run ⟨bound, .biInfinite⟩ ['a'] = other.run ⟨bound, .biInfinite⟩ ['a'] := by
  let first : Rule Char := ⟨0, ['a'], .ordinary 1, ['a'], [.right]⟩
  let second : Rule Char := ⟨1, ['_'], .halt, ['_'], [.left]⟩
  have built : ∀ (alphabet : Alphabet Char) (rules : List (Rule Char)), 'a' ∈ alphabet →
      rules.Perm [first, second] → ∃ machine,
        rules.foldlM Machine.add (ruleless 0 alphabet) = .ok machine ∧ machine.tapes = 1 ∧
          machine.alphabet = alphabet ∧ machine.table.rules.toList = rules := by
    intro alphabet rules known order
    apply addAll
    · intro rule mem
      have blank : '_' ∈ alphabet := alphabet.blankMem
      rcases List.mem_pair.mp (order.mem_iff.mp mem) with rfl | rfl
      · exact ⟨rfl, rfl, rfl, by simpa [first, ruleless] using known⟩
      · exact ⟨rfl, rfl, rfl, by simpa [second, ruleless] using blank⟩
    · have distinct : ([first, second].map Rule.key).Nodup := by decide
      exact (order.map Rule.key).nodup_iff.mpr distinct
  have swapped : [second, first].Perm [first, second] := .swap ..
  obtain ⟨one, added, tapes, alphabet, rules⟩ :=
    built ⟨['a'], by decide⟩ [first, second] (by decide) (.refl _)
  obtain ⟨other, -, tapes', alphabet', rules'⟩ :=
    built ⟨['_', 'a'], by decide⟩ [second, first] (by decide) swapped
  obtain ⟨turned, -, same, -⟩ :=
    tablesEqualAsFunctions.2.2.1 _ one [first, second] [second, first] swapped.symm added
  have equal : one.table == other.table :=
    Table.samePermIff.mpr (by rw [rules, rules']; exact swapped.symm)
  refine ⟨one, other, turned, by rw [alphabet], by rw [alphabet'], by rw [rules]; rfl,
    by rw [rules']; rfl, same, fun bound => ?_⟩
  refine tablesEqualAsFunctions.2.2.2 one other (tapes.trans tapes'.symm) (fun symbol => ?_) equal _ _
  rw [alphabet, alphabet', Alphabet.memIff, Alphabet.memIff]
  simp [Symbol.blank]

end Multitape
