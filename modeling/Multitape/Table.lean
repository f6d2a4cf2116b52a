import Multitape.Ascending
import Multitape.Rule
import Std.Data.HashMap

/-! The rules of a machine in the order of their declaration, indexed by state. As a whole
they are a partial function from a state and the symbols read to a rule: `get?` finds the
one rule with that key. -/
namespace Multitape

structure Table (S : Type) where
  rules : Array (Rule S)
  byState : Std.HashMap Nat (List (Rule S))
  indexed : ∀ state, byState.getD state [] = rules.toList.filter (·.state = state)
  distinct : (rules.toList.map Rule.key).Nodup

namespace Table
variable {S : Type}

def empty : Table S where
  rules := #[]
  byState := ∅
  indexed := by simp
  distinct := by simp

def leaving (table : Table S) (state : Nat) : List (Rule S) := table.byState.getD state []

def states (table : Table S) : List Nat :=
  Ascending.ofList (table.rules.toList.flatMap Rule.states)

variable [DecidableEq S]

def get? (table : Table S) (state : Nat) (read : List S) : Option (Rule S) :=
  (table.leaving state).find? (·.read = read)

def position? (table : Table S) (state : Nat) (read : List S) : Option Nat :=
  table.rules.findIdx? fun rule => rule.key = (state, read)

omit [DecidableEq S] in
theorem eqOfKey {table : Table S} {a b : Rule S} (left : a ∈ table.rules.toList)
    (right : b ∈ table.rules.toList) (key : a.key = b.key) : a = b := by
  have distinct := table.distinct
  generalize table.rules.toList = rules at *
  induction rules with
  | nil => simp at left
  | cons first rest ih =>
    obtain ⟨fresh, distinct⟩ := List.nodup_cons.mp distinct
    rcases List.mem_cons.mp left with rfl | ha
    · rcases List.mem_cons.mp right with rfl | hb
      · rfl
      · exact absurd (List.mem_map.mpr ⟨b, hb, key.symm⟩) fresh
    · rcases List.mem_cons.mp right with rfl | hb
      · exact absurd (List.mem_map.mpr ⟨a, ha, key⟩) fresh
      · exact ih ha hb distinct

theorem getIff {table : Table S} {state : Nat} {read : List S} {rule : Rule S} :
    table.get? state read = some rule ↔ rule ∈ table.rules.toList ∧ rule.key = (state, read) := by
  have sound : ∀ {other}, table.get? state read = some other →
      other ∈ table.rules.toList ∧ other.key = (state, read) := by
    intro other found
    rw [get?, leaving, table.indexed] at found
    have mem := List.mem_filter.mp (List.mem_of_find?_eq_some found)
    have reads := List.find?_some found
    simp only [decide_eq_true_eq] at mem reads
    exact ⟨mem.1, Prod.ext mem.2 reads⟩
  refine ⟨sound, fun ⟨mem, key⟩ => ?_⟩
  cases found : table.get? state read with
  | some other =>
    have h := sound found
    rw [eqOfKey h.1 mem (h.2.trans key.symm)]
  | none =>
    rw [get?, leaving, table.indexed, List.find?_eq_none] at found
    obtain ⟨rfl, rfl⟩ : rule.state = state ∧ rule.read = read := by simpa [Rule.key] using key
    exact absurd (decide_eq_true rfl) (found rule (List.mem_filter.mpr ⟨mem, decide_eq_true rfl⟩))

theorem getNoneIff {table : Table S} {state : Nat} {read : List S} :
    table.get? state read = none ↔ ∀ rule ∈ table.rules.toList, rule.key ≠ (state, read) := by
  constructor
  · intro missing rule mem same
    simpa [missing] using getIff.mpr ⟨mem, same⟩
  · intro missing
    cases found : table.get? state read with
    | none => rfl
    | some rule => exact absurd (getIff.mp found).2 (missing rule (getIff.mp found).1)

theorem positionOfGet {table : Table S} {state : Nat} {read : List S} {rule : Rule S}
    (found : table.get? state read = some rule) :
    ∃ index, table.position? state read = some index ∧ table.rules[index]? = some rule := by
  obtain ⟨mem, key⟩ := getIff.mp found
  cases h : table.position? state read with
  | none =>
    have missing := Array.findIdx?_eq_none_iff.mp h rule (Array.mem_toList_iff.mp mem)
    simp [key] at missing
  | some index =>
    obtain ⟨bound, hit, _⟩ := Array.findIdx?_eq_some_iff_getElem.mp h
    refine ⟨index, rfl, ?_⟩
    rw [Array.getElem?_eq_getElem bound]
    exact congrArg some (eqOfKey (by simp) mem ((of_decide_eq_true hit).trans key.symm))

theorem positionAt {table : Table S} {index : Nat} {rule : Rule S}
    (here : table.rules[index]? = some rule) :
    table.position? rule.state rule.read = some index := by
  have mem := Array.mem_toList_iff.mpr (Array.mem_of_getElem? here)
  obtain ⟨other, position, there⟩ := positionOfGet (getIff.mpr ⟨mem, rfl⟩)
  have keyAt : ∀ {place : Nat}, table.rules[place]? = some rule →
      (table.rules.toList.map Rule.key)[place]? = some rule.key := by
    intro place found
    rw [List.getElem?_map, Array.getElem?_toList, found, Option.map_some]
  have bound := (List.getElem?_eq_some_iff.mp (keyAt there)).1
  rw [position, (List.getElem?_inj bound table.distinct).mp ((keyAt there).trans (keyAt here).symm)]

theorem positionNone {table : Table S} {state : Nat} {read : List S}
    (missing : table.get? state read = none) : table.position? state read = none := by
  refine Array.findIdx?_eq_none_iff.mpr fun rule mem => ?_
  simpa using getNoneIff.mp missing rule (Array.mem_toList_iff.mpr mem)

def push (table : Table S) (rule : Rule S) (fresh : table.get? rule.state rule.read = none) :
    Table S where
  rules := table.rules.push rule
  byState := table.byState.insert rule.state (table.leaving rule.state ++ [rule])
  indexed state := by
    have kept := table.indexed
    by_cases h : rule.state = state
    · subst h; simp [leaving, kept]
    · simp [Std.HashMap.getD_insert, kept, h]
  distinct := by
    rw [Array.toList_push, List.map_append, List.nodup_append]
    refine ⟨table.distinct, by simp, ?_⟩
    intro key mem other last
    obtain ⟨old, hold, rfl⟩ := List.mem_map.mp mem
    simp only [List.map_cons, List.map_nil, List.mem_singleton] at last
    subst last
    exact getNoneIff.mp fresh old hold

/-- Tables are equal when they give the same rule for every key, whatever the order of
their declarations. -/
def same (a b : Table S) : Bool :=
  a.rules.size = b.rules.size && a.rules.all fun rule => b.get? rule.state rule.read = some rule

instance : BEq (Table S) := ⟨same⟩

end Table
end Multitape
