import Mathlib.Data.List.Basic
import Multitape.Finding
import Multitape.Proofs.Machine

/-! The search for the states that can be entered. It finds exactly those that a path of rules
leads to from state 0, whatever loops the rules make: each state is followed once, so the steps
it is given last until nothing is left to do. The same search as a loop without a bound ends
after one turn for each rule and one for state 0, or sooner. -/
namespace Multitape
variable {S : Type}

namespace Table
variable {table : Table S}

inductive Reached (table : Table S) : Nat → Prop where
  | start : Reached table 0
  | next {rule : Rule S} {number : Nat} (before : Reached table rule.state)
      (mem : rule ∈ table.rules.toList) (enters : rule.next = .ordinary number) :
      Reached table number

theorem memLeaving {rule : Rule S} {state : Nat} :
    rule ∈ table.leaving state ↔ rule ∈ table.rules.toList ∧ rule.state = state := by
  rw [leaving, table.indexed, List.mem_filter, decide_eq_true_iff]

theorem memSuccessors {state number : Nat} : number ∈ table.successors state ↔
    ∃ rule ∈ table.rules.toList, rule.state = state ∧ rule.next = .ordinary number := by
  simp only [successors, List.mem_filterMap, memLeaving, State.numberIff, and_assoc]

/-- What holds between two steps of the search: all that is met can be entered, and what follows
from a state that is done with is met. -/
structure Searched (table : Table S) (todo seen : List Nat) : Prop where
  start : 0 ∈ seen ∨ 0 ∈ todo
  sound : ∀ number, number ∈ seen ∨ number ∈ todo → table.Reached number
  closed : ∀ state ∈ seen, ∀ number ∈ table.successors state, number ∈ seen ∨ number ∈ todo

def unfollowed (table : Table S) (seen : List Nat) : List (Rule S) :=
  table.rules.toList.filter (·.state ∉ seen)

theorem searchedSkip {state : Nat} {todo seen : List Nat} (old : state ∈ seen)
    (searched : table.Searched (state :: todo) seen) : table.Searched todo seen := by
  have kept : ∀ {number}, number ∈ seen ∨ number ∈ state :: todo → number ∈ seen ∨ number ∈ todo := by
    rintro number (done | waits)
    · exact .inl done
    · rcases List.mem_cons.mp waits with rfl | later
      · exact .inl old
      · exact .inr later
  exact {
    start := kept searched.start
    sound := fun number met =>
      searched.sound number (met.imp_right (List.mem_cons_of_mem state))
    closed := fun other done number follows => kept (searched.closed other done number follows) }

/- Following a state puts some of its successors to those that wait, and no other is left out
than what is visited by then. -/
theorem searchedFollow {state : Nat} {todo seen put : List Nat}
    (searched : table.Searched (state :: todo) seen) (sound : put ⊆ table.successors state)
    (complete : ∀ number ∈ table.successors state, number ∈ state :: seen ∨ number ∈ put) :
    table.Searched (put ++ todo) (state :: seen) := by
  have kept : ∀ {number}, number ∈ seen ∨ number ∈ state :: todo →
      number ∈ state :: seen ∨ number ∈ put ++ todo := by
    rintro number (done | waits)
    · exact .inl (List.mem_cons_of_mem state done)
    · rcases List.mem_cons.mp waits with rfl | later
      · exact .inl (List.mem_cons_self ..)
      · exact .inr (List.mem_append_right _ later)
  have here : table.Reached state := searched.sound state (.inr (List.mem_cons_self ..))
  refine ⟨kept searched.start, ?_, ?_⟩
  · rintro number (done | waits)
    · rcases List.mem_cons.mp done with rfl | old
      · exact here
      · exact searched.sound number (.inl old)
    · rcases List.mem_append.mp waits with follows | later
      · obtain ⟨rule, mem, rfl, enters⟩ := memSuccessors.mp (sound follows)
        exact .next here mem enters
      · exact searched.sound number (.inr (List.mem_cons_of_mem _ later))
  · intro other done number follows
    rcases List.mem_cons.mp done with rfl | old
    · exact (complete number follows).imp_right (List.mem_append_left _)
    · exact kept (searched.closed other old number follows)

/- Following a state takes its rules off those that are left. -/
theorem unfollowedNext {state : Nat} {seen : List Nat} (fresh : state ∉ seen) :
    (table.successors state).length + (table.unfollowed (state :: seen)).length ≤
      (table.unfollowed seen).length := by
  have few : (table.successors state).length ≤ (table.leaving state).length :=
    List.length_filterMap_le ..
  have parts : (table.leaving state).length + (table.unfollowed (state :: seen)).length =
      (table.unfollowed seen).length := by
    rw [List.length_eq_length_filter_add (l := table.unfollowed seen) (·.state = state)]
    unfold leaving unfollowed
    rw [table.indexed, List.filter_filter, List.filter_filter]
    congr 2
    · refine List.filter_congr fun rule _ => ?_
      by_cases here : rule.state = state <;> simp [here, fresh]
    · refine List.filter_congr fun rule _ => ?_
      simp
  omega

/- Induction on the fuel. It covers a step for each state to be looked at and one for each rule
that is still to be followed. -/
theorem visitSearched {fuel : Nat} {todo seen : List Nat} (searched : table.Searched todo seen)
    (enough : todo.length + (table.unfollowed seen).length ≤ fuel) :
    table.Searched [] (table.visit fuel todo seen) := by
  induction fuel generalizing todo seen with
  | zero =>
    obtain rfl : todo = [] := List.length_eq_zero_iff.mp (by omega)
    exact searched
  | succ fuel ih =>
    cases todo with
    | nil => exact searched
    | cons state todo =>
      rw [List.length_cons] at enough
      unfold visit
      split
      · rename_i old
        exact ih (searchedSkip old searched) (by omega)
      · rename_i fresh
        have less := table.unfollowedNext fresh
        apply ih (searchedFollow searched (List.Subset.refl _) fun _ => .inr)
        rw [List.length_append]
        omega

theorem searchedStart : table.Searched [0] [] := by
  refine ⟨.inr (by simp), ?_, by simp⟩
  rintro number (done | waits)
  · cases done
  · rw [List.mem_singleton.mp waits]
    exact .start

theorem unfollowedStart (table : Table S) :
    [0].length + (table.unfollowed []).length ≤ table.rules.size + 1 := by
  have most : (table.unfollowed []).length ≤ table.rules.size := by
    rw [← Array.length_toList]
    exact List.length_filter_le ..
  rw [List.length_singleton]
  omega

/- Where nothing waits, all is met that can be entered. -/
theorem searchedAll {seen : List Nat} (searched : table.Searched [] seen) {number : Nat} :
    number ∈ seen ↔ table.Reached number := by
  obtain ⟨start, sound, closed⟩ := searched
  simp only [List.not_mem_nil, or_false] at start sound closed
  refine ⟨sound number, fun reached => ?_⟩
  induction reached with
  | start => exact start
  | next _ mem enters ih => exact closed _ ih _ (memSuccessors.mpr ⟨_, mem, rfl, enters⟩)

theorem memReachable {number : Nat} : number ∈ table.reachable ↔ table.Reached number :=
  searchedAll (visitSearched searchedStart table.unfollowedStart)

def fresh (table : Table S) (state : Nat) (visited : List Nat) : List Nat :=
  ((table.successors state).filter (· ∉ state :: visited)).reverse

/-- The search as a loop: it takes the state that was put to wait last, visits it unless that is
done, and goes on so for this many turns until none waits. -/
inductive Searches (table : Table S) : List Nat → List Nat → Nat → List Nat → Prop where
  | idle {visited : List Nat} : Searches table [] visited 0 visited
  | skip {state turns : Nat} {waiting visited last : List Nat} (old : state ∈ visited)
      (rest : Searches table waiting visited turns last) :
    Searches table (state :: waiting) visited (turns + 1) last
  | follow {state turns : Nat} {waiting visited last : List Nat} (new : state ∉ visited)
      (rest : Searches table (table.fresh state visited ++ waiting) (state :: visited) turns last) :
    Searches table (state :: waiting) visited (turns + 1) last

theorem searchesOnce {waiting visited last other : List Nat} {turns more : Nat}
    (one : table.Searches waiting visited turns last)
    (two : table.Searches waiting visited more other) : turns = more ∧ last = other := by
  induction one generalizing more with
  | idle =>
    cases two
    exact ⟨rfl, rfl⟩
  | skip old rest ih =>
    cases two with
    | skip _ rest' =>
      obtain ⟨same, ends⟩ := ih rest'
      exact ⟨congrArg Nat.succ same, ends⟩
    | follow new _ => exact absurd old new
  | follow new rest ih =>
    cases two with
    | skip old _ => exact absurd old new
    | follow _ rest' =>
      obtain ⟨same, ends⟩ := ih rest'
      exact ⟨congrArg Nat.succ same, ends⟩

theorem searchedFresh {state : Nat} {waiting visited : List Nat}
    (searched : table.Searched (state :: waiting) visited) :
    table.Searched (table.fresh state visited ++ waiting) (state :: visited) := by
  have put : ∀ number, number ∈ table.fresh state visited ↔
      number ∈ table.successors state ∧ number ∉ state :: visited := by
    intro number
    rw [fresh, List.mem_reverse, List.mem_filter, decide_eq_true_iff]
  apply searchedFollow searched
  · exact fun number mem => ((put number).mp mem).1
  · intro number follows
    by_cases old : number ∈ state :: visited
    · exact .inl old
    · exact .inr ((put number).mpr ⟨follows, old⟩)

/- Induction on a bound for what waits and the rules that are still to be followed, together: a
turn that skips a state takes it off the one, a turn that visits one moves as much from the
other at most. -/
theorem searchesEnd {bound : Nat} {waiting visited : List Nat}
    (searched : table.Searched waiting visited)
    (enough : waiting.length + (table.unfollowed visited).length ≤ bound) :
    ∃ turns last, table.Searches waiting visited turns last ∧ turns ≤ bound ∧
      table.Searched [] last := by
  induction bound generalizing waiting visited with
  | zero =>
    obtain rfl : waiting = [] := List.length_eq_zero_iff.mp (by omega)
    exact ⟨0, visited, .idle, Nat.le_refl 0, searched⟩
  | succ bound ih =>
    cases waiting with
    | nil => exact ⟨0, visited, .idle, Nat.zero_le _, searched⟩
    | cons state waiting =>
      rw [List.length_cons] at enough
      by_cases old : state ∈ visited
      · obtain ⟨turns, last, rest, few, done⟩ := ih (searchedSkip old searched) (by omega)
        exact ⟨turns + 1, last, .skip old rest, Nat.succ_le_succ few, done⟩
      · have less := table.unfollowedNext old
        have put : (table.fresh state visited).length ≤ (table.successors state).length := by
          rw [fresh, List.length_reverse]
          exact List.length_filter_le ..
        obtain ⟨turns, last, rest, few, done⟩ := ih (searchedFresh searched) (by
          rw [List.length_append]
          omega)
        exact ⟨turns + 1, last, .follow old rest, Nat.succ_le_succ few, done⟩

end Table
end Multitape
