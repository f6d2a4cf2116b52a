import Multitape.Proofs.Catalog.Contents
import Multitape.Proofs.Extent

/-! Runs that pass over the cells of a tape, one in each step. The cells around the head are
those that it has passed, nearest first, and those ahead of it, and a step of one kind takes a
cell from the one to the other. Where a machine does so for every symbol of a word, it does so
for the word in as many steps as this has symbols. -/
namespace Multitape
variable {S : Type} [Symbol S]

namespace Tape

def facing (first : Int) (passed ahead : List S) : Tape S :=
  ⟨passed, ahead.headD Symbol.blank, ahead.tail, first + passed.length⟩

def backing (first : Int) (passed ahead : List S) : Tape S :=
  ⟨passed.tail, passed.headD Symbol.blank, ahead, first + passed.length - 1⟩

section
variable (first : Int) (passed ahead : List S) (symbol other : S)

theorem ofInputFacing : ofInput ahead = facing 0 [] ahead := by
  cases ahead <;> rfl

theorem facingBlank : facing first passed [] = facing first passed [Symbol.blank] := rfl

theorem backingBlank : backing first [] ahead = backing (first - 1) [Symbol.blank] ahead := by
  simp [backing]

theorem stayFacing : (facing first passed (other :: ahead)).write symbol =
    facing first passed (symbol :: ahead) := rfl

theorem rightFacing : ((facing first passed (other :: ahead)).write symbol).shift .right =
    facing first (symbol :: passed) ahead := by
  simp [facing, write, shift, Int.add_assoc]

theorem rightBacking : ((backing first (other :: passed) ahead).write symbol).shift .right =
    facing first (symbol :: passed) ahead := by
  simp [facing, backing, write, shift]

theorem leftBacking : ((backing first (other :: passed) ahead).write symbol).shift .left =
    backing first passed (symbol :: ahead) := by
  simp only [backing, write, shift, List.tail_cons, List.length_cons]
  congr 1
  omega

/- What is seen does not depend on which of the cells the head is on. -/
theorem peekFacing (offset : Int) : (facing first passed ahead).peek offset =
    (ofInput (passed.reverse ++ ahead)).peek (offset - first) := by
  have origin : (facing first passed ahead).origin = first := by simp [facing, Tape.origin]
  have place : offset - first + ((facing first passed ahead).origin + (0 : Nat)) = offset := by
    rw [origin]
    omega
  have cells : ∃ after, (facing first passed ahead).cells =
      List.replicate 0 Symbol.blank ++ (passed.reverse ++ ahead) ++
        List.replicate after Symbol.blank := by
    cases ahead with
    | nil => exact ⟨1, by simp [facing, Tape.cells]⟩
    | cons symbol ahead => exact ⟨0, by simp [facing, Tape.cells]⟩
  obtain ⟨after, cells⟩ := cells
  rw [← peekBetween cells, place]

theorem peekBacking (offset : Int) : (backing first passed ahead).peek offset =
    (ofInput (passed.reverse ++ ahead)).peek (offset - first) := by
  have cells : ∃ before : Nat, (backing first passed ahead).origin + before = first ∧
      (backing first passed ahead).cells = List.replicate before Symbol.blank ++
        (passed.reverse ++ ahead) ++ List.replicate 0 Symbol.blank := by
    cases passed with
    | nil => exact ⟨1, by simp [backing, Tape.origin], by simp [backing, Tape.cells]⟩
    | cons symbol passed =>
      refine ⟨0, ?_, by simp [backing, Tape.cells]⟩
      simp only [backing, Tape.origin, List.tail_cons, List.length_cons]
      omega
  obtain ⟨before, origin, cells⟩ := cells
  rw [← peekBetween cells, origin, Int.sub_add_cancel]

end

/- Blanks behind a word are not seen either. -/
theorem peekTrailing (word : List S) (count : Nat) (offset : Int) :
    (ofInput (word ++ List.replicate count Symbol.blank)).peek offset = (ofInput word).peek offset := by
  rw [peekInput, peekInput, getBlanksBehind]

variable [DecidableEq S]

theorem outputInput {word : List S} (plain : ∀ symbol ∈ word, symbol ≠ Symbol.blank) :
    (ofInput word).output = word := by
  cases word with
  | nil => exact outputIff.mpr ⟨0, 1, rfl, by simp, by simp⟩
  | cons symbol rest =>
    have last := plain _ (List.getLast_mem (List.cons_ne_nil symbol rest))
    refine outputIff.mpr ⟨0, 0, by simp [ofInput, cells], ?_, ?_⟩
    · simpa using plain symbol (List.mem_cons_self ..)
    · simpa [List.getLast?_eq_some_getLast] using last

section
variable {tape : Tape S} {passed ahead word : List S}
  (plain : ∀ symbol ∈ word, symbol ≠ Symbol.blank) (first : Int)
include plain

theorem outputWord (seen : ∀ offset, tape.peek offset = (ofInput word).peek (offset - first)) :
    tape.output = word := by
  have same : tape.output = (ofInput word).output :=
    outputOfSeen first fun offset => by rw [seen, Int.add_sub_cancel]
  rw [same, outputInput plain]

theorem outputFacing (count : Nat)
    (held : passed.reverse ++ ahead = word ++ List.replicate count Symbol.blank) :
    (facing first passed ahead).output = word :=
  outputWord plain first fun offset => by rw [peekFacing, held, peekTrailing]

theorem outputBacking (count : Nat)
    (held : passed.reverse ++ ahead = word ++ List.replicate count Symbol.blank) :
    (backing first passed ahead).output = word :=
  outputWord plain first fun offset => by rw [peekBacking, held, peekTrailing]

end

end Tape

/- Two words that are read alike from their starts part in what is read next, the blank behind
them included, or they are the same. -/
theorem splitWhereOther [DecidableEq S] {xs ys : List S} (plain : ∀ symbol ∈ xs, symbol ≠ Symbol.blank)
    (plain' : ∀ symbol ∈ ys, symbol ≠ Symbol.blank) : ∃ common xs' ys',
      xs = common ++ xs' ∧ ys = common ++ ys' ∧ (xs = ys ∧ xs' = [] ∧ ys' = [] ∨
        xs ≠ ys ∧ xs'.headD Symbol.blank ≠ ys'.headD Symbol.blank) := by
  induction xs generalizing ys with
  | nil =>
    cases ys with
    | nil => exact ⟨[], [], [], rfl, rfl, .inl ⟨rfl, rfl, rfl⟩⟩
    | cons y ys => exact ⟨[], [], y :: ys, rfl, rfl, .inr ⟨by simp, (plain' y (by simp)).symm⟩⟩
  | cons x xs ih =>
    cases ys with
    | nil => exact ⟨[], x :: xs, [], rfl, rfl, .inr ⟨by simp, plain x (by simp)⟩⟩
    | cons y ys =>
      by_cases same : x = y
      · subst same
        obtain ⟨common, xs', ys', rfl, rfl, parted⟩ :=
          ih (List.forall_mem_cons.mp plain).2 (List.forall_mem_cons.mp plain').2
        refine ⟨x :: common, xs', ys', rfl, rfl, ?_⟩
        rwa [List.cons.injEq, eq_self, true_and, ne_eq, List.cons.injEq, eq_self, true_and]
      · exact ⟨[], x :: xs, y :: ys, rfl, rfl, .inr ⟨fun all => same (List.cons.inj all).1, same⟩⟩

section
variable [DecidableEq S] {machine : Machine S} {mode : TapeMode} {start now last : Configuration S}

theorem afterThen {n m : Nat} (reached : machine.after? mode start n = some now)
    (later : machine.after? mode now m = some last) :
    machine.after? mode start (n + m) = some last := by
  induction m generalizing last with
  | zero =>
    cases later
    exact reached
  | succ m ih =>
    obtain ⟨before, found, step⟩ := Option.bind_eq_some_iff.mp later
    exact (afterSucc (ih found)).trans step

/- Induction on the word: each symbol of it goes over to those that are done. -/
theorem afterSweep {place : List S → List S → Configuration S} {word : List S}
    (moves : ∀ symbol ∈ word, ∀ done rest,
      machine.step? mode (place done (symbol :: rest)) = some (place (symbol :: done) rest))
    (done : List S) : machine.after? mode (place done word) word.length =
      some (place (word.reverse ++ done) []) := by
  induction word generalizing done with
  | nil => rfl
  | cons symbol rest ih =>
    have first : machine.after? mode (place done (symbol :: rest)) 1 =
        some (place (symbol :: done) rest) := moves symbol (List.mem_cons_self ..) done rest
    have later := ih (fun other mem => moves other (List.mem_cons_of_mem _ mem)) (symbol :: done)
    rw [List.length_cons, Nat.add_comm, List.reverse_cons, List.append_assoc, List.singleton_append]
    exact afterThen first later

end

theorem shiftFree (tape : Tape S) (move : Direction) :
    TapeMode.shift .biInfinite tape move = tape.shift move :=
  if_neg (by simp)

variable [DecidableEq S] {machine : Machine S}

theorem stepPair {state : Nat} {next : State} {a b c d : S} {move move' : Direction}
    {one other : Tape S} (mem : ⟨state, [a, b], next, [c, d], [move, move']⟩ ∈ machine.table.rules.toList)
    (here : one.read = a) (there : other.read = b) :
    machine.step? .biInfinite ⟨.ordinary state, [one, other]⟩ =
      some ⟨next, [(one.write c).shift move, (other.write d).shift move']⟩ := by
  rw [stepOfRule mem rfl (by rw [← here, ← there]; rfl)]
  simp only [act, shiftFree]

theorem stepOne {state : Nat} {next : State} {a c : S} {move : Direction} {tape : Tape S}
    (mem : ⟨state, [a], next, [c], [move]⟩ ∈ machine.table.rules.toList) (here : tape.read = a) :
    machine.step? .biInfinite ⟨.ordinary state, [tape]⟩ =
      some ⟨next, [(tape.write c).shift move]⟩ := by
  rw [stepOfRule mem rfl (by rw [← here]; rfl)]
  simp only [act, shiftFree]

open Tape in
/- A word is read on the one tape and those symbols of it that are kept are put on the other. -/
theorem afterTranscribed {state : Nat} {word : List S} (keep : S → Bool) (behind : List S)
    (copied : ∀ symbol ∈ word, keep symbol → ⟨state, [symbol, Symbol.blank], .ordinary state,
      [symbol, symbol], [.right, .right]⟩ ∈ machine.table.rules.toList)
    (skipped : ∀ symbol ∈ word, ¬ keep symbol → ⟨state, [symbol, Symbol.blank], .ordinary state,
      [symbol, Symbol.blank], [.right, .stay]⟩ ∈ machine.table.rules.toList) :
    machine.after? .biInfinite ⟨.ordinary state, [facing 0 [] (word ++ behind), facing 0 [] []]⟩
      word.length = some ⟨.ordinary state,
        [facing 0 word.reverse behind, facing 0 (word.filter keep).reverse []]⟩ := by
  let place : List S → List S → Configuration S := fun done rest =>
    ⟨.ordinary state, [facing 0 done (rest ++ behind), facing 0 (done.filter keep) []]⟩
  have moves : ∀ symbol ∈ word, ∀ done rest, machine.step? .biInfinite (place done (symbol :: rest)) =
      some (place (symbol :: done) rest) := by
    intro symbol mem done rest
    dsimp only [place]
    by_cases kept : keep symbol
    · rw [stepPair (copied symbol mem kept) rfl rfl, List.cons_append, facingBlank, rightFacing,
        rightFacing, List.filter_cons_of_pos kept]
    · rw [stepPair (skipped symbol mem kept) rfl rfl, List.cons_append, facingBlank, rightFacing,
        stayFacing, List.filter_cons_of_neg kept]
      rfl
  have swept := afterSweep moves []
  simpa [place, List.filter_reverse] using swept

section
variable {tapes : Nat} {symbols : List S} {rules : List (Rule S)}
  (consists : machine.Consists tapes symbols rules) {word : List S}
  (letters : ∀ symbol ∈ word, symbol ∈ symbols) {n bound : Nat}
include consists letters

theorem runReaching {last : Configuration S}
    (reached : machine.after? .biInfinite ⟨.ordinary 0,
      .facing 0 [] word :: List.replicate (tapes - 1) (.facing 0 [] [])⟩ n = some last)
    (terminal : last.state.isTerminal) (within : n ≤ bound) :
    machine.run ⟨bound, .biInfinite⟩ word = .ok (last.outcome n) := by
  have known : machine.alphabet.refuse? word = none := by
    refine refuseNoneIff.mpr fun symbol mem => Alphabet.memIff.mpr (.inr ?_)
    rw [consists.symbols]
    exact letters symbol mem
  refine runOfEnds known ⟨?_, within, .inr terminal⟩
  rw [consists.tapes, Configuration.start, Tape.ofInputFacing]
  exact reached

theorem runDeciding {yes : Prop} [Decidable yes] {last : List (Tape S)}
    (reached : machine.after? .biInfinite ⟨.ordinary 0,
      .facing 0 [] word :: List.replicate (tapes - 1) (.facing 0 [] [])⟩ n =
        some ⟨if yes then .accept else .reject, last⟩) (within : n ≤ bound) :
    ∃ outcome, machine.run ⟨bound, .biInfinite⟩ word = .ok outcome ∧
      outcome.verdict = (if yes then .accept else .reject) ∧ outcome.tapes = last := by
  by_cases decided : yes
  · rw [if_pos decided] at reached ⊢
    exact ⟨_, runReaching consists letters reached rfl within, rfl, rfl⟩
  · rw [if_neg decided] at reached ⊢
    exact ⟨_, runReaching consists letters reached rfl within, rfl, rfl⟩

end
end Multitape
