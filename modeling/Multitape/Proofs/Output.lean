import Mathlib.Data.List.DropRight
import Multitape.Run.Step
import Multitape.Tape

/-! What a tape holds apart from the blanks at both ends: the one part of its cells that neither
starts nor ends with a blank and has nothing but blanks around it. Moving the head adds blanks
there at most, so it keeps the output. -/
namespace Multitape

section
variable {α β : Type} {drop : α → Bool} {before xs after : List α}

theorem trimBefore (dropped : ∀ x ∈ before, drop x) :
    trim drop (before ++ xs) = trim drop xs := by
  unfold trim
  rw [List.dropWhile_append_of_pos dropped]

theorem trimAfter (dropped : ∀ x ∈ after, drop x) :
    trim drop (xs ++ after) = trim drop xs := by
  have reversed : ∀ x ∈ after.reverse, drop x := fun x mem => dropped x (List.mem_reverse.mp mem)
  unfold trim
  rw [List.dropWhile_append]
  split
  · rename_i all
    have gone : after.dropWhile drop = [] := List.dropWhile_eq_nil_iff.mpr dropped
    rw [gone, List.isEmpty_iff.mp all]
  · rw [List.reverse_append, List.dropWhile_append_of_pos reversed]

theorem trimMap {keep : β → Bool} {f : α → β} (same : ∀ x, keep (f x) = drop x) :
    trim keep (xs.map f) = (trim drop xs).map f := by
  have both : keep ∘ f = drop := funext same
  unfold trim
  rw [List.dropWhile_map, both, ← List.map_reverse, List.dropWhile_map, both, List.map_reverse]

theorem memTrim {x : α} (mem : x ∈ trim drop xs) : x ∈ xs := by
  have kept := List.mem_reverse.mp ((List.dropWhile_sublist _).mem (List.mem_reverse.mp mem))
  exact (List.dropWhile_sublist _).mem kept

theorem trimSelf (first : ∀ x ∈ xs.head?, ¬ drop x) (last : ∀ x ∈ xs.getLast?, ¬ drop x) :
    trim drop xs = xs := by
  have front : xs.dropWhile drop = xs := by
    refine List.dropWhile_eq_self_iff.mpr fun filled => first _ ?_
    rw [List.head?_eq_getElem?, List.getElem?_eq_getElem filled]
    rfl
  have back : xs.rdropWhile drop = xs :=
    List.rdropWhile_eq_self_iff.mpr fun filled => last _ (List.getLast?_eq_some_getLast filled)
  unfold trim
  rw [front]
  exact back

theorem trimIff {inner : List α} : trim drop xs = inner ↔
    ∃ before after, xs = before ++ inner ++ after ∧ (∀ x ∈ before, drop x) ∧
      (∀ x ∈ after, drop x) ∧ (∀ x ∈ inner.head?, ¬ drop x) ∧ ∀ x ∈ inner.getLast?, ¬ drop x := by
  constructor
  · rintro rfl
    have parts : trim drop xs ++ (xs.dropWhile drop).rtakeWhile drop = xs.dropWhile drop :=
      List.rdropWhile_append_rtakeWhile
    refine ⟨xs.takeWhile drop, (xs.dropWhile drop).rtakeWhile drop, ?_,
      fun x => List.mem_takeWhile_imp, fun x => List.mem_rtakeWhile_imp, fun x first => ?_,
      fun x last => ?_⟩
    · rw [List.append_assoc, parts, List.takeWhile_append_dropWhile]
    · have kept := List.head?_dropWhile_not drop xs
      rw [← parts, List.head?_append, first] at kept
      simpa using kept
    · obtain ⟨filled, rfl⟩ := List.mem_getLast?_eq_getLast last
      exact List.rdropWhile_last_not drop _ filled
  · intro parts
    obtain ⟨before, after, rfl, front, back, first, last⟩ := parts
    rw [List.append_assoc, trimBefore front, trimAfter back, trimSelf first last]

end

variable {S : Type} [Symbol S] [DecidableEq S]

theorem blanksIff {cells : List S} : (∀ symbol ∈ cells, Symbol.isBlank symbol) ↔
    ∃ count, cells = List.replicate count Symbol.blank := by
  simp only [Symbol.isBlank, decide_eq_true_iff]
  constructor
  · intro blank
    exact ⟨_, List.eq_replicate_of_mem blank⟩
  · intro filled symbol mem
    obtain ⟨count, rfl⟩ := filled
    exact List.eq_of_mem_replicate mem

theorem outputIff {tape : Tape S} {inner : List S} : tape.output = inner ↔
    ∃ before after, tape.cells = List.replicate before Symbol.blank ++ inner ++
        List.replicate after Symbol.blank ∧
      inner.head? ≠ some Symbol.blank ∧ inner.getLast? ≠ some Symbol.blank := by
  have unlike : ∀ symbol? : Option S,
      (∀ symbol ∈ symbol?, ¬ Symbol.isBlank symbol) ↔ symbol? ≠ some Symbol.blank := by
    intro symbol?
    cases symbol? <;> simp [Symbol.isBlank]
  rw [Tape.output, trimIff]
  simp only [blanksIff, unlike]
  constructor
  · intro parts
    obtain ⟨_, _, cells, ⟨before, rfl⟩, ⟨after, rfl⟩, ends⟩ := parts
    exact ⟨before, after, cells, ends⟩
  · intro parts
    obtain ⟨before, after, cells, ends⟩ := parts
    exact ⟨_, _, cells, ⟨before, rfl⟩, ⟨after, rfl⟩, ends⟩

theorem outputShift (tape : Tape S) (move : Direction) : (tape.shift move).output = tape.output := by
  have blank : ∀ s ∈ [(Symbol.blank : S)], Symbol.isBlank s := by simp [Symbol.isBlank]
  cases move with
  | stay => rfl
  | right =>
    cases split : tape.right with
    | nil =>
      have grown : (tape.shift .right).cells = tape.cells ++ [Symbol.blank] := by
        simp [Tape.cells, Tape.shift, split]
      rw [Tape.output, grown, trimAfter blank, Tape.output]
    | cons symbol rest =>
      have same : (tape.shift .right).cells = tape.cells := by simp [Tape.cells, Tape.shift, split]
      rw [Tape.output, same, Tape.output]
  | left =>
    cases split : tape.left with
    | nil =>
      have grown : (tape.shift .left).cells = [Symbol.blank] ++ tape.cells := by
        simp [Tape.cells, Tape.shift, split]
      rw [Tape.output, grown, trimBefore blank, Tape.output]
    | cons symbol rest =>
      have same : (tape.shift .left).cells = tape.cells := by simp [Tape.cells, Tape.shift, split]
      rw [Tape.output, same, Tape.output]

theorem outputModeShift (mode : TapeMode) (tape : Tape S) (move : Direction) :
    (mode.shift tape move).output = tape.output := by
  unfold TapeMode.shift
  split
  · rfl
  · exact outputShift tape move

end Multitape
