import Mathlib.Data.List.Induction
import Multitape.Proofs.SingleTape.Writing

/-! A mark that leaves its segment leaves a marked blank there, and the cells behind move
by one. The cells to be written again travel with the phase, one at a time, up to the right
end; from there the head goes back to the segment after the one that grew. What lies in front
of the marked blank does not matter to any of this. -/
namespace Multitape.SingleTape
open Instruction Layout
variable {S : Type} [Symbol S] [DecidableEq S] {machine : Machine S} {mode : TapeMode}
  {rule index : Nat} {left : List (Cell S)}

variable (machine) in
def Scan.resumed (rule index : Nat) (left : List (Cell S)) : List (Tape S) → Scan S
  | [] => .back (.phase (.rewind (resumeAfter machine rule))) left [.rightEnd]
  | next :: tapes => ⟨.phase (startMove machine rule (index + 1)), .separator :: left,
      segment next ++ behind tapes⟩

variable (machine) in
def Scan.moved (rule : Nat) (done : List (Tape S)) (tape : Tape S) : List (Tape S) → Scan S
  | [] => .back (.phase (.rewind (resumeAfter machine rule)))
      ((segment tape).reverse ++ front done) [.rightEnd]
  | next :: tapes => ⟨.phase (startMove machine rule (done.length + 1)), front (tape :: done),
      segment next ++ behind tapes⟩

omit [DecidableEq S] in
theorem movedResumed (done tapes : List (Tape S)) (tape : Tape S) :
    Scan.moved machine rule done tape tapes =
      .resumed machine rule done.length ((segment tape).reverse ++ front done) tapes := by
  cases tapes <;> rfl

omit [DecidableEq S] in
theorem resumedSilent {tapes : List (Tape S)} :
    ¬ (Scan.resumed machine rule index left tapes).Begins := by
  refine Scan.notBegins fun state => ?_
  cases tapes <;> simp [Scan.resumed, Scan.targetBack, startMove]

/- Each cell is put down where the next one is picked up; induction on those before the
right end. -/
theorem shifts {carried : Cell S} {cells ahead : List (Cell S)}
    (carry : cells ++ [.rightEnd] = carried :: ahead) (inside : left ≠ [])
    (known : ∀ cell ∈ cells, cell ∈ contents machine ∨ cell = .separator) :
    Travel machine mode ⟨.phase (.shift rule index carried), left, ahead⟩
      (.back (.phase (afterShift machine rule index)) (cells.reverse ++ left) [.rightEnd]) := by
  have silent : ∀ state, afterShift machine rule index ≠ .read state [] := by
    intro state
    unfold afterShift
    split <;> simp
  induction cells generalizing carried left ahead with
  | nil =>
    obtain ⟨rfl, rfl⟩ := List.cons.inj carry
    apply travelLeftBeyond
    · simp [instructions, put]
    · exact inside
    · exact silent
  | cons cell cells ih =>
    obtain ⟨rfl, rfl⟩ := List.cons.inj carry
    have other : cell ≠ .rightEnd := by
      rintro rfl
      rcases known .rightEnd (by simp) with inside | sep
      · obtain ⟨symbol, _, same | same⟩ := memContents.mp inside <;> cases same
      · cases sep
    obtain ⟨next, ahead, carry⟩ : ∃ next ahead, cells ++ [.rightEnd] = next :: ahead :=
      List.exists_cons_of_ne_nil (by simp)
    have first : Travel machine mode
        ⟨.phase (.shift rule index cell), left, cells ++ [.rightEnd]⟩
        ⟨.phase (.shift rule index next), cell :: left, ahead⟩ := by
      rw [carry]
      apply travelRight
      · simp only [instructions, if_neg other, List.mem_map]
        refine ⟨next, ?_, rfl⟩
        have member : next ∈ cells ++ [.rightEnd] := by simp [carry]
        rcases List.mem_append.mp member with old | last
        · rcases known next (by simp [old]) with inside | sep
          · exact List.mem_append_left _ inside
          · simp [SingleTape.cells, sep]
        · simp [SingleTape.cells, List.mem_singleton.mp last]
      · simp
    have later : Travel machine mode ⟨.phase (.shift rule index next), cell :: left, ahead⟩ _ :=
      ih carry (by simp) fun c mem => known c (List.mem_cons_of_mem _ mem)
    simpa using first.trans later

theorem backOver {remaining : Nat} {tape : Tape S} {ahead : List (Cell S)}
    (lettered : tape.Over machine.alphabet) (inside : left ≠ []) :
    Travel machine mode
      (.back (.phase (.back rule index remaining)) ((segment tape).reverse ++ left) ahead)
      (.back (.phase (.back rule index remaining)) left (segment tape ++ ahead)) := by
  have sweep : Travel machine mode
      (.back (.phase (.back rule index remaining)) ((segment tape).reverse ++ left) ahead)
      (.back (.phase (.back rule index remaining)) left
        (((segment tape).reverse.map id).reverse ++ ahead)) := by
    refine sweepLeft _ (fun cell mem => ?_) inside (by simp)
    refine List.mem_append_left _ (List.mem_map.mpr ⟨cell, ?_, rfl⟩)
    exact contentsOfSegment lettered (List.mem_reverse.mp mem)
  simpa using sweep

/- Back over the segments that have moved, the last one first: induction from that end. Each of
them has one separator in front, and behind the first of these the sweep goes on. -/
theorem returns {tapes later : List (Tape S)} (some : tapes ≠ [])
    (lettered : ∀ t ∈ tapes, t.Over machine.alphabet) :
    Travel machine mode
      (.back (.phase (.back rule index tapes.length)) ((opened tapes).reverse ++ left)
        (behind later))
      (.resumed machine rule index left (tapes ++ later)) := by
  induction tapes using List.reverseRecOn generalizing later with
  | nil => exact absurd rfl some
  | append_singleton others last ih =>
    have crossed : Travel machine mode
        (.back (.phase (.back rule index (others.length + 1)))
          ((segment last).reverse ++ .separator :: ((opened others).reverse ++ left))
          (behind later)) _ := backOver (lettered last (by simp)) (by simp)
    have shape : (opened (others ++ [last])).reverse ++ left =
        (segment last).reverse ++ .separator :: ((opened others).reverse ++ left) := by
      simp [opened]
    rw [shape, List.length_append, List.length_singleton]
    apply crossed.trans
    cases others with
    | nil =>
      refine Travel.step (stepRight ?_) resumedSilent
      exact List.mem_append_right _ (by simp [Instruction.pass, put])
    | cons first others =>
      have passed : Travel machine mode
          ⟨.phase (.back rule index ((first :: others).length + 1)),
            (opened (first :: others)).reverse ++ left, behind (last :: later)⟩
          (.back (.phase (.back rule index (first :: others).length))
            ((opened (first :: others)).reverse ++ left) (behind (last :: later))) := by
        apply travelLeft
        · exact List.mem_append_right _ (by simp [Instruction.pass, put])
        · simp [opened]
        · simp
      have rest : Travel machine mode _
          (.resumed machine rule index left ((first :: others) ++ last :: later)) :=
        ih (by simp) fun t mem => lettered t (List.mem_append_left _ mem)
      rw [List.append_assoc]
      exact passed.trans rest

/- The carried cell and those ahead are the rest of the segment and all that lies behind it. -/
theorem inserts {tapes : List (Tape S)} {carried : Cell S} {ahead rest : List (Cell S)}
    (count : index + 1 + tapes.length = machine.tapes)
    (lettered : ∀ t ∈ tapes, t.Over machine.alphabet) (inside : left ≠ [])
    (carry : carried :: ahead = rest ++ behind tapes)
    (known : ∀ cell ∈ rest, cell ∈ contents machine) :
    Travel machine mode ⟨.phase (.shift rule index carried), left, ahead⟩
      (.resumed machine rule index (rest.reverse ++ left) tapes) := by
  have shifted : Travel machine mode ⟨.phase (.shift rule index carried), left, ahead⟩
      (.back (.phase (afterShift machine rule index)) ((rest ++ opened tapes).reverse ++ left)
        [.rightEnd]) := by
    refine shifts (by rw [carry, behindOpened, List.append_assoc]) inside fun cell mem => ?_
    rcases List.mem_append.mp mem with old | later
    · exact .inl (known cell old)
    · rcases memOpened later with sep | ⟨t, ht, hcell⟩
      · exact .inr sep
      · exact .inl (contentsOfSegment (lettered t ht) hcell)
  apply shifted.trans
  rw [List.reverse_append, List.append_assoc]
  cases tapes with
  | nil =>
    have after : afterShift machine rule index = .rewind (resumeAfter machine rule) := by
      simp only [List.length_nil] at count
      rw [afterShift, if_neg (by omega)]
    rw [after]
    exact Travel.refl _
  | cons next tapes =>
    have after : afterShift machine rule index = .back rule index (next :: tapes).length := by
      rw [afterShift, if_pos (by simp only [List.length_cons] at count; omega)]
      congr 1
      omega
    have back : Travel machine mode
        (.back (.phase (.back rule index (next :: tapes).length))
          ((opened (next :: tapes)).reverse ++ (rest.reverse ++ left)) (behind []))
        (.resumed machine rule index (rest.reverse ++ left) ((next :: tapes) ++ [])) :=
      returns (by simp) lettered
    rw [after]
    simpa [behind] using back

omit [DecidableEq S] in
theorem behindBoundary {tapes : List (Tape S)} (count : index + 1 + tapes.length = machine.tapes) :
    ∃ cells, behind tapes = boundaryAfter machine index :: cells := by
  cases tapes with
  | nil =>
    simp only [List.length_nil] at count
    exact ⟨[], by rw [boundaryAfter, if_neg (by omega)]; rfl⟩
  | cons next tapes =>
    simp only [List.length_cons] at count
    exact ⟨segment next ++ behind tapes, by rw [boundaryAfter, if_pos (by omega)]; rfl⟩

section
variable {tapes : List (Tape S)} (count : index + 1 + tapes.length = machine.tapes)
  (lettered : ∀ t ∈ tapes, t.Over machine.alphabet)
include count lettered

/- The mark that went beyond the last cell of its segment. -/
theorem insertsBehind :
    Travel machine mode ⟨.phase (.markNext rule index), left, behind tapes⟩
      (.resumed machine rule index (.marked Symbol.blank :: left) tapes) := by
  obtain ⟨cells, shape⟩ := behindBoundary count
  have grown : Travel machine mode
      ⟨.phase (.markNext rule index), left, boundaryAfter machine index :: cells⟩
      ⟨.phase (.shift rule index (boundaryAfter machine index)), .marked Symbol.blank :: left,
        cells⟩ := by
    apply travelRight
    · exact List.mem_append_right _ (by simp)
    · simp
  have carry : boundaryAfter machine index :: cells = [] ++ behind tapes := shape.symm
  rw [shape]
  exact grown.trans (inserts count lettered (by simp) carry (by simp))

/- The mark that went before the first cell of its segment. -/
theorem insertsBefore {symbol : S} {rest : List S}
    (known : ∀ s ∈ symbol :: rest, s ∈ machine.alphabet) :
    Travel machine mode
      ⟨.phase (.insertBlank rule index), left, (symbol :: rest).map .plain ++ behind tapes⟩
      (.resumed machine rule index
        (((symbol :: rest).map .plain).reverse ++ .marked Symbol.blank :: left) tapes) := by
  have blank : Travel machine mode
      ⟨.phase (.insertBlank rule index), left, .plain symbol :: (rest.map .plain ++ behind tapes)⟩
      ⟨.phase (.shift rule index (.plain symbol)), .marked Symbol.blank :: left,
        rest.map .plain ++ behind tapes⟩ := by
    apply travelRight
    · exact List.mem_map.mpr ⟨symbol, Alphabet.memWithBlank.mpr (known symbol (by simp)), rfl⟩
    · simp
  have carry : .plain symbol :: (rest.map .plain ++ behind tapes) =
      (symbol :: rest).map .plain ++ behind tapes := rfl
  refine blank.trans (inserts count lettered (by simp) carry fun cell mem => ?_)
  obtain ⟨s, hs, rfl⟩ := List.mem_map.mp mem
  exact memContents.mpr ⟨s, known s hs, .inl rfl⟩

end
end Multitape.SingleTape
