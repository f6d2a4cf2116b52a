import Multitape.Proofs.SingleTape.Reading

/-! The sweep that writes. It goes back from the right end and replaces the one marked cell
of each segment, the last segment first. -/
namespace Multitape.SingleTape
open Instruction Layout
variable {S : Type} [Symbol S] [DecidableEq S] {machine : Machine S} {mode : TapeMode}
  {rule : Nat}

def rewritten (symbol : S) : Cell S → Cell S
  | .marked _ => .marked symbol
  | cell => cell

omit [Symbol S] [DecidableEq S] in
theorem segmentWrite (tape : Tape S) (symbol : S) :
    (segment tape).map (rewritten symbol) = segment (tape.write symbol) := by
  simp [segment, rewritten, Tape.write, Function.comp_def]

variable (machine) in
def written (rule : Nat) (tapes : List (Tape S)) : List (Tape S) :=
  tapes.mapIdx fun index tape => tape.write (writtenBy machine rule index)

theorem writesSegment {tape : Tape S} {index : Nat} {left ahead : List (Cell S)} (inside : left ≠ [])
    (lettered : tape.Over machine.alphabet) :
    Travel machine mode (.back (.phase (.write rule index)) ((segment tape).reverse ++ left) ahead)
      (.back (.phase (.write rule index)) left
        (segment (tape.write (writtenBy machine rule index)) ++ ahead)) := by
  have sweep : Travel machine mode
      (.back (.phase (.write rule index)) ((segment tape).reverse ++ left) ahead)
      (.back (.phase (.write rule index)) left
        (((segment tape).reverse.map (rewritten (writtenBy machine rule index))).reverse ++
          ahead)) := by
    refine sweepLeft _ (fun cell mem => ?_) inside (by simp)
    obtain ⟨symbol, known, rfl | rfl⟩ :=
      memContents.mp (contentsOfSegment lettered (List.mem_reverse.mp mem))
    all_goals
      refine List.mem_append_left _ (List.mem_flatMap.mpr ⟨symbol, ?_, ?_⟩)
      · exact Alphabet.memWithBlank.mpr known
      · simp [rewritten, Instruction.pass, put]
  rw [List.map_reverse, List.reverse_reverse, segmentWrite] at sweep
  exact sweep

/- Induction over the segments in front, which are still to be written. -/
theorem writesThrough {done tapes : List (Tape S)} {tape : Tape S}
    (lettered : ∀ t ∈ done.reverse ++ [tape], t.Over machine.alphabet) :
    Travel machine mode
      (.back (.phase (.write rule done.length)) ((segment tape).reverse ++ front done)
        (behind tapes))
      ⟨.phase (.write rule 0), [], whole (written machine rule (done.reverse ++ [tape]) ++ tapes)⟩ := by
  induction done generalizing tape tapes with
  | nil =>
    have here : Travel machine mode
        (.back (.phase (.write rule 0)) ((segment tape).reverse ++ [.leftEnd]) (behind tapes)) _ :=
      writesSegment (by simp) (lettered tape (by simp))
    simpa [written, wholeCons, Scan.back, front] using here
  | cons previous done ih =>
    rw [List.reverse_cons] at lettered ⊢
    have here : Travel machine mode
        (.back (.phase (.write rule (done.length + 1)))
          ((segment tape).reverse ++ front (previous :: done)) (behind tapes)) _ :=
      writesSegment (frontNonempty _) (lettered tape (by simp))
    let next := tape.write (writtenBy machine rule (done.length + 1))
    have passed : Travel machine mode
        ⟨.phase (.write rule (done.length + 1)), (segment previous).reverse ++ front done,
          behind (next :: tapes)⟩
        (.back (.phase (.write rule done.length)) ((segment previous).reverse ++ front done)
          (behind (next :: tapes))) := by
      apply travelLeft
      · exact List.mem_append_right _ (by simp [Instruction.pass, put])
      · simp [frontNonempty]
      · simp
    have later : Travel machine mode (.back (.phase (.write rule done.length))
        ((segment previous).reverse ++ front done) (behind (next :: tapes))) _ :=
      ih fun t mem => lettered t (List.mem_append_left _ mem)
    have shape : written machine rule (done.reverse ++ [previous] ++ [tape]) ++ tapes =
        written machine rule (done.reverse ++ [previous]) ++ next :: tapes := by
      simp [written, next, List.mapIdx_append, Nat.add_comm 1]
    rw [shape]
    exact here.trans (passed.trans later)

/- All of the sweep: from the right end to the left one. -/
theorem writesAll {tapes : List (Tape S)} (lettered : ∀ t ∈ tapes, t.Over machine.alphabet)
    (count : tapes.length = machine.tapes) :
    Travel machine mode
      (.back (.phase (.write rule (machine.tapes - 1))) ((segments tapes).reverse ++ [.leftEnd])
        [.rightEnd])
      ⟨.phase (.write rule 0), [], whole (written machine rule tapes)⟩ := by
  obtain rfl | ⟨others, last, rfl⟩ := tapes.eq_nil_or_concat
  · have := machine.hasTapes
    simp only [List.length_nil] at count
    omega
  · have split := List.reverse_reverse others
    rw [List.concat_eq_append, ← split] at lettered count ⊢
    have index : machine.tapes - 1 = others.reverse.length := by
      rw [← count]
      simp
    rw [index, ← frontSegment]
    have through : Travel machine mode (.back (.phase (.write rule others.reverse.length))
        ((segment last).reverse ++ front others.reverse) (behind [])) _ := writesThrough lettered
    simpa [behind] using through

section
variable {source : Rule S} (here : machine.table.rules[rule]? = some source)
include here
omit [DecidableEq S]

theorem movesAt {tape : Nat} (room : tape < machine.tapes) :
    source.moves[tape]? = some (movedBy machine rule tape) := by
  have moves : source.moves[tape]? = some _ :=
    List.getElem?_eq_getElem (by rw [(Machine.fitsAt here).moves]; exact room)
  simp [movedBy, here, moves]

theorem resumeAfterOrdinary {state : Nat} (ordinary : source.next = .ordinary state) :
    resumeAfter machine rule = .read state := by
  simp [resumeAfter, here, ordinary]

theorem resumeAfterTerminal (terminal : source.next.isTerminal) :
    resumeAfter machine rule = .cleanup source.next := by
  cases h : source.next <;> simp_all [resumeAfter, State.isTerminal, State.number?]

end

theorem startsMoving {state : Nat} {ahead : List (Cell S)}
    (more : resumeAfter machine rule = .read state) :
    Travel machine mode ⟨.phase (.write rule 0), [], .leftEnd :: ahead⟩
      ⟨.phase (startMove machine rule 0), [.leftEnd], ahead⟩ := by
  apply travelRight
  · exact List.mem_append_right _ (by simp [more, Instruction.pass, put])
  · simp [startMove]

theorem startsCleaning {terminal : State} {ahead : List (Cell S)}
    (stops : resumeAfter machine rule = .cleanup terminal) :
    Travel machine mode ⟨.phase (.write rule 0), [], .leftEnd :: ahead⟩
      ⟨.phase (.cleanup terminal 0), [.plain Symbol.blank], ahead⟩ := by
  apply travelRight
  · exact List.mem_append_right _ (by simp [stops, beginCleanup, put])
  · simp

end Multitape.SingleTape
