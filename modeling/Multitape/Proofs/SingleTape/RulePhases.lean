import Mathlib.Data.List.Induction
import Mathlib.Data.List.Nodup
import Multitape.Proofs.SingleTape.Numbering

/-! The phases of a source step. Once the start of a step has a number, so has each phase that a
rule of its state leads to: one for each part of what it reads, those that write, and those that
move each mark, the phases that make room for it among them. -/
namespace Multitape.SingleTape
open Instruction
variable {S : Type} [Symbol S] [DecidableEq S] {machine : Machine S} {mode : TapeMode}

variable (machine mode) in
def Numbered (phase : Phase S) : Prop := phase ∈ (numbering machine mode).phases

variable (several : 2 ≤ machine.tapes)
include several

/- The layout is put down, and the first source step begins. -/
theorem numberedTerminator {tape : Nat} (numbered : Numbered machine mode (.layBlank tape)) :
    Numbered machine mode .terminator := by
  have next := numberedNext several numbered (List.mem_singleton.mpr rfl) rfl
  split at next
  · rename_i more
    have laid : Numbered machine mode (.layBlank (tape + 1)) :=
      numberedNext several next (List.mem_singleton.mpr rfl) rfl
    exact numberedTerminator laid
  · exact next
termination_by machine.tapes - tape

theorem numberedStart : Numbered machine mode .start :=
  Array.mem_of_getElem? (numberedFirst several)

theorem numberedFirstBlank : Numbered machine mode (.layBlank 0) :=
  numberedNext several (numberedStart several)
    (List.mem_append_right _ (List.mem_singleton.mpr rfl)) rfl

theorem numberedSegment {tape : Nat} (inside : tape < machine.tapes) :
    Numbered machine mode (.layBlank tape) ∧ (0 < tape → Numbered machine mode (.separator tape)) := by
  induction tape with
  | zero => exact ⟨numberedFirstBlank several, fun positive => absurd positive (Nat.lt_irrefl 0)⟩
  | succ tape ih =>
    have separates := numberedNext several (ih (by omega)).1 (List.mem_singleton.mpr rfl) rfl
    rw [if_pos inside] at separates
    exact ⟨numberedNext several separates (List.mem_singleton.mpr rfl) rfl, fun _ => separates⟩

/- Laying out the segments alone takes two phases for each of them and one more. -/
theorem laidSize : 2 * machine.tapes < (numbering machine mode).phases.size := by
  let laid : List (Phase S) := .start :: .terminator ::
    ((List.range machine.tapes).map Phase.layBlank ++
      (List.range (machine.tapes - 1)).map fun tape => Phase.separator (tape + 1))
  have distinct : laid.Nodup := by
    have blanks : ((List.range machine.tapes).map (Phase.layBlank (S := S))).Nodup :=
      List.nodup_range.map fun _ _ => Phase.layBlank.inj
    have separators : ((List.range (machine.tapes - 1)).map
        fun tape => Phase.separator (S := S) (tape + 1)).Nodup :=
      List.nodup_range.map fun _ _ same => Nat.succ.inj (Phase.separator.inj same)
    refine List.nodup_cons.mpr ⟨by simp, List.nodup_cons.mpr ⟨by simp, ?_⟩⟩
    exact List.nodup_append.mpr ⟨blanks, separators, by simp⟩
  have numbered : laid ⊆ (numbering machine mode).phases.toList := by
    intro phase mem
    apply Array.mem_toList_iff.mpr
    simp only [laid, List.mem_append, List.mem_cons, List.mem_map, List.mem_range] at mem
    rcases mem with rfl | rfl | ⟨tape, inside, rfl⟩ | ⟨tape, inside, rfl⟩
    · exact numberedStart several
    · exact numberedTerminator several (numberedFirstBlank several)
    · exact (numberedSegment several inside).1
    · exact (numberedSegment several (by omega)).2 (Nat.succ_pos tape)
  have few := distinct.length_le_of_subset numbered
  simp only [laid, List.length_append, List.length_cons, List.length_map, List.length_range,
    Array.length_toList] at few
  omega

theorem numberedFirstRead : Numbered machine mode (.read 0 []) := by
  have done : Numbered machine mode .terminator :=
    numberedTerminator several (numberedFirstBlank several)
  have back : Numbered machine mode (.rewind (.read 0)) :=
    numberedNext several done (List.mem_singleton.mpr rfl) rfl
  exact numberedNext several back (List.mem_append_right _ (List.mem_singleton.mpr rfl)) rfl

omit several in
theorem readsMarked {state : Nat} {seen : List S} {symbol : S} (room : seen.length < machine.tapes)
    (known : symbol ∈ machine.alphabet) :
    (if isKnown machine state (seen ++ [symbol])
      then pass (.marked symbol) .right (.read state (seen ++ [symbol]))
      else pass (.marked symbol) .left (.rewind (.cleanup .reject))) ∈
        instructions machine mode (.read state seen) := by
  simp only [instructions, if_pos room]
  exact List.mem_append_right _ (List.mem_cons_of_mem _
    (List.mem_map.mpr ⟨symbol, Alphabet.memWithBlank.mpr known, rfl⟩))

theorem numberedReadKnown {state : Nat} {seen : List S} {symbol : S}
    (numbered : Numbered machine mode (.read state seen)) (room : seen.length < machine.tapes)
    (known : symbol ∈ machine.alphabet) (begun : isKnown machine state (seen ++ [symbol])) :
    Numbered machine mode (.read state (seen ++ [symbol])) := by
  have marked : _ ∈ instructions machine mode (.read state seen) := readsMarked room known
  rw [if_pos begun] at marked
  exact numberedNext several numbered marked rfl

theorem numberedWriteFound {state rule : Nat} {seen : List S}
    (numbered : Numbered machine mode (.read state seen)) (all : seen.length = machine.tapes)
    (found : machine.table.position? state seen = some rule) :
    Numbered machine mode (.write rule (machine.tapes - 1)) := by
  have full : ¬ seen.length < machine.tapes := by omega
  have writes : pass .rightEnd .left (.write rule (machine.tapes - 1)) ∈
      instructions machine mode (.read state seen) := by simp [instructions, full, found]
  exact numberedNext several numbered writes rfl

/- Induction on the segments from the last to the first. -/
theorem numberedWriteFirst {rule tape : Nat} (numbered : Numbered machine mode (.write rule tape)) :
    Numbered machine mode (.write rule 0) := by
  induction tape with
  | zero => exact numbered
  | succ tape ih =>
    have onward : pass .separator .left (.write rule tape) ∈
        instructions machine mode (.write rule (tape + 1)) := by simp [instructions]
    exact ih (numberedNext several numbered onward rfl)

theorem numberedFirstMove {rule state : Nat} (resumes : resumeAfter machine rule = .read state)
    (numbered : Numbered machine mode (.write rule 0)) :
    Numbered machine mode (startMove machine rule 0) := by
  have moves : pass .leftEnd .right (startMove machine rule 0) ∈
      instructions machine mode (.write rule 0) := by simp [instructions, resumes]
  exact numberedNext several numbered moves rfl

theorem numberedNextMove {rule tape : Nat} (more : tape + 1 < machine.tapes)
    (numbered : Numbered machine mode (startMove machine rule tape)) :
    Numbered machine mode (startMove machine rule (tape + 1)) := by
  have onward : pass .separator .right (startMove machine rule (tape + 1)) ∈
      instructions machine mode (startMove machine rule tape) := by
    simp [instructions, startMove, more]
  exact numberedNext several numbered onward rfl

theorem numberedRewind {rule tape : Nat}
    (numbered : Numbered machine mode (startMove machine rule tape)) :
    Numbered machine mode (.rewind (resumeAfter machine rule)) := by
  by_cases more : tape + 1 < machine.tapes
  · exact numberedRewind (numberedNextMove several more numbered)
  · have last : pass .rightEnd .left (.rewind (resumeAfter machine rule)) ∈
        instructions machine mode (startMove machine rule tape) := by
      simp [instructions, startMove, more]
    exact numberedNext several numbered last rfl
termination_by machine.tapes - tape

section
variable {rule next : Nat} {source : Rule S} (here : machine.table.rules[rule]? = some source)
  (numbered : Numbered machine mode (.read source.state []))
include here numbered

/- Induction on the symbols read. -/
theorem numberedPrefix {seen : List S} (begins : seen <+: source.read) :
    Numbered machine mode (.read source.state seen) := by
  have mem := Array.mem_toList_iff.mpr (Array.mem_of_getElem? here)
  have fits := machine.fits source mem
  induction seen using List.reverseRecOn with
  | nil => exact numbered
  | append_singleton seen symbol ih =>
    have inside : symbol ∈ source.read := begins.subset (by simp)
    have length := begins.length_le
    rw [List.length_append, List.length_singleton, fits.read] at length
    exact numberedReadKnown several (ih ((List.prefix_append _ _).trans begins)) (by omega)
      (fits.symbols symbol (List.mem_append_left _ inside))
      (isKnownIff.mpr ⟨source, mem, rfl, begins⟩)

/- Induction on the segments that the mark moves in before. -/
theorem numberedMove (ordinary : source.next = .ordinary next) {tape : Nat}
    (room : tape < machine.tapes) : Numbered machine mode (startMove machine rule tape) := by
  induction tape with
  | zero =>
    have fits := Machine.fitsAt here
    have read := numberedPrefix several here numbered (List.prefix_refl _)
    have write := numberedWriteFound several read fits.read (Table.positionAt here)
    exact numberedFirstMove several (resumeAfterOrdinary here ordinary)
      (numberedWriteFirst several write)
  | succ tape ih => exact numberedNextMove several room (ih (by omega))

section
variable (ordinary : source.next = .ordinary next) {tape : Nat} {direction : Direction}
  (moves : source.moves[tape]? = some direction)
include ordinary moves

theorem numberedMoved (leaves : direction ≠ .stay) :
    Numbered machine mode (.move rule tape false) ∧ movedBy machine rule tape = direction := by
  have room := (List.getElem?_eq_some_iff.mp moves).1
  rw [(Machine.fitsAt here).moves] at room
  obtain rfl := Option.some.inj (moves.symm.trans (movesAt here room))
  have move := numberedMove several here numbered ordinary room
  rw [startMove, decide_eq_false leaves] at move
  exact ⟨move, rfl⟩

/- Each rule that moves right has the phase that may append a cell. -/
theorem numberedMarkNext (right : direction = .right) :
    Numbered machine mode (.markNext rule tape) := by
  obtain ⟨move, moved⟩ := numberedMoved several here numbered ordinary moves (by simp [right])
  have marked : put (.marked Symbol.blank) (.markNext rule tape) (.plain Symbol.blank) .right ∈
      instructions machine mode (.move rule tape false) := by
    refine List.mem_append_left _ (List.mem_flatMap.mpr ⟨Symbol.blank, ?_, ?_⟩)
    · exact Alphabet.memWithBlank.mpr machine.alphabet.blankMem
    · simp [moved, right]
  exact numberedNext several move marked rfl

/- Each rule that moves left has the phase that puts a cell in front, where tapes reach to both
sides. -/
theorem numberedInsertBlank (left : direction = .left) (both : mode = .biInfinite) :
    Numbered machine mode (.insertBlank rule tape) := by
  obtain ⟨move, moved⟩ := numberedMoved several here numbered ordinary moves (by simp [left])
  have marked : put (.marked Symbol.blank) (.markPrevious rule tape) (.plain Symbol.blank) .left ∈
      instructions machine mode (.move rule tape false) := by
    refine List.mem_append_left _ (List.mem_flatMap.mpr ⟨Symbol.blank, ?_, ?_⟩)
    · exact Alphabet.memWithBlank.mpr machine.alphabet.blankMem
    · simp [moved, left]
  have previous := numberedNext several move marked rfl
  refine numberedNext several previous (List.mem_append_right _ (List.mem_singleton.mpr rfl)) ?_
  rw [both]
  rfl

end
end

end Multitape.SingleTape
