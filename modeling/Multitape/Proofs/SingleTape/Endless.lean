import Multitape.Proofs.SingleTape.RulePhases

/-! Machines that never stop. Where no rule of a compiled machine stops it, no phase for a
cleanup has a number, and each step of the source leads from one numbered phase to another: the
numbered phases know of every state that the source can come to, on whatever tapes. So the
source cannot stop either. -/
namespace Multitape.SingleTape
open Instruction
variable {S : Type} [Symbol S] [DecidableEq S] {machine : Machine S} {mode : TapeMode}

variable (machine mode) in
def Endless : Prop := ∀ phase, Numbered machine mode phase →
  ∀ instruction ∈ instructions machine mode phase, ∀ state, instruction.target ≠ .terminal state

section
variable (several : 2 ≤ machine.tapes) (endless : Endless machine mode)
include several endless

/- A cleanup goes on to the last segment, where it stops. -/
theorem noCleanup {terminal : State} {tape : Nat} :
    ¬ Numbered machine mode (.cleanup terminal tape) := by
  intro numbered
  by_cases more : tape + 1 < machine.tapes
  · have onward : put .separator (.cleanup terminal (tape + 1)) (.plain Symbol.blank) .right ∈
        instructions machine mode (.cleanup terminal tape) := by simp [instructions, more]
    exact noCleanup (numberedNext several numbered onward rfl)
  · have last : ⟨.rightEnd, .terminal terminal, .plain Symbol.blank, .stay⟩ ∈
        instructions machine mode (.cleanup terminal tape) := by simp [instructions, more]
    exact endless _ numbered _ last _ rfl
termination_by machine.tapes - tape

theorem noRewind {terminal : State} : ¬ Numbered machine mode (.rewind (.cleanup terminal)) := by
  intro numbered
  exact noCleanup several endless (numberedNext several numbered
    (List.mem_append_right _ (List.mem_singleton.mpr rfl)) rfl)

theorem numberedReadOne {state : Nat} {seen : List S} {symbol : S}
    (numbered : Numbered machine mode (.read state seen)) (room : seen.length < machine.tapes)
    (known : symbol ∈ machine.alphabet) :
    Numbered machine mode (.read state (seen ++ [symbol])) := by
  by_cases begun : isKnown machine state (seen ++ [symbol])
  · exact numberedReadKnown several numbered room known begun
  · have marked : _ ∈ instructions machine mode (.read state seen) := readsMarked room known
    rw [if_neg begun] at marked
    exact absurd (numberedNext several numbered marked rfl) (noRewind several endless)

/- Induction on the symbols that are still to be read. -/
theorem numberedReadAll {state : Nat} {seen more : List S}
    (numbered : Numbered machine mode (.read state seen))
    (room : seen.length + more.length ≤ machine.tapes)
    (known : ∀ symbol ∈ more, symbol ∈ machine.alphabet) :
    Numbered machine mode (.read state (seen ++ more)) := by
  induction more generalizing seen with
  | nil => rwa [List.append_nil]
  | cons symbol more ih =>
    obtain ⟨first, others⟩ := List.forall_mem_cons.mp known
    rw [List.length_cons] at room
    have next := numberedReadOne several endless numbered (by omega) first
    have rest := ih next (by rw [List.length_append, List.length_singleton]; omega) others
    rwa [List.append_assoc, List.singleton_append] at rest

theorem numberedWrite {state : Nat} {seen : List S}
    (numbered : Numbered machine mode (.read state seen)) (all : seen.length = machine.tapes) :
    ∃ rule, machine.table.position? state seen = some rule ∧
      Numbered machine mode (.write rule (machine.tapes - 1)) := by
  cases found : machine.table.position? state seen with
  | none =>
    have full : ¬ seen.length < machine.tapes := by omega
    have rejects : pass .rightEnd .left (.rewind (.cleanup .reject)) ∈
        instructions machine mode (.read state seen) := by simp [instructions, full, found]
    exact absurd (numberedNext several numbered rejects rfl) (noRewind several endless)
  | some rule => exact ⟨rule, rfl, numberedWriteFound several numbered all found⟩

/- A rule that stops begins its cleanup at the left end. -/
theorem numberedStartMove {rule tape : Nat} (numbered : Numbered machine mode (.write rule tape)) :
    Numbered machine mode (startMove machine rule 0) := by
  have first := numberedWriteFirst several numbered
  cases after : resumeAfter machine rule with
  | read state => exact numberedFirstMove several after first
  | cleanup terminal =>
    have stops : beginCleanup terminal ∈ instructions machine mode (.write rule 0) := by
      simp [instructions, after]
    exact absurd (numberedNext several first stops rfl) (noCleanup several endless)

/- A round of phases for each source step, whichever way the tapes end. -/
theorem numberedStep {run : TapeMode} {state : Nat} {tapes : List (Tape S)}
    {next : Configuration S} (numbered : Numbered machine mode (.read state []))
    (sound : Configuration.Sound ⟨.ordinary state, tapes⟩ machine run)
    (step : machine.step? run ⟨.ordinary state, tapes⟩ = some next) :
    ∃ later, next.state = .ordinary later ∧ Numbered machine mode (.read later []) := by
  let seen := Configuration.symbols ⟨.ordinary state, tapes⟩
  have size : seen.length = machine.tapes := by
    simpa [seen, Configuration.symbols] using sound.count
  have known : ∀ symbol ∈ seen, symbol ∈ machine.alphabet := by
    intro symbol mem
    obtain ⟨tape, inside, rfl⟩ := List.mem_map.mp mem
    exact (Tape.overIff.mp (sound.lettered tape inside)).2.1
  have read : Numbered machine mode (.read state seen) :=
    numberedReadAll several endless numbered (Nat.le_of_eq ((Nat.zero_add _).trans size)) known
  obtain ⟨rule, position, write⟩ := numberedWrite several endless read size
  have rewind := numberedRewind several (numberedStartMove several endless write)
  cases found : machine.table.get? state seen with
  | none =>
    rw [Table.positionNone found] at position
    cases position
  | some source =>
    obtain ⟨index, here, held⟩ := Table.positionOfGet found
    obtain rfl := Option.some.inj (position.symm.trans here)
    obtain ⟨mem, key⟩ := Table.getIff.mp found
    obtain ⟨leaves, reads⟩ := Prod.mk.inj key
    have moved : machine.step? run ⟨.ordinary state, tapes⟩ = some ⟨source.next, _⟩ :=
      stepOfRule mem (congrArg State.ordinary leaves.symm) reads.symm
    obtain rfl := Option.some.inj (moved.symm.trans step)
    cases enters : source.next with
    | ordinary later =>
      have resumes : resumeAfter machine rule = .read later := by simp [resumeAfter, held, enters]
      rw [resumes] at rewind
      exact ⟨later, rfl, numberedNext several rewind
        (List.mem_append_right _ (List.mem_singleton.mpr rfl)) rfl⟩
    | _ =>
      simp only [resumeAfter, held, enters, Option.map_some, Option.getD_some] at rewind
      exact absurd rewind (noRewind several endless)

/- Induction on the steps. -/
theorem endlessAfter {run : TapeMode} {input : List S} {n : Nat} {now : Configuration S}
    (known : ∀ symbol ∈ input, symbol ∈ machine.alphabet)
    (reached : machine.after? run (.start machine.tapes input) n = some now) :
    ∃ state, now.state = .ordinary state ∧ Numbered machine mode (.read state []) := by
  induction n generalizing now with
  | zero =>
    obtain rfl := Option.some.inj reached
    exact ⟨0, rfl, numberedFirstRead several⟩
  | succ n ih =>
    obtain ⟨⟨state, tapes⟩, before, step⟩ := Option.bind_eq_some_iff.mp reached
    obtain ⟨number, rfl, numbered⟩ := ih before
    exact numberedStep several endless numbered (soundAfter (soundStart known) before) step

end
end Multitape.SingleTape
