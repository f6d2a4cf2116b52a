import Multitape.Proofs.SingleTape.Written
import Multitape.Proofs.Spelled.Compiled
import Multitape.Proofs.Spelled.Description

/-! A description read with one character per symbol, and the same description read with
tokens. The second machine is the first one spelled out, and what the two say of an input
and of its compilation is the same up to the spelling. -/
namespace Multitape
open Symbol (toToken)

structure Tape.SpelledBy (tape : Tape Char) (spelled : Tape Token) : Prop where
  origin : spelled.origin = tape.origin
  head : spelled.head = tape.head
  cells : spelled.cells = tape.cells.map toToken

structure Outcome.SpelledBy (outcome : Outcome Char) (spelled : Outcome Token) : Prop where
  verdict : spelled.verdict = outcome.verdict
  steps : spelled.steps = outcome.steps
  state : spelled.state = outcome.state
  tapes : List.Forall₂ Tape.SpelledBy outcome.tapes spelled.tapes

structure SingleTape.SpelledBy (compiled : SingleTape Char) (spelled : SingleTape Token) : Prop where
  machine : spelled.machine = compiled.machine
  text : spelled.machine.text = compiled.machine.text
  phase : ∀ state, spelled.phase? state = (compiled.phase? state).map SingleTape.Phase.spelled

theorem tapeSpelled (tape : Tape Char) : tape.SpelledBy tape.spelled where
  origin := by simp [Tape.spelled, Tape.origin]
  head := rfl
  cells := by simp [Tape.spelled, Tape.cells]

theorem outcomeSpelled (outcome : Outcome Char) : outcome.SpelledBy outcome.spelled where
  verdict := rfl
  steps := rfl
  state := rfl
  tapes := List.forall₂_map_right_iff.mpr (List.forall₂_same.mpr fun tape _ => tapeSpelled tape)

theorem compiledSpelled (compiled : SingleTape Char) (alphabet : Alphabet Token) :
    compiled.SpelledBy ⟨compiled.machine, alphabet, compiled.sourceTapes, compiled.tapeMode,
      compiled.phases.map SingleTape.Phase.spelled⟩ where
  machine := rfl
  text := rfl
  phase state := by
    cases state with
    | ordinary number => exact Array.getElem?_map
    | _ => rfl

theorem spelledAgrees {text : String} {machine : Machine Char}
    (read : Machine.ofText text = .ok machine) : ∃ spelled : Machine Token,
      Machine.ofText text = .ok spelled ∧ machine.SpelledBy spelled ∧
      (∀ config input,
        (∃ cause, machine.run config input = .error cause ∧
          spelled.run config (input.map toToken) = .error cause) ∨
        ∃ outcome other, machine.run config input = .ok outcome ∧
          spelled.run config (input.map toToken) = .ok other ∧ outcome.SpelledBy other) ∧
      ∀ mode,
        (∃ cause, SingleTape.compile machine mode = .error cause ∧
          SingleTape.compile spelled mode = .error cause) ∨
        ∃ compiled other, SingleTape.compile machine mode = .ok compiled ∧
          SingleTape.compile spelled mode = .ok other ∧ compiled.SpelledBy other := by
  obtain ⟨spelled, again, same⟩ := Description.spelledOfText read
  refine ⟨spelled, again, same, fun config input => ?_, fun mode => ?_⟩
  · have run := spelledRun same config input
    cases first : machine.run config input with
    | error cause => exact .inl ⟨cause, rfl, by rw [run, first]; rfl⟩
    | ok outcome =>
      exact .inr ⟨outcome, outcome.spelled, rfl, by rw [run, first]; rfl, outcomeSpelled outcome⟩
  · have compile := SingleTape.spelledCompile same mode
    cases first : SingleTape.compile machine mode with
    | error cause => exact .inl ⟨cause, rfl, by rw [compile, first]; rfl⟩
    | ok compiled =>
      exact .inr ⟨compiled, _, rfl, by rw [compile, first]; rfl, compiledSpelled compiled _⟩

theorem spelledStampAgrees : ∃ (machine : Machine Char) (spelled : Machine Token),
    Machine.ofText "1 2 2 1\n_,a\n0,_,_,h,a,N,_,N\n" = .ok machine ∧
    Machine.ofText "1 2 2 1\n_,a\n0,_,_,h,a,N,_,N\n" = .ok spelled ∧
    spelled.alphabet.symbols = [⟨"_"⟩, ⟨"a"⟩] ∧
    spelled.run ⟨10, .biInfinite⟩ [⟨"a"⟩, ⟨"b"⟩] = .error (.unknownSymbol "b" 1) ∧
    ∃ compiled other, SingleTape.compile machine .biInfinite = .ok compiled ∧
      SingleTape.compile spelled .biInfinite = .ok other ∧ other.machine = compiled.machine := by
  have text : (SingleTape.stamp 'a' (by decide)).text = "1 2 2 1\n_,a\n0,_,_,h,a,N,_,N\n" := by decide
  obtain ⟨machine, compiled, read, symbols, ok, -⟩ :=
    SingleTape.stampCompiles (show 'a' ≠ '_' by decide) (by decide) (by decide) (by decide)
  rw [text] at read
  obtain ⟨spelled, again, same, runs, compiles⟩ := spelledAgrees read
  have refused : machine.run ⟨10, .biInfinite⟩ ['a', 'b'] = .error (.unknownSymbol "b" 1) := by
    have unknown : machine.alphabet.refuse? ['a', 'b'] = some (.unknownSymbol "b" 1) := by
      simp [Alphabet.refuse?, Alphabet.memIff, symbols, Symbol.blank, Symbol.text]
    simp only [Machine.run, Run.start, unknown]
    rfl
  refine ⟨machine, spelled, read, again, by rw [same.symbols, symbols]; rfl, ?_, ?_⟩
  · obtain ⟨cause, first, second⟩ | ⟨outcome, _, first, _⟩ := runs ⟨10, .biInfinite⟩ ['a', 'b']
    · rw [refused] at first
      cases first
      exact second
    · cases refused.symm.trans first
  · obtain ⟨cause, first, _⟩ | ⟨compiled, other, first, second, alike⟩ := compiles .biInfinite
    · cases ok.symm.trans first
    · exact ⟨compiled, other, first, second, alike.machine⟩

end Multitape
