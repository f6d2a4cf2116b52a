import Multitape.Proofs.Readout
import Multitape.Proofs.SingleTape.Confined

/-! A compiled machine computes what its source does: the same verdict in the same state, on
its one tape the output of the source, and no end exactly where the source has none. -/
namespace Multitape.SingleTape
variable {S : Type} [Symbol S] [DecidableEq S] [LawfulSymbol S] {machine : Machine S}
  {mode : TapeMode} {compiled : SingleTape S}

section
variable {state terminal : State} {tape : Tape Token} {kept : Tape S} {erased : Nat}
  (shows : Shows compiled state tape (.cleaned terminal kept erased))
include shows

omit [DecidableEq S] in
/- The cells of the last tape with blanks on both sides. -/
theorem cleanedCells : ∃ beyond, tape.cells = List.replicate erased Symbol.blank ++
    kept.cells.map Symbol.toToken ++ List.replicate (beyond + 1) Symbol.blank := by
  obtain ⟨beyond, ahead⟩ := shows.ahead
  have left := shows.left
  refine ⟨beyond, ?_⟩
  unfold Tape.cells
  rw [left, ahead]
  simp [Scan.cleaned, Symbol.toTokenOfBlank, List.replicate_succ, Tape.cells, Cell.token,
    Function.comp_def]

theorem cleanedOutput : tape.output = kept.output.map Symbol.toToken := by
  obtain ⟨beyond, cells⟩ := cleanedCells shows
  exact Layout.outputPadded cells

omit [DecidableEq S] in
/- Neither a sign nor a mark is left. -/
theorem cleanedPlain (lettered : kept.Over machine.alphabet) {token : Token} (mem : token ∈ tape.cells) :
    ∃ symbol ∈ machine.alphabet, token = Symbol.toToken symbol := by
  obtain ⟨beyond, cells⟩ := cleanedCells shows
  rw [cells, List.mem_append, List.mem_append, List.mem_map] at mem
  rcases mem with (blank | ⟨symbol, inside, rfl⟩) | blank
  · exact ⟨Symbol.blank, machine.alphabet.blankMem,
      (List.eq_of_mem_replicate blank).trans Symbol.toTokenOfBlank.symm⟩
  · exact ⟨symbol, lettered symbol inside, rfl⟩
  · exact ⟨Symbol.blank, machine.alphabet.blankMem,
      (List.eq_of_mem_replicate blank).trans Symbol.toTokenOfBlank.symm⟩

theorem cleanedDecodes (lettered : kept.Over machine.alphabet) (free : Free machine)
    (readable : ∀ symbol ∈ machine.alphabet.symbols, Symbol.Readable symbol) :
    compiled.output? tape = some kept.output := by
  obtain ⟨beyond, cells⟩ := cleanedCells shows
  refine Layout.outputUnmarked cells fun symbol mem => ?_
  have known := lettered symbol mem
  refine Cell.legibleFree (freeCell free (knownPlain.mpr known)) fun other same => ?_
  obtain rfl := Option.some.inj same
  rcases known with rfl | declared
  · exact Symbol.readableBlank
  · exact readable symbol declared

end

section
variable {input : List S} (result : Compiled machine mode compiled) (several : 2 ≤ machine.tapes)
  (known : ∀ symbol ∈ input, symbol ∈ machine.alphabet)
include result several known

/- The source stops, and so does the compiled machine under any bound that is large enough. -/
theorem stopsAlike (free : Free machine)
    (readable : ∀ symbol ∈ machine.alphabet.symbols, Symbol.Readable symbol) {n : Nat}
    {last : Configuration S} (terminal : last.state.isTerminal)
    (source : machine.after? mode (.start machine.tapes input) n = some last) :
    ∃ enough tape, (∀ larger ≥ enough, compiled.machine.run ⟨larger, .biInfinite⟩ (inputTokens input) =
        .ok (Configuration.outcome ⟨last.state, [tape]⟩ enough)) ∧
      tape.output = (last.outcome n).output.map Symbol.toToken ∧
      (∀ token ∈ tape.cells, ∃ symbol ∈ machine.alphabet, token = Symbol.toToken symbol) ∧
      compiled.output? tape = some (last.outcome n).output := by
  obtain ⟨steps, met, now, kept, erased, _, ⟨final, final', output⟩, lettered, arrived⟩ :=
    arrivedTerminal result several known terminal source
  obtain ⟨state, tape, rfl, shows⟩ := arrived.shown
  obtain ⟨rfl, stops⟩ : state = last.state ∧ last.state.isTerminal := shows.target
  have same : (last.outcome n).output = kept.output := by
    simp [Configuration.outcome, Outcome.output, final', output]
  refine ⟨steps, tape, fun larger enough => ?_, ?_, fun token => cleanedPlain shows lettered, ?_⟩
  · apply runOfEnds (refuseNoneIff.mpr (knownTokens result known))
    rw [startOfCompiled result]
    exact ⟨arrived.trail.here _, enough, .inr stops⟩
  · rw [same]
    exact cleanedOutput shows
  · rw [same]
    exact cleanedDecodes shows lettered free readable

/- The compiled machine needs no fewer steps than its source. -/
theorem exceedsAlike {bound number : Nat} {tapes : List (Tape S)}
    (source : machine.after? mode (.start machine.tapes input) bound = some ⟨.ordinary number, tapes⟩) :
    ∃ outcome, compiled.machine.run ⟨bound, .biInfinite⟩ (inputTokens input) = .ok outcome ∧
      outcome.verdict = .stepBoundExceeded := by
  obtain ⟨steps, met, now, _, arrived⟩ := arrivedOrdinary result several known source
  obtain ⟨state, tape, rfl, shows⟩ := arrived.shown
  obtain ⟨other, rfl, _⟩ := shows.target
  obtain ⟨n, last, ends⟩ := endsExists compiled.machine .biInfinite (firstShown input) bound
  have running : ¬ last.state.isTerminal := by
    intro terminal
    have here := arrived.trail.here .biInfinite
    have first := afterTerminal ends.1 terminal here
    have later := arrived.later
    have bounded := ends.2.1
    obtain rfl : n = steps := by omega
    obtain rfl := Option.some.inj (ends.1.symm.trans here)
    cases terminal
  refine ⟨last.outcome n, ?_, verdictExceededIff.mpr running⟩
  apply runOfEnds (refuseNoneIff.mpr (knownTokens result known))
  rwa [startOfCompiled result]

end

theorem compiledAgrees {input : List S} (ok : compile machine mode = .ok compiled)
    (readable : ∀ symbol ∈ machine.alphabet.symbols, Symbol.Readable symbol)
    (known : ∀ symbol ∈ input, symbol ∈ machine.alphabet) :
    ∃ tokens, compiled.encodeInput input = .ok tokens ∧
      (∀ bound outcome, machine.run ⟨bound, mode⟩ input = .ok outcome →
        outcome.verdict ≠ .stepBoundExceeded →
        ∃ enough, ∀ larger ≥ enough, ∃ final tape,
          compiled.machine.run ⟨larger, .biInfinite⟩ tokens = .ok final ∧
          final.verdict = outcome.verdict ∧ final.state = outcome.state ∧ final.tapes = [tape] ∧
          tape.output = outcome.output.map Symbol.toToken ∧
          (∀ token ∈ tape.cells, ∃ symbol ∈ machine.alphabet, token = Symbol.toToken symbol) ∧
          compiled.output? tape = some outcome.output) ∧
      ((∀ bound, ∃ outcome, machine.run ⟨bound, mode⟩ input = .ok outcome ∧
          outcome.verdict = .stepBoundExceeded) →
        ∀ bound, ∃ outcome, compiled.machine.run ⟨bound, .biInfinite⟩ tokens = .ok outcome ∧
          outcome.verdict = .stepBoundExceeded) := by
  obtain ⟨several, free, result⟩ := ofCompile ok
  refine ⟨inputTokens input, encodesInput result known, ?_, ?_⟩
  · intro bound outcome ran decided
    obtain ⟨n, last, ends, rfl⟩ := (runIff known).mp ran
    have terminal : last.state.isTerminal := by
      by_contra running
      exact decided (verdictExceededIff.mpr running)
    obtain ⟨enough, tape, runs, output, plain, decodes⟩ :=
      stopsAlike result several known free readable terminal ends.1
    exact ⟨enough, fun larger le => ⟨_, tape, runs larger le, rfl, rfl, rfl, output, plain, decodes⟩⟩
  · intro exceeds bound
    obtain ⟨outcome, ran, exceeded⟩ := exceeds bound
    obtain ⟨n, ⟨state, tapes⟩, ends, rfl⟩ := (runIff known).mp ran
    have running := verdictExceededIff.mp exceeded
    obtain rfl : n = bound := ends.2.2.resolve_right running
    cases state with
    | ordinary number => exact exceedsAlike result several known ends.1
    | _ => exact absurd rfl running

theorem compiledCopierAgrees : ∃ compiled tokens, compile copier .biInfinite = .ok compiled ∧
    compiled.encodeInput ['a'] = .ok tokens ∧
      ∃ enough, ∀ larger ≥ enough, ∃ final tape,
        compiled.machine.run ⟨larger, .biInfinite⟩ tokens = .ok final ∧ final.verdict = .accept ∧
        final.tapes = [tape] ∧ tape.output = [⟨"a"⟩] ∧ compiled.output? tape = some ['a'] := by
  obtain ⟨compiled, ok, -⟩ := copierCompiles .biInfinite
  obtain ⟨tokens, encodes, agrees, -⟩ := compiledAgrees ok readableCopier knownCopier
  have ends : copier.Ends .biInfinite (.start copier.tapes ['a']) 1 1 _ :=
    ⟨copierAccepts .biInfinite, Nat.le_refl 1, .inl rfl⟩
  obtain ⟨enough, runs⟩ := agrees 1 _ ((runIff knownCopier).mpr ⟨1, _, ends, rfl⟩) (by decide)
  refine ⟨compiled, tokens, ok, encodes, enough, fun larger le => ?_⟩
  obtain ⟨final, tape, ran, verdict, _, tapes, output, _, decodes⟩ := runs larger le
  exact ⟨final, tape, ran, verdict, tapes, output, decodes⟩

end Multitape.SingleTape
