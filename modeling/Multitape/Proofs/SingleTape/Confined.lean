import Multitape.Proofs.SingleTape.Simulation

/-! A compiled machine always has a rule, until its cleanup stops it, and it never leaves
its tape on the left. So nothing depends on whether the tape reaches beyond offset 0. -/
namespace Multitape.SingleTape
variable {S : Type} [Symbol S]

/-- One tape whose held cells start at offset 0, and in an ordinary state a rule for the
cell under the head; only rules of a cleanup stop, in the state that the cleanup is for. -/
def Confined (compiled : SingleTape S) (now : Configuration Token) : Prop :=
  ∃ tape, now.tapes = [tape] ∧ 0 ≤ tape.head ∧ tape.origin = 0 ∧
    ∀ number, now.state = .ordinary number →
      ∃ rule, compiled.machine.table.get? number [tape.read] = some rule ∧
        (rule.next.isTerminal → ∃ index, compiled.phase? now.state = some (.cleanup rule.next index))

variable [DecidableEq S] {machine : Machine S} {mode : TapeMode} {compiled : SingleTape S}
  {input : List S}

/- A rule that stops is an instruction that does, and only cleanups have those. -/
theorem stoppingRule (result : Compiled machine mode compiled) {number : Nat} {read : List Token}
    {rule : Rule Token} (found : compiled.machine.table.get? number read = some rule)
    (terminal : rule.next.isTerminal) :
    ∃ index, compiled.phase? (.ordinary number) = some (.cleanup rule.next index) := by
  obtain ⟨mem, key⟩ := Table.getIff.mp found
  rw [result.rules] at mem
  obtain ⟨other, phase, here, instruction, known, rfl⟩ := (memRules result.few).mp mem
  obtain rfl : other = number := congrArg Prod.fst key
  cases target : instruction.target with
  | phase next =>
    simp only [Instruction.rule, target, Target.state] at terminal
    cases terminal
  | terminal state =>
    obtain ⟨index, rfl⟩ := terminalTarget known target
    refine ⟨index, ?_⟩
    simp only [phase?, result.phases, here, Instruction.rule, target, Target.state]

omit [DecidableEq S] in
theorem originOfAnchored {tape : Tape Token} (anchored : tape.Anchored) :
    0 ≤ tape.head ∧ tape.origin = 0 := by
  have same : tape.head = tape.left.length := anchored
  unfold Tape.origin
  omega

section
variable (result : Compiled machine mode compiled)
include result

theorem confinedSteady {now : Configuration Token} (steady : compiled.Steady now) :
    compiled.Confined now := by
  obtain ⟨number, tape, rfl, anchored, found⟩ := steady
  obtain ⟨rule, found⟩ := Option.isSome_iff_exists.mp found
  obtain ⟨inside, origin⟩ := originOfAnchored anchored
  refine ⟨tape, rfl, inside, origin, fun other same => ?_⟩
  cases same
  exact ⟨rule, found, stoppingRule result found⟩

omit [DecidableEq S] result in
theorem confinedTerminal {state : State} {tape : Tape Token} {scan : Scan S}
    (shows : Shows compiled state tape scan) (terminal : state.isTerminal) :
    compiled.Confined ⟨state, [tape]⟩ := by
  obtain ⟨inside, origin⟩ := originOfAnchored shows.anchored
  refine ⟨tape, rfl, inside, origin, fun number same => ?_⟩
  cases same
  cases terminal

variable [LawfulSymbol S] (several : 2 ≤ machine.tapes)
  (known : ∀ symbol ∈ input, symbol ∈ machine.alphabet)
include several known

/- The compiled machine needs at least as many steps as the source, so the trail that ends
with source step `n + 1`, or with the source, reaches beyond step `n`. -/
theorem reachedOrStopped (n : Nat) :
    (∃ now, compiled.Confined now ∧ ∀ run, compiled.machine.after? run (firstShown input) n = some now) ∨
      ∀ run, compiled.machine.after? run (firstShown input) n = none := by
  obtain ⟨k, last, source, le, done⟩ :=
    endsExists machine mode (.start machine.tapes input) (n + 1)
  cases terminal : last.state.isTerminal with
  | false =>
    obtain ⟨state, tapes⟩ := last
    obtain rfl : k = n + 1 := done.resolve_right (by simp [terminal])
    cases state with
    | ordinary number =>
      obtain ⟨steps, met, now, _, arrived⟩ := arrivedOrdinary result several known source
      have later := arrived.later
      obtain ⟨earlier, steady, here⟩ := arrived.trail.steady n (by omega)
      exact .inl ⟨earlier, confinedSteady result steady, here⟩
    | _ => cases terminal
  | true =>
    obtain ⟨steps, met, now, kept, erased, _, _, _, arrived⟩ :=
      arrivedTerminal result several known terminal source
    obtain ⟨state, tape, rfl, shows⟩ := arrived.shown
    obtain ⟨rfl, stops⟩ : state = last.state ∧ last.state.isTerminal := shows.target
    rcases Nat.lt_trichotomy n steps with less | rfl | more
    · obtain ⟨earlier, steady, here⟩ := arrived.trail.steady n less
      exact .inl ⟨earlier, confinedSteady result steady, here⟩
    · exact .inl ⟨_, confinedTerminal shows stops, arrived.trail.here⟩
    · refine .inr fun run => ?_
      cases later : compiled.machine.after? run (firstShown input) n with
      | none => rfl
      | some other =>
        have bound := afterTerminal (arrived.trail.here run) stops later
        omega

theorem sameInBothModes (n : Nat) :
    compiled.machine.after? .rightInfinite (firstShown input) n =
      compiled.machine.after? .biInfinite (firstShown input) n := by
  rcases reachedOrStopped result several known n with ⟨now, _, here⟩ | gone
  · rw [here, here]
  · rw [gone, gone]

end

section
variable (result : Compiled machine mode compiled)
  (known : ∀ symbol ∈ input, symbol ∈ machine.alphabet)
include result known

theorem encodesInput : compiled.encodeInput input = .ok (inputTokens input) := by
  unfold encodeInput Layout.encodeInput
  rw [result.alphabet, refuseNoneIff.mpr known]
  rfl

theorem knownTokens [LawfulSymbol S] : ∀ token ∈ inputTokens input, token ∈ compiled.machine.alphabet := by
  intro token mem
  rw [Alphabet.memIff, result.symbols]
  rcases List.mem_append.mp mem with plain | sign
  · obtain ⟨symbol, inside, rfl⟩ := List.mem_map.mp plain
    exact memTokens (knownPlain.mpr (known symbol inside))
  · rw [List.mem_singleton.mp sign]
    exact memTokens knownRightEnd

end

theorem startOfCompiled (result : Compiled machine mode compiled) (input : List S) :
    Configuration.start compiled.machine.tapes (inputTokens input) = firstShown input := by
  simp [Configuration.start, result.tapes, firstShown]

theorem compiledConfined [LawfulSymbol S] (ok : compile machine mode = .ok compiled)
    (known : ∀ symbol ∈ input, symbol ∈ machine.alphabet) :
    ∃ tokens, compiled.encodeInput input = .ok tokens ∧
      (∀ run n now, compiled.machine.after? run (.start compiled.machine.tapes tokens) n = some now →
        compiled.Confined now) ∧
      ∀ bound, ∃ outcome, compiled.machine.run ⟨bound, .biInfinite⟩ tokens = .ok outcome ∧
        compiled.machine.run ⟨bound, .rightInfinite⟩ tokens = .ok outcome := by
  obtain ⟨several, _, result⟩ := ofCompile ok
  refine ⟨inputTokens input, encodesInput result known, fun run n now reached => ?_, fun bound => ?_⟩
  · rw [startOfCompiled result] at reached
    rcases reachedOrStopped result several known n with ⟨other, confined, here⟩ | gone
    · rw [here run] at reached
      exact Option.some.inj reached ▸ confined
    · rw [gone run] at reached
      cases reached
  · obtain ⟨n, last, ends⟩ := endsExists compiled.machine .biInfinite (firstShown input) bound
    have tokens := knownTokens result known
    refine ⟨last.outcome n, (runIff tokens).mpr ⟨n, last, ?_, rfl⟩, (runIff tokens).mpr ⟨n, last, ?_, rfl⟩⟩
    · rwa [startOfCompiled result]
    · rw [startOfCompiled result]
      exact ⟨(sameInBothModes result several known n).trans ends.1, ends.2⟩

theorem compiledCopierConfined : ∃ compiled tokens, compile copier .biInfinite = .ok compiled ∧
    compiled.encodeInput ['a'] = .ok tokens ∧
    compiled.Confined (.start compiled.machine.tapes tokens) ∧
    ∃ outcome, compiled.machine.run ⟨5, .biInfinite⟩ tokens = .ok outcome ∧
      compiled.machine.run ⟨5, .rightInfinite⟩ tokens = .ok outcome := by
  obtain ⟨compiled, ok, -⟩ := copierCompiles .biInfinite
  obtain ⟨tokens, encodes, confined, same⟩ :=
    compiledConfined ok knownCopier
  exact ⟨compiled, tokens, ok, encodes, confined .biInfinite 0 _ rfl, same 5⟩

end Multitape.SingleTape
