import Multitape.Proofs.Abstract

/-! The step bound of a run. Whatever it is, the loop that calls the engine until a verdict
comes ends, and there is one outcome it can end with. A smaller bound gives the same outcome
if that took no more steps; otherwise it stops the same run short, in the configuration that
the longer run shows after as many steps. -/
namespace Multitape
variable {S : Type} [Symbol S] [DecidableEq S]

namespace Run

inductive Loops : Run S → Outcome S → Prop where
  | halts {run : Run S} {verdict : Verdict} (given : run.call.1 = some verdict) :
    Loops run ⟨verdict, run.steps, run.tapes, run.state⟩
  | goesOn {run : Run S} {outcome : Outcome S} (silent : run.call.1 = none)
      (rest : Loops run.call.2 outcome) : Loops run outcome

theorem loopsUnique {run : Run S} {one two : Outcome S} (first : run.Loops one)
    (second : run.Loops two) : one = two := by
  induction first with
  | halts given =>
    cases second with
    | halts given' =>
      obtain rfl := Option.some.inj (given.symm.trans given')
      rfl
    | goesOn silent rest => cases silent.symm.trans given
  | goesOn silent rest ih =>
    cases second with
    | halts given => cases silent.symm.trans given
    | goesOn silent' rest' => exact ih rest'

theorem callVerdict (run : Run S) : run.call.1 = run.verdict? := by
  unfold call
  cases run.verdict? <;> rfl

theorem outcomeHere {run : Run S} {verdict : Verdict} (given : run.verdict? = some verdict) :
    run.outcome = ⟨verdict, run.steps, run.tapes, run.state⟩ := by
  have stuck : run.step? = none := by simp [stepNoneIffVerdict, given]
  have last : run.finish = run := by
    unfold finish
    cases run.remaining with
    | zero => rfl
    | succ n => rw [advance, stuck]
  have named : run.state.verdict?.getD .stepBoundExceeded = verdict := by
    unfold verdict? at given
    cases own : run.state.verdict? with
    | some verdict' => simpa [own] using given
    | none =>
      rw [own, Option.none_or] at given
      split at given
      · exact Option.some.inj given
      · cases given
  unfold outcome
  rw [last]
  dsimp only
  rw [named]

theorem remainingNext {run next : Run S} (step : run.step? = some next) :
    run.remaining = next.remaining + 1 := by
  obtain ⟨room, later, -, rfl⟩ := nextIff.mp step
  simp only [remaining]
  omega

theorem outcomeNext {run next : Run S} (step : run.step? = some next) :
    run.outcome = next.outcome := by
  have same : run.finish = next.finish := by
    unfold finish
    rw [remainingNext step, advance, step]
  unfold outcome
  rw [same]

/- Induction on the steps that the bound leaves. -/
theorem loopsOutcome (run : Run S) : run.Loops run.outcome := by
  generalize left : run.remaining = n
  induction n generalizing run with
  | zero =>
    have spent : run.config.maxSteps ≤ run.steps := Nat.sub_eq_zero_iff_le.mp left
    have stuck : run.step? = none := if_pos spent
    obtain ⟨verdict, given⟩ := Option.isSome_iff_exists.mp (run.stepNoneIffVerdict.mp stuck)
    rw [outcomeHere given]
    exact .halts ((callVerdict run).trans given)
  | succ n ih =>
    cases given : run.verdict? with
    | some verdict =>
      rw [outcomeHere given]
      exact .halts ((callVerdict run).trans given)
    | none =>
      obtain ⟨next, step⟩ : ∃ next, run.step? = some next := by
        rw [← Option.isSome_iff_exists, Option.isSome_iff_ne_none, ne_eq, stepNoneIffVerdict, given]
        simp
      have rest := ih next (by have := remainingNext step; omega)
      rw [outcomeNext step]
      refine .goesOn ((callVerdict run).trans given) ?_
      rwa [callStep, step, Option.getD_some]

theorem loopsIff {run : Run S} {outcome : Outcome S} : run.Loops outcome ↔ outcome = run.outcome := by
  constructor
  · intro loops
    exact loopsUnique loops run.loopsOutcome
  · rintro rfl
    exact run.loopsOutcome

/- The snapshots of a run are the configurations that its calls lead to. -/
theorem trailAt {run later : Run S} {n i : Nat} (room : i < n)
    (moves : (run.advance i).step? = some later) : (run.trail n)[i]? = some later := by
  induction i generalizing run n with
  | zero =>
    obtain ⟨n, rfl⟩ := Nat.exists_eq_add_one_of_ne_zero (Nat.ne_of_gt room)
    change run.step? = some later at moves
    simp [trail, moves]
  | succ i ih =>
    obtain ⟨n, rfl⟩ := Nat.exists_eq_add_one_of_ne_zero (Nat.ne_of_gt (Nat.zero_lt_of_lt room))
    cases step : run.step? with
    | none =>
      rw [advance, step] at moves
      cases step.symm.trans moves
    | some next =>
      rw [advance, step] at moves
      simpa [trail, step] using ih (Nat.lt_of_succ_lt_succ room) moves

def shown (run : Run S) : List (Snapshot S) := run.snapshot :: run.ahead.map snapshot

variable {run : Run S} {start now : Configuration S} {n : Nat}

theorem advanceAt (begins : run.toConfiguration = start) (fresh : run.steps = 0)
    (reached : run.machine.after? run.config.tapeMode start n = some now)
    (room : n ≤ run.config.maxSteps) :
    run.advance n = { run with toConfiguration := now, steps := n } := by
  induction n generalizing now with
  | zero =>
    obtain rfl : start = now := Option.some.inj reached
    subst begins
    rw [advance, ← fresh]
  | succ n ih =>
    obtain ⟨before, found, step⟩ := Option.bind_eq_some_iff.mp reached
    have moves : step? { run with toConfiguration := before, steps := n } =
        some { run with toConfiguration := now, steps := n + 1 } :=
      nextIff.mpr ⟨room, now, step, rfl⟩
    rw [advanceSucc, ih found (by omega), moves, Option.getD_some]

theorem shownAt (begins : run.toConfiguration = start) (fresh : run.steps = 0)
    (reached : run.machine.after? run.config.tapeMode start n = some now)
    (room : n ≤ run.config.maxSteps) : run.shown[n]? = some ⟨n, now.state, now.tapes⟩ := by
  have here := advanceAt begins fresh reached room
  cases n with
  | zero =>
    have same : run = { run with toConfiguration := now, steps := 0 } := here
    rw [shown, List.getElem?_cons_zero, snapshot, same]
  | succ n =>
    obtain ⟨before, found, step⟩ := Option.bind_eq_some_iff.mp reached
    have moves : (run.advance n).step? =
        some { run with toConfiguration := now, steps := n + 1 } := by
      rw [advanceAt begins fresh found (by omega)]
      exact nextIff.mpr ⟨room, now, step, rfl⟩
    have ahead : n < run.remaining := by
      simp only [remaining, fresh]
      omega
    rw [shown, List.getElem?_cons_succ, List.getElem?_map, Run.ahead, trailAt ahead moves]
    rfl

end Run

structure Outcome.Within (outcome : Outcome S) (bound : Nat) : Prop where
  steps : outcome.steps ≤ bound
  exceeded : outcome.verdict = .stepBoundExceeded ↔ ¬ outcome.state.isTerminal
  spent : outcome.verdict = .stepBoundExceeded → outcome.steps = bound
  own : ∀ verdict, outcome.state.verdict? = some verdict → outcome.verdict = verdict

variable {machine : Machine S} {mode : TapeMode} {start last : Configuration S} {bound n : Nat}

theorem withinOfEnds (ends : machine.Ends mode start bound n last) :
    (last.outcome n).Within bound where
  steps := ends.2.1
  exceeded := verdictExceededIff
  spent exceeded := ends.2.2.resolve_right (verdictExceededIff.mp exceeded)
  own verdict given := by simp [Configuration.outcome, given] at given ⊢

/- A run that stopped within a smaller bound stopped for that bound too. -/
theorem endsSooner {less : Nat} (ends : machine.Ends mode start bound n last) (le : less ≤ bound)
    (within : n ≤ less) : machine.Ends mode start less n last := by
  obtain ⟨reached, bounded, done⟩ := ends
  refine ⟨reached, within, ?_⟩
  rcases done with full | terminal
  · left
    omega
  · exact .inr terminal

theorem endsShort {less : Nat} (ends : machine.Ends mode start bound n last) (before : less < n) :
    ∃ now, machine.Ends mode start less less now ∧ ¬ now.state.isTerminal := by
  obtain ⟨now, reached⟩ := afterBefore ends.1 (Nat.le_of_lt before)
  refine ⟨now, ⟨reached, Nat.le_refl less, .inl rfl⟩, fun terminal => ?_⟩
  have last := afterTerminal reached terminal ends.1
  omega

theorem boundTruncates (machine : Machine S) (mode : TapeMode) (input : List S) {less more : Nat}
    (le : less ≤ more) (known : ∀ symbol ∈ input, symbol ∈ machine.alphabet) :
    ∃ long short full part, Run.start machine ⟨more, mode⟩ input = .ok long ∧
      Run.start machine ⟨less, mode⟩ input = .ok short ∧
      machine.run ⟨more, mode⟩ input = .ok full ∧ machine.run ⟨less, mode⟩ input = .ok part ∧
      (∀ outcome, long.Loops outcome ↔ outcome = full) ∧
      (∀ outcome, short.Loops outcome ↔ outcome = part) ∧
      full.Within more ∧ part.Within less ∧
      (full.steps ≤ less → part = full) ∧
      (less < full.steps → part.verdict = .stepBoundExceeded ∧ part.steps = less ∧
        long.shown[less]? = some ⟨less, part.state, part.tapes⟩) := by
  obtain ⟨n, last, ends⟩ := endsExists machine mode (.start machine.tapes input) more
  obtain ⟨m, stop, stops⟩ := endsExists machine mode (.start machine.tapes input) less
  have long := startAccepted ⟨more, mode⟩ known
  have short := startAccepted ⟨less, mode⟩ known
  have full := runOfEnds (refuseNoneIff.mpr known) ends
  have part := runOfEnds (refuseNoneIff.mpr known) stops
  have looped : ∀ {config : Config} {run : Run S} {outcome : Outcome S},
      Run.start machine config input = .ok run → machine.run config input = .ok outcome →
      ∀ other, run.Loops other ↔ other = outcome := by
    intro config run outcome started ran other
    rw [Machine.run, started] at ran
    rw [Run.loopsIff, ← Except.ok.inj ran]
  refine ⟨_, _, _, _, long, short, full, part, looped long full, looped short part,
    withinOfEnds ends, withinOfEnds stops, fun within => ?_, fun before => ?_⟩
  · obtain ⟨rfl, rfl⟩ := endsUnique (endsSooner ends le within) stops
    rfl
  · obtain ⟨now, here, ordinary⟩ := endsShort ends before
    obtain ⟨rfl, rfl⟩ := endsUnique here stops
    exact ⟨verdictExceededIff.mpr ordinary, rfl, Run.shownAt rfl rfl here.1 le⟩

/- The machine accepts in its first step: a bound of one is enough, a bound of none is not. -/
theorem boundTruncatesCopier : ∃ full part, copier.run ⟨10, .biInfinite⟩ ['a'] = .ok full ∧
    full.verdict = .accept ∧ copier.run ⟨1, .biInfinite⟩ ['a'] = .ok full ∧
    copier.run ⟨0, .biInfinite⟩ ['a'] = .ok part ∧ part.verdict = .stepBoundExceeded ∧
    part.tapes = (Configuration.start 2 ['a']).tapes := by
  obtain ⟨_, _, full, one, -, -, ten, enough, -, -, -, -, same, -⟩ :=
    boundTruncates copier .biInfinite ['a'] (show 1 ≤ 10 by decide) knownCopier
  obtain ⟨long, _, full', part, begun, -, ten', none, -, -, -, -, -, short⟩ :=
    boundTruncates copier .biInfinite ['a'] (show 0 ≤ 10 by decide) knownCopier
  obtain rfl := Except.ok.inj (ten.symm.trans ten')
  have ends : copier.Ends .biInfinite (.start 2 ['a']) 10 1
      ⟨.accept, act .biInfinite (Configuration.start 2 ['a']).tapes ['a', 'a'] [.right, .stay]⟩ :=
    ⟨copierAccepts .biInfinite, by decide, .inr rfl⟩
  obtain rfl := Except.ok.inj
    ((runOfEnds (refuseNoneIff.mpr knownCopier) ends).symm.trans ten)
  obtain rfl := same (Nat.le_refl 1)
  obtain ⟨exceeded, -, shown⟩ := short Nat.zero_lt_one
  refine ⟨_, part, ten, rfl, enough, none, exceeded, ?_⟩
  rw [startAccepted _ knownCopier] at begun
  obtain rfl := Except.ok.inj begun
  have initial : (Run.snapshot _ : Snapshot Char) = _ := Option.some.inj shown
  exact (congrArg Snapshot.tapes initial).symm

end Multitape
