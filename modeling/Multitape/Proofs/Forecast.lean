import Multitape.Proofs.Findings
import Multitape.Proofs.Observed

/-! What the findings about a machine say of its runs. A run stays in the states that a path of
rules leads to, until a rule is missing: then it is rejected at once and its tapes are left as
they are. So a state that no path leads to is never entered, a state without rules is the last
but one, and a machine whose rules enter no terminal state stops only where a rule is missing. -/
namespace Multitape
variable {S : Type} [Symbol S] [DecidableEq S] {machine : Machine S} {mode : TapeMode}
  {start now next last : Configuration S} {input : List S} {number bound n : Nat}

theorem reachedStep (reached : ∀ number, now.state = .ordinary number → machine.table.Reached number)
    (step : machine.step? mode now = some next) :
    ∀ number, next.state = .ordinary number → machine.table.Reached number := by
  intro target enters
  obtain ⟨source, state, ⟨rule, found, rfl⟩ | ⟨-, rfl⟩⟩ := stepIff.mp step
  · have before := reached source state
    rw [← (ruleOfGet found).1] at before
    exact .next before (Table.getIff.mp found).1 enters
  · cases enters

theorem reachedAfter (after : machine.after? mode (.start machine.tapes input) n = some now) :
    ∀ number, now.state = .ordinary number → machine.table.Reached number := by
  induction n generalizing now with
  | zero =>
    obtain rfl := Option.some.inj after
    intro number begins
    cases begins
    exact .start
  | succ n ih =>
    obtain ⟨before, found, step⟩ := Option.bind_eq_some_iff.mp after
    exact reachedStep (ih found) step

theorem stepRuleless (state : now.state = .ordinary number)
    (ruleless : ∀ rule ∈ machine.table.rules.toList, rule.state ≠ number) :
    machine.step? mode now = some ⟨.reject, now.tapes⟩ := by
  have none : machine.table.get? number now.symbols = none :=
    Table.getNoneIff.mpr fun rule mem same => ruleless rule mem (congrArg Prod.fst same)
  exact stepIff.mpr ⟨number, state, .inr ⟨none, rfl⟩⟩

theorem callRuleless {run : Run S} (state : run.state = .ordinary number)
    (ruleless : ∀ rule ∈ run.machine.table.rules.toList, rule.state ≠ number)
    (room : run.steps < run.config.maxSteps) :
    run.call = (none, { run with state := .reject, steps := run.steps + 1 }) := by
  have silent : run.verdict? = none := by
    rw [Run.verdictNoneIff, state]
    exact ⟨Bool.false_ne_true, room⟩
  have step : run.step? = some { run with state := .reject, steps := run.steps + 1 } :=
    Run.nextIff.mpr ⟨room, _, stepRuleless state ruleless, rfl⟩
  rw [Run.call, silent, step]
  rfl

theorem endsRuleless (state : start.state = .ordinary number)
    (ruleless : ∀ rule ∈ machine.table.rules.toList, rule.state ≠ number) (room : 1 ≤ bound) :
    machine.Ends mode start bound 1 ⟨.reject, start.tapes⟩ :=
  ⟨(afterSucc rfl).trans (stepRuleless state ruleless), room, .inr rfl⟩

section
variable (unending : ∀ rule ∈ machine.table.rules.toList, ¬ rule.next.isTerminal)
include unending

theorem stepUnending (step : machine.step? mode now = some next) (terminal : next.state.isTerminal) :
    ∃ number, now.state = .ordinary number ∧ machine.table.get? number now.symbols = none ∧
      next = ⟨.reject, now.tapes⟩ := by
  obtain ⟨number, state, ⟨rule, found, rfl⟩ | ⟨none, rejects⟩⟩ := stepIff.mp step
  · exact absurd terminal (unending rule (Table.getIff.mp found).1)
  · exact ⟨number, state, none, rejects⟩

/- The terminal state is not the first one, so a step has entered it. -/
theorem afterUnending (after : machine.after? mode (.start machine.tapes input) n = some last)
    (terminal : last.state.isTerminal) :
    ∃ before m number, n = m + 1 ∧
      machine.after? mode (.start machine.tapes input) m = some before ∧
      before.state = .ordinary number ∧ machine.table.get? number before.symbols = none ∧
      last = ⟨.reject, before.tapes⟩ := by
  cases n with
  | zero =>
    obtain rfl := Option.some.inj after
    cases terminal
  | succ n =>
    obtain ⟨before, found, step⟩ := Option.bind_eq_some_iff.mp after
    obtain ⟨number, state, none, rejects⟩ := stepUnending unending step terminal
    exact ⟨before, n, number, rfl, found, state, none, rejects⟩

end

/- The same of the calls of a run: the one before the last stands where there is no rule. -/
theorem callsUnending {run : Run S}
    (unending : ∀ rule ∈ run.machine.table.rules.toList, ¬ rule.next.isTerminal)
    (begins : run.toConfiguration = .start run.machine.tapes input) (fresh : run.steps = 0)
    (after : run.machine.after? run.config.tapeMode (.start run.machine.tapes input) n = some last)
    (room : n ≤ run.config.maxSteps) (terminal : last.state.isTerminal) :
    last.state = .reject ∧ ∃ m number, n = m + 1 ∧
      let now := run.calls m
      now.steps = m ∧ now.state = .ordinary number ∧
        run.machine.table.get? number now.symbols = none ∧ last.tapes = now.tapes := by
  obtain ⟨before, m, number, rfl, found, state, none, rfl⟩ := afterUnending unending after terminal
  have here : run.calls m = { run with toConfiguration := before, steps := m } := by
    rw [Run.callsAdvance]
    exact Run.advanceAt begins fresh found (Nat.le_of_succ_le room)
  refine ⟨rfl, m, number, rfl, ?_⟩
  rw [here]
  exact ⟨rfl, state, none, rfl⟩

theorem findingsHold (machine : Machine S) (config : Config) (input : List S)
    (known : ∀ symbol ∈ input, symbol ∈ machine.alphabet) :
    ∃ run outcome, Run.start machine config input = .ok run ∧
      machine.run config input = .ok outcome ∧
      (∀ listed, .unreachableStates listed ∈ machine.findings →
        ∀ n, ∀ number ∈ listed, (run.calls n).state ≠ .ordinary number) ∧
      (.startWithoutRules ∈ machine.findings → 1 ≤ config.maxSteps →
        outcome = ⟨.reject, 1, (Configuration.start machine.tapes input).tapes, .reject⟩) ∧
      (∀ listed, .missingRules listed ∈ machine.findings → ∀ n, ∀ number ∈ listed,
        let now := run.calls n
        now.state = .ordinary number → now.steps < config.maxSteps →
          now.call = (none, { now with state := .reject, steps := now.steps + 1 })) ∧
      (.noTerminalState ∈ machine.findings → outcome.verdict ≠ .accept ∧ outcome.verdict ≠ .halt ∧
        (outcome.verdict = .reject → ∃ n number, outcome.steps = n + 1 ∧
          let now := run.calls n
          now.steps = n ∧ now.state = .ordinary number ∧
            machine.table.get? number now.symbols = none ∧ outcome.tapes = now.tapes)) := by
  obtain ⟨run, started, rfl, rfl, begins, fresh⟩ := startShape config known
  obtain ⟨steps, last, ends⟩ := endsExists run.machine run.config.tapeMode
    (.start run.machine.tapes input) run.config.maxSteps
  have ran := runOfEnds (refuseNoneIff.mpr known) ends
  refine ⟨run, last.outcome steps, started, ran, fun listed reported n number among => ?_,
    fun reported room => ?_, fun listed reported n number among => ?_, fun reported => ?_⟩
  · obtain ⟨-, -, about⟩ := memUnreachable.mp reported
    have course := (Run.courseCalls fresh n).reached
    rw [begins] at course
    exact fun here => ((about number).mp among).2 (reachedAfter course number here)
  · have begun : (Configuration.start run.machine.tapes input).state = .ordinary 0 := rfl
    obtain ⟨rfl, rfl⟩ := endsUnique ends (endsRuleless begun (memStart.mp reported) room)
    rfl
  · obtain ⟨-, -, about⟩ := memMissing.mp reported
    obtain ⟨sameMachine, sameConfig, -, -⟩ := Run.courseCalls fresh n
    intro now here room
    rw [← sameConfig] at room
    refine callRuleless here ?_ room
    rw [sameMachine]
    exact ((about number).mp among).2
  · by_cases terminal : last.state.isTerminal
    · obtain ⟨rejects, n, number, rfl, stopped⟩ :=
        callsUnending (memNoTerminal.mp reported).2 begins fresh ends.1 ends.2.1 terminal
      have rejected : (last.outcome (n + 1)).verdict = .reject := by
        rw [Configuration.outcome, rejects]
        rfl
      rw [rejected]
      exact ⟨by decide, by decide, fun _ => ⟨n, number, rfl, stopped⟩⟩
    · have exceeded : (last.outcome steps).verdict = .stepBoundExceeded :=
        verdictExceededIff.mpr terminal
      rw [exceeded]
      exact ⟨by decide, by decide, fun rejects => by cases rejects⟩

/- Its one rule leads from a state that nothing enters to state 0, which has no rules. -/
def stray : Machine Char where
  tapes := 1
  alphabet := copier.alphabet
  table := Table.empty.push ⟨1, ['a'], .ordinary 0, ['a'], [.right]⟩
    (Table.getNoneIff.mpr (by simp [Table.empty]))
  hasTapes := Nat.one_pos
  fits rule mem := by
    obtain rfl : rule = _ := by simpa [Table.push, Table.empty] using mem
    exact ⟨rfl, rfl, rfl, by simp [copier, Alphabet.memIff, Symbol.blank]⟩

theorem findingsHoldStray : ∃ run, Run.start stray ⟨5, .biInfinite⟩ ['a'] = .ok run ∧
    (.unreachableStates [1] ∈ stray.findings ∧ ∀ n, (run.calls n).state ≠ .ordinary 1) ∧
    (.startWithoutRules ∈ stray.findings ∧
      stray.run ⟨5, .biInfinite⟩ ['a'] = .ok ⟨.reject, 1, [⟨[], 'a', [], 0⟩], .reject⟩) ∧
    (.missingRules [0] ∈ stray.findings ∧
      run.call = (none, { run with state := .reject, steps := 1 })) ∧
    .noTerminalState ∈ stray.findings ∧
      ∃ number, run.state = .ordinary number ∧ stray.table.get? number run.symbols = none := by
  have rules : stray.table.rules.toList = [⟨1, ['a'], .ordinary 0, ['a'], [.right]⟩] := by
    simp [stray, Table.push, Table.empty]
  have only : ∀ number, stray.table.Reached number → number = 0 := by
    intro number reached
    cases reached with
    | start => rfl
    | next before mem enters =>
      rw [rules] at mem
      obtain rfl := List.mem_singleton.mp mem
      cases enters
      rfl
  have unreachable : .unreachableStates [1] ∈ stray.findings := by
    refine memUnreachable.mpr ⟨by simp, by simp, fun number => ?_⟩
    simp only [rules, List.mem_singleton, exists_eq_left]
    constructor
    · intro same
      subst same
      exact ⟨rfl, fun reached => absurd (only 1 reached) (by decide)⟩
    · intro listed
      exact listed.1.symm
  have ruleless : .startWithoutRules ∈ stray.findings := by simp [memStart, rules]
  have missing : .missingRules [0] ∈ stray.findings := by
    refine memMissing.mpr ⟨by simp, by simp, fun number => ?_⟩
    simp only [rules, List.mem_singleton, exists_eq_left, forall_eq, State.ordinary.injEq]
    constructor
    · intro same
      subst same
      exact ⟨rfl, Nat.one_ne_zero⟩
    · intro listed
      exact listed.1.symm
  have unending : .noTerminalState ∈ stray.findings := by
    simp [memNoTerminal, rules, State.isTerminal, State.number?]
  obtain ⟨run, outcome, started, ran, never, rejected, stops, last⟩ :=
    findingsHold stray ⟨5, .biInfinite⟩ ['a'] knownCopier
  obtain rfl := rejected ruleless (by decide)
  obtain rfl := Except.ok.inj started
  obtain ⟨n, number, one, -, state, none, -⟩ := (last unending).2.2 rfl
  obtain rfl : 0 = n := Nat.succ.inj one
  exact ⟨_, rfl, ⟨unreachable, fun n => never _ unreachable n 1 (by simp)⟩, ⟨ruleless, ran⟩,
    ⟨missing, stops _ missing 0 0 (by simp) rfl (by decide)⟩, unending, number, state, none⟩

end Multitape
