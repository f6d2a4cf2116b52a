import Multitape.Proofs.Bound

/-! A run in someone's hands: it is stepped, run on, looked at, copied or made into the stream
of its snapshots, in any order. It always stands where the one run there is has come to. Each
step that is taken counts once, finishing gives the outcome of the run, and a run that has
halted stays as it is and says so each time. -/
namespace Multitape
variable {S : Type} [Symbol S]

inductive Handle (S : Type) [Symbol S] where
  | engine (run : Run S)
  | stream (run : Run S)

namespace Handle

def run : Handle S → Run S
  | engine run | stream run => run

end Handle

inductive Request where
  | step
  | run
  | stream
  | next
  -- To go on with a copy of the engine.
  | copy
  -- To run a copy of the engine to its end.
  | finishCopy
  | snapshot
  | symbols
  | tapes
  | verdict
  deriving DecidableEq, Repr

inductive Reply (S : Type) where
  | stepped (halt : Option Verdict)
  | ran (verdict : Verdict)
  | handed
  | pulled (shown : Option (Snapshot S))
  | finished (outcome : Outcome S)
  | snapshot (shown : Snapshot S)
  | symbols (read : List S)
  | tapes (held : List (Tape S))
  | verdict (given : Option Verdict)
  deriving DecidableEq, Repr

namespace Reply

def isStep : Reply S → Bool
  | stepped none | pulled (some _) => true
  | _ => false

def isHalt : Reply S → Bool
  | stepped (some _) | ran _ | pulled none => true
  | _ => false

def Halted (verdict : Verdict) : Reply S → Prop
  | stepped halt => halt = some verdict
  | ran last => last = verdict
  | pulled shown => shown = none
  | .verdict given => given = some verdict
  | _ => True

end Reply

def Handle.Offers : Handle S → Request → Prop
  | engine _, .next | stream _, .step | stream _, .run | stream _, .stream => False
  | _, _ => True

def stepsTaken (record : List (Request × Reply S)) : Nat := record.countP (·.2.isStep)

variable [DecidableEq S]

namespace Run

inductive Halts : Run S → Verdict → Run S → Prop where
  | here {run : Run S} {verdict : Verdict} (given : run.call.1 = some verdict) :
    Halts run verdict run.call.2
  | later {run last : Run S} {verdict : Verdict} (silent : run.call.1 = none)
      (rest : Halts run.call.2 verdict last) : Halts run verdict last

def pull (run : Run S) : Option (Snapshot S) × Run S :=
  match run.call.1 with
  | none => (some run.call.2.snapshot, run.call.2)
  | some _ => (none, run.call.2)

inductive Drains : Run S → List (Snapshot S) → Run S → Prop where
  | empty {run : Run S} (done : run.pull.1 = none) : Drains run [] run.pull.2
  | more {run last : Run S} {shown : Snapshot S} {others : List (Snapshot S)}
      (next : run.pull.1 = some shown) (rest : Drains run.pull.2 others last) :
      Drains run (shown :: others) last

end Run

namespace Handle

inductive Serves : Handle S → Request → Reply S → Handle S → Prop where
  | step {run : Run S} : Serves (engine run) .step (.stepped run.call.1) (engine run.call.2)
  | run {run last : Run S} {verdict : Verdict} (loop : run.Halts verdict last) :
    Serves (engine run) .run (.ran verdict) (engine last)
  | stream {run : Run S} : Serves (engine run) .stream .handed (stream run)
  | next {run : Run S} : Serves (stream run) .next (.pulled run.pull.1) (stream run.pull.2)
  | copy {handle : Handle S} : Serves handle .copy .handed (engine handle.run)
  | finishCopy {handle : Handle S} {last : Run S} {verdict : Verdict}
      (loop : handle.run.Halts verdict last) :
    Serves handle .finishCopy (.finished ⟨verdict, last.steps, last.tapes, last.state⟩) handle
  | snapshot {handle : Handle S} :
    Serves handle .snapshot (.snapshot handle.run.snapshot) handle
  | symbols {handle : Handle S} : Serves handle .symbols (.symbols handle.run.symbols) handle
  | tapes {handle : Handle S} : Serves handle .tapes (.tapes handle.run.tapes) handle
  | verdict {handle : Handle S} : Serves handle .verdict (.verdict handle.run.verdict?) handle

inductive History (first : Handle S) : List (Request × Reply S) → Handle S → Prop where
  | begins : History first [] first
  | more {record : List (Request × Reply S)} {now later : Handle S} {request : Request}
      {reply : Reply S} (past : History first record now)
      (serves : now.Serves request reply later) :
      History first (record ++ [(request, reply)]) later

end Handle

namespace Run
variable {first run next last : Run S} {verdict : Verdict}

theorem callHalted (given : run.verdict? = some verdict) : run.call = (some verdict, run) := by
  unfold call
  rw [given]

theorem callSilent (silent : run.call.1 = none) :
    run.verdict? = none ∧ run.step? = some run.call.2 := by
  rw [callVerdict] at silent
  have stepped : run.step? ≠ none := by
    rw [ne_eq, stepNoneIffVerdict, silent]
    simp
  obtain ⟨next, step⟩ := Option.ne_none_iff_exists'.mp stepped
  rw [callStep, step]
  exact ⟨silent, rfl⟩

theorem pullHalted (given : run.verdict? = some verdict) : run.pull = (none, run) := by
  unfold pull
  rw [callHalted given]

theorem pullTaken {shown : Snapshot S} (taken : run.pull.1 = some shown) :
    run.verdict? = none ∧ run.step? = some run.pull.2 ∧ shown = run.pull.2.snapshot := by
  unfold pull at taken ⊢
  split at taken
  · rename_i silent
    obtain ⟨none, step⟩ := callSilent silent
    exact ⟨none, step, (Option.some.inj taken).symm⟩
  · cases taken

theorem pullOver (done : run.pull.1 = none) : ∃ verdict, run.verdict? = some verdict := by
  unfold pull at done
  split at done
  · cases done
  · rename_i verdict given
    exact ⟨verdict, (callVerdict run).symm.trans given⟩

structure Course (first run : Run S) : Prop where
  sameMachine : run.machine = first.machine
  sameConfig : run.config = first.config
  reached : first.machine.after? first.config.tapeMode first.toConfiguration run.steps =
    some run.toConfiguration
  outcome : run.outcome = first.outcome

theorem courseFirst (fresh : first.steps = 0) : Course first first where
  sameMachine := rfl
  sameConfig := rfl
  reached := by
    rw [fresh]
    rfl
  outcome := rfl

theorem courseNext (course : Course first run) (step : run.step? = some next) :
    Course first next := by
  obtain ⟨sameMachine, sameConfig, reached, outcome⟩ := course
  have ends := outcomeNext step
  obtain ⟨-, later, moved, rfl⟩ := nextIff.mp step
  rw [sameMachine, sameConfig] at moved
  exact {
    sameMachine, sameConfig
    reached := (afterSucc reached).trans moved
    outcome := ends.symm.trans outcome }

theorem courseCall (course : Course first run) : Course first run.call.2 := by
  cases given : run.call.1 with
  | none => exact courseNext course (callSilent given).2
  | some verdict =>
    rw [callVerdict] at given
    rwa [callHalted given]

theorem courseCalls (fresh : first.steps = 0) (n : Nat) : first.Course (first.calls n) := by
  induction n with
  | zero => exact courseFirst fresh
  | succ n ih => exact courseCall ih

theorem coursePull (course : Course first run) : Course first run.pull.2 := by
  have called := courseCall course
  unfold pull
  split <;> exact called

theorem courseHalts (course : Course first run) (loop : run.Halts verdict last) :
    Course first last ∧ last.verdict? = some verdict := by
  induction loop with
  | here given =>
    rw [callVerdict] at given
    rw [callHalted given]
    exact ⟨course, given⟩
  | later silent rest ih => exact ih (courseCall course)

theorem haltsOfLoops {outcome : Outcome S} (loops : run.Loops outcome) :
    ∃ verdict last, run.Halts verdict last := by
  induction loops with
  | halts given => exact ⟨_, _, .here given⟩
  | goesOn silent rest ih =>
    obtain ⟨verdict, last, halts⟩ := ih
    exact ⟨verdict, last, .later silent halts⟩

theorem haltsExists (run : Run S) : ∃ verdict last, run.Halts verdict last :=
  haltsOfLoops run.loopsOutcome

/- A run with a verdict has the outcome that it stands for. -/
theorem courseVerdict (course : Course first run) (given : run.verdict? = some verdict) :
    first.outcome = ⟨verdict, run.steps, run.tapes, run.state⟩ :=
  course.outcome.symm.trans (outcomeHere given)

theorem aheadNext (step : run.step? = some next) : run.ahead = next :: next.ahead := by
  unfold ahead
  rw [remainingNext step, trail, step]

theorem aheadStuck (stuck : run.step? = none) : run.ahead = [] := by
  unfold ahead
  cases run.remaining with
  | zero => rfl
  | succ n => rw [trail, stuck]

theorem drainsAhead {shown : List (Snapshot S)} (drains : run.Drains shown last) :
    shown = run.ahead.map snapshot := by
  induction drains with
  | @empty run done =>
    obtain ⟨verdict, given⟩ := pullOver done
    have stuck : run.step? = none := run.stepNoneIffVerdict.mpr (by rw [given]; rfl)
    rw [aheadStuck stuck]
    rfl
  | more next rest ih =>
    obtain ⟨_, step, same⟩ := pullTaken next
    rw [aheadNext step, ih, same, List.map_cons]

/- Induction on the steps that the bound leaves. -/
theorem drainsExists (run : Run S) : ∃ shown last, run.Drains shown last := by
  generalize left : run.remaining = n
  induction n using Nat.strong_induction_on generalizing run with
  | _ n ih =>
    cases pulled : run.pull.1 with
    | none => exact ⟨[], _, .empty pulled⟩
    | some shown =>
      have fewer := remainingNext (pullTaken pulled).2.1
      obtain ⟨others, last, rest⟩ := ih _ (by omega) run.pull.2 rfl
      exact ⟨shown :: others, last, .more pulled rest⟩

theorem aheadSteps (run : Run S) : run.steps + run.ahead.length = run.outcome.steps := by
  generalize left : run.remaining = n
  induction n generalizing run with
  | zero =>
    have stuck : run.step? = none := if_pos (Nat.sub_eq_zero_iff_le.mp left)
    obtain ⟨verdict, given⟩ := Option.isSome_iff_exists.mp (run.stepNoneIffVerdict.mp stuck)
    rw [aheadStuck stuck, outcomeHere given]
    rfl
  | succ n ih =>
    cases step : run.step? with
    | none =>
      obtain ⟨verdict, given⟩ := Option.isSome_iff_exists.mp (run.stepNoneIffVerdict.mp step)
      rw [aheadStuck step, outcomeHere given]
      rfl
    | some next =>
      have rest := ih next (by have := remainingNext step; omega)
      obtain ⟨-, later, -, same⟩ := nextIff.mp step
      have count : next.steps = run.steps + 1 := by rw [same]
      rw [aheadNext step, outcomeNext step, List.length_cons]
      omega

theorem aheadLast (taken : 0 < run.ahead.length) : (run.ahead.map snapshot).getLast? =
    some ⟨run.outcome.steps, run.outcome.state, run.outcome.tapes⟩ := by
  have last := run.lastTrail run.remaining
  cases found : run.ahead.getLast? with
  | none =>
    rw [List.getLast?_eq_none_iff.mp found] at taken
    cases taken
  | some finished =>
    change (run.ahead.getLast?).getD run = run.finish at last
    rw [found, Option.getD_some] at last
    rw [List.getLast?_map, found, last]
    rfl

end Run

namespace Handle
variable {first : Run S} {handle later : Handle S} {request : Request} {reply : Reply S}
  {record : List (Request × Reply S)} {verdict : Verdict}

omit [Symbol S] [DecidableEq S] in
theorem stepsTakenMore : stepsTaken (record ++ [(request, reply)]) =
    stepsTaken record + if reply.isStep then 1 else 0 := by
  simp [stepsTaken, List.countP_append, List.countP_cons]

/- All that a step that is taken does. -/
theorem servesStep (serves : handle.Serves request reply later) (taken : reply.isStep) :
    handle.run.verdict? = none ∧ handle.run.step? = some later.run ∧
      ∀ shown, reply = .pulled (some shown) → shown = later.run.snapshot := by
  cases serves with
  | @step run =>
    cases given : run.call.1 with
    | none =>
      obtain ⟨silent, step⟩ := Run.callSilent given
      exact ⟨silent, step, by simp⟩
    | some verdict => simp [given, Reply.isStep] at taken
  | @next run =>
    cases pulled : run.pull.1 with
    | none => simp [pulled, Reply.isStep] at taken
    | some shown =>
      obtain ⟨silent, step, same⟩ := Run.pullTaken pulled
      exact ⟨silent, step, by simp [same, Handle.run]⟩
  | _ => cases taken

theorem servesSettled (given : handle.run.verdict? = some verdict)
    (serves : handle.Serves request reply later) :
    later.run = handle.run ∧ reply.Halted verdict := by
  cases serves with
  | @step run =>
    have stays : run.call = (some verdict, run) := Run.callHalted given
    rw [stays]
    exact ⟨rfl, rfl⟩
  | @run run last other loop =>
    have stays : run.call = (some verdict, run) := Run.callHalted given
    cases loop with
    | here given' =>
      rw [stays] at given' ⊢
      exact ⟨rfl, (Option.some.inj given').symm⟩
    | later silent rest =>
      rw [stays] at silent
      cases silent
  | @next run =>
    have stays : run.pull = (none, run) := Run.pullHalted given
    rw [stays]
    exact ⟨rfl, rfl⟩
  | verdict => exact ⟨rfl, given⟩
  | _ => exact ⟨rfl, trivial⟩

theorem historySettled {past : Handle S} (given : past.run.verdict? = some verdict)
    (history : past.History record handle) :
    handle.run = past.run ∧ ∀ answered ∈ record, answered.2.Halted verdict := by
  induction history with
  | begins => exact ⟨rfl, by simp⟩
  | more before serves ih =>
    obtain ⟨same, halted⟩ := ih
    rw [← same] at given
    obtain ⟨same', halted'⟩ := servesSettled given serves
    refine ⟨same'.trans same, fun answered mem => ?_⟩
    rcases List.mem_append.mp mem with old | new
    · exact halted answered old
    · rw [List.mem_singleton.mp new]
      exact halted'

theorem servesCourse (course : first.Course handle.run) (serves : handle.Serves request reply later) :
    first.Course later.run := by
  cases serves with
  | step => exact Run.courseCall course
  | run loop => exact (Run.courseHalts course loop).1
  | next => exact Run.coursePull course
  | _ => exact course

/- A request that takes no step leaves the run where it is, or has run it to its end. -/
theorem servesOther (course : first.Course handle.run) (serves : handle.Serves request reply later)
    (still : ¬ reply.isStep) : later.run = handle.run ∨ later.run.verdict? ≠ none := by
  cases serves with
  | @step run =>
    cases given : run.call.1 with
    | none => simp [given, Reply.isStep] at still
    | some verdict =>
      rw [Run.callVerdict] at given
      rw [Run.callHalted given]
      exact .inl rfl
  | run loop =>
    right
    simp [Handle.run, (Run.courseHalts course loop).2]
  | @next run =>
    cases pulled : run.pull.1 with
    | none =>
      obtain ⟨verdict, given⟩ := Run.pullOver pulled
      rw [Run.pullHalted given]
      exact .inl rfl
    | some shown => simp [pulled, Reply.isStep] at still
  | _ => exact .inl rfl

theorem servesHalt (course : first.Course handle.run) (serves : handle.Serves request reply later)
    (halts : reply.isHalt) : ∃ verdict, later.run.verdict? = some verdict ∧ reply.Halted verdict := by
  cases serves with
  | @step run =>
    cases given : run.call.1 with
    | none => simp [given, Reply.isHalt] at halts
    | some verdict =>
      rw [Run.callVerdict] at given
      rw [Run.callHalted given]
      exact ⟨verdict, given, rfl⟩
  | run loop => exact ⟨_, (Run.courseHalts course loop).2, rfl⟩
  | @next run =>
    cases pulled : run.pull.1 with
    | none =>
      obtain ⟨verdict, given⟩ := Run.pullOver pulled
      rw [Run.pullHalted given]
      exact ⟨verdict, given, rfl⟩
    | some shown => simp [pulled, Reply.isHalt] at halts
  | _ => cases halts

theorem servesFinished (course : first.Course handle.run) (serves : handle.Serves request reply later)
    {outcome : Outcome S} (given : reply = .finished outcome) : outcome = first.outcome := by
  cases serves with
  | finishCopy loop =>
    cases given
    obtain ⟨course', verdict⟩ := Run.courseHalts course loop
    exact (Run.courseVerdict course' verdict).symm
  | _ => cases given

theorem servesOffered (offered : handle.Offers request) :
    ∃ reply later, handle.Serves request reply later := by
  obtain ⟨verdict, last, loop⟩ := handle.run.haltsExists
  cases request with
  | step =>
    cases handle with
    | engine run => exact ⟨_, _, .step⟩
    | stream run => cases offered
  | run =>
    cases handle with
    | engine run => exact ⟨_, _, .run loop⟩
    | stream run => cases offered
  | stream =>
    cases handle with
    | engine run => exact ⟨_, _, .stream⟩
    | stream run => cases offered
  | next =>
    cases handle with
    | engine run => cases offered
    | stream run => exact ⟨_, _, .next⟩
  | copy => exact ⟨_, _, .copy⟩
  | finishCopy => exact ⟨_, _, .finishCopy loop⟩
  | snapshot => exact ⟨_, _, .snapshot⟩
  | symbols => exact ⟨_, _, .symbols⟩
  | tapes => exact ⟨_, _, .tapes⟩
  | verdict => exact ⟨_, _, .verdict⟩

/-- What a history leaves: the run stands on the course of the first one, and as long as it has
no verdict it has taken the steps that the replies tell of. -/
structure Kept (first : Run S) (record : List (Request × Reply S)) (handle : Handle S) : Prop where
  course : first.Course handle.run
  counted : handle.run.verdict? = none → handle.run.steps = stepsTaken record

theorem keptServes (kept : Kept first record handle) (serves : handle.Serves request reply later) :
    Kept first (record ++ [(request, reply)]) later := by
  obtain ⟨course, counted⟩ := kept
  refine ⟨servesCourse course serves, fun silent => ?_⟩
  by_cases taken : reply.isStep
  · obtain ⟨before, step, _⟩ := servesStep serves taken
    obtain ⟨-, _, -, same⟩ := Run.nextIff.mp step
    rw [stepsTakenMore, if_pos taken, ← counted before, same]
  · rcases servesOther course serves taken with same | given
    · rw [same] at silent ⊢
      rw [stepsTakenMore, if_neg taken, counted silent]
      rfl
    · exact absurd silent given

theorem keptHistory (fresh : first.steps = 0) (history : (engine first).History record handle) :
    Kept first record handle := by
  induction history with
  | begins => exact ⟨Run.courseFirst fresh, fun _ => fresh⟩
  | more past serves ih => exact keptServes ih serves

end Handle

structure Reply.Faithful (machine : Machine S) (config : Config) (input : List S)
    (outcome : Outcome S) (before : Nat) (reply : Reply S) (later : Handle S) : Prop where
  finished : ∀ given, reply = .finished given → given = outcome
  steps : reply.isStep → later.run.steps = before + 1 ∧
    machine.after? config.tapeMode (.start machine.tapes input) (before + 1) =
      some later.run.toConfiguration
  shown : ∀ given, reply = .pulled (some given) →
    given = ⟨before + 1, later.run.state, later.run.tapes⟩
  halted : reply.isHalt → reply.Halted outcome.verdict ∧
    ∀ record last, later.History record last →
      last.run = later.run ∧ ∀ answered ∈ record, answered.2.Halted outcome.verdict

theorem startShape {machine : Machine S} (config : Config) {input : List S}
    (known : ∀ symbol ∈ input, symbol ∈ machine.alphabet) :
    ∃ run : Run S, Run.start machine config input = .ok run ∧ run.machine = machine ∧
      run.config = config ∧ run.toConfiguration = .start machine.tapes input ∧ run.steps = 0 :=
  ⟨_, startAccepted config known, rfl, rfl, rfl, rfl⟩

open Handle

theorem faithfulServes {first : Run S} {handle later : Handle S} {request : Request}
    {reply : Reply S} {record : List (Request × Reply S)} {input : List S}
    (begins : first.toConfiguration = .start first.machine.tapes input)
    (kept : Kept first record handle) (serves : handle.Serves request reply later) :
    reply.Faithful first.machine first.config input first.outcome (stepsTaken record) later where
  finished given same := servesFinished kept.course serves same
  steps taken := by
    obtain ⟨silent, step, _⟩ := servesStep serves taken
    obtain ⟨-, _, -, same⟩ := Run.nextIff.mp step
    have count : later.run.steps = stepsTaken record + 1 := by
      rw [same, ← kept.counted silent]
    have reached := (servesCourse kept.course serves).reached
    rw [count, begins] at reached
    exact ⟨count, reached⟩
  shown given same := by
    have taken : reply.isStep := by
      rw [same]
      rfl
    obtain ⟨silent, step, shown⟩ := servesStep serves taken
    obtain ⟨-, _, -, moved⟩ := Run.nextIff.mp step
    rw [shown given same, Run.snapshot, ← kept.counted silent]
    rw [moved]
  halted halts := by
    obtain ⟨verdict, given, told⟩ := servesHalt kept.course serves halts
    have ends := Run.courseVerdict (servesCourse kept.course serves) given
    have named : first.outcome.verdict = verdict := by rw [ends]
    rw [named]
    exact ⟨told, fun record last history => historySettled given history⟩

theorem observedUnchanged (machine : Machine S) (config : Config) (input : List S)
    (known : ∀ symbol ∈ input, symbol ∈ machine.alphabet) :
    ∃ run outcome, Run.start machine config input = .ok run ∧
      machine.run config input = .ok outcome ∧
      (∀ record handle, (engine run).History record handle →
        (∀ other, handle.run.Loops other ↔ other = outcome) ∧
        (∀ request, handle.Offers request → ∃ reply later, handle.Serves request reply later) ∧
        ∀ request reply later, handle.Serves request reply later →
          reply.Faithful machine config input outcome (stepsTaken record) later) ∧
      ∃ shown last, run.Drains shown last ∧
        ∀ shown last, run.Drains shown last → shown.length = outcome.steps ∧
          (0 < outcome.steps →
            shown.getLast? = some ⟨outcome.steps, outcome.state, outcome.tapes⟩) := by
  obtain ⟨run, started, rfl, rfl, begins, fresh⟩ := startShape config known
  have ran : run.machine.run run.config input = .ok run.outcome := by
    rw [Machine.run, started]
    rfl
  refine ⟨run, run.outcome, started, ran, fun record handle history => ?_, ?_⟩
  · have kept := keptHistory fresh history
    refine ⟨fun other => ?_, fun request => servesOffered, fun request reply later serves => ?_⟩
    · rw [Run.loopsIff, kept.course.outcome]
    · exact faithfulServes begins kept serves
  · obtain ⟨shown, last, drains⟩ := run.drainsExists
    refine ⟨shown, last, drains, fun shown last drains => ?_⟩
    have count := run.aheadSteps
    rw [Run.drainsAhead drains, List.length_map]
    exact ⟨by omega, fun taken => Run.aheadLast (by omega)⟩

/- Looked at, made into a stream and pulled once, the run has taken its one step. -/
theorem observedCopier : ∃ run outcome handle, Run.start copier ⟨10, .biInfinite⟩ ['a'] = .ok run ∧
    copier.run ⟨10, .biInfinite⟩ ['a'] = .ok outcome ∧ outcome.verdict = .accept ∧
    (engine run).History [(.snapshot, .snapshot run.snapshot), (.stream, .handed),
      (.next, .pulled (some ⟨1, handle.run.state, handle.run.tapes⟩))] handle ∧
    handle.run.steps = 1 ∧ handle.run.Loops outcome := by
  obtain ⟨run, outcome, started, ran, observed, shown, last, drains, drained⟩ :=
    observedUnchanged copier ⟨10, .biInfinite⟩ ['a'] knownCopier
  have ends : copier.Ends .biInfinite (.start 2 ['a']) 10 1
      ⟨.accept, act .biInfinite (Configuration.start 2 ['a']).tapes ['a', 'a'] [.right, .stay]⟩ :=
    ⟨copierAccepts .biInfinite, by decide, .inr rfl⟩
  obtain rfl := Except.ok.inj
    ((runOfEnds (refuseNoneIff.mpr knownCopier) ends).symm.trans ran)
  have looked : (engine run).History [(.snapshot, .snapshot run.snapshot)] (engine run) :=
    .more .begins .snapshot
  have opened : (engine run).History [(.snapshot, .snapshot run.snapshot), (.stream, .handed)]
      (.stream run) := .more looked .stream
  obtain ⟨one, -⟩ := drained shown last drains
  cases drains with
  | empty done => cases one
  | @more _ _ first others pulled rest =>
    have serves : (Handle.stream run).Serves .next (.pulled (some first)) (.stream run.pull.2) := by
      rw [← pulled]
      exact .next
    have faithful := (observed _ _ opened).2.2 _ _ _ serves
    have history := Handle.History.more opened serves
    rw [faithful.shown first rfl] at history
    exact ⟨run, _, .stream run.pull.2, started, ran, rfl, history, (faithful.steps rfl).1,
      ((observed _ _ history).1 _).mpr rfl⟩

end Multitape
