import Multitape.Run

/-! Runs without a bound. `after?` is the configuration after exactly so many steps, and a
bounded run is the one it reaches at the bound or at a terminal state, whichever comes
first. So a bounded run depends on the machine only through `after?`. -/
namespace Multitape
variable {S : Type} [Symbol S] [DecidableEq S]

/-- The configuration after `n` steps; there is none if the machine stops sooner. -/
def Machine.after? (machine : Machine S) (mode : TapeMode) (start : Configuration S) :
    Nat → Option (Configuration S)
  | 0 => some start
  | n + 1 => (machine.after? mode start n).bind (machine.step? mode)

section
variable {machine : Machine S} {mode : TapeMode} {start now : Configuration S}

theorem afterSucc {n : Nat} (reached : machine.after? mode start n = some now) :
    machine.after? mode start (n + 1) = machine.step? mode now := by
  simp [Machine.after?, reached]

theorem afterBefore {n m : Nat} (reached : machine.after? mode start n = some now) (le : m ≤ n) :
    ∃ before, machine.after? mode start m = some before := by
  induction n generalizing now with
  | zero => exact ⟨now, by rw [show m = 0 by omega]; exact reached⟩
  | succ n ih =>
    obtain ⟨previous, found, _⟩ := Option.bind_eq_some_iff.mp reached
    rcases Nat.lt_or_eq_of_le le with less | rfl
    · exact ih found (by omega)
    · exact ⟨now, reached⟩

theorem stepOfTerminal (terminal : now.state.isTerminal) : machine.step? mode now = none :=
  (stepNoneIff machine mode now).mpr terminal

/- A terminal state is the last one: nothing comes after it, and it is reached only once. -/
theorem afterTerminal {n m : Nat} {later : Configuration S}
    (reached : machine.after? mode start n = some now) (terminal : now.state.isTerminal)
    (other : machine.after? mode start m = some later) : m ≤ n := by
  refine Nat.le_of_not_lt fun more => ?_
  obtain ⟨next, found⟩ := afterBefore other (show n + 1 ≤ m from more)
  rw [afterSucc reached, stepOfTerminal terminal] at found
  contradiction

def Machine.Ends (machine : Machine S) (mode : TapeMode) (start : Configuration S) (bound n : Nat)
    (last : Configuration S) : Prop :=
  machine.after? mode start n = some last ∧ n ≤ bound ∧ (n = bound ∨ last.state.isTerminal)

theorem endsExists (machine : Machine S) (mode : TapeMode) (start : Configuration S) (bound : Nat) :
    ∃ n last, machine.Ends mode start bound n last := by
  induction bound with
  | zero => exact ⟨0, start, rfl, Nat.le_refl 0, .inl rfl⟩
  | succ bound ih =>
    obtain ⟨n, last, reached, le, done⟩ := ih
    by_cases terminal : last.state.isTerminal
    · exact ⟨n, last, reached, by omega, .inr terminal⟩
    · obtain rfl := done.resolve_right terminal
      cases next : machine.step? mode last with
      | none => exact absurd ((stepNoneIff machine mode last).mp next) terminal
      | some later => exact ⟨n + 1, later, (afterSucc reached).trans next, Nat.le_refl _, .inl rfl⟩

theorem endsUnique {bound n m : Nat} {last other : Configuration S}
    (one : machine.Ends mode start bound n last) (two : machine.Ends mode start bound m other) :
    n = m ∧ last = other := by
  have same : n = m := by
    rcases one.2.2 with full | terminal
    · rcases two.2.2 with full' | terminal'
      · omega
      · have h := afterTerminal two.1 terminal' one.1
        have := two.2.1
        omega
    · have h := afterTerminal one.1 terminal two.1
      rcases two.2.2 with full' | terminal'
      · have := one.2.1
        omega
      · have h' := afterTerminal two.1 terminal' one.1
        omega
  subst same
  exact ⟨rfl, Option.some.inj (one.1.symm.trans two.1)⟩

end

def Configuration.outcome (last : Configuration S) (steps : Nat) : Outcome S :=
  ⟨last.state.verdict?.getD .stepBoundExceeded, steps, last.tapes, last.state⟩

omit [Symbol S] [DecidableEq S] in
theorem verdictExceededIff {last : Configuration S} {steps : Nat} :
    (last.outcome steps).verdict = .stepBoundExceeded ↔ ¬ last.state.isTerminal := by
  cases last with
  | mk state tapes =>
    cases state <;> simp [Configuration.outcome, State.verdict?, State.isTerminal, State.number?]

namespace Run

/- A step of a run is one of its machine that the bound still allows. -/
theorem nextIff {run next : Run S} : run.step? = some next ↔
    run.steps < run.config.maxSteps ∧
      ∃ later, run.machine.step? run.config.tapeMode run.toConfiguration = some later ∧
        next = { run with toConfiguration := later, steps := run.steps + 1 } := by
  rw [step?, Option.ite_none_left_eq_some, Nat.not_le, Option.map_eq_some_iff]
  simp only [eq_comm (a := next)]

theorem advanceEnds (run : Run S) {n m bound : Nat} {start last : Configuration S}
    (reached : run.machine.after? run.config.tapeMode start run.steps = some run.toConfiguration)
    (bounded : run.config.maxSteps = bound) (enough : run.steps + n = bound)
    (ends : run.machine.Ends run.config.tapeMode start bound m last) :
    (run.advance n).steps = m ∧ (run.advance n).toConfiguration = last := by
  induction n generalizing run with
  | zero =>
    have here : run.machine.Ends run.config.tapeMode start bound run.steps run.toConfiguration :=
      ⟨reached, by omega, .inl (by omega)⟩
    exact endsUnique here ends
  | succ n ih =>
    cases next : run.machine.step? run.config.tapeMode run.toConfiguration with
    | none =>
      have terminal := (stepNoneIff _ _ _).mp next
      have stuck : run.step? = none := by simp [step?, next]
      simp only [advance, stuck]
      exact endsUnique ⟨reached, by omega, .inr terminal⟩ ends
    | some later =>
      have moves : run.step? =
          some { run with toConfiguration := later, steps := run.steps + 1 } :=
        nextIff.mpr ⟨by omega, later, next, rfl⟩
      simp only [advance, moves]
      exact ih _ ((afterSucc reached).trans next) bounded (by simp only; omega) ends

end Run

theorem runOfEnds {machine : Machine S} {mode : TapeMode} {bound n : Nat} {input : List S}
    {last : Configuration S} (known : machine.alphabet.refuse? input = none)
    (ends : machine.Ends mode (.start machine.tapes input) bound n last) :
    machine.run ⟨bound, mode⟩ input = .ok (last.outcome n) := by
  let run : Run S := { Configuration.start machine.tapes input with
    machine, config := ⟨bound, mode⟩, steps := 0 }
  obtain ⟨steps, same⟩ := Run.advanceEnds run rfl rfl (Nat.zero_add bound) ends
  have started : Run.start machine ⟨bound, mode⟩ input = .ok run := by simp only [Run.start, known, run]
  simp only [Machine.run, started, Except.map]
  rw [← same, ← steps]
  rfl

theorem refuseNoneIff {alphabet : Alphabet S} {input : List S} :
    alphabet.refuse? input = none ↔ ∀ symbol ∈ input, symbol ∈ alphabet := by
  simp only [Alphabet.refuse?, Option.map_eq_none_iff, List.find?_eq_none, decide_eq_true_eq,
    Decidable.not_not]
  constructor
  · intro h symbol mem
    obtain ⟨i, found⟩ := List.mem_iff_getElem?.mp mem
    exact h (symbol, i) (List.mk_mem_zipIdx_iff_getElem?.mpr found)
  · intro h pair mem
    exact h _ (List.fst_mem_of_mem_zipIdx mem)

/- What is refused is the first symbol that the alphabet does not have. -/
theorem refuseSomeIff {alphabet : Alphabet S} {input : List S} {cause : InputError} :
    alphabet.refuse? input = some cause ↔ ∃ known symbol rest, input = known ++ symbol :: rest ∧
      (∀ earlier ∈ known, earlier ∈ alphabet) ∧ symbol ∉ alphabet ∧
      cause = .unknownSymbol (Symbol.text symbol) known.length := by
  unfold Alphabet.refuse?
  rw [Option.map_eq_some_iff]
  constructor
  · intro refused
    obtain ⟨⟨symbol, position⟩, found, told⟩ := refused
    obtain ⟨foreign, _, _, split, inside⟩ := List.find?_eq_some_iff_append.mp found
    obtain ⟨known, _, rfl, rfl, behind⟩ := List.zipIdx_eq_append_iff.mp split
    obtain ⟨_, rest, rfl, same, -⟩ := List.zipIdx_eq_cons_iff.mp behind.symm
    cases same
    refine ⟨known, symbol, rest, rfl, fun earlier mem => ?_, by simpa using foreign, ?_⟩
    · obtain ⟨index, here⟩ := List.mem_iff_getElem?.mp mem
      simpa using inside (earlier, index) (List.mk_mem_zipIdx_iff_getElem?.mpr here)
    · simpa using told.symm
  · intro first
    obtain ⟨known, symbol, rest, split, inside, foreign, told⟩ := first
    refine ⟨(symbol, known.length), ?_, told.symm⟩
    rw [split, List.zipIdx_append, List.find?_append, Option.or_eq_some_iff]
    refine .inr ⟨List.find?_eq_none.mpr fun pair mem => ?_, ?_⟩
    · simpa using inside _ (List.fst_mem_of_mem_zipIdx mem)
    · rw [List.zipIdx_cons, List.find?_cons_of_pos (by simpa using foreign), Nat.zero_add]

theorem startAccepted {machine : Machine S} (config : Config) {input : List S}
    (known : ∀ symbol ∈ input, symbol ∈ machine.alphabet) :
    Run.start machine config input =
      .ok { Configuration.start machine.tapes input with machine, config, steps := 0 } := by
  unfold Run.start
  rw [refuseNoneIff.mpr known]

theorem startErrorIff {machine : Machine S} {config : Config} {input : List S} {cause : InputError} :
    Run.start machine config input = .error cause ↔ machine.alphabet.refuse? input = some cause := by
  unfold Run.start
  cases machine.alphabet.refuse? input <;> simp

theorem runIff {machine : Machine S} {mode : TapeMode} {bound : Nat} {input : List S}
    {outcome : Outcome S} (known : ∀ symbol ∈ input, symbol ∈ machine.alphabet) :
    machine.run ⟨bound, mode⟩ input = .ok outcome ↔
      ∃ n last, machine.Ends mode (.start machine.tapes input) bound n last ∧
        outcome = last.outcome n := by
  have refused := refuseNoneIff.mpr known
  constructor
  · intro ok
    obtain ⟨n, last, ends⟩ := endsExists machine mode (.start machine.tapes input) bound
    rw [runOfEnds refused ends] at ok
    exact ⟨n, last, ends, (Except.ok.inj ok).symm⟩
  · rintro ⟨n, last, ends, rfl⟩
    exact runOfEnds refused ends

theorem knownOfRun {machine : Machine S} {config : Config} {input : List S} {outcome : Outcome S}
    (ran : machine.run config input = .ok outcome) : ∀ symbol ∈ input, symbol ∈ machine.alphabet := by
  apply refuseNoneIff.mp
  cases refused : machine.alphabet.refuse? input with
  | none => rfl
  | some cause =>
    rw [Machine.run, Run.start, refused] at ran
    cases ran

end Multitape
