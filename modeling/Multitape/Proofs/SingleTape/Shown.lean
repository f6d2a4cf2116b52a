import Multitape.Proofs.SingleTape.Compiled

/-! Configurations of the compiled machine and the scans they show. A configuration shows a
scan when its state is the number of the phase and its tape holds the tokens of the cells,
from offset 0 on, with blanks behind. Each step of the scan is one of the machine, with
tapes that reach to both sides as well as with tapes that end at offset 0. -/
namespace Multitape.SingleTape
variable {S : Type} [Symbol S] [DecidableEq S] {machine : Machine S} {mode : TapeMode}
  {compiled : SingleTape S}

def StateOf (compiled : SingleTape S) (state : State) : Target S → Prop
  | .phase phase => ∃ number, state = .ordinary number ∧ compiled.phases[number]? = some phase
  | .terminal terminal => state = terminal ∧ terminal.isTerminal

structure Shows (compiled : SingleTape S) (state : State) (tape : Tape Token) (scan : Scan S) :
    Prop where
  target : StateOf compiled state scan.target
  anchored : tape.Anchored
  left : tape.left = scan.left.map Cell.token
  ahead : ∃ beyond, tape.here :: tape.right =
    scan.ahead.map Cell.token ++ List.replicate beyond Symbol.blank

structure Applies (machine : Machine S) (mode : TapeMode) (scan next : Scan S) (phase : Phase S)
    (instruction : Instruction S) (rest : List (Cell S)) : Prop where
  target : scan.target = .phase phase
  known : instruction ∈ instructions machine mode phase
  ahead : scan.ahead = instruction.read :: rest ∨
    scan.ahead = [] ∧ rest = [] ∧ instruction.read = .plain Symbol.blank
  inside : instruction.move = .left → scan.left ≠ []
  result : next = instruction.result scan.left rest

theorem stepApplies {scan next : Scan S} (step : Step machine mode scan next) :
    ∃ phase instruction rest, Applies machine mode scan next phase instruction rest := by
  cases step with
  | on known inside => exact ⟨_, _, _, rfl, known, .inl rfl, inside, rfl⟩
  | beyond known blank inside => exact ⟨_, _, _, rfl, known, .inr ⟨rfl, rfl, blank⟩, inside, rfl⟩

section
variable {state : State} {tape : Tape Token} {scan next : Scan S} {phase : Phase S}
  {instruction : Instruction S} {rest : List (Cell S)}

theorem shownCells [LawfulSymbol S] (shows : Shows compiled state tape scan)
    (applies : Applies machine mode scan next phase instruction rest) :
    tape.here = instruction.read.token ∧
      ∃ beyond, tape.right = rest.map Cell.token ++ List.replicate beyond Symbol.blank := by
  obtain ⟨beyond, same⟩ := shows.ahead
  rcases applies.ahead with more | ⟨none, rfl, blank⟩
  · rw [more, List.map_cons, List.cons_append] at same
    obtain ⟨here, right⟩ := List.cons.inj same
    exact ⟨here, beyond, right⟩
  · rw [none, List.map_nil, List.nil_append] at same
    cases beyond with
    | zero => cases same
    | succ beyond =>
      obtain ⟨here, right⟩ := List.cons.inj same
      refine ⟨?_, beyond, right⟩
      rw [here, blank]
      exact Symbol.toTokenOfBlank.symm

/- The tape once the instruction has written and moved. -/
theorem shownTape [LawfulSymbol S] (shows : Shows compiled state tape scan)
    (applies : Applies machine mode scan next phase instruction rest) {later : State}
    (target : StateOf compiled later instruction.target) :
    Shows compiled later ((tape.write instruction.write.token).shift instruction.move) next := by
  obtain ⟨_, beyond, right⟩ := shownCells shows applies
  have anchored : tape.head = tape.left.length := shows.anchored
  have left := shows.left
  rw [applies.result]
  unfold Instruction.result
  cases move : instruction.move with
  | right =>
    refine ⟨target, ?_, ?_, ?_⟩
    · simp [Tape.Anchored, Tape.shift, Tape.write, anchored]
    · simp [Tape.shift, Tape.write, left]
    · cases split : tape.right with
      | nil =>
        have none : rest = [] := by
          rw [split] at right
          simpa using (List.append_eq_nil_iff.mp right.symm).1
        exact ⟨1, by simp [Tape.shift, Tape.write, split, none]⟩
      | cons token tokens => exact ⟨beyond, by simp [Tape.shift, Tape.write, split, ← right]⟩
  | left =>
    have inside := applies.inside move
    cases split : scan.left with
    | nil => exact absurd split inside
    | cons cell cells =>
      rw [split, List.map_cons] at left
      refine ⟨target, ?_, ?_, beyond, ?_⟩
      · simp only [Tape.Anchored, Tape.shift, Tape.write, anchored, left, List.length_cons,
          List.tail_cons]
        omega
      · simp [Scan.back, Tape.shift, Tape.write, left]
      · simp [Scan.back, Tape.shift, Tape.write, left, right]
  | stay =>
    refine ⟨target, anchored, left, beyond, ?_⟩
    simp [Tape.shift, Tape.write, right]

/- A move to the left has a cell to go to, so tapes that end at offset 0 allow it. -/
theorem shownShift (shows : Shows compiled state tape scan) (run : TapeMode)
    (applies : Applies machine mode scan next phase instruction rest) :
    run.shift (tape.write instruction.write.token) instruction.move =
      (tape.write instruction.write.token).shift instruction.move := by
  have anchored : tape.head = tape.left.length := shows.anchored
  refine if_neg fun ⟨_, left, zero⟩ => ?_
  have inside := List.length_pos_iff.mpr (applies.inside left)
  rw [shows.left, List.length_map] at anchored
  have start : tape.head = 0 := zero
  omega

theorem shownTarget (result : Compiled machine mode compiled) (several : 2 ≤ machine.tapes)
    (mem : phase ∈ compiled.phases) (known : instruction ∈ instructions machine mode phase) :
    StateOf compiled (instruction.target.state (numbering machine mode)) instruction.target := by
  rw [result.phases] at mem
  cases target : instruction.target with
  | phase next =>
    have numbered := numberedNext several mem known target
    refine ⟨_, rfl, ?_⟩
    rw [result.phases]
    exact Numbering.getStateOf result.few numbered
  | terminal terminal =>
    obtain ⟨tape, rfl⟩ := terminalTarget known target
    exact ⟨rfl, (numberedPossible several mem).1⟩

theorem shownRule [LawfulSymbol S] (result : Compiled machine mode compiled)
    (several : 2 ≤ machine.tapes) (shows : Shows compiled state tape scan)
    (applies : Applies machine mode scan next phase instruction rest) :
    ∃ number, state = .ordinary number ∧ compiled.machine.table.get? number [tape.read] =
        some (instruction.rule (numbering machine mode) number) ∧
      StateOf compiled (instruction.target.state (numbering machine mode)) instruction.target := by
  have target := shows.target
  rw [applies.target] at target
  obtain ⟨number, rfl, here⟩ := target
  have reads : tape.read = instruction.read.token := (shownCells shows applies).1
  have found := lookup result here applies.known
  rw [← reads] at found
  exact ⟨number, rfl, found,
    shownTarget result several (Array.mem_of_getElem? here) applies.known⟩

end

/- One step of the scan is one step of the machine, in either mode of its tape. -/
theorem shownStep [LawfulSymbol S] (result : Compiled machine mode compiled)
    (several : 2 ≤ machine.tapes) {state : State} {tape : Tape Token} {scan next : Scan S}
    (shows : Shows compiled state tape scan) (step : Step machine mode scan next) :
    (∃ number, state = .ordinary number ∧
        (compiled.machine.table.get? number [tape.read]).isSome) ∧
      ∃ later moved, Shows compiled later moved next ∧
        ∀ run, compiled.machine.step? run ⟨state, [tape]⟩ = some ⟨later, [moved]⟩ := by
  obtain ⟨phase, instruction, rest, applies⟩ := stepApplies step
  obtain ⟨number, rfl, found, following⟩ := shownRule result several shows applies
  refine ⟨⟨number, rfl, by rw [found]; rfl⟩, _, _, shownTape shows applies following, fun run => ?_⟩
  simp only [Machine.step?, Configuration.symbols, List.map_cons, List.map_nil, found,
    Instruction.rule, act, shownShift shows run applies]

end Multitape.SingleTape
