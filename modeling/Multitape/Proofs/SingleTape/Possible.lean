import Multitape.Proofs.Machine
import Multitape.Proofs.SingleTape.Round
import Multitape.SingleTape.Numbering

/-! The phases that can be met at all, and their instructions. A phase remembers symbols of
the alphabet, segments there are and rules there are; its instructions read and write
known cells and lead to phases of that kind. -/
namespace Multitape.SingleTape
open Instruction
variable {S : Type} [Symbol S]

def KnownCell (machine : Machine S) (cell : Cell S) : Prop :=
  ∀ symbol, cell.symbol? = some symbol → symbol ∈ machine.alphabet

section
variable {machine : Machine S}

@[simp] theorem knownPlain {symbol : S} :
    KnownCell machine (.plain symbol) ↔ symbol ∈ machine.alphabet := by
  simp [KnownCell, Cell.symbol?]

@[simp] theorem knownMarked {symbol : S} :
    KnownCell machine (.marked symbol) ↔ symbol ∈ machine.alphabet := by
  simp [KnownCell, Cell.symbol?]

@[simp] theorem knownLeftEnd : KnownCell machine .leftEnd := by simp [KnownCell, Cell.symbol?]

@[simp] theorem knownSeparator : KnownCell machine .separator := by simp [KnownCell, Cell.symbol?]

@[simp] theorem knownRightEnd : KnownCell machine .rightEnd := by simp [KnownCell, Cell.symbol?]

end

def KnownState (machine : Machine S) (state : Nat) : Prop :=
  state = 0 ∨ state ∈ machine.table.states

def Possible (machine : Machine S) : Phase S → Prop
  | .start | .terminator => True
  | .carry symbol _ => symbol ∈ machine.alphabet
  | .separator tape | .layBlank tape => tape < machine.tapes
  | .rewind (.read state) => KnownState machine state
  | .rewind (.cleanup terminal) => terminal.isTerminal
  | .read state seen => KnownState machine state ∧ (seen = [] ∨
      ∃ rule ∈ machine.table.rules.toList, rule.state = state ∧
        ∃ n < machine.tapes, seen = rule.read.take (n + 1))
  | .write rule tape | .move rule tape _ | .markNext rule tape | .markPrevious rule tape
  | .insertBlank rule tape | .remark rule tape =>
    rule < machine.table.rules.size ∧ tape < machine.tapes
  | .shift rule tape carried =>
    rule < machine.table.rules.size ∧ tape < machine.tapes ∧
      KnownCell machine carried ∧ carried ≠ .leftEnd
  | .back rule tape remaining =>
    rule < machine.table.rules.size ∧ tape + 1 < machine.tapes ∧ remaining < machine.tapes
  | .cleanup terminal tape => terminal.isTerminal ∧ tape < machine.tapes

variable [DecidableEq S] {machine : Machine S} {mode : TapeMode}

theorem memCells {cell : Cell S} :
    cell ∈ cells machine ↔ KnownCell machine cell ∧ cell ≠ .leftEnd := by
  simp only [cells, contents, List.mem_append, List.mem_map, Alphabet.memWithBlank]
  cases cell <;> simp

theorem memTerminals {terminal : State} :
    terminal.isTerminal ↔ terminal ∈ [State.accept, .reject, .halt] := by
  cases terminal <;> simp [State.isTerminal, State.number?]

/- The phases in which a rule is at work on a segment. -/
theorem memOfRule {phase : Phase S} {rule tape : Nat} (ruleBound : rule < machine.table.rules.size)
    (bound : tape < machine.tapes)
    (mem : phase ∈ [Phase.write rule tape, .move rule tape true, .move rule tape false,
        .markNext rule tape, .markPrevious rule tape, .insertBlank rule tape, .remark rule tape] ++
      (cells machine).map (Phase.shift rule tape ·) ++
      (List.range machine.tapes).map (Phase.back rule tape ·)) :
    phase ∈ possiblePhases machine := by
  refine List.mem_append_right _ (List.mem_flatMap.mpr ⟨rule, List.mem_range.mpr ruleBound, ?_⟩)
  exact List.mem_flatMap.mpr ⟨tape, List.mem_range.mpr bound, mem⟩

theorem memPossiblePhases {phase : Phase S} (possible : Possible machine phase) :
    phase ∈ possiblePhases machine := by
  cases phase with
  | start => simp [possiblePhases]
  | terminator => simp [possiblePhases]
  | carry symbol first =>
    have known := Alphabet.memWithBlank.mpr possible
    cases first <;> simp [possiblePhases, known]
  | separator tape => simpa [possiblePhases, Possible] using possible
  | layBlank tape => simpa [possiblePhases, Possible] using possible
  | rewind resume =>
    cases resume with
    | read state =>
      simpa [possiblePhases, Possible, KnownState, eq_comm] using possible
    | cleanup terminal =>
      have known := memTerminals.mp possible
      simp only [List.mem_cons, List.not_mem_nil, or_false] at known
      rcases known with rfl | rfl | rfl <;> simp [possiblePhases]
  | read state seen =>
    obtain ⟨known, rfl | ⟨rule, mem, rfl, n, bound, rfl⟩⟩ := possible
    · have : state = 0 ∨ state ∈ machine.table.states := known
      simp only [possiblePhases, List.mem_append, List.mem_flatMap, List.mem_cons]
      grind
    · refine List.mem_append_left _ (List.mem_append_right _ ?_)
      exact List.mem_flatMap.mpr ⟨rule, mem, List.mem_map.mpr ⟨n, by simpa, rfl⟩⟩
  | cleanup terminal tape =>
    obtain ⟨known, bound⟩ := possible
    rw [memTerminals, List.mem_cons, List.mem_cons, List.mem_singleton] at known
    rcases known with rfl | rfl | rfl <;> simp [possiblePhases, bound]
  | shift rule tape carried =>
    obtain ⟨ruleBound, bound, known⟩ := possible
    exact memOfRule ruleBound bound (by simp [memCells, known])
  | back rule tape remaining =>
    obtain ⟨ruleBound, bound, fewer⟩ := possible
    exact memOfRule ruleBound (show tape < machine.tapes by omega) (by simp [fewer])
  | move rule tape done =>
    apply memOfRule possible.1 possible.2
    cases done <;> simp
  | _ => exact memOfRule possible.1 possible.2 (by simp)

structure Allowed (machine : Machine S) (instruction : Instruction S) : Prop where
  read : KnownCell machine instruction.read
  write : KnownCell machine instruction.write
  target : ∀ next, instruction.target = .phase next → Possible machine next

omit [DecidableEq S] in
theorem allowedPut {cell write : Cell S} {next : Phase S} {move : Direction}
    (read : KnownCell machine cell) (written : KnownCell machine write)
    (possible : Possible machine next) : Allowed machine (put cell next write move) where
  read := read
  write := written
  target _ same := Target.phase.inj same ▸ possible

omit [DecidableEq S] in
theorem allowedPass {cell : Cell S} {next : Phase S} {move : Direction}
    (read : KnownCell machine cell) (possible : Possible machine next) :
    Allowed machine (Instruction.pass cell move next) :=
  allowedPut read read possible

omit [DecidableEq S] in
theorem possibleResume (rule : Nat) : Possible machine (.rewind (resumeAfter machine rule)) := by
  unfold resumeAfter
  cases found : machine.table.rules[rule]? with
  | none => rfl
  | some source =>
    have mem := Array.mem_toList_iff.mpr (Array.mem_of_getElem? found)
    cases direction : source.next with
    | ordinary state =>
      simp only [Option.map_some, Option.getD_some, direction]
      exact .inr (Table.memStates.mpr ⟨source, mem, .inr direction⟩)
    | _ => simp [direction, Possible, State.isTerminal, State.number?]

omit [DecidableEq S] in
theorem terminalOfResume {rule : Nat} {terminal : State}
    (stops : resumeAfter machine rule = .cleanup terminal) : terminal.isTerminal := by
  have possible : Possible machine (.rewind (resumeAfter machine rule)) := possibleResume rule
  rwa [stops] at possible

omit [DecidableEq S] in
theorem possibleShifted {rule tape : Nat} (ruleBound : rule < machine.table.rules.size) :
    Possible machine (afterShift machine rule tape) := by
  unfold afterShift
  split
  · exact ⟨ruleBound, by omega, by omega⟩
  · exact possibleResume rule

omit [DecidableEq S] in
theorem knownBefore (tape : Nat) : KnownCell machine (boundaryBefore tape) := by
  unfold boundaryBefore
  split <;> simp

omit [DecidableEq S] in
theorem knownAfter (tape : Nat) : KnownCell machine (boundaryAfter machine tape) := by
  unfold boundaryAfter
  split <;> simp

omit [DecidableEq S] in
theorem notLeftEndAfter (tape : Nat) : boundaryAfter machine tape ≠ .leftEnd := by
  unfold boundaryAfter
  split <;> simp

omit [DecidableEq S] in
theorem allowedCleanup {terminal : State} (known : terminal.isTerminal) :
    Allowed machine (beginCleanup terminal) :=
  allowedPut knownLeftEnd (knownPlain.mpr machine.alphabet.blankMem) ⟨known, machine.hasTapes⟩

theorem knownContents {cell : Cell S} (mem : cell ∈ contents machine) : KnownCell machine cell :=
  (memCells.mp (List.mem_append_left _ mem)).1

/- What has been seen is the start of a rule's symbols, and so is what is seen next. -/
theorem possibleRead {state : Nat} {seen : List S} {symbol : S} (known : KnownState machine state)
    (more : seen.length < machine.tapes) (starts : isKnown machine state (seen ++ [symbol])) :
    Possible machine (.read state (seen ++ [symbol])) := by
  obtain ⟨rule, mem, same, shorter⟩ := isKnownIff.mp starts
  refine ⟨known, .inr ⟨rule, mem, same, seen.length, more, ?_⟩⟩
  have h := List.prefix_iff_eq_take.mp shorter
  simpa using h

section
variable {instruction : Instruction S}

theorem allowedCopying (several : 2 ≤ machine.tapes) {phase : Phase S}
    (possible : Possible machine phase) (copying : phase.stage = .copying)
    (mem : instruction ∈ instructions machine mode phase) : Allowed machine instruction := by
  have blank : KnownCell machine (.plain Symbol.blank) := knownPlain.mpr machine.alphabet.blankMem
  have markedBlank : KnownCell machine (.marked Symbol.blank) :=
    knownMarked.mpr machine.alphabet.blankMem
  cases phase with
  | start =>
    simp only [instructions, List.mem_append, List.mem_map, List.mem_singleton,
      Alphabet.memWithBlank] at mem
    rcases mem with ⟨symbol, known, rfl⟩ | rfl
    · exact allowedPut (knownPlain.mpr known) knownLeftEnd known
    · exact allowedPut knownRightEnd knownLeftEnd machine.hasTapes
  | carry carried first =>
    have cell : KnownCell machine (if first then .marked carried else .plain carried) := by
      split
      · exact knownMarked.mpr possible
      · exact knownPlain.mpr possible
    simp only [instructions, List.mem_append, List.mem_map, List.mem_singleton,
      Alphabet.memWithBlank] at mem
    rcases mem with ⟨symbol, known, rfl⟩ | rfl
    · exact allowedPut (knownPlain.mpr known) cell known
    · exact allowedPut knownRightEnd cell (show 1 < machine.tapes by omega)
  | separator tape =>
    simp only [instructions, List.mem_singleton] at mem
    subst mem
    exact allowedPut blank knownSeparator possible
  | layBlank tape =>
    simp only [instructions, List.mem_singleton] at mem
    subst mem
    apply allowedPut blank markedBlank
    split
    · assumption
    · trivial
  | terminator =>
    simp only [instructions, List.mem_singleton] at mem
    subst mem
    exact allowedPut blank knownRightEnd (Or.inl rfl)
  | rewind resume => cases resume <;> simp [Phase.stage] at copying
  | _ => simp [Phase.stage] at copying

theorem allowedRewind {resume : Resume} (possible : Possible machine (.rewind resume))
    (mem : instruction ∈ instructions machine mode (.rewind resume)) :
    Allowed machine instruction := by
  simp only [instructions, List.mem_append, List.mem_map, List.mem_singleton] at mem
  rcases mem with ⟨cell, known, rfl⟩ | rfl
  · exact allowedPass (memCells.mp known).1 possible
  · cases resume with
    | read state => exact allowedPass knownLeftEnd ⟨possible, .inl rfl⟩
    | cleanup terminal => exact allowedCleanup possible

theorem allowedRead {state : Nat} {seen : List S} (possible : Possible machine (.read state seen))
    (mem : instruction ∈ instructions machine mode (.read state seen)) :
    Allowed machine instruction := by
  have rejecting : Possible machine (.rewind (.cleanup .reject)) := rfl
  simp only [instructions, List.mem_append, List.mem_cons, List.mem_map,
    Alphabet.memWithBlank] at mem
  rcases mem with ⟨symbol, known, rfl⟩ | rfl | mem
  · exact allowedPass (knownPlain.mpr known) possible
  · exact allowedPass knownSeparator possible
  · split at mem
    · rename_i more
      obtain ⟨symbol, known, rfl⟩ := List.mem_map.mp mem
      have marked := knownMarked.mpr (Alphabet.memWithBlank.mp known)
      split
      · rename_i starts
        exact allowedPass marked (possibleRead possible.1 more starts)
      · exact allowedPass marked rejecting
    · obtain rfl := List.mem_singleton.mp mem
      apply allowedPass knownRightEnd
      have positive := machine.hasTapes
      split
      · rename_i rule found
        obtain ⟨bound, _⟩ := Array.findIdx?_eq_some_iff_getElem.mp found
        exact ⟨bound, by omega⟩
      · exact rejecting

theorem allowedWrite {rule tape : Nat} (possible : Possible machine (.write rule tape))
    (mem : instruction ∈ instructions machine mode (.write rule tape)) :
    Allowed machine instruction := by
  have ⟨ruleBound, bound⟩ := possible
  simp only [instructions, List.mem_append, List.mem_flatMap, List.mem_cons, List.not_mem_nil,
    or_false, Alphabet.memWithBlank] at mem
  rcases mem with ⟨symbol, known, rfl | rfl⟩ | rfl
  · exact allowedPass (knownPlain.mpr known) possible
  · exact allowedPut (knownMarked.mpr known) (knownMarked.mpr (writtenByMem ..)) possible
  · split
    · exact allowedPass knownSeparator ⟨ruleBound, show _ < _ by omega⟩
    · exact allowedPass knownLeftEnd ⟨ruleBound, machine.hasTapes⟩
    · rename_i stops
      exact allowedCleanup (terminalOfResume stops)

theorem allowedMove {rule tape : Nat} {done : Bool} (possible : Possible machine (.move rule tape done))
    (mem : instruction ∈ instructions machine mode (.move rule tape done)) :
    Allowed machine instruction := by
  have ⟨ruleBound, bound⟩ := possible
  simp only [instructions, List.mem_append, List.mem_flatMap, List.mem_cons, List.not_mem_nil,
    or_false, Alphabet.memWithBlank] at mem
  rcases mem with ⟨symbol, known, rfl | rfl⟩ | rfl
  · exact allowedPass (knownPlain.mpr known) possible
  · split
    · exact allowedPut (knownMarked.mpr known) (knownPlain.mpr known) possible
    · exact allowedPut (knownMarked.mpr known) (knownPlain.mpr known) possible
    · exact allowedPass (knownMarked.mpr known) possible
  · split
    · rename_i more
      exact allowedPass knownSeparator ⟨ruleBound, more⟩
    · exact allowedPass knownRightEnd (possibleResume rule)

/- The phases that put a mark down. -/
theorem allowedMark {phase : Phase S} {rule tape : Nat} (ruleBound : rule < machine.table.rules.size)
    (bound : tape < machine.tapes)
    (marking : phase ∈ [.markNext rule tape, .markPrevious rule tape, .insertBlank rule tape,
      .remark rule tape])
    (mem : instruction ∈ instructions machine mode phase) : Allowed machine instruction := by
  have markedBlank : KnownCell machine (.marked Symbol.blank) :=
    knownMarked.mpr machine.alphabet.blankMem
  simp only [List.mem_cons, List.not_mem_nil, or_false] at marking
  rcases marking with rfl | rfl | rfl | rfl <;>
    simp only [instructions, List.mem_append, List.mem_map, List.mem_singleton,
      Alphabet.memWithBlank] at mem
  · rcases mem with ⟨symbol, known, rfl⟩ | rfl
    · exact allowedPut (knownPlain.mpr known) (knownMarked.mpr known) ⟨ruleBound, bound⟩
    · exact allowedPut (knownAfter tape) markedBlank
        ⟨ruleBound, bound, knownAfter tape, notLeftEndAfter tape⟩
  · rcases mem with ⟨symbol, known, rfl⟩ | rfl
    · exact allowedPut (knownPlain.mpr known) (knownMarked.mpr known) ⟨ruleBound, bound⟩
    · apply allowedPass (knownBefore tape)
      cases mode <;> exact ⟨ruleBound, bound⟩
  · obtain ⟨symbol, known, rfl⟩ := mem
    exact allowedPut (knownPlain.mpr known) markedBlank
      ⟨ruleBound, bound, knownPlain.mpr known, by simp⟩
  · obtain ⟨symbol, known, rfl⟩ := mem
    exact allowedPut (knownPlain.mpr known) (knownMarked.mpr known) ⟨ruleBound, bound⟩

theorem allowedShift {rule tape : Nat} {carried : Cell S}
    (possible : Possible machine (.shift rule tape carried))
    (mem : instruction ∈ instructions machine mode (.shift rule tape carried)) :
    Allowed machine instruction := by
  obtain ⟨ruleBound, bound, known, _⟩ := possible
  simp only [instructions] at mem
  split at mem
  · obtain rfl := List.mem_singleton.mp mem
    exact allowedPut (knownPlain.mpr machine.alphabet.blankMem) knownRightEnd
      (possibleShifted ruleBound)
  · obtain ⟨cell, inside, rfl⟩ := List.mem_map.mp mem
    obtain ⟨reads, other⟩ := memCells.mp inside
    exact allowedPut reads known ⟨ruleBound, bound, reads, other⟩

theorem allowedBack {rule tape remaining : Nat} (possible : Possible machine (.back rule tape remaining))
    (mem : instruction ∈ instructions machine mode (.back rule tape remaining)) :
    Allowed machine instruction := by
  have ⟨ruleBound, bound, fewer⟩ := possible
  simp only [instructions, List.mem_append, List.mem_map, List.mem_singleton] at mem
  rcases mem with ⟨cell, inside, rfl⟩ | rfl
  · exact allowedPass (knownContents inside) possible
  · split
    · exact allowedPass knownSeparator ⟨ruleBound, bound, by omega⟩
    · exact allowedPass knownSeparator ⟨ruleBound, bound⟩

theorem allowedErase {terminal : State} {tape : Nat} (possible : Possible machine (.cleanup terminal tape))
    (mem : instruction ∈ instructions machine mode (.cleanup terminal tape)) :
    Allowed machine instruction := by
  have blank : KnownCell machine (.plain Symbol.blank) := knownPlain.mpr machine.alphabet.blankMem
  have ⟨stops, bound⟩ := possible
  simp only [instructions] at mem
  split at mem
  · rename_i more
    simp only [List.mem_append, List.mem_map, List.mem_singleton] at mem
    rcases mem with ⟨cell, inside, rfl⟩ | rfl
    · exact allowedPut (knownContents inside) blank possible
    · exact allowedPut knownSeparator blank ⟨stops, more⟩
  · simp only [List.mem_append, List.mem_flatMap, List.mem_cons, List.not_mem_nil, or_false,
      Alphabet.memWithBlank] at mem
    rcases mem with ⟨symbol, known, rfl | rfl⟩ | rfl
    · exact allowedPass (knownPlain.mpr known) possible
    · exact allowedPut (knownMarked.mpr known) (knownPlain.mpr known) possible
    · exact ⟨knownRightEnd, blank, fun next same => by cases same⟩

theorem allowed (several : 2 ≤ machine.tapes) {phase : Phase S} (possible : Possible machine phase)
    (mem : instruction ∈ instructions machine mode phase) : Allowed machine instruction := by
  cases phase with
  | rewind resume => exact allowedRewind possible mem
  | read state seen => exact allowedRead possible mem
  | write rule tape => exact allowedWrite possible mem
  | move rule tape done => exact allowedMove possible mem
  | markNext rule tape | markPrevious rule tape | insertBlank rule tape | remark rule tape =>
    exact allowedMark possible.1 possible.2 (by simp) mem
  | shift rule tape carried => exact allowedShift possible mem
  | back rule tape remaining => exact allowedBack possible mem
  | cleanup terminal tape => exact allowedErase possible mem
  | _ => exact allowedCopying several possible rfl mem

/- The phases that can be met are closed under their instructions. -/
theorem possibleSuccessor (several : 2 ≤ machine.tapes) {phase next : Phase S}
    (possible : Possible machine phase) (follows : next ∈ successors machine mode phase) :
    Possible machine next := by
  obtain ⟨instruction, mem, target⟩ := List.mem_filterMap.mp follows
  cases aim : instruction.target with
  | phase other =>
    rw [aim] at target
    obtain rfl := Option.some.inj target
    exact (allowed several possible mem).target other aim
  | terminal state =>
    rw [aim] at target
    cases target

omit [Symbol S] [DecidableEq S] in
theorem targetPut {cell write : Cell S} {next : Phase S} {move : Direction} {terminal : State} :
    (put cell next write move).target ≠ .terminal terminal := by
  simp [put]

omit [Symbol S] [DecidableEq S] in
theorem targetPass {cell : Cell S} {next : Phase S} {move : Direction} {terminal : State} :
    (Instruction.pass cell move next).target ≠ .terminal terminal := by
  simp [Instruction.pass]

/- Only a cleanup stops the machine, in the state that it is for. -/
theorem terminalTarget {phase : Phase S} {terminal : State}
    (mem : instruction ∈ instructions machine mode phase)
    (target : instruction.target = .terminal terminal) : ∃ tape, phase = .cleanup terminal tape := by
  cases phase with
  | cleanup other tape =>
    simp only [instructions] at mem
    split at mem
    · simp only [List.mem_append, List.mem_map, List.mem_singleton] at mem
      rcases mem with ⟨cell, _, rfl⟩ | rfl <;> exact absurd target targetPut
    · simp only [List.mem_append, List.mem_flatMap, List.mem_cons, List.not_mem_nil,
        or_false] at mem
      rcases mem with ⟨symbol, _, rfl | rfl⟩ | rfl
      · exact absurd target targetPass
      · exact absurd target targetPut
      · exact ⟨tape, by rw [Target.terminal.inj target]⟩
  | _ =>
    simp only [instructions] at mem
    grind [targetPut, targetPass, beginCleanup]

end

end Multitape.SingleTape
