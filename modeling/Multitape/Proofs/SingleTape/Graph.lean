import Multitape.Proofs.Findings
import Multitape.Proofs.SingleTape.Endless
import Multitape.Proofs.SingleTape.Compiled

/-! The states of a compiled machine and the rules between them. Phases are numbered as they
are come upon, so each but the first is entered from one before it, and every phase has an
instruction. So of a compiled machine there is nothing to report but that no rule stops it, and
then its source stops on no input either. -/
namespace Multitape.SingleTape
open Instruction
variable {S : Type} [Symbol S] [DecidableEq S] {machine : Machine S} {mode : TapeMode}

namespace Numbering
variable {numbering : Numbering S}

/- A new phase comes behind all the old ones. -/
theorem newAddAll {phases : List (Phase S)} {phase : Phase S} {number : Nat}
    (found : (phases.foldl add numbering).phases[number]? = some phase)
    (new : numbering.phases.size ≤ number) : phase ∈ phases := by
  rcases memAddAll.mp (Array.mem_of_getElem? found) with old | new'
  · have here := getPosition old
    have same := (positionGet (keptAddAll here)).symm.trans (positionGet found)
    obtain ⟨bound, -⟩ := Array.getElem?_eq_some_iff.mp here
    exact absurd bound (by omega)
  · exact new'

def Discovered (successors : Phase S → List (Phase S)) (numbering : Numbering S) : Prop :=
  ∀ number phase, 0 < number → numbering.phases[number]? = some phase →
    ∃ less < number, ∃ earlier, numbering.phases[less]? = some earlier ∧ phase ∈ successors earlier

theorem discoveredNext {successors : Phase S → List (Phase S)} {next : Nat} {phase : Phase S}
    (discovered : Discovered successors numbering)
    (here : numbering.phases[next]? = some phase) :
    Discovered successors ((successors phase).foldl add numbering) := by
  intro number other positive found
  obtain ⟨bound, -⟩ := Array.getElem?_eq_some_iff.mp here
  by_cases old : number < numbering.phases.size
  · have before := Array.getElem?_eq_getElem old
    obtain rfl := Option.some.inj ((keptAddAll before).symm.trans found)
    obtain ⟨less, smaller, earlier, held, follows⟩ := discovered number _ positive before
    exact ⟨less, smaller, earlier, keptAddAll held, follows⟩
  · exact ⟨next, by omega, phase, keptAddAll here, newAddAll found (by omega)⟩

theorem discoveredExplore {successors : Phase S → List (Phase S)} {fuel next : Nat}
    (discovered : Discovered successors numbering) :
    Discovered successors (explore successors fuel next numbering) := by
  induction fuel generalizing next numbering with
  | zero => exact discovered
  | succ fuel ih =>
    unfold explore
    split
    · exact discovered
    · rename_i phase here
      exact ih (discoveredNext discovered here)

end Numbering

open SingleTape.Numbering

theorem numberedDiscovered :
    Discovered (successors machine mode) (numbering machine mode) := by
  refine discoveredExplore fun number phase positive found => ?_
  obtain ⟨bound, -⟩ := Array.getElem?_eq_some_iff.mp found
  rw [sizeAdd] at bound
  change number < 0 + _ at bound
  split at bound <;> omega

theorem instructionExists (machine : Machine S) (mode : TapeMode) (phase : Phase S) :
    instructions machine mode phase ≠ [] := by
  have symbols : machine.alphabet.withBlank ≠ [] :=
    List.ne_nil_of_mem (Alphabet.memWithBlank.mpr machine.alphabet.blankMem)
  cases phase with
  | insertBlank rule tape => simpa [instructions] using symbols
  | remark rule tape => simpa [instructions] using symbols
  | shift rule tape carried =>
    simp only [instructions]
    split <;> simp [cells]
  | cleanup terminal tape =>
    simp only [instructions]
    split <;> simp
  | _ => simp [instructions]

section
variable {compiled : SingleTape S} (result : Compiled machine mode compiled)
include result

theorem memCompiled {rule : Rule Token} : rule ∈ compiled.machine.table.rules.toList ↔
    ∃ number phase, compiled.phases[number]? = some phase ∧
      ∃ instruction ∈ instructions machine mode phase,
        rule = instruction.rule (numbering machine mode) number := by
  rw [result.rules, memRules result.few, result.phases]

theorem compiledLeaves {number : Nat} (less : number < compiled.phases.size) :
    ∃ rule ∈ compiled.machine.table.rules.toList, rule.state = number := by
  have here := Array.getElem?_eq_getElem less
  obtain ⟨instruction, mem⟩ := List.exists_mem_of_ne_nil _
    (instructionExists machine mode compiled.phases[number])
  exact ⟨_, (memCompiled result).mpr ⟨number, _, here, instruction, mem, rfl⟩, rfl⟩

theorem compiledEntered {number : Nat} (positive : 0 < number)
    (less : number < compiled.phases.size) : ∃ rule ∈ compiled.machine.table.rules.toList,
      rule.state < number ∧ rule.next = .ordinary number := by
  obtain ⟨phase, here⟩ : ∃ phase, compiled.phases[number]? = some phase :=
    ⟨_, Array.getElem?_eq_getElem less⟩
  rw [result.phases] at here
  obtain ⟨before, smaller, earlier, held, follows⟩ :=
    numberedDiscovered number phase positive here
  obtain ⟨instruction, mem, aims⟩ := memSuccessors.mp follows
  refine ⟨instruction.rule (numbering machine mode) before,
    (memCompiled result).mpr ⟨before, earlier, by rwa [result.phases], instruction, mem, rfl⟩,
    smaller, ?_⟩
  simp only [Instruction.rule, aims, Target.state, stateOfGet result.few here]

variable (several : 2 ≤ machine.tapes)
include several

/- A rule enters the state of a numbered phase, or stops. -/
theorem compiledBelow {rule : Rule Token} (mem : rule ∈ compiled.machine.table.rules.toList)
    {number : Nat} (enters : rule.next = .ordinary number) : number < compiled.phases.size := by
  obtain ⟨state, phase, here, instruction, known, rfl⟩ := (memCompiled result).mp mem
  rw [result.phases] at here ⊢
  have numbered : phase ∈ (numbering machine mode).phases := Array.mem_of_getElem? here
  cases target : instruction.target with
  | terminal terminal =>
    obtain ⟨tape, rfl⟩ := terminalTarget known target
    have stops : terminal.isTerminal := (numberedPossible several numbered).1
    simp only [Instruction.rule, target, Target.state] at enters
    rw [enters] at stops
    cases stops
  | phase next =>
    have follows := numberedNext several numbered known target
    simp only [Instruction.rule, target, Target.state, State.ordinary.injEq] at enters
    rw [← enters]
    exact (Array.getElem?_eq_some_iff.mp (getStateOf result.few follows)).1

theorem compiledLive : compiled.machine.table.Live compiled.phases.size where
  entered _ := compiledEntered result
  leaves _ := compiledLeaves result
  states := by
    refine (Ascending.pairwiseOfList _).eq_of_mem_iff List.pairwise_lt_range fun number => ?_
    rw [List.mem_range]
    constructor
    · intro among
      obtain ⟨rule, mem, rfl | enters⟩ := Table.memStates.mp among
      · obtain ⟨_, _, here, _, _, rfl⟩ := (memCompiled result).mp mem
        exact (Array.getElem?_eq_some_iff.mp here).1
      · exact compiledBelow result several mem enters
    · intro less
      obtain ⟨rule, mem, source⟩ := compiledLeaves result less
      exact Table.memStates.mpr ⟨rule, mem, .inl source⟩

/- Where no rule stops the compiled machine, the source goes on in ordinary states. -/
theorem endlessSource (unending : compiled.machine.findings = [.noTerminalState])
    {config : Config} {input : List S} {outcome : Outcome S}
    (ran : machine.run config input = .ok outcome) : ¬ outcome.state.isTerminal := by
  have known := knownOfRun ran
  have endless : Endless machine mode := by
    intro phase numbered instruction mem state target
    obtain ⟨number, here⟩ := Array.mem_iff_getElem?.mp numbered
    obtain ⟨-, none⟩ := memNoTerminal.mp (List.mem_of_mem_head? (congrArg List.head? unending))
    have rule := (memCompiled result).mpr
      ⟨number, phase, by rwa [result.phases], instruction, mem, rfl⟩
    obtain ⟨tape, rfl⟩ := terminalTarget mem target
    have stops : state.isTerminal := (numberedPossible several numbered).1
    refine none _ rule ?_
    simpa only [Instruction.rule, target, Target.state] using stops
  obtain ⟨n, last, ends, rfl⟩ := (runIff known).mp ran
  obtain ⟨state, ordinary, -⟩ := endlessAfter several endless known ends.1
  simp [Configuration.outcome, ordinary, State.isTerminal, State.number?]

end

/- What the compiled state graph is, and so what can be reported of it. -/
theorem compiledGraphLive [LawfulSymbol S] {compiled : SingleTape S}
    (ok : compile machine mode = .ok compiled) :
    compiled.phases.toList.Nodup ∧ compiled.phases[0]? = some .start ∧
    compiled.machine.table.Live compiled.phases.size ∧
    compiled.machine.stateCount = compiled.phases.size ∧
    (compiled.machine.findings = [] ∨ compiled.machine.findings = [.noTerminalState]) ∧
    (compiled.machine.findings = [.noTerminalState] → ∀ config input outcome,
      machine.run config input = .ok outcome → ¬ outcome.state.isTerminal) := by
  obtain ⟨several, -, result⟩ := ofCompile ok
  have live := compiledLive result several
  have first : compiled.phases[0]? = some .start := by
    rw [result.phases]
    exact numberedFirst several
  obtain ⟨positive, -⟩ := Array.getElem?_eq_some_iff.mp first
  refine ⟨?_, first, live, ?_, liveFindings live positive, fun unending config input outcome ran =>
    endlessSource result several unending ran⟩
  · rw [result.phases]
    exact nodupPhases _
  · rw [Machine.stateCount, live.states, List.length_range]

theorem compiledCopierLive : ∃ compiled, compile copier .biInfinite = .ok compiled ∧
    compiled.machine.table.Live compiled.phases.size ∧ compiled.machine.findings = [] := by
  obtain ⟨compiled, ok, -⟩ := copierCompiles .biInfinite
  obtain ⟨-, -, live, -, reported, unending⟩ := compiledGraphLive ok
  have ends : copier.Ends .biInfinite (.start copier.tapes ['a']) 1 1 _ :=
    ⟨copierAccepts .biInfinite, Nat.le_refl 1, .inl rfl⟩
  have accepts := (runIff knownCopier).mpr ⟨1, _, ends, rfl⟩
  exact ⟨compiled, ok, live, reported.resolve_right fun none => unending none _ _ _ accepts rfl⟩

end Multitape.SingleTape
