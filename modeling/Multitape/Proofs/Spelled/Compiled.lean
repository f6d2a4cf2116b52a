import Multitape.Proofs.SingleTape.Numbering
import Multitape.SingleTape
import Multitape.Proofs.Spelled.Instructions

/-! Compiling a machine and the same machine with its symbols written as tokens. The walk
over the phases comes upon the same phases in the same order, so it numbers them alike; and
as rules know symbols by their tokens only, the compiled machine is one and the same. -/
namespace Multitape
open Symbol (toToken)
variable {S : Type} [Symbol S] [DecidableEq S]

namespace SingleTape

namespace Numbering

def SpelledBy (numbering : Numbering S) (spelled : Numbering Token) : Prop :=
  spelled.phases = numbering.phases.map Phase.spelled

theorem phasesAddIf (numbering : Numbering S) (phase : Phase S) : (numbering.add phase).phases =
    if phase ∈ numbering.phases then numbering.phases else numbering.phases.push phase := by
  have size := sizeAdd numbering phase
  rcases phasesAdd numbering phase with ⟨same, mem⟩ | pushed
  · rw [same, if_pos mem]
  · rw [pushed, Array.size_push, Nat.add_left_cancel_iff] at size
    split at size
    · cases size
    · rename_i fresh
      rw [pushed, if_neg fresh]

variable [LawfulSymbol S] {numbering : Numbering S} {spelled : Numbering Token}

theorem spelledAdd (alike : numbering.SpelledBy spelled) (phase : Phase S) :
    (numbering.add phase).SpelledBy (spelled.add phase.spelled) := by
  have same : spelled.phases = numbering.phases.map Phase.spelled := alike
  have known : phase.spelled ∈ spelled.phases ↔ phase ∈ numbering.phases := by
    rw [same, ← Array.mem_toList_iff, Array.toList_map,
      List.mem_map_of_injective Phase.spelledInjective, Array.mem_toList_iff]
  unfold SpelledBy
  rw [phasesAddIf, phasesAddIf]
  simp only [known]
  split
  · exact same
  · rw [same, Array.map_push]

theorem spelledAddAll (alike : numbering.SpelledBy spelled) (phases : List (Phase S)) :
    (phases.foldl add numbering).SpelledBy ((phases.map Phase.spelled).foldl add spelled) := by
  induction phases generalizing numbering spelled with
  | nil => exact alike
  | cons phase phases ih => exact ih (spelledAdd alike phase)

theorem spelledExplore {successors : Phase S → List (Phase S)}
    {successors' : Phase Token → List (Phase Token)}
    (follow : ∀ phase, successors' phase.spelled = (successors phase).map Phase.spelled)
    (alike : numbering.SpelledBy spelled) (fuel next : Nat) :
    (explore successors fuel next numbering).SpelledBy (explore successors' fuel next spelled) := by
  induction fuel generalizing next numbering spelled with
  | zero => exact alike
  | succ fuel ih =>
    have here : spelled.phase? next = (numbering.phase? next).map Phase.spelled := by
      have same : spelled.phases = numbering.phases.map Phase.spelled := alike
      rw [phase?, phase?, same, Array.getElem?_map]
    unfold explore
    rw [here]
    cases numbering.phase? next with
    | none => exact alike
    | some phase =>
      simp only [Option.map_some, follow]
      exact ih (spelledAddAll alike _) (next + 1)

theorem spelledPosition (alike : numbering.SpelledBy spelled) (phase : Phase S) :
    spelled.position phase.spelled = numbering.position phase := by
  have same : spelled.phases = numbering.phases.map Phase.spelled := alike
  have found : spelled.numbers[phase.spelled]? = numbering.numbers[phase]? := by
    apply Option.ext
    intro number
    rw [spelled.agrees, numbering.agrees, same, Array.getElem?_map, Option.map_eq_some_iff]
    constructor
    · rintro ⟨other, here, equal⟩
      rwa [← Phase.spelledInjective equal]
    · intro here
      exact ⟨phase, here, rfl⟩
  rw [position, position, found]

theorem spelledState (alike : numbering.SpelledBy spelled) (phase : Phase S) :
    spelled.stateOf phase.spelled = numbering.stateOf phase :=
  congrArg stateAt (spelledPosition alike phase)

end Numbering

variable [LawfulSymbol S] {machine : Machine S} {spelled : Machine Token}
  (same : machine.SpelledBy spelled)
include same

theorem spelledSuccessors (mode : TapeMode) (phase : Phase S) :
    successors spelled mode phase.spelled = (successors machine mode phase).map Phase.spelled := by
  simp only [successors, spelledInstructions same, List.filterMap_map, List.map_filterMap]
  congr 1
  funext instruction
  obtain ⟨read, target, write, move⟩ := instruction
  cases target <;> rfl

theorem spelledPossible :
    (possiblePhases spelled).length = (possiblePhases machine).length := by
  have states : spelled.table.states = machine.table.states := by
    simp only [Table.states, same.rules, List.flatMap_map]
    rfl
  have size : spelled.table.rules.size = machine.table.rules.size := by
    rw [spelledRules same, Array.size_map]
  simp only [possiblePhases, spelledWithBlank same, spelledCells same, same.rules, same.tapes, states,
    size, List.length_append, List.length_flatMap, List.map_map, List.length_map, Function.comp_def]
  rfl

theorem spelledNumbering (mode : TapeMode) :
    (numbering machine mode).SpelledBy (numbering spelled mode) := by
  unfold numbering
  rw [spelledPossible same]
  have alike : (Numbering.empty : Numbering S).SpelledBy .empty := Array.map_empty.symm
  exact Numbering.spelledExplore (spelledSuccessors same mode)
    (Numbering.spelledAdd alike .start) _ 0

omit same in
theorem spelledRule {numbering : Numbering S} {renumbering : Numbering Token}
    (alike : numbering.SpelledBy renumbering) (state : Nat) (instruction : Instruction S) :
    instruction.spelled.rule renumbering state = instruction.rule numbering state := by
  obtain ⟨read, target, write, move⟩ := instruction
  have next : target.spelled.state renumbering = target.state numbering := by
    cases target with
    | phase next => exact congrArg State.ordinary (Numbering.spelledState alike next)
    | terminal state => rfl
  simp only [Instruction.rule, Instruction.spelled, next, Cell.tokenSpelled]

theorem spelledAllRules (mode : TapeMode) :
    rules spelled mode (numbering spelled mode) = rules machine mode (numbering machine mode) := by
  have alike := spelledNumbering same mode
  have phases : (numbering spelled mode).phases = (numbering machine mode).phases.map Phase.spelled :=
    alike
  unfold rules
  rw [phases, Array.size_map]
  refine List.flatMap_congr fun position _ => ?_
  simp only [rulesAt, Numbering.phase?, phases, Array.getElem?_map]
  cases (numbering machine mode).phases[Numbering.stateAt position]? with
  | none => rfl
  | some phase =>
    simp only [Option.map_some, Option.toList_some, List.flatMap_singleton, spelledInstructions same,
      List.map_map]
    exact List.map_congr_left fun instruction _ => spelledRule alike _ instruction

theorem spelledTokens : tokens spelled = tokens machine := by
  have blank : ∀ symbol : S, Symbol.isBlank (toToken symbol) = Symbol.isBlank symbol := by
    intro symbol
    simp only [Symbol.isBlank, Symbol.toTokenBlankIff]
  simp only [tokens, spelledWithBlank same, List.filter_map, List.map_map, Function.comp_def, blank]
  rfl

omit [DecidableEq S] [LawfulSymbol S] in
theorem spelledRefused : refuse? spelled = refuse? machine := by
  unfold refuse?
  rw [same.tapes, same.symbols, List.find?_map, Option.map_map]
  rfl

/- The same refusal, or the same machine with its phases over tokens. -/
theorem spelledCompile (mode : TapeMode) : compile spelled mode =
    (compile machine mode).map fun compiled => ⟨compiled.machine, spelled.alphabet,
      compiled.sourceTapes, compiled.tapeMode, compiled.phases.map Phase.spelled⟩ := by
  have alike : (numbering spelled mode).phases =
      (numbering machine mode).phases.map Phase.spelled := spelledNumbering same mode
  unfold compile
  rw [spelledRefused same]
  cases refuse? machine with
  | some cause => rfl
  | none =>
    dsimp only
    rw [spelledTokens same, spelledAllRules same, alike, same.tapes]
    cases (Machine.empty 1 (tokens machine)).mapError CompileError.definition with
    | error cause => rfl
    | ok start =>
      simp only [bind, Except.bind]
      cases ((rules machine mode (numbering machine mode)).foldlM Machine.add start).mapError
        CompileError.definition <;> rfl

end SingleTape
end Multitape
