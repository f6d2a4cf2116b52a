import Multitape.Proofs.SingleTape.Possible
import Multitape.Proofs.Spelled.Run

/-! The instructions of a one-tape machine, with the symbols of its source written as tokens.
A phase that remembers the tokens has the same instructions with the tokens in place of the
symbols; the tokens of the cells they read and write are the same ones. -/
namespace Multitape
open Symbol (toToken)
variable {S : Type}

section
variable [Symbol S]

def Cell.spelled : Cell S → Cell Token
  | plain symbol => plain (toToken symbol)
  | marked symbol => marked (toToken symbol)
  | leftEnd => leftEnd
  | separator => separator
  | rightEnd => rightEnd

theorem Cell.tokenSpelled (cell : Cell S) : cell.spelled.token = cell.token := by
  cases cell <;> rfl

theorem Cell.spelledRightEndIff {cell : Cell S} : cell.spelled = rightEnd ↔ cell = rightEnd := by
  cases cell <;> simp [spelled]

namespace SingleTape

def Phase.spelled : Phase S → Phase Token
  | start => start
  | carry symbol first => carry (toToken symbol) first
  | separator tape => separator tape
  | layBlank tape => layBlank tape
  | terminator => terminator
  | rewind resume => rewind resume
  | read state seen => read state (seen.map toToken)
  | write rule tape => write rule tape
  | move rule tape done => move rule tape done
  | markNext rule tape => markNext rule tape
  | markPrevious rule tape => markPrevious rule tape
  | insertBlank rule tape => insertBlank rule tape
  | remark rule tape => remark rule tape
  | shift rule tape carried => shift rule tape carried.spelled
  | back rule tape remaining => back rule tape remaining
  | cleanup terminal tape => cleanup terminal tape

def Target.spelled : Target S → Target Token
  | phase next => phase next.spelled
  | terminal state => terminal state

def Instruction.spelled (instruction : Instruction S) : Instruction Token :=
  ⟨instruction.read.spelled, instruction.target.spelled, instruction.write.spelled, instruction.move⟩

@[simp] theorem spelledPut (cell write : Cell S) (next : Phase S) (move : Direction) :
    (Instruction.put cell next write move).spelled =
      Instruction.put cell.spelled next.spelled write.spelled move := rfl

@[simp] theorem spelledPass (cell : Cell S) (next : Phase S) (move : Direction) :
    (Instruction.pass cell move next).spelled =
      Instruction.pass cell.spelled move next.spelled := rfl

end SingleTape
end

variable [Symbol S] [LawfulSymbol S]

theorem Cell.spelledInjective : Function.Injective (Cell.spelled : Cell S → Cell Token) := by
  intro one two same
  cases one <;> cases two <;> simp only [spelled, plain.injEq, marked.injEq, reduceCtorEq] at same
  all_goals first | rfl | rw [Symbol.toTokenInjective same]

namespace SingleTape

theorem Phase.spelledInjective : Function.Injective (Phase.spelled : Phase S → Phase Token) := by
  intro one two same
  cases one <;> cases two <;> simp only [spelled, reduceCtorEq] at same
  case carry.carry =>
    obtain ⟨symbol, first⟩ := Phase.carry.inj same
    rw [Symbol.toTokenInjective symbol, first]
  case read.read =>
    obtain ⟨state, seen⟩ := Phase.read.inj same
    rw [state, spelledListInjective seen]
  case shift.shift =>
    obtain ⟨rule, tape, carried⟩ := Phase.shift.inj same
    rw [rule, tape, Cell.spelledInjective carried]
  all_goals simp_all

end SingleTape

variable [DecidableEq S] {machine : Machine S} {spelled : Machine Token}
  (same : machine.SpelledBy spelled)
include same

theorem spelledWithBlank :
    spelled.alphabet.withBlank = machine.alphabet.withBlank.map toToken := by
  have declared : Symbol.blank ∈ spelled.alphabet.symbols ↔ Symbol.blank ∈ machine.alphabet.symbols := by
    rw [same.symbols, ← Symbol.toTokenOfBlank (S := S),
      List.mem_map_of_injective fun _ _ => Symbol.toTokenInjective]
  unfold Alphabet.withBlank
  simp only [declared]
  split
  · exact same.symbols
  · rw [List.map_append, ← same.symbols, List.map_singleton, Symbol.toTokenOfBlank]

omit [LawfulSymbol S] [DecidableEq S] in
theorem spelledRules : spelled.table.rules = machine.table.rules.map Rule.spelled :=
  Array.ext' (by rw [same.rules, Array.toList_map])

theorem spelledPosition (state : Nat) (read : List S) :
    spelled.table.position? state (read.map toToken) = machine.table.position? state read := by
  unfold Table.position?
  rw [spelledRules same, Array.findIdx?_map]
  simp only [Function.comp_def, spelledKeyIff]

namespace SingleTape

theorem spelledContents : contents spelled = (contents machine).map Cell.spelled := by
  simp only [contents, spelledWithBlank same, List.map_append, List.map_map]
  rfl

theorem spelledCells : cells spelled = (cells machine).map Cell.spelled := by
  simp only [cells, spelledContents same, List.map_append]
  rfl

omit [DecidableEq S] in
theorem spelledWrittenBy (rule tape : Nat) :
    writtenBy spelled rule tape = toToken (writtenBy machine rule tape) := by
  unfold writtenBy
  rw [spelledRules same, Array.getElem?_map]
  cases machine.table.rules[rule]? with
  | none => exact Symbol.toTokenOfBlank.symm
  | some found =>
    simp only [Option.map_some, Option.bind_some, Rule.spelled, List.getElem?_map]
    cases found.write[tape]? with
    | none => exact Symbol.toTokenOfBlank.symm
    | some symbol => rfl

omit [LawfulSymbol S] [DecidableEq S] in
theorem spelledMovedBy (rule tape : Nat) : movedBy spelled rule tape = movedBy machine rule tape := by
  unfold movedBy
  rw [spelledRules same, Array.getElem?_map]
  cases machine.table.rules[rule]? <;> rfl

omit [LawfulSymbol S] [DecidableEq S] in
theorem spelledResume (rule : Nat) : resumeAfter spelled rule = resumeAfter machine rule := by
  unfold resumeAfter
  rw [spelledRules same, Array.getElem?_map]
  cases machine.table.rules[rule]? <;> rfl

theorem spelledKnown (state : Nat) (seen : List S) :
    isKnown spelled state (seen.map toToken) = isKnown machine state seen := by
  have starts : ∀ rule : Rule S, seen.map toToken <+: rule.spelled.read ↔ seen <+: rule.read :=
    fun rule => List.prefix_map_iff_of_injective fun _ _ => Symbol.toTokenInjective
  rw [Bool.eq_iff_iff, isKnownIff, isKnownIff, same.rules]
  simp only [List.mem_map, exists_exists_and_eq_and, starts]
  rfl

omit same [LawfulSymbol S] [DecidableEq S] in
theorem spelledEach {A B : Type} {written : B → Instruction Token} {given : A → Instruction S}
    {these : List A} {others : List B} {e : A → B} (listed : others = these.map e)
    (agree : ∀ a, written (e a) = (given a).spelled) :
    others.map written = (these.map given).map Instruction.spelled := by
  rw [listed, List.map_map, List.map_map]
  exact List.map_congr_left fun a _ => agree a

omit same [LawfulSymbol S] [DecidableEq S] in
theorem spelledPairs {A B : Type} {written : B → List (Instruction Token)}
    {given : A → List (Instruction S)} {these : List A} {others : List B} {e : A → B}
    (listed : others = these.map e) (agree : ∀ a, written (e a) = (given a).map Instruction.spelled) :
    others.flatMap written = (these.flatMap given).map Instruction.spelled := by
  rw [listed, List.flatMap_map, List.map_flatMap]
  exact List.flatMap_congr fun a _ => agree a

theorem spelledInstructions (mode : TapeMode) (phase : Phase S) :
    instructions spelled mode phase.spelled =
      (instructions machine mode phase).map Instruction.spelled := by
  have symbols := spelledWithBlank same
  have contents := spelledContents same
  have cells := spelledCells same
  have blank := Symbol.toTokenOfBlank (S := S)
  cases phase with
  | start =>
    simp only [instructions, Phase.spelled, List.map_append]
    exact congrArg₂ HAppend.hAppend (spelledEach symbols fun _ => rfl) rfl
  | carry carried first =>
    simp only [instructions, Phase.spelled, List.map_append]
    refine congrArg₂ HAppend.hAppend (spelledEach symbols fun _ => ?_) ?_ <;> cases first <;> rfl
  | separator tape =>
    simp only [instructions, Phase.spelled, ← blank]
    rfl
  | layBlank tape =>
    simp only [instructions, Phase.spelled, ← blank, same.tapes]
    split <;> rfl
  | terminator =>
    simp only [instructions, Phase.spelled, ← blank]
    rfl
  | rewind resume =>
    simp only [instructions, Phase.spelled, List.map_append, beginCleanup, ← blank]
    refine congrArg₂ HAppend.hAppend (spelledEach cells fun _ => rfl) ?_
    cases resume <;> rfl
  | read state seen =>
    have position := spelledPosition same state seen
    have grown (symbol : S) : seen.map toToken ++ [toToken symbol] = (seen ++ [symbol]).map toToken := by
      rw [List.map_append, List.map_singleton]
    simp only [instructions, Phase.spelled, List.map_append, List.map_cons, List.length_map,
      position, same.tapes]
    refine congrArg₂ HAppend.hAppend (spelledEach symbols fun _ => rfl) ?_
    refine congrArg (List.cons _) ?_
    split
    · refine spelledEach symbols fun symbol => ?_
      rw [grown, spelledKnown same]
      split <;> rfl
    · cases machine.table.position? state seen <;> rfl
  | write rule tape =>
    simp only [instructions, Phase.spelled, List.map_append, spelledResume same,
      spelledWrittenBy same, spelledMovedBy same, beginCleanup, startMove, ← blank]
    refine congrArg₂ HAppend.hAppend (spelledPairs symbols fun _ => rfl) ?_
    cases tape <;> cases resumeAfter machine rule <;> rfl
  | move rule tape done =>
    simp only [instructions, Phase.spelled, List.map_append, spelledResume same,
      spelledMovedBy same, same.tapes, startMove]
    refine congrArg₂ HAppend.hAppend (spelledPairs symbols fun _ => ?_) ?_
    · cases done <;> cases movedBy machine rule tape <;> rfl
    · split <;> rfl
  | markNext rule tape =>
    simp only [instructions, Phase.spelled, List.map_append, boundaryAfter, same.tapes, ← blank]
    refine congrArg₂ HAppend.hAppend (spelledEach symbols fun _ => rfl) ?_
    split <;> rfl
  | markPrevious rule tape =>
    simp only [instructions, Phase.spelled, List.map_append, boundaryBefore]
    refine congrArg₂ HAppend.hAppend (spelledEach symbols fun _ => rfl) ?_
    cases mode <;> cases tape <;> rfl
  | insertBlank rule tape =>
    simp only [instructions, Phase.spelled, ← blank]
    exact spelledEach symbols fun _ => rfl
  | remark rule tape =>
    simp only [instructions, Phase.spelled]
    exact spelledEach symbols fun _ => rfl
  | shift rule tape carried =>
    simp only [instructions, Phase.spelled, Cell.spelledRightEndIff, afterShift, same.tapes,
      spelledResume same, ← blank]
    split
    · split <;> rfl
    · exact spelledEach cells fun _ => rfl
  | back rule tape remaining =>
    simp only [instructions, Phase.spelled, List.map_append, startMove, spelledMovedBy same]
    refine congrArg₂ HAppend.hAppend (spelledEach contents fun _ => rfl) ?_
    split <;> rfl
  | cleanup terminal tape =>
    simp only [instructions, Phase.spelled, same.tapes, ← blank]
    split
    · rw [List.map_append]
      exact congrArg₂ HAppend.hAppend (spelledEach contents fun _ => rfl) rfl
    · rw [List.map_append]
      exact congrArg₂ HAppend.hAppend (spelledPairs symbols fun _ => rfl) rfl

end SingleTape
end Multitape
