import Multitape.Proofs.SingleTape.Compiled
import Multitape.Proofs.SingleTape.RulePhases

/-! Compiling as one loop over a queue. A phase gets its number and its place in the queue
when an instruction first leads to it; when the turn comes to a number, the rules of its phase
are added to the machine. As long as no number is given twice no rule is refused, the queue
runs empty and the loop ends with the numbering and the machine that compiling takes from them
as a whole. With more phases than numbers the loop ends at the turn of the number that is given
first for the second time. -/
namespace Multitape.SingleTape
open SingleTape.Numbering
variable {S : Type} [Symbol S] [DecidableEq S] {machine : Machine S} {mode : TapeMode}

def Numbering.Extends (late early : Numbering S) : Prop :=
  ∀ (number : Nat) (phase : Phase S),
    early.phases[number]? = some phase → late.phases[number]? = some phase

/- A number that has been given stays, so a rule written early is the one of the last numbering. -/
theorem ruleKept {early late : Numbering S} (kept : late.Extends early)
    {instruction : Instruction S} {state : Nat}
    (numbered : ∀ next, instruction.target = .phase next → next ∈ early.phases) :
    instruction.rule early state = instruction.rule late state := by
  have same : instruction.target.state early = instruction.target.state late := by
    cases target : instruction.target with
    | terminal state => rfl
    | phase next =>
      have here := getPosition (numbered next target)
      simp only [Target.state, stateOf, positionGet (kept _ _ here)]
  simp only [Instruction.rule, same]

structure Worklist (S : Type) [Symbol S] [DecidableEq S] where
  waiting : List Nat
  numbering : Numbering S
  built : Machine Token

namespace Worklist

def intern (worklist : Worklist S) (phase : Phase S) : Worklist S where
  waiting := worklist.waiting ++
    if phase ∈ worklist.numbering.phases then [] else [stateAt worklist.numbering.phases.size]
  numbering := worklist.numbering.add phase
  built := worklist.built

def aim (worklist : Worklist S) : Target S → Worklist S
  | .phase next => worklist.intern next
  | .terminal _ => worklist

def emit (state : Nat) (worklist : Worklist S) (instruction : Instruction S) :
    Except DefinitionError (Worklist S) := do
  let worklist := worklist.aim instruction.target
  let built ← worklist.built.add (instruction.rule worklist.numbering state)
  return { worklist with built }

def expand (machine : Machine S) (mode : TapeMode) (state : Nat) (phase : Phase S) :
    Worklist S → Except DefinitionError (Worklist S) :=
  (instructions machine mode phase).foldlM (emit state)

def start (built : Machine Token) : Worklist S :=
  intern ⟨[], .empty, built⟩ .start

/-- The loop ends with this result. A number in the queue that stands for no phase, or a
queue that never runs empty, has no result. -/
inductive Ends (machine : Machine S) (mode : TapeMode) :
    Worklist S → Except DefinitionError (Worklist S) → Prop
  | idle {numbering : Numbering S} {built : Machine Token} :
    Ends machine mode ⟨[], numbering, built⟩ (.ok ⟨[], numbering, built⟩)
  | refused {state : Nat} {waiting : List Nat} {numbering : Numbering S} {built : Machine Token}
      {phase : Phase S} {cause : DefinitionError} (here : numbering.phase? state = some phase)
      (turn : expand machine mode state phase ⟨waiting, numbering, built⟩ = .error cause) :
    Ends machine mode ⟨state :: waiting, numbering, built⟩ (.error cause)
  | onward {state : Nat} {waiting : List Nat} {numbering : Numbering S} {built : Machine Token}
      {phase : Phase S} {grown : Worklist S} {result : Except DefinitionError (Worklist S)}
      (here : numbering.phase? state = some phase)
      (turn : expand machine mode state phase ⟨waiting, numbering, built⟩ = .ok grown)
      (rest : Ends machine mode grown result) :
    Ends machine mode ⟨state :: waiting, numbering, built⟩ result

theorem endsOnce {machine : Machine S} {mode : TapeMode} {worklist : Worklist S}
    {one two : Except DefinitionError (Worklist S)} (first : Ends machine mode worklist one)
    (second : Ends machine mode worklist two) : one = two := by
  induction first with
  | idle =>
    cases second
    rfl
  | refused here turn =>
    cases second with
    | refused here' turn' =>
      obtain rfl := Option.some.inj (here.symm.trans here')
      exact turn.symm.trans turn'
    | onward here' turn' rest =>
      obtain rfl := Option.some.inj (here.symm.trans here')
      cases turn.symm.trans turn'
  | onward here turn rest ih =>
    cases second with
    | refused here' turn' =>
      obtain rfl := Option.some.inj (here.symm.trans here')
      cases turn.symm.trans turn'
    | onward here' turn' rest' =>
      obtain rfl := Option.some.inj (here.symm.trans here')
      obtain rfl := Except.ok.inj (turn.symm.trans turn')
      exact ih rest'

structure Queued (next : Nat) (worklist : Worklist S) : Prop where
  within : next ≤ worklist.numbering.phases.size
  waiting : worklist.waiting =
    (List.range' next (worklist.numbering.phases.size - next)).map stateAt

theorem queuedIntern {next : Nat} {worklist : Worklist S} (queued : Queued next worklist)
    (phase : Phase S) : Queued next (worklist.intern phase) := by
  have size := sizeAdd worklist.numbering phase
  have within := queued.within
  by_cases old : phase ∈ worklist.numbering.phases
  · rw [if_pos old] at size
    exact ⟨by simpa [intern, size], by simpa [intern, size, old] using queued.waiting⟩
  · rw [if_neg old] at size
    refine ⟨by simp only [intern]; omega, ?_⟩
    have length : (worklist.numbering.add phase).phases.size - next =
        (worklist.numbering.phases.size - next) + 1 := by omega
    have last : next + (worklist.numbering.phases.size - next) = worklist.numbering.phases.size := by
      omega
    simp [intern, old, length, List.range'_concat, queued.waiting, last]

theorem queuedAim {next : Nat} {worklist : Worklist S} (queued : Queued next worklist)
    (target : Target S) : Queued next (worklist.aim target) := by
  cases target with
  | phase next => exact queuedIntern queued next
  | terminal state => exact queued

theorem numberingAim (worklist : Worklist S) (target : Target S) : (worklist.aim target).numbering =
    target.phase?.toList.foldl add worklist.numbering := by
  cases target <;> rfl

theorem builtAim (worklist : Worklist S) (target : Target S) :
    (worklist.aim target).built = worklist.built := by
  cases target <;> rfl

/- One turn: its rules are those of the last numbering, as long as that grows from the
numbering at the end of the turn. -/
theorem emitAll {late : Numbering S} {state next : Nat} {instructions : List (Instruction S)}
    {worklist : Worklist S} {built : Machine Token} (queued : Queued next worklist)
    (kept : late.Extends
      ((instructions.filterMap (·.target.phase?)).foldl add worklist.numbering))
    (added : (instructions.map (·.rule late state)).foldlM Machine.add worklist.built = .ok built) :
    ∃ grown, instructions.foldlM (emit state) worklist = .ok grown ∧ Queued next grown ∧
      grown.numbering = (instructions.filterMap (·.target.phase?)).foldl add worklist.numbering ∧
      grown.built = built := by
  induction instructions generalizing worklist with
  | nil =>
    cases added
    exact ⟨worklist, rfl, queued, rfl, rfl⟩
  | cons instruction rest ih =>
    let aimed := worklist.aim instruction.target
    obtain ⟨middle, first, others⟩ := bindOkIff.mp added
    have order : ((instruction :: rest).filterMap (·.target.phase?)).foldl add worklist.numbering =
        (rest.filterMap (·.target.phase?)).foldl add aimed.numbering := by
      rw [numberingAim, ← List.foldl_append]
      congr 1
      cases found : instruction.target.phase? <;> simp [found]
    rw [order] at kept ⊢
    have numbered : ∀ next, instruction.target = .phase next → next ∈ aimed.numbering.phases := by
      intro next target
      rw [numberingAim, target]
      exact memAdd.mpr (.inr rfl)
    have same : instruction.rule aimed.numbering state = instruction.rule late state :=
      ruleKept (fun number phase found => kept number phase (keptAddAll found)) numbered
    have emitted : emit state worklist instruction = .ok { aimed with built := middle } := by
      refine bindOkIff.mpr ⟨middle, ?_, rfl⟩
      rw [builtAim, same]
      exact first
    have queued : Queued next { aimed with built := middle } :=
      ⟨(queuedAim queued _).within, (queuedAim queued _).waiting⟩
    obtain ⟨grown, ends, result⟩ := ih queued kept others
    exact ⟨grown, bindOkIff.mpr ⟨_, emitted, ends⟩, result⟩

variable (machine mode) in
/-- Between two turns: the queue and the numbering stand where the walk over the phases
stands, and the machine has the rules of the phases that had their turn. -/
structure Underway (empty : Machine Token) (next : Nat) (worklist : Worklist S) : Prop where
  queued : Queued next worklist
  walked : Walked machine mode next worklist.numbering
  ahead : explore (successors machine mode) ((possiblePhases machine).length - next) next
    worklist.numbering = SingleTape.numbering machine mode
  built : (rulesBefore machine mode (SingleTape.numbering machine mode) next).foldlM Machine.add
    empty = .ok worklist.built

theorem underwayStart (empty : Machine Token) :
    Underway machine mode empty 0 (start empty : Worklist S) where
  queued := queuedIntern ⟨Nat.zero_le _, rfl⟩ .start
  walked := walkedStart
  ahead := rfl
  built := rfl

section
variable {empty : Machine Token} {next : Nat} {worklist : Worklist S}
  (underway : Underway machine mode empty next worklist)
include underway

theorem underwayDone (done : worklist.numbering.phases.size ≤ next) :
    SingleTape.numbering machine mode = worklist.numbering :=
  underway.ahead.symm.trans (exploreDone done)

theorem underwayIdle (done : (SingleTape.numbering machine mode).phases.size ≤ next) :
    worklist.waiting = [] ∧ SingleTape.numbering machine mode = worklist.numbering := by
  have grows : worklist.numbering.phases.size ≤ (SingleTape.numbering machine mode).phases.size := by
    rw [← underway.ahead]
    exact sizeExplore
  have none : worklist.numbering.phases.size - next = 0 := by omega
  refine ⟨?_, underwayDone underway (grows.trans done)⟩
  rw [underway.queued.waiting, none]
  rfl

/- Where a position is left, its number is the first that waits. -/
theorem underwayTurn (more : next < (SingleTape.numbering machine mode).phases.size) :
    ∃ phase waiting, worklist.numbering.phases[next]? = some phase ∧
      worklist.waiting = stateAt next :: waiting ∧ waiting =
        (List.range' (next + 1) (worklist.numbering.phases.size - (next + 1))).map stateAt := by
  have bound : next < worklist.numbering.phases.size := by
    by_contra beyond
    rw [underwayDone underway (Nat.le_of_not_lt beyond)] at more
    exact beyond more
  have length : worklist.numbering.phases.size - next =
      worklist.numbering.phases.size - (next + 1) + 1 := by omega
  refine ⟨_, _, Array.getElem?_eq_getElem bound, ?_, rfl⟩
  rw [underway.queued.waiting, length, List.range'_succ, List.map_cons]

end

section
variable (several : 2 ≤ machine.tapes) {empty full : Machine Token} {limit : Nat}
  (small : limit ≤ Numeral.stateBound)
  (accepted : (rulesBefore machine mode (SingleTape.numbering machine mode) limit).foldlM
    Machine.add empty = .ok full)
include several small accepted

theorem underwayNext {next : Nat} {worklist : Worklist S} {phase : Phase S} {waiting : List Nat}
    (less : next < limit) (underway : Underway machine mode empty next worklist)
    (here : worklist.numbering.phases[next]? = some phase)
    (rest : waiting =
      (List.range' (next + 1) (worklist.numbering.phases.size - (next + 1))).map stateAt) :
    ∃ grown, expand machine mode next phase ⟨waiting, worklist.numbering, worklist.built⟩ =
      .ok grown ∧ Underway machine mode empty (next + 1) grown := by
  obtain ⟨bound, _⟩ := Array.getElem?_eq_some_iff.mp here
  have room := sizeWalked underway.walked
  have fuel : (possiblePhases machine).length - next =
      (possiblePhases machine).length - (next + 1) + 1 := by omega
  have ahead := underway.ahead
  rw [fuel, explore, Numbering.phase?, here] at ahead
  have same : stateAt next = next := stateAtBelow (Nat.lt_of_lt_of_le less small)
  have found : (SingleTape.numbering machine mode).phases[stateAt next]? = some phase := by
    rw [same, ← underway.ahead]
    exact keptExplore here
  obtain ⟨later, all⟩ := rulesBeforePrefix machine mode (SingleTape.numbering machine mode) less
  have added := accepted
  rw [← all, List.foldlM_append] at added
  obtain ⟨built, now, -⟩ := bindOkIff.mp added
  have turn := now
  rw [Nat.succ_eq_add_one, rulesBeforeNext, rulesAtGet found, same, List.foldlM_append,
    underway.built] at turn
  have queued : Queued (next + 1) ⟨waiting, worklist.numbering, worklist.built⟩ := ⟨bound, rest⟩
  have kept : (SingleTape.numbering machine mode).Extends
      ((successors machine mode phase).foldl add worklist.numbering) :=
    fun number phase old => ahead ▸ keptExplore old
  obtain ⟨grown, ends, queued, numbering, same⟩ := emitAll queued kept turn
  refine ⟨grown, ends, queued, ?_, ?_, ?_⟩
  · rw [numbering]
    exact walkedNext several underway.walked here
  · rw [numbering]
    exact ahead
  · rw [same]
    exact now

/- Induction on how many positions are left before the limit. -/
theorem endsFrom {result : Except DefinitionError (Worklist S)}
    (within : limit ≤ (SingleTape.numbering machine mode).phases.size)
    (last : ∀ worklist, Underway machine mode empty limit worklist → Ends machine mode worklist result)
    {next : Nat} {worklist : Worklist S} (reached : next ≤ limit)
    (underway : Underway machine mode empty next worklist) : Ends machine mode worklist result := by
  induction reached using Nat.decreasingInduction generalizing worklist with
  | self => exact last worklist underway
  | of_succ next less ih =>
    obtain ⟨phase, waiting, here, queue, rest⟩ := underwayTurn underway (by omega)
    obtain ⟨grown, turn, later⟩ := underwayNext several small accepted less underway here rest
    obtain ⟨_, numbering, built⟩ := worklist
    rw [stateAtBelow (by omega)] at queue
    cases queue
    exact .onward here turn (ih later)

end

section
variable (several : 2 ≤ machine.tapes) {empty full : Machine Token}
include several

theorem loopEnds
    (accepted : (rules machine mode (SingleTape.numbering machine mode)).foldlM Machine.add empty =
      .ok full) : Ends machine mode (start empty)
        (.ok ⟨[], SingleTape.numbering machine mode, full⟩) := by
  refine endsFrom several (fewOfAccepted several accepted) accepted (Nat.le_refl _)
    (fun worklist underway => ?_) (Nat.zero_le _) (underwayStart empty)
  obtain ⟨idle, same⟩ := underwayIdle underway (Nat.le_refl _)
  have all : worklist.built = full := Except.ok.inj (underway.built.symm.trans accepted)
  rw [same, ← all, ← idle]
  obtain ⟨waiting, numbering, built⟩ := worklist
  cases idle
  exact .idle

theorem loopRefuses [LawfulSymbol S] (free : Free machine)
    (many : Numeral.stateBound < (SingleTape.numbering machine mode).phases.size)
    (begun : Machine.empty 1 (tokens machine) = .ok empty) :
    Ends machine mode (start empty) (.error (repeatedStart machine)) := by
  obtain ⟨empty', built, begun', added, -⟩ := acceptsBefore mode several free (Nat.le_refl _)
  obtain rfl := Except.ok.inj (begun.symm.trans begun')
  refine endsFrom several (Nat.le_refl _) added (Nat.le_of_lt many) (fun worklist underway => ?_)
    (Nat.zero_le _) (underwayStart empty)
  obtain ⟨_, _, -, queue, -⟩ := underwayTurn underway many
  obtain ⟨tapes, symbols, all⟩ := builtShape begun underway.built
  obtain ⟨first, others, head, -⟩ := startHead machine mode
  have walked := underway.walked
  obtain ⟨waiting, numbering, built⟩ := worklist
  -- the bound is the first position whose state number is that of an earlier one
  have zero : stateAt Numeral.stateBound = 0 := Nat.mod_self _
  rw [zero] at queue
  cases queue
  refine .refused walked.first ?_
  unfold expand
  rw [head, List.foldlM_cons]
  refine bindErrorIff.mpr (.inl (bindErrorIff.mpr (.inl ?_)))
  rw [builtAim]
  exact addRepeatedStart several tapes symbols (by decide) all head _

end

variable (machine mode) in
/-- What the loop leaves behind. No phase in it refers to a rule, a tape or a symbol that the
machine does not have. -/
structure Generated (worklist : Worklist S) : Prop where
  possible : ∀ phase ∈ worklist.numbering.phases, Possible machine phase
  bounded : worklist.numbering.phases.size ≤ (possiblePhases machine).length
  rules : worklist.built.table.rules.toList = rules machine mode worklist.numbering
  keys : ((SingleTape.rules machine mode worklist.numbering).map Rule.key).Nodup
  known : ∀ rule ∈ SingleTape.rules machine mode worklist.numbering,
    ∀ token ∈ rule.read ++ rule.write, token = Symbol.blank ∨ token ∈ SingleTape.tokens machine

end Worklist

open Worklist

omit [DecidableEq S] in
theorem refuseReserved {before after : List S} {symbol : S} (several : 2 ≤ machine.tapes)
    (declared : machine.alphabet.symbols = before ++ symbol :: after)
    (reserved : Cell.isReserved symbol) (first : ∀ other ∈ before, ¬ Cell.isReserved other) :
    refuse? machine = some (.reservedSymbol (Symbol.text symbol)) := by
  have found : machine.alphabet.symbols.find? Cell.isReserved = some symbol :=
    List.find?_eq_some_iff_append.mpr ⟨reserved, before, after, declared, by simpa using first⟩
  unfold refuse?
  rw [if_neg (by omega), found]
  rfl

omit [DecidableEq S] in
theorem refuseOther {cause : DefinitionError} : refuse? machine ≠ some (.definition cause) := by
  unfold refuse?
  split <;> simp

section
variable [LawfulSymbol S] (several : 2 ≤ machine.tapes) (free : Free machine)
  {empty : Machine Token} (begun : Machine.empty 1 (tokens machine) = .ok empty)
include several free begun

theorem loopCompiles (few : (numbering machine mode).phases.size ≤ Numeral.stateBound) :
    ∃ worklist, worklist.numbering = numbering machine mode ∧
      (∀ result, Ends machine mode (start empty) result ↔ result = .ok worklist) ∧
      Generated machine mode worklist ∧
      compile machine mode = .ok ⟨worklist.built, machine.alphabet, machine.tapes, mode,
        worklist.numbering.phases⟩ := by
  obtain ⟨empty', full, begun', added, tapes, symbols, all⟩ := acceptsBefore mode several free few
  obtain rfl := Except.ok.inj (begun.symm.trans begun')
  have ends := loopEnds several added
  refine ⟨_, rfl, fun result => ⟨fun other => endsOnce other ends, ?_⟩, ?_,
    compileOfRules (refuseIff.mpr ⟨several, free⟩) begun added⟩
  · rintro rfl
    exact ends
  · exact {
      possible := fun phase mem => numberedPossible several mem
      bounded := numberedSize several
      rules := all
      keys := keysDistinct several free few
      known := fun rule mem token inside => by
        rw [← symbols]
        exact Alphabet.memIff.mp ((rulesFit several tapes symbols rule mem).symbols token inside) }

theorem loopFails (many : Numeral.stateBound < (numbering machine mode).phases.size) :
    (∀ result, Ends machine mode (start empty) result ↔
      result = .error (repeatedStart machine)) ∧
    compile machine mode = .error (.definition (repeatedStart machine)) := by
  have ends := loopRefuses several free many begun
  refine ⟨fun result => ⟨fun other => endsOnce other ends, ?_⟩, ?_⟩
  · rintro rfl
    exact ends
  · exact compileOfFault (refuseIff.mpr ⟨several, free⟩) begun
      (refusesMany several free many begun)

end

/- Compiling fails behind its checks only where it runs out of numbers. -/
theorem definitionFault [LawfulSymbol S] {cause : DefinitionError}
    (failed : compile machine mode = .error (.definition cause)) :
    2 ≤ machine.tapes ∧ Free machine ∧
      Numeral.stateBound < (numbering machine mode).phases.size ∧ cause = repeatedStart machine := by
  cases checked : refuse? machine with
  | some reason =>
    have refused : compile machine mode = .error reason := by
      unfold compile
      rw [checked]
    obtain rfl := Except.error.inj (refused.symm.trans failed)
    exact absurd checked refuseOther
  | none =>
    obtain ⟨several, free⟩ := refuseIff.mp checked
    obtain ⟨empty, _, begun, -⟩ := acceptsBefore mode several free (Nat.zero_le _)
    by_cases few : (numbering machine mode).phases.size ≤ Numeral.stateBound
    · obtain ⟨compiled, ok, -⟩ := compiles several free few
      cases ok.symm.trans failed
    · have many := Nat.lt_of_not_le few
      have same := (loopFails several free begun many).2.symm.trans failed
      exact ⟨several, free, many, (CompileError.definition.inj (Except.error.inj same)).symm⟩

theorem compileExact [LawfulSymbol S] (machine : Machine S) (mode : TapeMode) :
    (machine.tapes < 2 → compile machine mode = .error (.tooFewTapes machine.tapes)) ∧
    (2 ≤ machine.tapes → ∀ before symbol after,
      machine.alphabet.symbols = before ++ symbol :: after → Cell.isReserved symbol →
      (∀ other ∈ before, ¬ Cell.isReserved other) →
      compile machine mode = .error (.reservedSymbol (Symbol.text symbol))) ∧
    (2 ≤ machine.tapes → (∀ symbol ∈ machine.alphabet.symbols, ¬ Cell.isReserved symbol) →
      (tokens machine).Nodup ∧
      ∃ empty phases, Machine.empty 1 (tokens machine) = .ok empty ∧ phases.Nodup ∧
        (∀ phase, phase ∈ phases ↔ Met machine mode phase) ∧
        (phases.length ≤ Numeral.stateBound → ∃ worklist,
          worklist.numbering.phases.toList = phases ∧
          (∀ result, Ends machine mode (start empty) result ↔ result = .ok worklist) ∧
          Generated machine mode worklist ∧
          compile machine mode = .ok ⟨worklist.built, machine.alphabet, machine.tapes, mode,
            worklist.numbering.phases⟩) ∧
        (Numeral.stateBound < phases.length →
          (∀ result, Ends machine mode (start empty) result ↔
            result = .error (repeatedStart machine)) ∧
          compile machine mode = .error (.definition (repeatedStart machine)))) ∧
    ∀ cause, compile machine mode = .error (.definition cause) →
      cause = repeatedStart machine ∧ ∀ phases : List (Phase S),
        (∀ phase, Met machine mode phase → phase ∈ phases) → Numeral.stateBound < phases.length := by
  refine ⟨fun less => ?_, fun several before symbol after declared reserved first => ?_,
    fun several free => ⟨tokensDistinct free, ?_⟩, fun cause failed => ?_⟩
  · have refused : refuse? machine = some (.tooFewTapes machine.tapes) := if_pos less
    unfold compile
    rw [refused]
  · unfold compile
    rw [refuseReserved several declared reserved first]
  · obtain ⟨empty, _, begun, -⟩ := acceptsBefore mode several free (Nat.zero_le _)
    refine ⟨empty, (numbering machine mode).phases.toList, begun, nodupPhases _, fun phase => ?_,
      fun few => ?_, fun many => loopFails several free begun many⟩
    · rw [Array.mem_toList_iff]
      exact numberedIff several
    · obtain ⟨worklist, same, rest⟩ := loopCompiles several free begun few
      exact ⟨worklist, by rw [same], rest⟩
  · obtain ⟨several, -, many, same⟩ := definitionFault failed
    refine ⟨same, fun phases all => Nat.lt_of_lt_of_le many ?_⟩
    rw [← Array.length_toList]
    refine (nodupPhases _).length_le_of_subset fun phase mem => all phase ?_
    exact (numberedIff several).mp (Array.mem_toList_iff.mp mem)

/-- A machine without rules, and with more tapes to lay out than there are numbers for. -/
def crowded : Machine Char := ruleless 2147483647 copier.alphabet

theorem severalCrowded : 2 ≤ crowded.tapes := by simp [crowded, ruleless]

theorem freeCrowded : Free crowded := freeCopier

theorem crowdedMany (mode : TapeMode) :
    Numeral.stateBound < (numbering crowded mode).phases.size :=
  Nat.lt_of_le_of_lt (Nat.le_refl (2 * crowded.tapes)) (laidSize severalCrowded)

/- One machine for each way to end. -/
theorem compileEachWay :
    compile (ruleless 0 ⟨['a'], by decide⟩) .biInfinite = .error (.tooFewTapes 1) ∧
    compile (ruleless 1 ⟨['a', '^', '*'], by decide⟩) .biInfinite = .error (.reservedSymbol "^") ∧
    (∃ worklist, compile copier .biInfinite = .ok ⟨worklist.built, copier.alphabet, copier.tapes,
      .biInfinite, worklist.numbering.phases⟩ ∧ Generated copier .biInfinite worklist) ∧
    ∃ empty, Machine.empty 1 (tokens crowded) = .ok empty ∧
      ∀ result, Ends crowded .biInfinite (start empty) result ↔
        result = .error (repeatedStart crowded) := by
  refine ⟨(compileExact (ruleless 0 ⟨['a'], by decide⟩) .biInfinite).1 (by decide), ?_, ?_, ?_⟩
  · exact (compileExact (ruleless 1 ⟨['a', '^', '*'], by decide⟩) .biInfinite).2.1 (by decide)
      ['a'] '^' ['*'] rfl (by decide) (by simp [Cell.isReserved, Symbol.text])
  · obtain ⟨-, _, phases, -, distinct, met, ends, -⟩ :=
      (compileExact copier .biInfinite).2.2.1 (by decide) freeCopier
    have few : phases.length ≤ Numeral.stateBound := by
      refine (distinct.length_le_of_subset fun phase mem => ?_).trans (fewCopier .biInfinite)
      exact Array.mem_toList_iff.mpr ((numberedIff (by decide)).mpr ((met phase).mp mem))
    obtain ⟨worklist, -, -, generated, ok⟩ := ends few
    exact ⟨worklist, ok, generated⟩
  · obtain ⟨-, empty, phases, begun, distinct, met, -, fails⟩ :=
      (compileExact crowded .biInfinite).2.2.1 severalCrowded freeCrowded
    have many : Numeral.stateBound < phases.length := by
      refine Nat.lt_of_lt_of_le (crowdedMany .biInfinite) ((nodupPhases _).length_le_of_subset ?_)
      intro phase mem
      exact (met phase).mpr ((numberedIff severalCrowded).mp (Array.mem_toList_iff.mp mem))
    exact ⟨empty, begun, (fails many).1⟩

theorem crowdedRefused :
    compile crowded .biInfinite = .error (.definition (.duplicateRule 0 "a" 0)) := by
  obtain ⟨empty, _, begun, -⟩ :=
    acceptsBefore .biInfinite severalCrowded freeCrowded (Nat.zero_le _)
  exact (loopFails severalCrowded freeCrowded begun (crowdedMany .biInfinite)).2

end Multitape.SingleTape
