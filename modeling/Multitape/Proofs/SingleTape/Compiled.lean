import Multitape.Proofs.SingleTape.Rules

/-! Compiling. It fails for the reasons that are checked first, and where there are more phases
than 32 bits have numbers for: then the number of the first phase comes again, and with it the
rules that the first phase has already. Otherwise looking up the state of a phase finds exactly
the instructions of the phase. -/
namespace Multitape.SingleTape
open SingleTape.Numbering
variable {S : Type} [Symbol S] [DecidableEq S] {machine : Machine S} {mode : TapeMode}

structure Compiled (machine : Machine S) (mode : TapeMode) (compiled : SingleTape S) : Prop where
  few : (numbering machine mode).phases.size ≤ Numeral.stateBound
  tapes : compiled.machine.tapes = 1
  symbols : compiled.machine.alphabet.symbols = tokens machine
  rules : compiled.machine.table.rules.toList = rules machine mode (numbering machine mode)
  alphabet : compiled.alphabet = machine.alphabet
  sourceTapes : compiled.sourceTapes = machine.tapes
  phases : compiled.phases = (numbering machine mode).phases

omit [DecidableEq S] in
theorem refuseIff : refuse? machine = none ↔ 2 ≤ machine.tapes ∧ Free machine := by
  unfold refuse?
  split
  · simp only [reduceCtorEq, false_iff]
    omega
  · rw [Option.map_eq_none_iff, List.find?_eq_none]
    exact ⟨fun free => ⟨by omega, free⟩, And.right⟩

variable (mode) in
theorem acceptsBefore [LawfulSymbol S] (several : 2 ≤ machine.tapes) (free : Free machine)
    {next : Nat} (small : next ≤ Numeral.stateBound) :
    ∃ empty full, Machine.empty 1 (tokens machine) = .ok empty ∧
      (rulesBefore machine mode (numbering machine mode) next).foldlM Machine.add empty = .ok full ∧
      full.tapes = 1 ∧ full.alphabet.symbols = tokens machine ∧
      full.table.rules.toList = rulesBefore machine mode (numbering machine mode) next := by
  obtain ⟨empty, begun, tapes, alphabet, none⟩ :=
    emptyNodup (show 0 < 1 by decide) (tokensDistinct free)
  have symbols : empty.alphabet.symbols = tokens machine := by rw [alphabet]
  have distinct : ((empty.table.rules.toList ++
      rulesBefore machine mode (numbering machine mode) next).map Rule.key).Nodup := by
    rw [none]
    exact keysDistinct several free small
  obtain ⟨full, added, -⟩ := addAll (rulesFit several tapes symbols) distinct
  exact ⟨empty, full, begun, added, builtShape begun added⟩

/-- What is found when the first phase has its turn for the second time: the first of its rules
is there already. -/
def repeatedStart (machine : Machine S) : DefinitionError :=
  .duplicateRule 0 (Symbol.text (machine.alphabet.symbols.headD Symbol.blank)) 0

theorem withBlankHead (alphabet : Alphabet S) :
    ∃ rest, alphabet.withBlank = alphabet.symbols.headD Symbol.blank :: rest := by
  unfold Alphabet.withBlank
  cases alphabet.symbols with
  | nil => exact ⟨[], rfl⟩
  | cons first rest => split <;> exact ⟨_, rfl⟩

variable (machine mode) in
theorem startHead : ∃ first others, instructions machine mode .start = first :: others ∧
    first.read = .plain (machine.alphabet.symbols.headD Symbol.blank) := by
  obtain ⟨rest, symbols⟩ := withBlankHead machine.alphabet
  simp only [instructions, symbols]
  exact ⟨_, _, rfl, rfl⟩

section
variable (several : 2 ≤ machine.tapes)
include several

/- The state number of the first phase is that of the bound too. -/
theorem rulesAtFirst {position : Nat} (first : position = 0 ∨ position = Numeral.stateBound) :
    rulesAt machine mode (numbering machine mode) position =
      (instructions machine mode .start).map (·.rule (numbering machine mode) 0) := by
  have zero : stateAt position = 0 := by
    rcases first with first | last
    · rw [first]
      exact Nat.zero_mod _
    · rw [last]
      exact Nat.mod_self _
  have here : (numbering machine mode).phases[stateAt position]? = some .start := by
    rw [zero]
    exact numberedFirst several
  rw [rulesAtGet here, zero]

theorem firstRuleKept {next : Nat} (positive : 0 < next) {first : Instruction S}
    {others : List (Instruction S)} (head : instructions machine mode .start = first :: others) :
    (rulesBefore machine mode (numbering machine mode) next)[0]? =
      some (first.rule (numbering machine mode) 0) := by
  obtain ⟨later, all⟩ := rulesBeforePrefix machine mode (numbering machine mode) positive
  have one : rulesBefore machine mode (numbering machine mode) 1 =
      first.rule (numbering machine mode) 0 ::
        others.map (·.rule (numbering machine mode) 0) := by
    rw [rulesBeforeNext, rulesAtFirst several (.inl rfl), head]
    rfl
  rw [← all]
  change (rulesBefore machine mode (numbering machine mode) 1 ++ later)[0]? = _
  rw [one]
  rfl

/- A rule with the key of the first one is refused, and told the place of that one. -/
theorem addRepeatedStart [LawfulSymbol S] {built : Machine Token} (tapes : built.tapes = 1)
    (symbols : built.alphabet.symbols = tokens machine) {next : Nat} (positive : 0 < next)
    (all : built.table.rules.toList = rulesBefore machine mode (numbering machine mode) next)
    {first : Instruction S} {others : List (Instruction S)}
    (head : instructions machine mode .start = first :: others) (grown : Numbering S) :
    built.add (first.rule grown 0) = .error (repeatedStart machine) := by
  have known : first ∈ instructions machine mode .start := by simp [head]
  have here : built.table.rules[0]? = some (first.rule (numbering machine mode) 0) := by
    rw [← Array.getElem?_toList, all]
    exact firstRuleKept several positive head
  have possible : Possible machine .start := trivial
  have fits := ruleFits several tapes symbols possible known grown 0
  have old : first.rule (numbering machine mode) 0 ∈ built.table.rules.toList :=
    Array.mem_toList_iff.mpr (Array.mem_of_getElem? here)
  have key : (first.rule (numbering machine mode) 0).key = (first.rule grown 0).key := by
    simp only [Rule.key, Instruction.rule]
  obtain ⟨index, there, refused⟩ := addRepeated fits old key
  obtain rfl : index = 0 :=
    Option.some.inj ((Table.positionAt there).symm.trans (Table.positionAt here))
  obtain ⟨first', others', head', read⟩ := startHead machine mode
  obtain ⟨rfl, rfl⟩ := List.cons.inj (head.symm.trans head')
  rw [refused]
  simp [repeatedStart, Instruction.rule, read, Cell.token, Symbol.join, Symbol.toToken]

/- Behind the bound the rules of the first phase come again. -/
theorem rulesBeyond (many : Numeral.stateBound < (numbering machine mode).phases.size) :
    ∃ later, rules machine mode (numbering machine mode) =
      rulesBefore machine mode (numbering machine mode) Numeral.stateBound ++
        (instructions machine mode .start).map (·.rule (numbering machine mode) 0) ++ later := by
  obtain ⟨later, all⟩ := rulesBeforePrefix machine mode (numbering machine mode) many
  refine ⟨later, ?_⟩
  rw [← rulesAtFirst several (.inr rfl), ← rulesBeforeNext]
  exact all.symm

/- What an accepted machine needs no argument for: its table has no key twice. -/
theorem fewOfAccepted {empty full : Machine Token}
    (added : (rules machine mode (numbering machine mode)).foldlM Machine.add empty = .ok full) :
    (numbering machine mode).phases.size ≤ Numeral.stateBound := by
  by_contra many
  obtain ⟨first, others, head, -⟩ := startHead machine mode
  obtain ⟨later, shape⟩ := rulesBeyond several (Nat.lt_of_not_le many)
  have distinct := full.table.distinct
  have mem : first.rule (numbering machine mode) 0 ∈
      rulesBefore machine mode (numbering machine mode) Numeral.stateBound :=
    List.mem_of_getElem? (firstRuleKept several (by decide) head)
  rw [(addAllShape added).2.2, shape, head] at distinct
  simp only [List.map_append, List.map_cons, List.append_assoc, List.nodup_append] at distinct
  exact distinct.2.1.2.2 _ (List.mem_map_of_mem mem) _ (by simp) rfl

theorem refusesMany [LawfulSymbol S] (free : Free machine)
    (many : Numeral.stateBound < (numbering machine mode).phases.size) {empty : Machine Token}
    (begun : Machine.empty 1 (tokens machine) = .ok empty) :
    (rules machine mode (numbering machine mode)).foldlM Machine.add empty =
      .error (repeatedStart machine) := by
  obtain ⟨start, built, begun', added, tapes, symbols, all⟩ :=
    acceptsBefore mode several free (Nat.le_refl _)
  obtain rfl := Except.ok.inj (begun.symm.trans begun')
  obtain ⟨first, others, head, -⟩ := startHead machine mode
  obtain ⟨later, shape⟩ := rulesBeyond several many
  rw [shape, head, List.map_cons, List.append_assoc, List.cons_append]
  exact failsFold _ added
    (addRepeatedStart several tapes symbols (by decide) all head (numbering machine mode))

end

theorem compileOfRules {empty full : Machine Token} (accepted : refuse? machine = none)
    (start : Machine.empty 1 (tokens machine) = .ok empty)
    (added : (rules machine mode (numbering machine mode)).foldlM Machine.add empty = .ok full) :
    compile machine mode =
      .ok ⟨full, machine.alphabet, machine.tapes, mode, (numbering machine mode).phases⟩ := by
  unfold compile
  rw [accepted, start]
  simp only [Except.mapError, bind, Except.bind, added]
  rfl

theorem compileOfFault {empty : Machine Token} {cause : DefinitionError}
    (accepted : refuse? machine = none) (start : Machine.empty 1 (tokens machine) = .ok empty)
    (failed : (rules machine mode (numbering machine mode)).foldlM Machine.add empty =
      .error cause) : compile machine mode = .error (.definition cause) := by
  unfold compile
  rw [accepted, start]
  simp only [Except.mapError, bind, Except.bind, failed]

theorem compiles [LawfulSymbol S] (several : 2 ≤ machine.tapes) (free : Free machine)
    (few : (numbering machine mode).phases.size ≤ Numeral.stateBound) :
    ∃ compiled, compile machine mode = .ok compiled ∧ Compiled machine mode compiled := by
  obtain ⟨empty, full, start, added, tapes, symbols, all⟩ := acceptsBefore mode several free few
  exact ⟨_, compileOfRules (refuseIff.mpr ⟨several, free⟩) start added,
    few, tapes, symbols, all, rfl, rfl, rfl⟩

theorem compileParts {compiled : SingleTape S} (done : compile machine mode = .ok compiled) :
    2 ≤ machine.tapes ∧ Free machine ∧ ∃ empty full, Machine.empty 1 (tokens machine) = .ok empty ∧
      (rules machine mode (numbering machine mode)).foldlM Machine.add empty = .ok full ∧
      compiled = ⟨full, machine.alphabet, machine.tapes, mode, (numbering machine mode).phases⟩ := by
  unfold compile at done
  split at done
  · cases done
  · rename_i accepted
    obtain ⟨several, free⟩ := refuseIff.mp accepted
    obtain ⟨empty, begun, rest⟩ := bindOkIff.mp done
    obtain ⟨full, added, same⟩ := bindOkIff.mp rest
    cases same
    exact ⟨several, free, empty, full, mapErrorOkIff.mp begun, mapErrorOkIff.mp added, rfl⟩

theorem ofCompile {compiled : SingleTape S} (ok : compile machine mode = .ok compiled) :
    2 ≤ machine.tapes ∧ Free machine ∧ Compiled machine mode compiled := by
  obtain ⟨several, free, empty, full, begun, added, rfl⟩ := compileParts ok
  obtain ⟨tapes, symbols, all⟩ := builtShape begun added
  exact ⟨several, free, fewOfAccepted several added, tapes, symbols, all, rfl, rfl, rfl⟩

theorem copierCompiles (mode : TapeMode) :
    ∃ compiled, compile copier mode = .ok compiled ∧ Compiled copier mode compiled :=
  compiles (Nat.le_refl 2) freeCopier (fewCopier mode)

/- The instruction of a phase is what the machine finds in the state of the phase. -/
theorem lookup {compiled : SingleTape S} (result : Compiled machine mode compiled) {number : Nat}
    {phase : Phase S} {instruction : Instruction S} (here : compiled.phases[number]? = some phase)
    (known : instruction ∈ instructions machine mode phase) :
    compiled.machine.table.get? number [instruction.read.token] =
      some (instruction.rule (numbering machine mode) number) := by
  apply Table.getIff.mpr
  constructor
  · rw [result.rules]
    rw [result.phases] at here
    exact (memRules result.few).mpr ⟨number, phase, here, instruction, known, rfl⟩
  · rfl

end Multitape.SingleTape
