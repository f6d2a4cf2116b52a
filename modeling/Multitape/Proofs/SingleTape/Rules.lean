import Mathlib.Data.List.Nodup
import Multitape.Proofs.Machine
import Multitape.Proofs.SingleTape.Numbering
import Multitape.SingleTape

/-! The rules of the compiled machine. They are the instructions of the numbered phases, over
tokens that all are in its alphabet, and no two of the rules for the positions that 32 bits
hold have one key. -/
namespace Multitape.SingleTape
open Instruction SingleTape.Numbering
variable {S : Type} [Symbol S] [DecidableEq S] {machine : Machine S} {mode : TapeMode}

theorem nodupWithBlank (alphabet : Alphabet S) : alphabet.withBlank.Nodup := by
  unfold Alphabet.withBlank
  split
  · exact alphabet.distinct
  · rename_i fresh
    rw [List.nodup_append]
    exact ⟨alphabet.distinct, by simp, fun a mem b last same => fresh (by simp_all)⟩

section
variable {symbols : List S} (distinct : symbols.Nodup)
include distinct
omit [Symbol S] [DecidableEq S]

theorem nodupPlain : (symbols.map Cell.plain).Nodup :=
  distinct.map fun _ _ => Cell.plain.inj

theorem nodupMarked : (symbols.map Cell.marked).Nodup :=
  distinct.map fun _ _ => Cell.marked.inj

theorem nodupBoth : (symbols.flatMap fun symbol => [Cell.plain symbol, .marked symbol]).Nodup := by
  induction symbols with
  | nil => simp
  | cons symbol symbols ih =>
    obtain ⟨fresh, distinct⟩ := List.nodup_cons.mp distinct
    simp [ih distinct, fresh]

end

theorem nodupContents (machine : Machine S) : (contents machine).Nodup := by
  unfold contents
  rw [List.nodup_append]
  refine ⟨nodupPlain (nodupWithBlank _), nodupMarked (nodupWithBlank _), ?_⟩
  simp

theorem nodupCells (machine : Machine S) : (cells machine).Nodup := by
  unfold cells
  rw [List.nodup_append]
  refine ⟨nodupContents machine, by simp, fun a inside b sign same => ?_⟩
  subst same
  obtain ⟨symbol, _, rfl | rfl⟩ := memContents.mp inside <;> simp at sign

/- A boundary in addition to cells that hold symbols. -/
theorem nodupWithSign {inside : List (Cell S)} {sign : Cell S} (distinct : inside.Nodup)
    (held : ∀ cell ∈ inside, cell ∈ contents machine) (boundary : sign.isBoundary) :
    (inside ++ [sign]).Nodup := by
  rw [List.nodup_append]
  refine ⟨distinct, List.nodup_singleton sign, fun cell mem other last same => ?_⟩
  obtain rfl : cell = sign := same.trans (List.mem_singleton.mp last)
  obtain ⟨symbol, _, rfl | rfl⟩ := memContents.mp (held cell mem) <;> cases boundary

omit [Symbol S] [DecidableEq S] in
theorem boundaryBeforeSign (tape : Nat) : (boundaryBefore tape : Cell S).isBoundary := by
  unfold boundaryBefore
  split <;> rfl

omit [DecidableEq S] in
theorem boundaryAfterSign (machine : Machine S) (tape : Nat) : (boundaryAfter machine tape).isBoundary := by
  unfold boundaryAfter
  split <;> rfl

/- No phase has two instructions for one cell. -/
theorem readsDistinct (phase : Phase S) :
    ((instructions machine mode phase).map Instruction.read).Nodup := by
  have symbols := nodupWithBlank machine.alphabet
  have plain := nodupPlain symbols
  have both := nodupBoth symbols
  have heldPlain : ∀ cell ∈ machine.alphabet.withBlank.map Cell.plain, cell ∈ contents machine :=
    fun cell mem => List.mem_append_left _ mem
  have heldBoth : ∀ cell ∈ machine.alphabet.withBlank.flatMap fun s => [Cell.plain s, .marked s],
      cell ∈ contents machine := by
    intro cell mem
    obtain ⟨symbol, known, shape⟩ := List.mem_flatMap.mp mem
    exact memContents.mpr ⟨symbol, Alphabet.memWithBlank.mp known, by simpa using shape⟩
  have rightEnd := nodupWithSign plain heldPlain (show (Cell.rightEnd : Cell S).isBoundary from rfl)
  have separator := nodupWithSign (nodupContents machine) (fun _ mem => mem)
    (show (Cell.separator : Cell S).isBoundary from rfl)
  cases phase with
  | start | carry symbol first => simpa [instructions, put, Function.comp_def] using rightEnd
  | separator tape | layBlank tape | terminator => simp [instructions]
  | rewind resume =>
    have last : (cells machine ++ [Cell.leftEnd]).Nodup := by
      rw [List.nodup_append]
      refine ⟨nodupCells machine, by simp, fun cell mem other last same => ?_⟩
      exact (memCells.mp mem).2 (same.trans (List.mem_singleton.mp last))
    cases resume <;> simpa [instructions, Instruction.pass, beginCleanup, put, Function.comp_def] using last
  | read state seen =>
    have reading : (instructions machine mode (.read state seen)).map Instruction.read =
        machine.alphabet.withBlank.map Cell.plain ++ .separator ::
          if seen.length < machine.tapes then machine.alphabet.withBlank.map Cell.marked
          else [.rightEnd] := by
      simp only [instructions, List.map_append, List.map_map, List.map_cons]
      split
      · simp [Instruction.pass, Function.comp_def, apply_ite Instruction.read]
      · simp [Instruction.pass, Function.comp_def]
    rw [reading, List.nodup_append]
    refine ⟨plain, ?_, ?_⟩
    · split
      · simpa using nodupMarked symbols
      · simp
    · split <;> simp
  | write rule tape =>
    have last := nodupWithSign both heldBoth (boundaryBeforeSign tape)
    cases tape with
    | zero =>
      cases following : resumeAfter machine rule <;>
        simpa [instructions, following, Instruction.pass, put, beginCleanup, boundaryBefore,
          List.map_flatMap] using last
    | succ tape => simpa [instructions, Instruction.pass, put, boundaryBefore, List.map_flatMap] using last
  | move rule tape done =>
    have last := nodupWithSign both heldBoth (boundaryAfterSign machine tape)
    have reading : (instructions machine mode (.move rule tape done)).map Instruction.read =
        machine.alphabet.withBlank.flatMap (fun symbol => [Cell.plain symbol, .marked symbol]) ++
          [boundaryAfter machine tape] := by
      unfold boundaryAfter
      cases done <;> cases moves : movedBy machine rule tape <;>
        simp [instructions, moves, Instruction.pass, put, List.map_flatMap, apply_ite Instruction.read]
    rwa [reading]
  | markNext rule tape =>
    have last := nodupWithSign plain heldPlain (boundaryAfterSign machine tape)
    simpa [instructions, put, Function.comp_def] using last
  | markPrevious rule tape =>
    have last := nodupWithSign plain heldPlain (boundaryBeforeSign tape)
    simpa [instructions, Instruction.pass, put, Function.comp_def] using last
  | insertBlank rule tape | remark rule tape =>
    simpa [instructions, put, Function.comp_def] using plain
  | shift rule tape carried =>
    simp only [instructions]
    split
    · simp
    · simpa [put, Function.comp_def] using nodupCells machine
  | back rule tape remaining =>
    simp only [instructions]
    split <;> simpa [Instruction.pass, Function.comp_def] using separator
  | cleanup terminal tape =>
    simp only [instructions]
    split
    · simpa [put, Function.comp_def] using separator
    · have last := nodupWithSign both heldBoth (show (Cell.rightEnd : Cell S).isBoundary from rfl)
      simpa [Instruction.pass, put, List.map_flatMap] using last

def Free (machine : Machine S) : Prop := ∀ symbol ∈ machine.alphabet.symbols, ¬ Cell.isReserved symbol

omit [DecidableEq S] in
theorem freeCell [LawfulSymbol S] (free : Free machine) {cell : Cell S}
    (known : KnownCell machine cell) : cell.Free := by
  intro symbol held
  rcases known symbol held with rfl | declared
  · exact Cell.notReservedBlank
  · exact free symbol declared

section
variable [LawfulSymbol S] (free : Free machine)
include free

theorem tokensDistinct : (tokens machine).Nodup := by
  let symbols := machine.alphabet.withBlank
  let held : List (Cell S) := (symbols.filter (!Symbol.isBlank ·)).map .plain ++
    symbols.map .marked ++ [.leftEnd, .separator, .rightEnd]
  have same : tokens machine = held.map Cell.token := by
    simp [tokens, held, symbols, Cell.token, Function.comp_def]
  have known : ∀ cell ∈ held, KnownCell machine cell := by
    intro cell mem
    simp only [held, symbols, List.mem_append, List.mem_map, List.mem_filter,
      Alphabet.memWithBlank, List.mem_cons, List.not_mem_nil, or_false] at mem
    rcases mem with (⟨symbol, ⟨mem, _⟩, rfl⟩ | ⟨symbol, mem, rfl⟩) | rfl | rfl | rfl
    · exact knownPlain.mpr mem
    · exact knownMarked.mpr mem
    · exact knownLeftEnd
    · exact knownSeparator
    · exact knownRightEnd
  have distinct : held.Nodup := by
    have plain := nodupPlain ((nodupWithBlank machine.alphabet).filter (!Symbol.isBlank ·))
    have marked := nodupMarked (nodupWithBlank machine.alphabet)
    simp only [held, symbols, List.append_assoc]
    rw [List.nodup_append, List.nodup_append]
    refine ⟨plain, ⟨marked, by simp, by simp⟩, fun a left b right same => ?_⟩
    obtain ⟨symbol, _, rfl⟩ := List.mem_map.mp left
    simp [← same] at right
  rw [same]
  apply distinct.map_on
  intro a left b right
  exact Cell.tokenInjective (freeCell free (known a left)) (freeCell free (known b right))

omit free in
theorem memTokens {cell : Cell S} (known : KnownCell machine cell) :
    cell.token = Symbol.blank ∨ cell.token ∈ tokens machine := by
  cases cell with
  | plain symbol =>
    by_cases blank : symbol = Symbol.blank
    · subst blank
      exact .inl Symbol.toTokenOfBlank
    · have mem := Alphabet.memWithBlank.mpr (knownPlain.mp known)
      refine .inr (List.mem_append_left _ (List.mem_append_left _ ?_))
      exact List.mem_map.mpr ⟨symbol, List.mem_filter.mpr ⟨mem, by simpa [Symbol.isBlank]⟩, rfl⟩
  | marked symbol =>
    have mem := Alphabet.memWithBlank.mpr (knownMarked.mp known)
    exact .inr (List.mem_append_left _ (List.mem_append_right _ (List.mem_map.mpr ⟨symbol, mem, rfl⟩)))
  | _ => exact .inr (List.mem_append_right _ (by simp [Cell.token]))

end

/- The rules, position by position. -/
section
variable {numbering : Numbering S} {position next : Nat}

variable (machine mode) in
def rulesBefore (numbering : Numbering S) (next : Nat) : List (Rule Token) :=
  (List.range next).flatMap (rulesAt machine mode numbering)

theorem rulesBeforeNext : rulesBefore machine mode numbering (next + 1) =
    rulesBefore machine mode numbering next ++ rulesAt machine mode numbering next := by
  simp [rulesBefore, List.range_succ]

variable (machine mode numbering) in
theorem rulesBeforePrefix (within : position ≤ next) :
    rulesBefore machine mode numbering position <+: rulesBefore machine mode numbering next := by
  obtain ⟨more, rfl⟩ := Nat.exists_eq_add_of_le within
  unfold rulesBefore
  rw [List.range_add, List.flatMap_append]
  exact List.prefix_append _ _

theorem rulesAtGet {phase : Phase S} (here : numbering.phases[stateAt position]? = some phase) :
    rulesAt machine mode numbering position =
      (instructions machine mode phase).map (·.rule numbering (stateAt position)) := by
  simp [rulesAt, Numbering.phase?, here]

theorem memRulesAt {rule : Rule Token} : rule ∈ rulesAt machine mode numbering position ↔
    ∃ phase, numbering.phases[stateAt position]? = some phase ∧
      ∃ instruction ∈ instructions machine mode phase,
        rule = instruction.rule numbering (stateAt position) := by
  simp [rulesAt, Numbering.phase?, eq_comm (a := rule)]

theorem phaseOfRule {rule : Rule Token} (mem : rule ∈ rulesBefore machine mode numbering next) :
    ∃ number phase, numbering.phases[number]? = some phase ∧
      ∃ instruction ∈ instructions machine mode phase, rule = instruction.rule numbering number := by
  obtain ⟨position, -, inside⟩ := List.mem_flatMap.mp mem
  exact ⟨stateAt position, memRulesAt.mp inside⟩

/- An instruction of a numbered phase, found again among the rules. -/
theorem memRules (few : numbering.phases.size ≤ Numeral.stateBound) {rule : Rule Token} :
    rule ∈ rules machine mode numbering ↔ ∃ number phase, numbering.phases[number]? = some phase ∧
      ∃ instruction ∈ instructions machine mode phase, rule = instruction.rule numbering number := by
  constructor
  · exact phaseOfRule
  · rintro ⟨number, phase, here, known⟩
    obtain ⟨bound, -⟩ := Array.getElem?_eq_some_iff.mp here
    have same : stateAt number = number := stateAtBelow (Nat.lt_of_lt_of_le bound few)
    refine List.mem_flatMap.mpr ⟨number, List.mem_range.mpr bound, memRulesAt.mpr ?_⟩
    rw [same]
    exact ⟨phase, here, known⟩

end

theorem freeCopier : Free copier := by simp [Free, copier, Cell.isReserved, Symbol.text]

theorem fewCopier (mode : TapeMode) :
    (numbering copier mode).phases.size ≤ Numeral.stateBound :=
  numberedFew (by decide) (by decide)

theorem readableCopier : ∀ symbol ∈ copier.alphabet.symbols, Symbol.Readable symbol := by
  intro symbol mem
  obtain rfl := List.mem_singleton.mp mem
  decide

section
variable [LawfulSymbol S] (several : 2 ≤ machine.tapes) (free : Free machine)
include several free

theorem keysOfPhase {phase : Phase S} (possible : Possible machine phase) (number : Nat)
    (numbering : Numbering S) :
    (((instructions machine mode phase).map (·.rule numbering number)).map Rule.key).Nodup := by
  have keys : ((instructions machine mode phase).map (·.rule numbering number)).map Rule.key =
      ((instructions machine mode phase).map Instruction.read).map fun cell =>
        (number, [cell.token]) := by
    simp [Instruction.rule, Rule.key]
  rw [keys]
  apply (readsDistinct phase).map_on
  intro a left b right same
  obtain ⟨one, first, rfl⟩ := List.mem_map.mp left
  obtain ⟨two, second, rfl⟩ := List.mem_map.mp right
  have tokens : one.read.token = two.read.token := by simpa using same
  exact Cell.tokenInjective (freeCell free (allowed several possible first).read)
    (freeCell free (allowed several possible second).read) tokens

/- Below the bound no state number stands for two positions. -/
theorem keysDistinct {next : Nat} (small : next ≤ Numeral.stateBound) :
    ((rulesBefore machine mode (numbering machine mode) next).map Rule.key).Nodup := by
  unfold rulesBefore
  rw [List.map_flatMap, List.nodup_flatMap]
  constructor
  · intro position _
    cases here : (numbering machine mode).phases[stateAt position]? with
    | none => simp [rulesAt, Numbering.phase?, here]
    | some phase =>
      rw [rulesAtGet here]
      exact keysOfPhase several free (numberedPossible several (Array.mem_of_getElem? here)) _ _
  · refine List.pairwise_lt_range.imp_of_mem fun {i j} left right less key one two => ?_
    obtain ⟨rule, mem, rfl⟩ := List.mem_map.mp one
    obtain ⟨other, mem', same⟩ := List.mem_map.mp two
    obtain ⟨_, _, _, _, rfl⟩ := memRulesAt.mp mem
    obtain ⟨_, _, _, _, rfl⟩ := memRulesAt.mp mem'
    rw [List.mem_range] at left right
    have states : stateAt j = stateAt i := congrArg Prod.fst same
    rw [stateAtBelow (by omega), stateAtBelow (by omega)] at states
    omega

omit free in
theorem ruleFits {built : Machine Token} (tapes : built.tapes = 1)
    (symbols : built.alphabet.symbols = tokens machine) {phase : Phase S}
    (possible : Possible machine phase) {instruction : Instruction S}
    (known : instruction ∈ instructions machine mode phase) (numbering : Numbering S) (number : Nat) :
    (instruction.rule numbering number).Fits built.tapes built.alphabet := by
  have fits := allowed several possible known
  refine ⟨by simp [Instruction.rule, tapes], by simp [Instruction.rule, tapes],
    by simp [Instruction.rule, tapes], fun token inside => ?_⟩
  rw [Alphabet.memIff, symbols]
  simp only [Instruction.rule, List.singleton_append, List.mem_cons, List.not_mem_nil, or_false] at inside
  rcases inside with rfl | rfl
  · exact memTokens fits.read
  · exact memTokens fits.write

omit free in
theorem rulesFit {next : Nat} {built : Machine Token} (tapes : built.tapes = 1)
    (symbols : built.alphabet.symbols = tokens machine) :
    ∀ rule ∈ rulesBefore machine mode (numbering machine mode) next,
      rule.Fits built.tapes built.alphabet := by
  intro rule mem
  obtain ⟨number, phase, here, instruction, known, rfl⟩ := phaseOfRule mem
  exact ruleFits several tapes symbols (numberedPossible several (Array.mem_of_getElem? here)) known _ _

end

end Multitape.SingleTape
