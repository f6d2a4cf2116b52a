import Mathlib.Data.Finset.Card
import Mathlib.Data.List.Forall2
import Multitape.Description.Machine
import Multitape.Proofs.Machine

/-! What records describe, said of the records themselves: the counts they have to declare,
the symbols and, field by field, the rules. Reading them gives a machine exactly when they
describe one, and it gives the one that they describe. -/
namespace Multitape
namespace Description
variable {S : Type} [Symbol S]

structure Spells (tapes : Nat) (fields : List String) (rule : Rule S) : Prop where
  width : fields.length = 2 + 3 * tapes
  source : fields[0]?.bind State.ofField? = some (.ordinary rule.state)
  reads : rule.read.length = tapes
  read : ∀ tape < tapes, fields[1 + tape]?.bind Symbol.ofField? = rule.read[tape]?
  next : fields[tapes + 1]?.bind State.ofField? = some rule.next
  writes : rule.write.length = tapes
  write : ∀ tape < tapes, fields[tapes + 2 + 2 * tape]?.bind Symbol.ofField? = rule.write[tape]?
  turns : rule.moves.length = tapes
  moves : ∀ tape < tapes,
    fields[tapes + 3 + 2 * tape]?.bind Direction.ofField? = rule.moves[tape]?

def statesOf (rules : List (Rule S)) : Nat := (rules.flatMap Rule.states).toFinset.card

structure Describes (header alphabet : Record) (others : List Record) (tapes : Nat)
    (symbols : List S) (rules : List (Rule S)) : Prop where
  counts : header.fields.map (Numeral.read? Numeral.countBound) =
    [some (statesOf rules), some tapes, some symbols.length, some rules.length]
  positive : 0 < tapes
  letters : alphabet.fields.map Symbol.ofField? = symbols.map some
  distinct : symbols.Nodup
  spelled : List.Forall₂ (fun record rule => Spells tapes record.fields rule) others rules
  known : ∀ rule ∈ rules, ∀ symbol ∈ rule.read ++ rule.write,
    symbol = Symbol.blank ∨ symbol ∈ symbols
  keys : (rules.map Rule.key).Nodup

theorem readCountIff {line n : Nat} {field : String} :
    readCount line field = .ok n ↔ Numeral.read? Numeral.countBound field = some n := by
  unfold readCount
  split
  · rename_i found
    simp [found]
  · rename_i missing
    simp [missing]

theorem readHeaderIff {record : Record} {header : Header} : readHeader record = .ok header ↔
    header.line = record.line ∧ 0 < header.tapes ∧
      record.fields.map (Numeral.read? Numeral.countBound) =
        [some header.states, some header.tapes, some header.alphabet, some header.rules] := by
  unfold readHeader
  split
  · rename_i states tapes alphabet rules fields
    rw [fields]
    simp only [bindOkIff, readCountIff, List.map_cons, List.map_nil, List.cons.injEq, and_true]
    constructor
    · rintro ⟨_, states, _, tapes, _, alphabet, _, rules, last⟩
      split at last
      · cases last
      · rename_i taped
        cases last
        exact ⟨rfl, Nat.pos_of_ne_zero taped, states, tapes, alphabet, rules⟩
    · rintro ⟨line, positive, states, tapes, alphabet, rules⟩
      refine ⟨_, states, _, tapes, _, alphabet, _, rules, ?_⟩
      rw [if_neg (Nat.ne_of_gt positive), ← line]
  · rename_i fields other
    refine iff_of_false (by simp) fun ⟨_, _, counts⟩ => ?_
    have four : record.fields.length = 4 := by simpa using congrArg List.length counts
    obtain ⟨a, b, c, d, same⟩ := List.length_eq_four.mp four
    exact other a b c d same

theorem readStateIff {line : Nat} {field : String} {state : State} :
    readState line field = .ok state ↔ State.ofField? field = some state := by
  unfold readState
  split <;> simp_all

theorem readSourceIff {line number : Nat} {field : String} :
    readSource line field = .ok number ↔ State.ofField? field = some (.ordinary number) := by
  unfold readSource
  rw [bindOkIff]
  simp only [readStateIff]
  constructor
  · rintro ⟨state, read, same⟩
    cases state <;> cases same
    exact read
  · intro read
    exact ⟨_, read, rfl⟩

theorem readDirectionIff {line : Nat} {field : String} {move : Direction} :
    readDirection line field = .ok move ↔ Direction.ofField? field = some move := by
  unfold readDirection
  split <;> simp_all

theorem readSymbolIff {line : Nat} {field : String} {symbol : S} :
    readSymbol line field = .ok symbol ↔ Symbol.ofField? field = some symbol := by
  unfold readSymbol
  split <;> simp_all

theorem readSymbolsIff {line : Nat} {fields : List String} {symbols : List S} :
    fields.mapM (readSymbol line) = Except.ok symbols ↔
      fields.map Symbol.ofField? = symbols.map some := by
  induction fields generalizing symbols with
  | nil =>
    cases symbols <;> simp [pure, Except.pure]
  | cons field fields ih =>
    rw [List.mapM_cons]
    simp only [bindOkIff, readSymbolIff, ih]
    constructor
    · rintro ⟨first, head, rest, tail, same⟩
      cases same
      rw [List.map_cons, head, tail, List.map_cons]
    · intro same
      cases symbols with
      | nil => cases same
      | cons first rest =>
        obtain ⟨head, tail⟩ := List.cons.inj same
        exact ⟨first, head, rest, tail, rfl⟩

omit [Symbol S] in
theorem mapSomeIff {read : String → Option S} {fields : List String} {values : List S} :
    fields.map read = values.map some ↔ values.length = fields.length ∧
      ∀ place < fields.length, fields[place]?.bind read = values[place]? := by
  induction fields generalizing values with
  | nil => simp
  | cons field fields ih =>
    cases values with
    | nil => simp
    | cons value values =>
      simp only [List.map_cons, List.cons.injEq, ih, List.length_cons, Nat.forall_lt_succ_left,
        List.getElem?_cons_zero, List.getElem?_cons_succ, Option.bind_some, Nat.add_right_cancel_iff]
      exact and_left_comm

theorem tapesCounted {record : Record} {header : Header} (counts : readHeader record = .ok header) :
    record.fields[1]?.bind (Numeral.read? Numeral.countBound) = some header.tapes := by
  obtain ⟨-, -, counts⟩ := readHeaderIff.mp counts
  change _ = [header.states, header.tapes, header.alphabet, header.rules].map some at counts
  obtain ⟨four, each⟩ := mapSomeIff.mp counts
  exact each 1 (four ▸ Nat.lt_of_sub_eq_succ rfl)

theorem readActionsIff {line tapes : Nat} {fields : List String} {write : List S}
    {moves : List Direction} (width : fields.length = 2 * tapes) :
    readActions line fields = .ok (write, moves) ↔ write.length = tapes ∧ moves.length = tapes ∧
      (∀ tape < tapes, fields[2 * tape]?.bind Symbol.ofField? = write[tape]?) ∧
      ∀ tape < tapes, fields[2 * tape + 1]?.bind Direction.ofField? = moves[tape]? := by
  induction tapes generalizing fields write moves with
  | zero =>
    obtain rfl := List.length_eq_zero_iff.mp width
    cases write <;> cases moves <;> simp [readActions]
  | succ tapes ih =>
    obtain ⟨symbol, fields, rfl⟩ := List.exists_cons_of_length_pos (by omega : 0 < fields.length)
    obtain ⟨move, fields, rfl⟩ := List.exists_cons_of_length_pos
      (by simp only [List.length_cons] at width; omega : 0 < fields.length)
    have rest : fields.length = 2 * tapes := by simp only [List.length_cons] at width; omega
    unfold readActions
    simp only [bindOkIff, readSymbolIff, readDirectionIff, Prod.exists, ih rest, pure, Except.pure,
      Except.ok.injEq, Prod.mk.injEq, Nat.forall_lt_succ_left, Nat.mul_succ, Nat.mul_zero,
      List.getElem?_cons_zero, List.getElem?_cons_succ, Option.bind_some]
    constructor
    · rintro ⟨first, head, turn, way, write, moves, ⟨writes, turns, written, moved⟩, rfl, rfl⟩
      exact ⟨congrArg Nat.succ writes, congrArg Nat.succ turns, ⟨head, written⟩, way, moved⟩
    · rintro ⟨writes, turns, ⟨head, written⟩, way, moved⟩
      obtain ⟨first, write, rfl⟩ := List.exists_cons_of_length_eq_add_one writes
      obtain ⟨turn, moves, rfl⟩ := List.exists_cons_of_length_eq_add_one turns
      exact ⟨first, head, turn, way, write, moves,
        ⟨Nat.succ.inj writes, Nat.succ.inj turns, written, moved⟩, rfl, rfl⟩

theorem spellsParts {tapes : Nat} {source target : String} {reads actions : List String}
    {rule : Rule S} (size : reads.length = tapes) (width : actions.length = 2 * tapes) :
    Spells tapes (source :: reads ++ target :: actions) rule ↔
      State.ofField? source = some (.ordinary rule.state) ∧
      reads.map Symbol.ofField? = rule.read.map some ∧ State.ofField? target = some rule.next ∧
      rule.write.length = tapes ∧ rule.moves.length = tapes ∧
      (∀ tape < tapes, actions[2 * tape]?.bind Symbol.ofField? = rule.write[tape]?) ∧
      ∀ tape < tapes, actions[2 * tape + 1]?.bind Direction.ofField? = rule.moves[tape]? := by
  generalize fields : source :: reads ++ target :: actions = whole
  have length : whole.length = 2 + 3 * tapes := by
    rw [← fields, List.length_append, List.length_cons, List.length_cons, size, width]
    omega
  have inside : ∀ tape < tapes, whole[1 + tape]? = reads[tape]? := by
    intro tape less
    rw [← fields, Nat.add_comm, List.cons_append, List.getElem?_cons_succ,
      List.getElem?_append_left (size ▸ less)]
  have behind : ∀ place, whole[place + (tapes + 1)]? = (target :: actions)[place]? := by
    intro place
    rw [← fields, ← size, ← List.length_cons (a := source), List.getElem?_append_right (by omega),
      Nat.add_sub_cancel]
  have written : ∀ tape, whole[tapes + 2 + 2 * tape]? = actions[2 * tape]? := by
    intro tape
    rw [show tapes + 2 + 2 * tape = 2 * tape + 1 + (tapes + 1) by omega, behind,
      List.getElem?_cons_succ]
  have moved : ∀ tape, whole[tapes + 3 + 2 * tape]? = actions[2 * tape + 1]? := by
    intro tape
    rw [show tapes + 3 + 2 * tape = 2 * tape + 2 + (tapes + 1) by omega, behind,
      List.getElem?_cons_succ]
  have first : whole[0]? = some source := by rw [← fields]; rfl
  have middle : whole[tapes + 1]? = some target := by
    rw [← Nat.zero_add (tapes + 1), behind]
    rfl
  rw [mapSomeIff, size]
  constructor
  · rintro ⟨-, source, many, read, next, writes, write, turns, moves⟩
    simp only [written, moved, middle, first, Option.bind_some] at source write moves next
    have read' : ∀ tape < tapes, reads[tape]?.bind Symbol.ofField? = rule.read[tape]? :=
      fun tape less => inside tape less ▸ read tape less
    exact ⟨source, ⟨many, read'⟩, next, writes, turns, write, moves⟩
  · rintro ⟨source, ⟨many, read⟩, next, writes, turns, write, moves⟩
    exact {
      width := length
      source := by rwa [first]
      reads := many
      read tape less := by rw [inside tape less, read tape less]
      next := by rwa [middle]
      writes
      write tape less := by rw [written, write tape less]
      turns
      moves tape less := by rw [moved, moves tape less] }

omit [Symbol S] in
/- The width tells the parity of what stands behind the target, wrapped around or not. -/
theorem partsOfWidth {tapes : Nat} {fields : List String}
    (width : fields.length % Numeral.countBound = ruleWidth tapes)
    (covered : tapes + 2 ≤ fields.length) :
    ∃ source reads target actions count, fields = source :: reads ++ target :: actions ∧
      reads.length = tapes ∧ actions.length = 2 * count := by
  unfold ruleWidth at width
  have even : (fields.length - (tapes + 2)) % 2 = 0 := by
    simp only [Numeral.countBound, Nat.pow_eq, Nat.reducePow] at width
    omega
  obtain ⟨source, rest, rfl⟩ := List.exists_cons_of_length_pos (by omega : 0 < fields.length)
  rw [List.length_cons] at covered even
  have left : (rest.drop tapes).length = rest.length + 1 - (tapes + 2) + 1 := by
    rw [List.length_drop]
    omega
  obtain ⟨target, actions, behind⟩ := List.exists_cons_of_length_eq_add_one left
  rw [behind, List.length_cons] at left
  refine ⟨source, rest.take tapes, target, actions, (rest.length + 1 - (tapes + 2)) / 2, ?_, ?_, ?_⟩
  · rw [List.cons_append, ← behind, List.take_append_drop]
  · rw [List.length_take]
    omega
  · omega

theorem readRuleParts {tapes : Nat} {source target : String} {reads actions : List String}
    (size : reads.length = tapes)
    (width : (source :: reads ++ target :: actions).length % Numeral.countBound = ruleWidth tapes)
    (line : Nat) :
    (readRule tapes ⟨line, source :: reads ++ target :: actions⟩ : Result (Rule S)) = do
      let state ← readSource line source
      let read ← reads.mapM (readSymbol line)
      let next ← readState line target
      let (write, moves) ← readActions line actions
      return { state, read, next, write, moves } := by
  unfold readRule
  dsimp only
  rw [if_neg (not_not_intro width)]
  simp only [List.cons_append, List.take_left' size, List.drop_left' size]

/- Where a record is too short for its places, there is a fault. -/
theorem readRuleCovered {tapes : Nat} {record : Record} {rule : Rule S}
    (read : readRule tapes record = .ok rule) :
    record.fields.length % Numeral.countBound = ruleWidth tapes ∧ tapes + 2 ≤ record.fields.length := by
  unfold readRule at read
  dsimp only at read
  split at read
  · cases read
  · rename_i width
    refine ⟨not_not.mp width, ?_⟩
    split at read
    · cases read
    · rename_i source fields shape
      obtain ⟨state, -, rest⟩ := bindOkIff.mp read
      split at rest
      · cases rest
      · rename_i target actions behind
        have length := congrArg List.length behind
        rw [List.length_drop, List.length_cons] at length
        rw [shape, List.length_cons]
        omega

theorem readRuleIff {tapes : Nat} {record : Record} {rule : Rule S} :
    readRule tapes record = .ok rule ∧ rule.write.length = tapes ↔
      Spells tapes record.fields rule := by
  obtain ⟨line, fields⟩ := record
  constructor
  · rintro ⟨read, writes⟩
    obtain ⟨width, covered⟩ := readRuleCovered read
    obtain ⟨source, reads, target, actions, count, rfl, size, even⟩ := partsOfWidth width covered
    rw [readRuleParts size width] at read
    simp only [bindOkIff, readSourceIff, readStateIff, readSymbolsIff, Prod.exists,
      readActionsIff even, pure, Except.pure, Except.ok.injEq] at read
    obtain ⟨state, source, read, reads, next, target, write, moves, acts, rfl⟩ := read
    obtain rfl : count = tapes := acts.1.symm.trans writes
    exact (spellsParts size even).mpr ⟨source, reads, target, acts⟩
  · intro spells
    have length : fields.length = 2 + 3 * tapes := spells.width
    have width : fields.length % Numeral.countBound = ruleWidth tapes :=
      congrArg (· % Numeral.countBound) length
    obtain ⟨source, reads, target, actions, count, rfl, size, even⟩ :=
      partsOfWidth width (by omega : tapes + 2 ≤ fields.length)
    obtain rfl : count = tapes := by
      rw [List.length_append, List.length_cons, List.length_cons, size, even] at length
      omega
    obtain ⟨source, reads, target, acts⟩ := (spellsParts size even).mp spells
    refine ⟨?_, acts.1⟩
    rw [readRuleParts size width]
    simp only [bindOkIff, readSourceIff, readStateIff, readSymbolsIff, Prod.exists,
      readActionsIff even, pure, Except.pure, Except.ok.injEq]
    exact ⟨_, source, _, reads, _, target, _, _, acts, rfl⟩

theorem checkCountIff {header : Header} {count : Count} {declared found : Nat} {done : Unit} :
    checkCount header count declared found = .ok done ↔ declared = found := by
  unfold checkCount
  split <;> simp_all

variable [DecidableEq S]

theorem readAlphabetIff {header : Header} {record : Record} {start : Machine S} :
    readAlphabet header record = .ok start ↔ ∃ symbols,
      record.fields.map Symbol.ofField? = symbols.map some ∧
      Machine.empty header.tapes symbols = .ok start ∧ header.alphabet = symbols.length := by
  unfold readAlphabet
  simp only [bindOkIff, readSymbolsIff, mapErrorOkIff, checkCountIff, pure, Except.pure,
    Except.ok.injEq]
  constructor
  · rintro ⟨symbols, fields, start, built, _, counted, rfl⟩
    exact ⟨symbols, fields, built, counted⟩
  · rintro ⟨symbols, fields, built, counted⟩
    exact ⟨symbols, fields, start, built, (), counted, rfl⟩

/- Induction on the records. One that is read becomes the next rule to be added. -/
theorem addRulesIff {lines : List Nat} {records : List Record} {start grown : Machine S} :
    addRules lines start records = .ok grown ↔ ∃ rules,
      List.Forall₂ (fun record rule => Spells start.tapes record.fields rule) records rules ∧
      rules.foldlM Machine.add start = .ok grown := by
  induction records generalizing start with
  | nil => simp [addRules, pure, Except.pure]
  | cons record records ih =>
    unfold addRules
    rw [bindOkIff]
    constructor
    · rintro ⟨rule, read, added⟩
      split at added
      · rename_i next one
        have fits := (addOkIff.mp ⟨next, one⟩).1
        obtain ⟨rules, spelled, folded⟩ := ih.mp added
        rw [(addShape one).1] at spelled
        exact ⟨rule :: rules, .cons (readRuleIff.mp ⟨read, fits.write⟩) spelled,
          bindOkIff.mpr ⟨next, one, folded⟩⟩
      · cases added
      · cases added
    · rintro ⟨rules, spelled, folded⟩
      obtain ⟨rule, rules, here, later, rfl⟩ := List.forall₂_cons_left_iff.mp spelled
      obtain ⟨next, one, folded⟩ := bindOkIff.mp folded
      refine ⟨rule, (readRuleIff.mpr here).1, ?_⟩
      rw [one]
      apply ih.mpr
      rw [(addShape one).1]
      exact ⟨rules, later, folded⟩

theorem machineOfIff {found : List Record} {machine : Machine S} :
    machineOf found = .ok machine ↔ ∃ first second others header start,
      found = first :: second :: others ∧ readHeader first = .ok header ∧
      readAlphabet header second = .ok start ∧
      addRules (others.map Record.line) start others = .ok machine ∧
      header.rules = machine.table.rules.size ∧ header.states = machine.stateCount := by
  match found with
  | [] => simp [machineOf]
  | [first] =>
    refine iff_of_false (fun made => ?_) (by simp)
    obtain ⟨header, _, made⟩ := bindOkIff.mp made
    cases made
  | first :: second :: others =>
    simp only [machineOf, bindOkIff, checkCountIff, pure, Except.pure, Except.ok.injEq,
      List.cons.injEq]
    constructor
    · rintro ⟨header, counts, start, letters, grown, added, _, rules, _, states, rfl⟩
      exact ⟨first, second, others, header, start, ⟨rfl, rfl, rfl⟩, counts, letters, added, rules,
        states⟩
    · rintro ⟨_, _, _, header, start, ⟨rfl, rfl, rfl⟩, counts, letters, added, rules, states⟩
      exact ⟨header, counts, start, letters, machine, added, (), rules, (), states, rfl⟩

omit [DecidableEq S] in
theorem spelledFieldsIff {tapes : Nat} {records : List Record} {rules : List (Rule S)} :
    List.Forall₂ (Spells tapes) (records.map Record.fields) rules ↔
      List.Forall₂ (fun record rule => Spells tapes record.fields rule) records rules :=
  List.forall₂_map_left_iff

/- The lines of the records are named in faults only. -/
theorem machineOfFields {found other : List Record} {machine : Machine S}
    (same : found.map Record.fields = other.map Record.fields)
    (made : machineOf found = .ok machine) : machineOf other = .ok machine := by
  obtain ⟨first, second, rules, header, start, rfl, counts, letters, added, size, states⟩ :=
    machineOfIff.mp made
  obtain ⟨first', other, rfl, one, same⟩ := List.map_eq_cons_iff.mp same.symm
  obtain ⟨second', rules', rfl, two, same⟩ := List.map_eq_cons_iff.mp same
  obtain ⟨-, positive, counted⟩ := readHeaderIff.mp counts
  obtain ⟨symbols, read, built, declared⟩ := readAlphabetIff.mp letters
  obtain ⟨spelled, spells, folded⟩ := addRulesIff.mp added
  have spells' : List.Forall₂ (fun record rule => Spells start.tapes record.fields rule) rules'
      spelled := by
    rw [← spelledFieldsIff, same]
    exact spelledFieldsIff.mpr spells
  refine machineOfIff.mpr ⟨first', second', rules', { header with line := first'.line }, start, rfl,
    readHeaderIff.mpr ⟨rfl, positive, ?_⟩, readAlphabetIff.mpr ⟨symbols, ?_, built, declared⟩,
    addRulesIff.mpr ⟨spelled, spells', folded⟩, size, states⟩
  · rwa [one]
  · rwa [two]

theorem ofTextRead {text : String} {found : List Record} (split : records text = .ok found) :
    (Machine.ofText text : Except DescriptionError (Machine S)) = machineOf found := by
  unfold Machine.ofText
  rw [split]
  rfl

omit [DecidableEq S] in
theorem stateCountOf (machine : Machine S) :
    machine.stateCount = statesOf machine.table.rules.toList := by
  have distinct : machine.table.states.Nodup := (Ascending.pairwiseOfList _).imp Nat.ne_of_lt
  unfold Machine.stateCount statesOf
  rw [← List.toFinset_card_of_nodup distinct]
  congr 1
  ext number
  simp only [List.mem_toFinset, Table.states, Ascending.memOfList]

theorem describedOfMachine {found : List Record} {machine : Machine S}
    (made : machineOf found = .ok machine) : ∃ header alphabet others,
      found = header :: alphabet :: others ∧ Describes header alphabet others machine.tapes
        machine.alphabet.symbols machine.table.rules.toList := by
  obtain ⟨first, second, others, header, start, rfl, counts, letters, added, size, states⟩ :=
    machineOfIff.mp made
  obtain ⟨-, positive, counts⟩ := readHeaderIff.mp counts
  obtain ⟨symbols, letters, built, declared⟩ := readAlphabetIff.mp letters
  obtain ⟨rules, spelled, folded⟩ := addRulesIff.mp added
  obtain ⟨startTapes, -, -⟩ := emptyShape built
  obtain ⟨taped, lettered, ruled⟩ := builtShape built folded
  have sized : header.rules = machine.table.rules.toList.length := size
  refine ⟨first, second, others, rfl, ?_⟩
  exact {
    counts := by rw [counts, ← stateCountOf, states, sized, declared, taped, lettered]
    positive := machine.hasTapes
    letters := lettered ▸ letters
    distinct := machine.alphabet.distinct
    spelled := by rwa [ruled, taped, ← startTapes]
    known := fun rule mem => (machine.fits rule mem).symbols
    keys := machine.table.distinct }

omit [DecidableEq S] in
theorem spelledWidths {tapes : Nat} {records : List Record} {rules : List (Rule S)}
    (spelled : List.Forall₂ (fun record rule => Spells tapes record.fields rule) records rules) :
    ∀ rule ∈ rules, rule.read.length = tapes ∧ rule.write.length = tapes ∧
      rule.moves.length = tapes := by
  induction spelled with
  | nil => simp
  | cons here _ ih => exact List.forall_mem_cons.mpr ⟨⟨here.reads, here.writes, here.turns⟩, ih⟩

theorem machineOfDescribed {header alphabet : Record} {others : List Record} {tapes : Nat}
    {symbols : List S} {rules : List (Rule S)}
    (describes : Describes header alphabet others tapes symbols rules) :
    ∃ machine : Machine S, machineOf (header :: alphabet :: others) = .ok machine ∧
      machine.tapes = tapes ∧ machine.alphabet.symbols = symbols ∧
      machine.table.rules.toList = rules := by
  obtain ⟨counts, positive, letters, distinct, spelled, known, keys⟩ := describes
  obtain ⟨start, built, startTapes, startAlphabet, none⟩ := emptyNodup positive distinct
  have lettered : start.alphabet.symbols = symbols := by rw [startAlphabet]
  have fits : ∀ rule ∈ rules, rule.Fits start.tapes start.alphabet := by
    intro rule mem
    obtain ⟨reads, writes, turns⟩ := spelledWidths spelled rule mem
    rw [startTapes]
    exact {
      read := reads
      write := writes
      moves := turns
      symbols symbol used := by
        rw [Alphabet.memIff, lettered]
        exact known rule mem symbol used }
  have keys' : ((start.table.rules.toList ++ rules).map Rule.key).Nodup := by rwa [none]
  obtain ⟨machine, folded, -⟩ := addAll fits keys'
  obtain ⟨taped, declared, ruled⟩ := builtShape built folded
  have size : rules.length = machine.table.rules.size := by rw [← ruled, Array.length_toList]
  have states : statesOf rules = machine.stateCount := by rw [stateCountOf, ruled]
  refine ⟨machine, machineOfIff.mpr ?_, taped, declared, ruled⟩
  refine ⟨header, alphabet, others, ⟨header.line, statesOf rules, tapes, symbols.length,
    rules.length⟩, start, rfl, readHeaderIff.mpr ⟨rfl, positive, counts⟩,
    readAlphabetIff.mpr ⟨symbols, letters, built, rfl⟩, addRulesIff.mpr ⟨rules, ?_, folded⟩,
    size, states⟩
  rwa [startTapes]

end Description
end Multitape
