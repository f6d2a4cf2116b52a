import Multitape.Machine.Basic
import Multitape.Run.Step

/-! Building machines. A rule that fits is accepted as long as its key is new, so a machine
can be built again from its own rules, or from any that fit and have distinct keys. What was
added is what is met: the states are those of the rules, and the rule for what is read is the
next step. -/
namespace Multitape

theorem bindOkIff {ε α β : Type} {value : Except ε α} {next : α → Except ε β} {result : β} :
    value >>= next = .ok result ↔ ∃ input, value = .ok input ∧ next input = .ok result := by
  cases value <;> simp [bind, Except.bind]

theorem bindErrorIff {ε α β : Type} {value : Except ε α} {next : α → Except ε β} {fault : ε} :
    value >>= next = .error fault ↔
      value = .error fault ∨ ∃ input, value = .ok input ∧ next input = .error fault := by
  cases value <;> simp [bind, Except.bind]

theorem failsFold {ε α β : Type} {step : β → α → Except ε β} {start state : β} {fault : ε}
    {done : List α} {item : α} (rest : List α) (folded : done.foldlM step start = .ok state)
    (failed : step state item = .error fault) :
    (done ++ item :: rest).foldlM step start = .error fault := by
  rw [List.foldlM_append, folded]
  change (item :: rest).foldlM step state = .error fault
  rw [List.foldlM_cons, failed]
  rfl

theorem mapErrorOkIff {ε δ α : Type} {value : Except ε α} {wrap : ε → δ} {result : α} :
    value.mapError wrap = .ok result ↔ value = .ok result := by
  constructor
  · intro same
    cases value <;> cases same
    rfl
  · rintro rfl
    rfl

variable {S : Type} [Symbol S] [DecidableEq S]

theorem ofListNodup {symbols : List S} (distinct : symbols.Nodup) :
    Alphabet.ofList symbols = .ok ⟨symbols, distinct⟩ := by
  have fresh : ∀ (symbols seen : List S), symbols.Nodup → (∀ symbol ∈ symbols, symbol ∉ seen) →
      Alphabet.firstRepeat? seen symbols = none := by
    intro symbols
    induction symbols with
    | nil => exact fun _ _ _ => rfl
    | cons first rest ih =>
      intro seen distinct apart
      obtain ⟨new, distinct⟩ := List.nodup_cons.mp distinct
      rw [Alphabet.firstRepeat?, if_neg (apart first (by simp))]
      apply ih _ distinct
      intro symbol mem old
      rcases List.mem_cons.mp old with rfl | older
      · exact new mem
      · exact apart symbol (by simp [mem]) older
  unfold Alphabet.ofList
  split
  · rename_i repeated
    rw [fresh symbols [] distinct (by simp)] at repeated
    cases repeated
  · rfl

theorem emptyNodup {tapes : Nat} {symbols : List S} (positive : 0 < tapes)
    (distinct : symbols.Nodup) : ∃ machine, Machine.empty tapes symbols = .ok machine ∧
      machine.tapes = tapes ∧ machine.alphabet = ⟨symbols, distinct⟩ ∧ machine.table.rules = #[] := by
  unfold Machine.empty
  rw [dif_neg (by omega), ofListNodup distinct]
  exact ⟨_, rfl, rfl, rfl, rfl⟩

theorem emptyShape {tapes : Nat} {symbols : List S} {machine : Machine S}
    (built : Machine.empty tapes symbols = .ok machine) : machine.tapes = tapes ∧
      machine.alphabet.symbols = symbols ∧ machine.table.rules = #[] := by
  unfold Machine.empty at built
  split at built
  · cases built
  · cases listed : Alphabet.ofList symbols with
    | error fault =>
      rw [listed] at built
      cases built
    | ok alphabet =>
      rw [listed] at built
      cases built
      unfold Alphabet.ofList at listed
      split at listed
      · cases listed
      · cases listed
        exact ⟨rfl, rfl, rfl⟩

inductive Machine.Adds (machine : Machine S) (rule : Rule S) :
    Except DefinitionError (Machine S) → Prop where
  | misfit {found} (arity : badArity? machine.tapes rule = some found) :
      Adds machine rule (.error (.arity machine.tapes found))
  | foreign {symbol} (arity : badArity? machine.tapes rule = none)
      (foreign : foreign? machine.alphabet rule = some symbol) :
      Adds machine rule (.error (.unknownSymbol (Symbol.text symbol)))
  | repeated {index old} (arity : badArity? machine.tapes rule = none)
      (known : foreign? machine.alphabet rule = none)
      (position : machine.table.position? rule.state rule.read = some index)
      (found : machine.table.rules[index]? = some old) (key : old.key = rule.key) :
      Adds machine rule (.error (.duplicateRule rule.state (Symbol.join rule.read) index))
  | grown {grown} (arity : badArity? machine.tapes rule = none)
      (known : foreign? machine.alphabet rule = none)
      (fresh : machine.table.get? rule.state rule.read = none)
      (rules : grown.table.rules = machine.table.rules.push rule)
      (tapes : grown.tapes = machine.tapes) (alphabet : grown.alphabet = machine.alphabet) :
      Adds machine rule (.ok grown)

theorem addsOfAdd (machine : Machine S) (rule : Rule S) : machine.Adds rule (machine.add rule) := by
  unfold Machine.add
  split
  · rename_i arity
    exact .misfit arity
  · rename_i arity
    split
    · rename_i foreign
      exact .foreign arity foreign
    · rename_i known
      split
      · rename_i old found
        obtain ⟨index, position, here⟩ := Table.positionOfGet found
        rw [position]
        exact .repeated arity known position here (Table.getIff.mp found).2
      · rename_i fresh
        exact .grown arity known fresh rfl rfl rfl

/- All that an accepted rule changes. -/
theorem addShape {machine grown : Machine S} {rule : Rule S} (added : machine.add rule = .ok grown) :
    grown.tapes = machine.tapes ∧ grown.alphabet = machine.alphabet ∧
      grown.table.rules = machine.table.rules.push rule := by
  have adds := addsOfAdd machine rule
  rw [added] at adds
  cases adds with
  | grown _ _ _ rules tapes alphabet => exact ⟨tapes, alphabet, rules⟩

theorem checksOfFits {machine : Machine S} {rule : Rule S}
    (fits : rule.Fits machine.tapes machine.alphabet) :
    Machine.badArity? machine.tapes rule = none ∧ Machine.foreign? machine.alphabet rule = none := by
  refine ⟨by simp [Machine.badArity?, fits.read, fits.write, fits.moves], ?_⟩
  unfold Machine.foreign?
  rw [List.find?_eq_none]
  intro symbol mem
  simpa using fits.symbols symbol mem

theorem addFresh {machine : Machine S} {rule : Rule S} (fits : rule.Fits machine.tapes machine.alphabet)
    (fresh : machine.table.get? rule.state rule.read = none) :
    ∃ grown, machine.add rule = .ok grown := by
  obtain ⟨fitting, native⟩ := checksOfFits fits
  have adds := addsOfAdd machine rule
  generalize machine.add rule = answer at adds
  cases adds with
  | misfit arity => exact absurd arity (by simp [fitting])
  | foreign _ foreign => exact absurd foreign (by simp [native])
  | repeated _ _ _ found key =>
    have mem := Array.mem_toList_iff.mpr (Array.mem_of_getElem? found)
    exact absurd key (Table.getNoneIff.mp fresh _ mem)
  | grown => exact ⟨_, rfl⟩

theorem addRepeated {machine : Machine S} {rule old : Rule S}
    (fits : rule.Fits machine.tapes machine.alphabet) (mem : old ∈ machine.table.rules.toList)
    (key : old.key = rule.key) : ∃ index, machine.table.rules[index]? = some old ∧
      machine.add rule = .error (.duplicateRule rule.state (Symbol.join rule.read) index) := by
  obtain ⟨fitting, native⟩ := checksOfFits fits
  have adds := addsOfAdd machine rule
  generalize machine.add rule = answer at adds
  cases adds with
  | misfit arity => exact absurd arity (by simp [fitting])
  | foreign _ foreign => exact absurd foreign (by simp [native])
  | repeated _ _ _ found same =>
    have mem' := Array.mem_toList_iff.mpr (Array.mem_of_getElem? found)
    obtain rfl := Table.eqOfKey mem mem' (key.trans same.symm)
    exact ⟨_, found, rfl⟩
  | grown _ _ fresh => exact absurd key (Table.getNoneIff.mp fresh old mem)

/- What the tapes, the alphabet and the rules have to be for a rule to be accepted. -/
theorem addOkIff {machine : Machine S} {rule : Rule S} : (∃ grown, machine.add rule = .ok grown) ↔
    rule.Fits machine.tapes machine.alphabet ∧
      ∀ old ∈ machine.table.rules.toList, old.key ≠ rule.key := by
  constructor
  · rintro ⟨grown, added⟩
    have adds := addsOfAdd machine rule
    rw [added] at adds
    cases adds with
    | grown arity known fresh =>
      exact ⟨Machine.fitsOfChecks arity known, Table.getNoneIff.mp fresh⟩
  · rintro ⟨fits, fresh⟩
    exact addFresh fits (Table.getNoneIff.mpr fresh)

/- The place that a refused rule is told is that of the rule with its key. -/
theorem repeatedAt {machine : Machine S} {rule : Rule S} {state index : Nat} {read : String}
    (refused : machine.add rule = .error (.duplicateRule state read index)) :
    state = rule.state ∧ read = Symbol.join rule.read ∧
      ∃ old, machine.table.rules[index]? = some old ∧ old.key = rule.key := by
  have adds := addsOfAdd machine rule
  rw [refused] at adds
  cases adds with
  | repeated _ _ _ found key => exact ⟨rfl, rfl, _, found, key⟩

theorem addAllShape {rules : List (Rule S)} {machine grown : Machine S}
    (added : rules.foldlM Machine.add machine = .ok grown) : grown.tapes = machine.tapes ∧
      grown.alphabet = machine.alphabet ∧
      grown.table.rules.toList = machine.table.rules.toList ++ rules := by
  induction rules generalizing machine with
  | nil =>
    cases added
    exact ⟨rfl, rfl, (List.append_nil _).symm⟩
  | cons rule rules ih =>
    obtain ⟨next, one, rest⟩ := bindOkIff.mp added
    obtain ⟨tapes, alphabet, pushed⟩ := addShape one
    obtain ⟨tapes', alphabet', all⟩ := ih rest
    refine ⟨tapes'.trans tapes, alphabet'.trans alphabet, ?_⟩
    rw [all, pushed, Array.toList_push, List.append_assoc, List.singleton_append]

theorem builtShape {tapes : Nat} {symbols : List S} {rules : List (Rule S)}
    {empty machine : Machine S} (start : Machine.empty tapes symbols = .ok empty)
    (added : rules.foldlM Machine.add empty = .ok machine) : machine.tapes = tapes ∧
      machine.alphabet.symbols = symbols ∧ machine.table.rules.toList = rules := by
  obtain ⟨startTapes, startSymbols, none⟩ := emptyShape start
  obtain ⟨sameTapes, alphabet, all⟩ := addAllShape added
  refine ⟨sameTapes.trans startTapes, by rw [alphabet, startSymbols], ?_⟩
  rw [all, none]
  exact List.nil_append _

/- Induction on the rules that are still to be added. -/
theorem addAll {rules : List (Rule S)} {machine : Machine S}
    (fits : ∀ rule ∈ rules, rule.Fits machine.tapes machine.alphabet)
    (distinct : ((machine.table.rules.toList ++ rules).map Rule.key).Nodup) :
    ∃ grown, rules.foldlM Machine.add machine = .ok grown ∧ grown.tapes = machine.tapes ∧
      grown.alphabet = machine.alphabet ∧
      grown.table.rules.toList = machine.table.rules.toList ++ rules := by
  suffices accepted : ∃ grown, rules.foldlM Machine.add machine = .ok grown by
    obtain ⟨grown, added⟩ := accepted
    exact ⟨grown, added, addAllShape added⟩
  induction rules generalizing machine with
  | nil => exact ⟨machine, rfl⟩
  | cons rule rules ih =>
    have fresh : machine.table.get? rule.state rule.read = none := by
      apply Table.getNoneIff.mpr
      intro old mem same
      rw [List.map_append, List.map_cons, List.nodup_append] at distinct
      exact distinct.2.2 _ (List.mem_map.mpr ⟨old, mem, rfl⟩) rule.key (List.mem_cons_self ..) same
    obtain ⟨next, added⟩ := addFresh (fits rule (by simp)) fresh
    obtain ⟨tapes, alphabet, pushed⟩ := addShape added
    have fits' : ∀ other ∈ rules, other.Fits next.tapes next.alphabet := by
      rw [tapes, alphabet]
      exact fun other mem => fits other (List.mem_cons_of_mem _ mem)
    have distinct' : ((next.table.rules.toList ++ rules).map Rule.key).Nodup := by
      rwa [pushed, Array.toList_push, List.append_assoc, List.singleton_append]
    obtain ⟨grown, rest⟩ := ih fits' distinct'
    refine ⟨grown, ?_⟩
    rw [List.foldlM_cons, added]
    exact rest

theorem Machine.sameIff {a b : Machine S} : a == b ↔
    a.tapes = b.tapes ∧ a.alphabet.symbols = b.alphabet.symbols ∧ a.table == b.table := by
  change (decide (a.tapes = b.tapes) && decide (a.alphabet.symbols = b.alphabet.symbols) &&
    (a.table == b.table)) = true ↔ _
  rw [Bool.and_eq_true, Bool.and_eq_true, decide_eq_true_iff, decide_eq_true_iff, and_assoc]

theorem State.numberIff {state : State} {number : Nat} :
    state.number? = some number ↔ state = .ordinary number := by
  cases state <;> simp [State.number?]

omit [Symbol S] [DecidableEq S] in
theorem Table.memStates {table : Table S} {number : Nat} : number ∈ table.states ↔
    ∃ rule ∈ table.rules.toList, rule.state = number ∨ rule.next = .ordinary number := by
  unfold states
  simp only [Ascending.memOfList, List.mem_flatMap, Rule.states, List.mem_cons, Option.mem_toList,
    State.numberIff, eq_comm (a := number)]

theorem stepOfRule {machine : Machine S} {mode : TapeMode} {now : Configuration S} {rule : Rule S}
    (mem : rule ∈ machine.table.rules.toList) (state : now.state = .ordinary rule.state)
    (read : now.symbols = rule.read) :
    machine.step? mode now = some ⟨rule.next, act mode now.tapes rule.write rule.moves⟩ := by
  have found : machine.table.get? rule.state now.symbols = some rule :=
    Table.getIff.mpr ⟨mem, Prod.ext rfl read.symm⟩
  exact stepIff.mpr ⟨rule.state, state, .inl ⟨rule, found, rfl⟩⟩

def ruleless (more : Nat) (alphabet : Alphabet S) : Machine S where
  tapes := more + 1
  alphabet
  table := .empty
  hasTapes := Nat.succ_pos more
  fits := by simp [Table.empty]

def copier : Machine Char where
  tapes := 2
  alphabet := ⟨['a'], by decide⟩
  table := Table.empty.push ⟨0, ['a', '_'], .accept, ['a', 'a'], [.right, .stay]⟩
    (Table.getNoneIff.mpr (by simp [Table.empty]))
  hasTapes := by decide
  fits rule mem := by
    obtain rfl : rule = _ := by simpa [Table.push, Table.empty] using mem
    exact ⟨rfl, rfl, rfl, by simp [Alphabet.memIff, Symbol.blank]⟩

theorem knownCopier : ∀ symbol ∈ ['a'], symbol ∈ copier.alphabet := by
  simp [copier, Alphabet.memIff]

theorem copierAccepts (mode : TapeMode) : copier.step? mode (.start 2 ['a']) =
    some ⟨.accept, act mode (Configuration.start 2 ['a']).tapes ['a', 'a'] [.right, .stay]⟩ := by
  have mem : ⟨0, ['a', '_'], .accept, ['a', 'a'], [.right, .stay]⟩ ∈ copier.table.rules.toList := by
    simp [copier, Table.push, Table.empty]
  exact stepOfRule mem rfl rfl

end Multitape
