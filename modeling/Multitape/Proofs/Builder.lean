import Mathlib.Data.List.Nodup
import Multitape.Proofs.Machine

/-! Machines built in place. A builder keeps the rules it took in, in order, and under each
state and what is read there the place of the rule with that key. A call that is refused has
touched the builder by then. All the same the places stay those of the rules: the builder
shows the machine made of the rules it took in, and answers a call as that machine does. -/
namespace Multitape
variable {S : Type} [Symbol S] [DecidableEq S]

local instance hashableText : Hashable S := ⟨fun symbol => hash (Symbol.text symbol)⟩

structure Builder (S : Type) [Symbol S] [DecidableEq S] where
  tapes : Nat
  alphabet : Alphabet S
  entries : Array (Rule S)
  places : Std.HashMap Nat (Std.HashMap (List S) Nat)

namespace Builder

def start (tapes : Nat) (symbols : List S) : Except DefinitionError (Builder S) :=
  if tapes = 0 then .error .noTapes
  else do
    let alphabet ← Alphabet.ofList symbols
    .ok ⟨tapes, alphabet, #[], ∅⟩

def place? (builder : Builder S) (state : Nat) (read : List S) : Option Nat := do
  (← builder.places[state]?)[read]?

def get? (builder : Builder S) (state : Nat) (read : List S) : Option (Rule S) := do
  builder.entries[← builder.place? state read]?

/-- The places of the state are made if there are none, whatever comes of the rule. -/
def insert (builder : Builder S) (rule : Rule S) : Except DefinitionError Unit × Builder S :=
  let places := builder.places.insertIfNew rule.state ∅
  let ofState := places.getD rule.state ∅
  match ofState[rule.read]? with
  | some place =>
    (.error (.duplicateRule rule.state (Symbol.join rule.read) place), { builder with places })
  | none =>
    (.ok (), { builder with
      entries := builder.entries.push rule
      places := places.insert rule.state (ofState.insert rule.read builder.entries.size) })

def add (builder : Builder S) (rule : Rule S) : Except DefinitionError Unit × Builder S :=
  match Machine.badArity? builder.tapes rule with
  | some found => (.error (.arity builder.tapes found), builder)
  | none =>
    match Machine.foreign? builder.alphabet rule with
    | some symbol => (.error (.unknownSymbol (Symbol.text symbol)), builder)
    | none => builder.insert rule

inductive History (first : Builder S) :
    List (Rule S × Except DefinitionError Unit) → Builder S → Prop where
  | begins : History first [] first
  | more {record builder} (before : History first record builder) (rule : Rule S) :
      History first (record ++ [(rule, (builder.add rule).1)]) (builder.add rule).2

structure Shows (builder : Builder S) (machine : Machine S) : Prop where
  tapes : builder.tapes = machine.tapes
  alphabet : builder.alphabet = machine.alphabet
  entries : builder.entries = machine.table.rules
  places state read : builder.place? state read = machine.table.position? state read

structure Same (builder other : Builder S) : Prop where
  tapes : builder.tapes = other.tapes
  alphabet : builder.alphabet = other.alphabet
  entries : builder.entries = other.entries
  places state read : builder.place? state read = other.place? state read

structure Answers (builder : Builder S) (rules : List (Rule S)) (rule : Rule S) : Prop where
  ok : (builder.add rule).1 = .ok () ↔ rule.Fits builder.tapes builder.alphabet ∧
    ∀ old ∈ rules, old.key ≠ rule.key
  kept fault : (builder.add rule).1 = .error fault → (builder.add rule).2.Same builder
  repeated state read index : (builder.add rule).1 = .error (.duplicateRule state read index) →
    state = rule.state ∧ read = Symbol.join rule.read ∧
      ∃ old, rules[index]? = some old ∧ old.key = rule.key

end Builder

def accepted (record : List (Rule S × Except DefinitionError Unit)) : List (Rule S) :=
  record.filterMap fun call => call.2.toOption.map fun _ => call.1

namespace Builder
variable {builder first : Builder S} {machine : Machine S} {rule : Rule S}
  {state : Nat} {read : List S}

theorem startShows {tapes : Nat} {symbols : List S} {empty : Machine S}
    (made : Machine.empty tapes symbols = .ok empty) :
    ∃ first, start tapes symbols = .ok first ∧ first.Shows empty := by
  unfold Machine.empty at made
  unfold start
  split at made
  · cases made
  · rename_i some
    obtain ⟨alphabet, letters, same⟩ := bindOkIff.mp made
    obtain rfl := Except.ok.inj same
    refine ⟨⟨tapes, alphabet, #[], ∅⟩, ?_, rfl, rfl, rfl, fun state read => ?_⟩
    · rw [if_neg some, letters]
      rfl
    · simp [place?, Table.position?, Table.empty]

theorem placeTouched (builder : Builder S) (touched state : Nat) (read : List S) :
    { builder with places := builder.places.insertIfNew touched ∅ }.place? state read =
      builder.place? state read := by
  simp only [place?, Std.HashMap.getElem?_insertIfNew]
  split
  · rename_i new
    obtain ⟨same, absent⟩ := new
    obtain rfl := eq_of_beq same
    simp [Std.HashMap.getElem?_eq_none absent]
  · rfl

theorem ofStatePlace (builder : Builder S) (state : Nat) (read : List S) :
    ((builder.places.insertIfNew state ∅).getD state ∅)[read]? = builder.place? state read := by
  rw [← placeTouched builder state state read]
  simp only [place?, Std.HashMap.getD_eq_getD_getElem?]
  simp

theorem insertRepeated {place : Nat} (found : builder.place? rule.state rule.read = some place) :
    builder.insert rule = (.error (.duplicateRule rule.state (Symbol.join rule.read) place),
      { builder with places := builder.places.insertIfNew rule.state ∅ }) := by
  rw [← ofStatePlace] at found
  unfold insert
  dsimp only
  rw [found]

theorem insertNew (fresh : builder.place? rule.state rule.read = none) :
    ∃ grown, builder.insert rule = (.ok (), grown) ∧ grown.tapes = builder.tapes ∧
      grown.alphabet = builder.alphabet ∧ grown.entries = builder.entries.push rule ∧
      ∀ state read, grown.place? state read =
        if rule.key = (state, read) then some builder.entries.size
        else builder.place? state read := by
  rw [← ofStatePlace] at fresh
  unfold insert
  dsimp only
  rw [fresh]
  refine ⟨_, rfl, rfl, rfl, rfl, fun state read => ?_⟩
  have touched := placeTouched builder rule.state state read
  unfold place? at touched ⊢
  simp only [Std.HashMap.getElem?_insert, Rule.key, Prod.mk.injEq]
  by_cases here : rule.state = state
  · subst here
    have kept := ofStatePlace builder rule.state read
    unfold place? at kept
    by_cases same : rule.read = read
    · simp [same]
    · simpa [same, Std.HashMap.getElem?_insert] using kept
  · simpa [here] using touched

omit [Symbol S] in
theorem positionPush {table grown : Table S} (pushed : grown.rules = table.rules.push rule)
    (fresh : table.position? rule.state rule.read = none) (state : Nat) (read : List S) :
    grown.position? state read =
      if rule.key = (state, read) then some table.rules.size else table.position? state read := by
  unfold Table.position? at fresh ⊢
  rw [pushed, Array.findIdx?_push]
  by_cases same : rule.key = (state, read)
  · obtain ⟨rfl, rfl⟩ := Prod.mk.inj same
    rw [fresh]
    simp [Rule.key]
  · simp [same]

theorem addShows (shows : builder.Shows machine) (rule : Rule S) :
    (∃ grown later, machine.add rule = .ok grown ∧ builder.add rule = (.ok (), later) ∧
      later.Shows grown) ∨
    ∃ fault later, machine.add rule = .error fault ∧ builder.add rule = (.error fault, later) ∧
      later.Shows machine := by
  have adds := addsOfAdd machine rule
  obtain ⟨tapes, alphabet, entries, places⟩ := shows
  unfold add
  rw [tapes, alphabet]
  generalize machine.add rule = answer at adds
  cases adds with
  | misfit arity =>
    rw [arity]
    exact .inr ⟨_, _, rfl, rfl, tapes, alphabet, entries, places⟩
  | foreign arity foreign =>
    rw [arity, foreign]
    exact .inr ⟨_, _, rfl, rfl, tapes, alphabet, entries, places⟩
  | repeated arity known position found key =>
    rw [arity, known]
    rw [← places] at position
    exact .inr ⟨_, _, rfl, insertRepeated position, tapes, alphabet, entries,
      fun state read => (placeTouched builder _ state read).trans (places state read)⟩
  | grown arity known fresh rules tapes' alphabet' =>
    rw [arity, known]
    have absent := Table.positionNone fresh
    obtain ⟨later, inserted, kept, letters, pushed, found⟩ :=
      insertNew ((places rule.state rule.read).trans absent)
    refine .inl ⟨_, later, rfl, inserted, kept.trans (tapes.trans tapes'.symm),
      letters.trans (alphabet.trans alphabet'.symm), by rw [pushed, rules, entries], ?_⟩
    intro state read
    rw [found, positionPush rules absent, places, entries]

/- Induction on the calls. -/
theorem historyShows {empty : Machine S} {record : List (Rule S × Except DefinitionError Unit)}
    (shows : first.Shows empty) (history : first.History record builder) :
    ∃ machine, (accepted record).foldlM Machine.add empty = .ok machine ∧
      builder.Shows machine := by
  induction history with
  | begins => exact ⟨empty, rfl, shows⟩
  | more before rule ih =>
    obtain ⟨machine, made, shows⟩ := ih
    rw [accepted, List.filterMap_append]
    rcases addShows shows rule with ⟨grown, later, taken, added, shows⟩ |
      ⟨fault, later, refused, added, shows⟩
    · rw [added]
      refine ⟨grown, ?_, shows⟩
      rw [List.foldlM_append]
      exact bindOkIff.mpr ⟨machine, made, bindOkIff.mpr ⟨grown, taken, rfl⟩⟩
    · rw [added]
      refine ⟨machine, ?_, shows⟩
      rw [List.foldlM_append]
      exact bindOkIff.mpr ⟨machine, made, rfl⟩

theorem sameOfShows {other : Builder S} (shows : builder.Shows machine)
    (others : other.Shows machine) : builder.Same other where
  tapes := shows.tapes.trans others.tapes.symm
  alphabet := shows.alphabet.trans others.alphabet.symm
  entries := shows.entries.trans others.entries.symm
  places state read := (shows.places state read).trans (others.places state read).symm

theorem answersShows (shows : builder.Shows machine) (rule : Rule S) :
    builder.Answers machine.table.rules.toList rule := by
  have ok : (∃ grown, machine.add rule = .ok grown) ↔
      rule.Fits machine.tapes machine.alphabet ∧
        ∀ old ∈ machine.table.rules.toList, old.key ≠ rule.key := addOkIff
  rw [← shows.tapes, ← shows.alphabet] at ok
  rcases addShows shows rule with ⟨next, later, taken, added, -⟩ |
    ⟨fault, later, refused, added, same⟩
  · constructor <;> rw [added]
    · exact iff_of_true rfl (ok.mp ⟨next, taken⟩)
    · simp
    · simp
  · constructor <;> rw [added]
    · simp only [reduceCtorEq, false_iff]
      intro fits
      obtain ⟨next, taken⟩ := ok.mpr fits
      rw [refused] at taken
      cases taken
    · exact fun _ _ => sameOfShows same shows
    · intro state read index told
      obtain rfl := Except.error.inj told
      obtain ⟨source, text, old, found, key⟩ := repeatedAt refused
      exact ⟨source, text, old, Array.getElem?_toList.trans found, key⟩

/- No place is one beyond the rules, and what is there is the rule of the machine. -/
theorem getShows (shows : builder.Shows machine) (state : Nat) (read : List S) :
    builder.get? state read = machine.table.get? state read ∧
      (builder.place? state read).isSome = (builder.get? state read).isSome := by
  unfold get?
  rw [shows.places, shows.entries]
  cases found : machine.table.get? state read with
  | none => simp [Table.positionNone found]
  | some rule =>
    obtain ⟨index, position, here⟩ := Table.positionOfGet found
    simp [position, here]

end Builder

structure Table.Lists (table : Table S) (rules : List (Rule S)) : Prop where
  iter : table.rules.toList = rules
  get state read rule : table.get? state read = some rule ↔
    rules.filter (·.key = (state, read)) = [rule]
  leaving state : table.leaving state = rules.filter (·.state = state)
  ascending : table.states.Pairwise (· < ·)
  states number : number ∈ table.states ↔
    ∃ rule ∈ rules, rule.state = number ∨ rule.next = .ordinary number

omit [Symbol S] in
theorem listsRules (table : Table S) : table.Lists table.rules.toList where
  iter := rfl
  get state read rule := by
    rw [Table.getIff]
    constructor
    · rintro ⟨mem, key⟩
      have once := (List.Nodup.of_map _ table.distinct).filter (·.key = (state, read))
      apply List.perm_singleton.mp
      refine (List.perm_ext_iff_of_nodup once (List.nodup_singleton rule)).mpr fun other => ?_
      rw [List.mem_filter, decide_eq_true_iff, List.mem_singleton]
      constructor
      · rintro ⟨mem', key'⟩
        exact Table.eqOfKey mem' mem (key'.trans key.symm)
      · rintro rfl
        exact ⟨mem, key⟩
    · intro one
      have held : rule ∈ table.rules.toList.filter (·.key = (state, read)) := by simp [one]
      obtain ⟨mem, key⟩ := List.mem_filter.mp held
      exact ⟨mem, of_decide_eq_true key⟩
  leaving state := table.indexed state
  ascending := Ascending.pairwiseOfList _
  states _ := Table.memStates

theorem builderKeepsInStep (tapes : Nat) (symbols : List S) (positive : 0 < tapes)
    (distinct : symbols.Nodup) : ∃ first empty, Builder.start tapes symbols = .ok first ∧
      Machine.empty tapes symbols = .ok empty ∧
      ∀ record builder, first.History record builder →
        builder.tapes = tapes ∧ builder.alphabet = ⟨symbols, distinct⟩ ∧
        (∀ rule, builder.Answers (accepted record) rule) ∧
        ∃ machine, (accepted record).foldlM Machine.add empty = .ok machine ∧
          builder.Shows machine ∧ machine.table.Lists (accepted record) ∧
          ∀ state read, builder.get? state read = machine.table.get? state read ∧
            (builder.place? state read).isSome = (builder.get? state read).isSome := by
  obtain ⟨empty, made, count, letters, ruleless⟩ := emptyNodup positive distinct
  obtain ⟨first, started, shown⟩ := Builder.startShows made
  refine ⟨first, empty, started, made, fun record builder history => ?_⟩
  obtain ⟨machine, grown, shows⟩ := Builder.historyShows shown history
  obtain ⟨count', letters', rules⟩ := addAllShape grown
  rw [ruleless, List.nil_append] at rules
  rw [← rules]
  exact ⟨shows.tapes.trans (count'.trans count), shows.alphabet.trans (letters'.trans letters),
    Builder.answersShows shows, machine, rules ▸ grown, shows, listsRules machine.table,
    Builder.getShows shows⟩

/- A rule that is added twice is taken in once, and the second call changes nothing. -/
theorem builderKeepsRepeated : ∃ (rule : Rule Char) (first builder : Builder Char),
    Builder.start 1 ['a'] = .ok first ∧ first.History [(rule, .ok ())] builder ∧
      (builder.add rule).1 ≠ .ok () ∧ (builder.add rule).2.Same builder ∧
      builder.get? rule.state rule.read = some rule := by
  obtain ⟨first, empty, started, made, kept⟩ :=
    builderKeepsInStep 1 ['a'] (by decide) (by decide)
  let rule : Rule Char := ⟨0, ['a'], .accept, ['_'], [.stay]⟩
  obtain ⟨tapes, alphabet, answers, -⟩ := kept [] first .begins
  have fits : rule.Fits first.tapes first.alphabet := by
    rw [tapes, alphabet]
    exact ⟨rfl, rfl, rfl, by simp [rule, Alphabet.memIff, Symbol.blank]⟩
  have taken : (first.add rule).1 = .ok () := (answers rule).ok.mpr ⟨fits, by simp [accepted]⟩
  have history : first.History _ (first.add rule).2 := .more .begins rule
  rw [taken] at history
  obtain ⟨-, -, answers, machine, -, -, lists, found⟩ := kept _ _ history
  have refused : ((first.add rule).2.add rule).1 ≠ .ok () := by
    intro taken
    exact ((answers rule).ok.mp taken).2 rule (by simp [accepted, Except.toOption]) rfl
  refine ⟨rule, first, (first.add rule).2, started, history, refused, ?_, ?_⟩
  · cases answer : ((first.add rule).2.add rule).1 with
    | ok => exact absurd answer refused
    | error fault => exact (answers rule).kept fault answer
  · rw [(found _ _).1, lists.get]
    rfl

end Multitape
