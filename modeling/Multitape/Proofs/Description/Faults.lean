import Multitape.Proofs.Description.Progress

/-! Faults of a description. A record is judged by itself and by those before it, so its fault is
that of every text that starts with the same records, whatever comes behind. The fault names the
line of the record, and a repeated rule also the line of the one that it repeats. -/
namespace Multitape
namespace Description

/-- The faults of a record on this line as such, below a header on that one. Only a wrong number
of symbols is the header's. -/
inductive Spoils (header line : Nat) : DescriptionError → Prop where
  | malformedHeader (fault : HeaderFault) : Spoils header line (.malformedHeader line fault)
  | invalidSymbol (field : String) : Spoils header line (.invalidSymbol line field)
  | invalidDirection (field : String) : Spoils header line (.invalidDirection line field)
  | invalidState (field : String) : Spoils header line (.invalidState line field)
  | terminalSource (state : State) : Spoils header line (.terminalSource line state)
  | arity (expected found : Nat) : Spoils header line (.arity line expected found)
  | invalid (cause : DefinitionError) : Spoils header line (.invalid line cause)
  | alphabetSize (declared found : Nat) :
      Spoils header line (.countMismatch header .alphabet declared found)

inductive Blames (header line : Nat) : DescriptionError → Prop where
  | spoils {fault : DescriptionError} (spoils : Spoils header line fault) : Blames header line fault
  | duplicateRule (previous : Nat) : Blames header line (.duplicateRule line previous)

def FailsAs {α : Type} (faults : DescriptionError → Prop) (result : Result α) : Prop :=
  ∀ fault, result = .error fault → faults fault

section
variable {α β : Type} {faults : DescriptionError → Prop}

theorem failsOk {value : α} : FailsAs faults (.ok value) := by
  intro fault failed
  cases failed

theorem failsError {fault : DescriptionError} (holds : faults fault) :
    FailsAs faults (.error fault : Result α) := by
  intro other failed
  cases failed
  exact holds

theorem failsBind {value : Result α} {next : α → Result β} (first : FailsAs faults value)
    (later : ∀ input, FailsAs faults (next input)) : FailsAs faults (value >>= next) := by
  intro fault failed
  obtain here | ⟨input, -, there⟩ := bindErrorIff.mp failed
  · exact first fault here
  · exact later input fault there

end

section
variable {header line : Nat}

theorem failsHeader (record : Record) : FailsAs (Spoils header record.line) (readHeader record) := by
  have count : ∀ field, FailsAs (Spoils header record.line) (readCount record.line field) := by
    intro field
    unfold readCount
    split
    · exact failsOk
    · exact failsError (.malformedHeader _)
  unfold readHeader
  split
  · refine failsBind (count _) fun _ => failsBind (count _) fun _ => failsBind (count _) fun _ =>
      failsBind (count _) fun _ => ?_
    split
    · exact failsError (.malformedHeader _)
    · exact failsOk
  · exact failsError (.malformedHeader _)

theorem failsState (field : String) : FailsAs (Spoils header line) (readState line field) := by
  unfold readState
  split
  · exact failsOk
  · exact failsError (.invalidState field)

theorem failsSource (field : String) : FailsAs (Spoils header line) (readSource line field) := by
  refine failsBind (failsState field) fun state => ?_
  split
  · exact failsOk
  · exact failsError (.terminalSource _)

theorem failsDirection (field : String) : FailsAs (Spoils header line) (readDirection line field) := by
  unfold readDirection
  split
  · exact failsOk
  · exact failsError (.invalidDirection field)

variable {S : Type} [Symbol S]

theorem failsSymbol (field : String) :
    FailsAs (Spoils header line) (readSymbol line field : Result S) := by
  unfold readSymbol
  split
  · exact failsOk
  · exact failsError (.invalidSymbol field)

theorem failsSymbols (fields : List String) :
    FailsAs (Spoils header line) (fields.mapM (readSymbol line) : Result (List S)) := by
  induction fields with
  | nil => exact failsOk
  | cons field fields ih =>
    rw [List.mapM_cons]
    exact failsBind (failsSymbol field) fun _ => failsBind ih fun _ => failsOk

theorem failsActions (fields : List String) :
    FailsAs (Spoils header line) (readActions line fields : Result (List S × List Direction)) := by
  fun_induction readActions (S := S) line fields with
  | case1 symbol move rest ih =>
    exact failsBind (failsSymbol symbol) fun _ => failsBind (failsDirection move) fun _ =>
      failsBind ih fun _ => failsOk
  | case2 => exact failsOk

theorem failsRule (tapes : Nat) (record : Record) :
    FailsAs (Spoils header record.line) (readRule tapes record : Result (Rule S)) := by
  unfold readRule
  dsimp only
  split
  · exact failsError (.arity _ _)
  · split
    · exact failsError (.arity _ _)
    · rename_i source fields _
      refine failsBind (failsSource source) fun _ => ?_
      split
      · exact failsError (.arity _ _)
      · rename_i target actions _
        exact failsBind (failsSymbols _) fun _ => failsBind (failsState target) fun _ =>
          failsBind (failsActions actions) fun _ => failsOk

end

section
variable {S : Type} [Symbol S] [DecidableEq S]

theorem failsAlphabet (header : Header) (record : Record) :
    FailsAs (Spoils header.line record.line) (readAlphabet header record : Result (Machine S)) := by
  refine failsBind (failsSymbols _) fun symbols => failsBind ?_ fun machine =>
    failsBind ?_ fun _ => failsOk
  · cases Machine.empty header.tapes symbols with
    | error cause => exact failsError (.invalid cause)
    | ok machine => exact failsOk
  · unfold checkCount
    split
    · exact failsOk
    · exact failsError (.alphabetSize _ _)

omit [Symbol S] [DecidableEq S] in
theorem firstExists (done : List Record) (record : Record) :
    ∃ first, (done ++ [record]).head? = some first := by
  cases done <;> exact ⟨_, rfl⟩

/- No rule is repeated before there are any. The record is the header itself if there is none
before it. -/
theorem failsEarly {done : List Record} {record first : Record} {progress : Progress S}
    (reads : Reads done progress) (start : (done ++ [record]).head? = some first)
    (early : ∀ header machine lines, progress ≠ .building header machine lines)
    {fault : DescriptionError} (failed : (progress.next record).run = some (.error fault)) :
    Spoils first.line record.line fault := by
  cases reads with
  | started =>
    obtain here | ⟨_, -, failed⟩ := lookupErrorIff.mp failed
    · rw [headerInRange] at here
      exact failsHeader record fault (Option.some.inj here)
    · cases failed
  | @counted _ header counts =>
    cases start
    rw [← (readHeaderIff.mp counts).1]
    obtain here | ⟨_, -, failed⟩ := lookupErrorIff.mp failed
    · exact failsAlphabet header record fault (Option.some.inj here)
    · cases failed
  | building => exact absurd rfl (early _ _ _)

theorem failsNext {done : List Record} {record first : Record} {progress : Progress S}
    (reads : Reads done progress) (start : (done ++ [record]).head? = some first)
    {fault : DescriptionError} (failed : (progress.next record).run = some (.error fault)) :
    Blames first.line record.line fault := by
  cases progress with
  | building header machine lines =>
    obtain here | ⟨rule, -, refused⟩ := lookupErrorIff.mp failed
    · exact .spoils (failsRule _ record fault (givesSome (ruleGives _ _) here))
    · split at refused
      · cases refused
      · obtain missing | ⟨line, -, refused⟩ := lookupErrorIff.mp refused
        · exact absurd missing lookUnfailing
        · cases refused
          exact .duplicateRule line
      · cases refused
        exact .spoils (.invalid _)
  | _ => exact .spoils (failsEarly reads start (by simp) failed)

omit [DecidableEq S] in
/- What is found out at the end is blamed on no record. -/
theorem closeUnblamed {progress : Progress S} {fault : DescriptionError} {header line : Nat}
    (failed : progress.close = .error fault) : ¬ Blames header line fault := by
  have mismatch : ∀ {count : Count} {counts : Header} {declared found : Nat}, count ≠ .alphabet →
      checkCount counts count declared found = .error fault → ¬ Blames header line fault := by
    intro count counts declared found other failed blames
    unfold checkCount at failed
    split at failed
    · cases failed
    · cases failed
      cases blames with
      | spoils spoils =>
        cases spoils
        exact other rfl
  cases progress with
  | started =>
    cases failed
    intro blames
    cases blames with
    | spoils spoils => cases spoils
  | counted =>
    cases failed
    intro blames
    cases blames with
    | spoils spoils => cases spoils
  | building counts machine lines =>
    obtain rules | ⟨_, -, failed⟩ := bindErrorIff.mp failed
    · exact mismatch (by decide) rules
    · obtain states | ⟨_, -, failed⟩ := bindErrorIff.mp failed
      · exact mismatch (by decide) states
      · cases failed

end

section
variable {α β : Type} {step : β → α → Lookup β} {start : β} {fault : DescriptionError}

/- Induction on the items; the one that fails is the first one or one of the others. -/
theorem foldFailsIff {items : List α} : (items.foldlM step start).run = some (.error fault) ↔
    ∃ done item rest state, items = done ++ item :: rest ∧
      (done.foldlM step start).run = some (.ok state) ∧
      (step state item).run = some (.error fault) := by
  constructor
  · intro failed
    induction items generalizing start with
    | nil => cases failed
    | cons first items ih =>
      rw [List.foldlM_cons] at failed
      obtain here | ⟨next, one, later⟩ := lookupErrorIff.mp failed
      · exact ⟨[], first, items, start, rfl, rfl, here⟩
      · obtain ⟨done, item, rest, state, rfl, folded, failed⟩ := ih later
        refine ⟨first :: done, item, rest, state, rfl, ?_, failed⟩
        rw [List.foldlM_cons]
        exact lookupOkIff.mpr ⟨next, one, folded⟩
  · rintro ⟨done, item, rest, state, rfl, folded, failed⟩
    rw [List.foldlM_append]
    refine lookupErrorIff.mpr (.inr ⟨state, folded, ?_⟩)
    rw [List.foldlM_cons]
    exact lookupErrorIff.mpr (.inl failed)

end

section
variable (S : Type) [Symbol S] [DecidableEq S]

/-- With these records read, the next one is at fault. -/
def FailsOn (done : List Record) (record : Record) (fault : DescriptionError) : Prop :=
  ∃ progress : Progress S, (done.foldlM Progress.next .started).run = some (.ok progress) ∧
    (progress.next record).run = some (.error fault)

def keyOf? (tapes : Nat) (record : Record) : Option (Nat × List S) :=
  (readRule tapes record : Result (Rule S)).toOption.map Rule.key

/-- A record repeats the key of an earlier one and of no other, and none of those before it
repeats any. -/
structure Repeats (tapes : Nat) (before : List Record) (earlier again : Record) : Prop where
  rules : ∀ record ∈ before, (keyOf? S tapes record).isSome
  distinct : (before.map (keyOf? S tapes)).Nodup
  mem : earlier ∈ before
  key : ∃ key, keyOf? S tapes earlier = some key ∧ keyOf? S tapes again = some key
  only : ∀ other ∈ before, keyOf? S tapes other = keyOf? S tapes again → other = earlier

end

variable {S : Type} [Symbol S] [DecidableEq S]

theorem failsWhole {done : List Record} {record : Record} {fault : DescriptionError}
    (fails : FailsOn S done record fault) (rest : List Record) :
    (machineByPlace (done ++ record :: rest) : Lookup (Machine S)).run = some (.error fault) := by
  obtain ⟨progress, folded, failed⟩ := fails
  rw [machineByRecord]
  refine lookupErrorIff.mpr (.inl ?_)
  exact foldFailsIff.mpr ⟨done, record, rest, progress, rfl, folded, failed⟩

theorem failsBlames {done : List Record} {record : Record} {fault : DescriptionError}
    (fails : FailsOn S done record fault) :
    ∃ first, (done ++ [record]).head? = some first ∧ Blames first.line record.line fault := by
  obtain ⟨progress, folded, failed⟩ := fails
  obtain ⟨first, start⟩ := firstExists done record
  exact ⟨first, start, failsNext (readsAll .started folded) start failed⟩

theorem blamedIff {found : List Record} {fault : DescriptionError} :
    (machineByPlace found : Lookup (Machine S)).run = some (.error fault) ∧
        (∃ header line, Blames header line fault) ↔
      ∃ done record rest, found = done ++ record :: rest ∧ FailsOn S done record fault := by
  constructor
  · intro ⟨failed, header, line, blamed⟩
    rw [machineByRecord] at failed
    obtain here | ⟨last, -, closed⟩ := lookupErrorIff.mp failed
    · obtain ⟨done, record, rest, progress, same, fails⟩ := foldFailsIff.mp here
      exact ⟨done, record, rest, same, progress, fails⟩
    · exact absurd blamed (closeUnblamed (Option.some.inj closed))
  · intro ⟨done, record, rest, same, fails⟩
    obtain ⟨first, -, blamed⟩ := failsBlames fails
    rw [same]
    exact ⟨failsWhole fails rest, _, _, blamed⟩

omit [DecidableEq S] in
theorem recordAt {tapes index : Nat} {records : List Record} {rules : Array (Rule S)} {rule : Rule S}
    (read : records.map (readRule tapes) = rules.toList.map .ok) (place : rules[index]? = some rule) :
    ∃ record, records[index]? = some record ∧ readRule tapes record = .ok rule := by
  have both := congrArg (·[index]?) read
  simpa only [List.getElem?_map, Array.getElem?_toList, place, Option.map_some,
    Option.map_eq_some_iff] using both

omit [DecidableEq S] in
theorem keysRead {tapes : Nat} {records : List Record} {rules : List (Rule S)}
    (read : records.map (readRule tapes) = rules.map .ok) :
    records.map (keyOf? S tapes) = (rules.map Rule.key).map some := by
  have keys := congrArg (List.map fun result => result.toOption.map Rule.key) read
  rw [List.map_map, List.map_map] at keys
  rw [List.map_map]
  exact keys

omit [DecidableEq S] in
theorem repeatsOfKeys {tapes : Nat} {before : List Record} {rules : List (Rule S)}
    {earlier again : Record} {key : Nat × List S}
    (keys : before.map (keyOf? S tapes) = (rules.map Rule.key).map some)
    (unique : (rules.map Rule.key).Nodup) (mem : earlier ∈ before)
    (here : keyOf? S tapes earlier = some key) (there : keyOf? S tapes again = some key) :
    Repeats S tapes before earlier again := by
  have distinct : (before.map (keyOf? S tapes)).Nodup := by
    rw [keys]
    exact unique.map (Option.some_injective _)
  exact {
    rules := by
      intro record mem
      have known := List.mem_map_of_mem (f := keyOf? S tapes) mem
      rw [keys] at known
      obtain ⟨_, -, known⟩ := List.mem_map.mp known
      rw [← known]
      rfl
    distinct
    mem
    key := ⟨key, here, there⟩
    only other mem' same :=
      List.inj_on_of_nodup_map distinct mem' mem (same.trans (there.trans here.symm)) }

/- The lines stand beside the rules, so the place of a rule in the table is that of its line. -/
theorem repeatsEarlier {done : List Record} {record : Record} {line previous : Nat}
    (fails : FailsOn S done record (.duplicateRule line previous)) : line = record.line ∧
      ∃ header alphabet before tapes earlier, done = header :: alphabet :: before ∧
        header.fields[1]?.bind (Numeral.read? Numeral.countBound) = some tapes ∧
        Repeats S tapes before earlier record ∧ previous = earlier.line := by
  obtain ⟨progress, folded, failed⟩ := fails
  have reads := readsAll .started folded
  rw [List.nil_append] at reads
  obtain ⟨header, machine, lines, rfl⟩ : ∃ header machine lines,
      progress = .building header machine lines := by
    by_contra early
    obtain ⟨first, start⟩ := firstExists done record
    cases failsEarly reads start (by simpa using early) failed
  cases reads with
  | @building first second others _ _ counts tapes rules =>
    obtain here | ⟨rule, found, refused⟩ := lookupErrorIff.mp failed
    · have spoilt : Spoils first.line record.line _ :=
        failsRule machine.tapes record _ (givesSome (ruleGives _ _) here)
      cases spoilt
    · have read := givesSome (ruleGives _ _) found
      split at refused
      · cases refused
      · rename_i state symbols index again
        obtain missing | ⟨line, there, refused⟩ := lookupErrorIff.mp refused
        · exact absurd missing lookUnfailing
        cases refused
        obtain ⟨-, -, old, place, key⟩ := repeatedAt again
        obtain ⟨earlier, here, spelled⟩ := recordAt rules place
        refine ⟨rfl, first, second, others, header.tapes, earlier, rfl, tapesCounted counts, ?_, ?_⟩
        · apply repeatsOfKeys (keysRead rules) machine.table.distinct (List.mem_of_getElem? here)
          · rw [keyOf?, spelled]
            exact congrArg some key
          · rw [keyOf?, ← tapes, read]
            rfl
        · rw [List.getElem?_map, here] at there
          cases there
          rfl
      · cases refused

end Description

open Description

variable {S : Type} [Symbol S] [DecidableEq S]

theorem faultsOfPrefix :
    (∀ (text : String) (found : List Record), records text = .ok found →
      (¬ Overflows found → (machineByPlace found : Lookup (Machine S)).run =
        some (Machine.ofText text)) ∧
      (∀ result, (machineByPlace found : Lookup (Machine S)).run = some result →
        Machine.ofText text = result) ∧
      ∀ fault, (machineByPlace found : Lookup (Machine S)).run = some (.error fault) ∧
          (∃ header line, Blames header line fault) ↔
        ∃ done record rest, found = done ++ record :: rest ∧ FailsOn S done record fault) ∧
    ∀ (done : List Record) (record : Record) (fault : DescriptionError), FailsOn S done record fault →
      (∀ text rest, records text = .ok (done ++ record :: rest) →
        (machineByPlace (done ++ record :: rest) : Lookup (Machine S)).run = some (.error fault) ∧
        (Machine.ofText text : Except DescriptionError (Machine S)) = .error fault) ∧
      (∃ first, (done ++ [record]).head? = some first ∧ Blames first.line record.line fault) ∧
      ∀ line previous, fault = .duplicateRule line previous → line = record.line ∧
        ∃ header alphabet before tapes earlier, done = header :: alphabet :: before ∧
          header.fields[1]?.bind (Numeral.read? Numeral.countBound) = some tapes ∧
          Repeats S tapes before earlier record ∧ previous = earlier.line := by
  have gives (found : List Record) : Gives (Overflows found) (machineByPlace found)
    (machineOf found : Result (Machine S)) := machineGives found
  refine ⟨fun text found split => ?_, fun done record fault fails => ⟨?_, failsBlames fails, ?_⟩⟩
  · rw [ofTextRead split]
    exact ⟨givesInRange (gives found), fun result => givesSome (gives found), fun fault => blamedIff⟩
  · intro text rest split
    have failed := failsWhole fails rest
    rw [ofTextRead split]
    exact ⟨failed, givesSome (gives _) failed⟩
  · intro line previous same
    rw [same] at fails
    exact repeatsEarlier fails

/- The same fault with nothing behind the record and with a line that is no rule at all. -/
theorem faultsOfPrefixRepeated :
    (Machine.ofText "1 1 1 2\na\n# first\n0,a,y,a,N\n0,a,n,a,N\n" :
        Except DescriptionError (Machine Char)) = .error (.duplicateRule 5 4) ∧
      (Machine.ofText "1,1,1,2\na\n\n0,a,y,a,N\n0,a,n,a,N\nb,b\n" :
        Except DescriptionError (Machine Char)) = .error (.duplicateRule 5 4) ∧
      Blames 1 5 (.duplicateRule 5 4) ∧
      Repeats Char 1 [⟨4, ["0", "a", "y", "a", "N"]⟩] ⟨4, ["0", "a", "y", "a", "N"]⟩
        ⟨5, ["0", "a", "n", "a", "N"]⟩ := by
  let done : List Record :=
    [⟨1, ["1", "1", "1", "2"]⟩, ⟨2, ["a"]⟩, ⟨4, ["0", "a", "y", "a", "N"]⟩]
  let again : Record := ⟨5, ["0", "a", "n", "a", "N"]⟩
  let first : Rule Char := ⟨0, ['a'], .accept, ['a'], [.stay]⟩
  let second : Rule Char := ⟨0, ['a'], .reject, ['a'], [.stay]⟩
  have split : records "1 1 1 2\na\n# first\n0,a,y,a,N\n0,a,n,a,N\n" = .ok (done ++ [again]) := by
    decide
  have split' : records "1,1,1,2\na\n\n0,a,y,a,N\n0,a,n,a,N\nb,b\n" =
      .ok (done ++ again :: [⟨6, ["b", "b"]⟩]) := by decide
  have fails : FailsOn Char done again (.duplicateRule 5 4) := by
    let start := ruleless 0 (S := Char) ⟨['a'], by decide⟩
    have known : ∀ symbol ∈ ['a', 'a'], symbol ∈ start.alphabet := by
      simp [start, ruleless, Alphabet.memIff]
    obtain ⟨machine, added⟩ : ∃ machine, start.add first = .ok machine :=
      addOkIff.mpr ⟨⟨rfl, rfl, rfl, known⟩, by simp [start, ruleless, Table.empty]⟩
    obtain ⟨tapes, alphabet, rules⟩ := addShape added
    obtain ⟨index, place, refused⟩ : ∃ index, machine.table.rules[index]? = some first ∧
        machine.add second = .error (.duplicateRule 0 "a" index) := by
      refine addRepeated ⟨tapes.symm, tapes.symm, tapes.symm, ?_⟩ ?_ rfl
      · rwa [alphabet]
      · rw [rules]
        exact List.mem_singleton_self first
    have only : index = 0 := by
      rw [rules] at place
      exact Nat.lt_one_iff.mp (Array.getElem?_eq_some_iff.mp place).1
    have third : (Progress.next (.building ⟨1, 1, 1, 1, 2⟩ start [])
        ⟨4, ["0", "a", "y", "a", "N"]⟩).run = some (.ok (.building ⟨1, 1, 1, 1, 2⟩ machine [4])) :=
      lookupOkIff.mpr ⟨first, rfl, by rw [added]; rfl⟩
    have fourth : (ruleByPlace machine.tapes again).run = some (.ok second) := by
      rw [tapes]
      rfl
    refine ⟨.building ⟨1, 1, 1, 1, 2⟩ machine [4], ?_,
      lookupErrorIff.mpr (.inr ⟨second, fourth, ?_⟩)⟩
    · exact lookupOkIff.mpr ⟨_, rfl, lookupOkIff.mpr ⟨_, rfl, lookupOkIff.mpr ⟨_, third, rfl⟩⟩⟩
    · rw [refused, only]
      rfl
  obtain ⟨-, answers, blamed⟩ := (faultsOfPrefix (S := Char)).1 _ _ split
  obtain ⟨failed, -⟩ := (blamed _).mpr ⟨done, again, [], rfl, fails⟩
  obtain ⟨others, ⟨header, start, blames⟩, repeated⟩ := faultsOfPrefix.2 done again _ fails
  cases start
  refine ⟨answers _ failed, (others _ _ split').2, blames, ?_⟩
  obtain ⟨-, _, _, _, tapes, earlier, same, counted, repeats, -⟩ := repeated 5 4 rfl
  simp only [done, List.cons.injEq] at same
  obtain ⟨rfl, rfl, rfl⟩ := same
  obtain rfl : 1 = tapes := Option.some.inj counted
  obtain rfl := List.mem_singleton.mp repeats.mem
  exact repeats

end Multitape
