import Multitape.Proofs.Description.Described

/-! The same reading with every field, and every earlier line, looked up by its place. A look-up
past the end has no answer. None is made as long as the width of a rule has not wrapped around;
where it has, a record of that width may end before its target, and no machine is read then. The
lines of the rules so far are kept beside the machine, one for each rule, so that the place of a
rule is that of its line too. -/
namespace Multitape.Description
variable {S : Type} [Symbol S]

abbrev Lookup := ExceptT DescriptionError Option

def look {α : Type} (found : Option α) : Lookup α := ExceptT.lift found

section
variable {α β : Type} {checked : Lookup α} {next : α → Lookup β}

theorem lookUnfailing {found : Option α} {fault : DescriptionError} :
    (look found).run ≠ some (.error fault) := by
  cases found <;> simp [look]

theorem lookupOkIff {value : β} : (checked >>= next).run = some (.ok value) ↔
    ∃ input, checked.run = some (.ok input) ∧ (next input).run = some (.ok value) := by
  rw [ExceptT.run_bind]
  rcases checked.run with - | (fault | input) <;> simp

theorem lookupErrorIff {fault : DescriptionError} :
    (checked >>= next).run = some (.error fault) ↔ checked.run = some (.error fault) ∨
      ∃ input, checked.run = some (.ok input) ∧ (next input).run = some (.error fault) := by
  rw [ExceptT.run_bind]
  rcases checked.run with - | (fault | input) <;> simp

end

def slice? {α : Type} (elements : List α) (first last : Nat) : Option (List α) :=
  if first ≤ last ∧ last ≤ elements.length then some ((elements.take last).drop first) else none

def pairs? {α : Type} : List α → Option (List (α × α))
  | [] => some []
  | [_] => none
  | first :: second :: rest => (pairs? rest).map ((first, second) :: ·)

def headerByPlace (record : Record) : Lookup Header := do
  let line := record.line
  if record.fields.length ≠ 4 then
    throw (.malformedHeader line (.fieldCount record.fields.length))
  else
    let counts ← (record.fields.mapM (readCount line) : Result (List Nat))
    let tapes ← look counts[1]?
    if tapes = 0 then throw (.malformedHeader line .noTapes)
    else return ⟨line, ← look counts[0]?, tapes, ← look counts[2]?, ← look counts[3]?⟩

def readAction (line : Nat) (action : String × String) : Result (S × Direction) := do
  let symbol ← readSymbol line action.1
  let move ← readDirection line action.2
  return (symbol, move)

def ruleByPlace (tapes : Nat) (record : Record) : Lookup (Rule S) := do
  let line := record.line
  let fields := record.fields
  if fields.length % Numeral.countBound ≠ ruleWidth tapes then
    throw (.arity line (ruleWidth tapes) fields.length)
  else
    let state ← readSource line (← look fields[0]?)
    let reads ← look (slice? fields 1 (tapes + 1))
    let read ← (reads.mapM (readSymbol line) : Result (List S))
    let next ← readState line (← look fields[tapes + 1]?)
    let actions ← look ((slice? fields (tapes + 2) fields.length).bind pairs?)
    let acts ← (actions.mapM (readAction line) : Result (List (S × Direction)))
    return { state, read, next, write := acts.map Prod.fst, moves := acts.map Prod.snd }

section
variable [DecidableEq S]

def addByPlace (machine : Machine S) (lines : List Nat) : List Record → Lookup (Machine S)
  | [] => return machine
  | record :: rest => do
    let rule ← ruleByPlace machine.tapes record
    match machine.add rule with
    | .ok larger => addByPlace larger (lines ++ [record.line]) rest
    | .error (.duplicateRule _ _ index) => throw (.duplicateRule record.line (← look lines[index]?))
    | .error cause => throw (.invalid record.line cause)

def machineByPlace : List Record → Lookup (Machine S)
  | [] => throw .missingHeader
  | first :: rest => do
    let header ← headerByPlace first
    match rest with
    | [] => throw .missingAlphabet
    | second :: others =>
      let start ← readAlphabet header second
      let machine ← addByPlace start [] others
      checkCount header .rules header.rules machine.table.rules.size
      checkCount header .states header.states machine.stateCount
      return machine

end

/-- The reading by place gives this result. Under the condition it may have no answer instead,
and then the result is a fault. -/
def Gives {α : Type} (lost : Prop) (checked : Lookup α) (result : Result α) : Prop :=
  checked.run = some result ∨ lost ∧ checked.run = none ∧ ∃ fault, result = .error fault

section
variable {α β : Type} {lost : Prop} {checked : Lookup α} {result : Result α}

theorem givesBind {next : α → Lookup β} {further : α → Result β} (first : Gives lost checked result)
    (later : ∀ value, result = .ok value → Gives lost (next value) (further value)) :
    Gives lost (checked >>= next) (result >>= further) := by
  rcases first with same | ⟨wrapped, none, fault, rfl⟩
  · cases result with
    | error fault =>
      left
      rw [ExceptT.run_bind, same]
      rfl
    | ok value =>
      have rest := later value rfl
      unfold Gives at rest ⊢
      rw [ExceptT.run_bind, same]
      exact rest
  · right
    refine ⟨wrapped, ?_, fault, rfl⟩
    rw [ExceptT.run_bind, none]
    rfl

theorem givesLook {found : Option α} {value : α} {next : α → Lookup β} {result : Result β}
    (here : found = some value) (gives : Gives lost (next value) result) :
    Gives lost (look found >>= next) result := by
  subst here
  exact gives

theorem givesRead (result : Result α) : Gives lost (liftM result) result := .inl rfl

theorem givesWhere {other : Prop} (wider : lost → other) (gives : Gives lost checked result) :
    Gives other checked result :=
  gives.imp_right fun without => without.imp_left wider

theorem givesOk {value : α} (gives : Gives lost checked result) (read : result = .ok value) :
    checked.run = some (.ok value) := by
  rcases gives with same | ⟨-, -, fault, failed⟩
  · rw [same, read]
  · cases failed.symm.trans read

theorem givesSome {other : Result α} (gives : Gives lost checked result)
    (answer : checked.run = some other) : result = other := by
  rcases gives with same | ⟨-, none, -⟩
  · exact Option.some.inj (same.symm.trans answer)
  · cases none.symm.trans answer

theorem givesInRange (gives : Gives lost checked result) (kept : ¬ lost) :
    checked.run = some result :=
  gives.resolve_right fun without => kept without.1

end

theorem headerInRange (record : Record) : headerByPlace record = some (readHeader record) := by
  unfold headerByPlace readHeader
  split
  · rename_i other
    split
    · rename_i states tapes alphabet rules fields
      simp [fields] at other
    · rfl
  · rename_i four
    obtain ⟨states, tapes, alphabet, rules, fields⟩ :=
      List.length_eq_four.mp (Decidable.not_not.mp four)
    simp only [fields, List.mapM_cons, List.mapM_nil]
    cases readCount record.line states with
    | error => rfl
    | ok states =>
      cases readCount record.line tapes with
      | error => rfl
      | ok tapes =>
        cases readCount record.line alphabet with
        | error => rfl
        | ok alphabet =>
          cases readCount record.line rules with
          | error => rfl
          | ok rules =>
            by_cases none : tapes = 0
            · subst none
              rfl
            · exact (if_neg none).trans (congrArg some (if_neg none).symm)

theorem pairsEven {α : Type} {elements : List α} {count : Nat} (even : elements.length = 2 * count) :
    ∃ pairs, pairs? elements = some pairs ∧
      elements = pairs.flatMap fun (first, second) => [first, second] := by
  induction count generalizing elements with
  | zero => exact ⟨[], by simp [List.length_eq_zero_iff.mp even, pairs?]⟩
  | succ count ih =>
    obtain ⟨first, rest, rfl⟩ := List.exists_cons_of_length_pos (by omega : 0 < elements.length)
    rw [List.length_cons] at even
    obtain ⟨second, rest, rfl⟩ := List.exists_cons_of_length_pos (by omega : 0 < rest.length)
    rw [List.length_cons] at even
    obtain ⟨pairs, found, rfl⟩ := ih (by omega : rest.length = 2 * count)
    exact ⟨(first, second) :: pairs, by rw [pairs?, found]; rfl, rfl⟩

theorem readActionPairs (line : Nat) (pairs : List (String × String)) :
    (readActions line (pairs.flatMap fun (first, second) => [first, second]) :
      Result (List S × List Direction)) =
        (pairs.mapM (readAction line)).map fun acts => (acts.map Prod.fst, acts.map Prod.snd) := by
  induction pairs with
  | nil => rfl
  | cons pair pairs ih =>
    simp only [List.flatMap_cons, List.cons_append, List.nil_append, readActions, ih,
      List.mapM_cons, readAction]
    cases readSymbol (S := S) line pair.1 with
    | error => rfl
    | ok symbol =>
      cases readDirection line pair.2 with
      | error => rfl
      | ok move => cases pairs.mapM (readAction (S := S) line) <;> rfl

theorem placesOfParts {tapes : Nat} {reads : List String} (size : reads.length = tapes)
    (source target : String) (actions : List String) :
    slice? (source :: reads ++ target :: actions) 1 (tapes + 1) = some reads ∧
      (source :: reads ++ target :: actions)[tapes + 1]? = some target ∧
      slice? (source :: reads ++ target :: actions) (tapes + 2)
        (source :: reads ++ target :: actions).length = some actions := by
  subst size
  have front : (source :: reads).length = reads.length + 1 := rfl
  have whole : (source :: reads ++ target :: actions).length = reads.length + 2 + actions.length := by
    rw [List.length_append, front, List.length_cons]
    omega
  refine ⟨?_, ?_, ?_⟩
  · unfold slice?
    rw [if_pos ⟨by omega, by omega⟩, ← front, List.take_left]
    rfl
  · rw [← front, List.getElem?_append_right (Nat.le_refl _), Nat.sub_self]
    rfl
  · unfold slice?
    rw [if_pos ⟨by omega, Nat.le_refl _⟩, List.take_length, ← Nat.add_assoc _ 1 1, ← front,
      List.drop_append, List.drop_eq_nil_of_le (by omega), Nat.add_sub_cancel_left]
    rfl

theorem ruleCovered {tapes : Nat} {record : Record}
    (width : record.fields.length % Numeral.countBound = ruleWidth tapes)
    (covered : tapes + 2 ≤ record.fields.length) {lost : Prop} :
    Gives lost (ruleByPlace tapes record) (readRule tapes record : Result (Rule S)) := by
  obtain ⟨line, fields⟩ := record
  obtain ⟨source, reads, target, actions, count, rfl, size, even⟩ := partsOfWidth width covered
  obtain ⟨before, middle, behind⟩ := placesOfParts size source target actions
  obtain ⟨pairs, found, same⟩ := pairsEven even
  have acts := readActionPairs (S := S) line pairs
  rw [← same] at acts
  unfold ruleByPlace
  dsimp only
  rw [if_neg (not_not_intro width), readRuleParts size width, behind, acts]
  refine givesLook rfl (givesBind (givesRead _) fun state _ => ?_)
  refine givesLook before (givesBind (givesRead _) fun read _ => ?_)
  refine givesLook middle (givesBind (givesRead _) fun next _ => givesLook found ?_)
  cases pairs.mapM (readAction (S := S) line) <;> exact .inl rfl

/- Behind the source nothing of a record is read that is too short. By its parity it is at least two
fields too short, so not even the symbols are there. -/
theorem ruleShort {tapes : Nat} {record : Record}
    (width : record.fields.length % Numeral.countBound = ruleWidth tapes)
    (short : record.fields.length < tapes + 2) {lost : Prop} (wrapped : lost) :
    Gives lost (ruleByPlace tapes record) (readRule tapes record : Result (Rule S)) := by
  obtain ⟨line, fields⟩ := record
  unfold ruleByPlace readRule
  dsimp only at width short ⊢
  rw [if_neg (not_not_intro width), if_neg (not_not_intro width)]
  cases fields with
  | nil => exact .inr ⟨wrapped, rfl, _, rfl⟩
  | cons source fields =>
    refine givesLook rfl (givesBind (givesRead _) fun state _ => ?_)
    have shorter : (source :: fields).length < tapes + 1 := by
      simp only [ruleWidth, Numeral.countBound, Nat.pow_eq, Nat.reducePow] at width
      omega
    have without : slice? (source :: fields) 1 (tapes + 1) = none := if_neg (by omega)
    rw [without, List.drop_eq_nil_of_le (by rw [List.length_cons] at shorter; omega)]
    exact .inr ⟨wrapped, rfl, _, rfl⟩

theorem ruleGives (tapes : Nat) (record : Record) : Gives (Numeral.countBound ≤ 2 + 3 * tapes)
    (ruleByPlace tapes record) (readRule tapes record : Result (Rule S)) := by
  by_cases width : record.fields.length % Numeral.countBound = ruleWidth tapes
  · by_cases covered : tapes + 2 ≤ record.fields.length
    · exact ruleCovered width covered
    · refine ruleShort width (Nat.lt_of_not_le covered) ?_
      by_contra small
      rw [ruleWidth, Nat.mod_eq_of_lt (by omega), Nat.mod_eq_of_lt (by omega)] at width
      omega
  · left
    unfold ruleByPlace readRule
    dsimp only
    rw [if_pos width, if_pos width]
    rfl

/- The width of this many tapes has wrapped around to four fields. The source is read first. -/
example : (ruleByPlace 6148914691236517206 ⟨3, ["x", "a", "a", "N"]⟩ : Lookup (Rule Char)).run =
      some (.error (.invalidState 3 "x")) ∧
    (ruleByPlace 6148914691236517206 ⟨3, ["0", "a", "a", "N"]⟩ : Lookup (Rule Char)).run = none :=
  ⟨rfl, rfl⟩

variable [DecidableEq S]

/- Induction on the records. The lines so far are as many as the rules so far. -/
theorem rulesGive {machine : Machine S} {lines : List Nat} {records : List Record}
    (aligned : lines.length = machine.table.rules.size) :
    Gives (Numeral.countBound ≤ 2 + 3 * machine.tapes) (addByPlace machine lines records)
      (addRules (lines ++ records.map Record.line) machine records) := by
  induction records generalizing machine lines with
  | nil => exact .inl rfl
  | cons record records ih =>
    unfold addByPlace addRules
    refine givesBind (ruleGives _ record) fun rule _ => ?_
    cases added : machine.add rule with
    | ok larger =>
      obtain ⟨tapes, -, pushed⟩ := addShape added
      have grown : (lines ++ [record.line]).length = larger.table.rules.size := by
        rw [pushed, Array.size_push, ← aligned, List.length_append]
        rfl
      have rest := ih grown
      rwa [tapes, List.append_assoc] at rest
    | error cause =>
      cases cause with
      | duplicateRule state read index =>
        obtain ⟨-, -, old, found, -⟩ := repeatedAt added
        have below : index < lines.length := aligned ▸ (Array.getElem?_eq_some_iff.mp found).1
        have line : (lines ++ (record :: records).map Record.line).getD index record.line =
            lines[index] := by
          simp [List.getElem?_append_left below, List.getElem?_eq_getElem below]
        refine givesLook (List.getElem?_eq_getElem below) (.inl ?_)
        simp only [line]
        rfl
      | _ => exact .inl rfl

/-- So many tapes are declared that the width of a rule has wrapped around. -/
def Overflows (found : List Record) : Prop :=
  ∃ header ∈ found.head?, ∃ tapes,
    header.fields[1]?.bind (Numeral.read? Numeral.countBound) = some tapes ∧
      Numeral.countBound ≤ 2 + 3 * tapes

theorem machineGives (found : List Record) :
    Gives (Overflows found) (machineByPlace found) (machineOf found : Result (Machine S)) := by
  match found with
  | [] => exact .inl rfl
  | first :: rest =>
    refine givesBind (.inl (headerInRange first)) fun header counts => ?_
    cases rest with
    | nil => exact .inl rfl
    | cons second others =>
      refine givesBind (givesRead _) fun start letters => ?_
      obtain ⟨symbols, -, built, -⟩ := readAlphabetIff.mp letters
      obtain ⟨tapes, -, none⟩ := emptyShape built
      have aligned : ([] : List Nat).length = start.table.rules.size := by
        rw [none]
        rfl
      have rules : Gives _ (addByPlace start [] others) _ := rulesGive aligned
      rw [tapes] at rules
      refine givesBind (givesWhere ?_ rules) fun machine _ => givesBind (givesRead _) fun _ _ =>
        givesBind (givesRead _) fun _ _ => .inl rfl
      exact fun wrapped => ⟨first, rfl, header.tapes, tapesCounted counts, wrapped⟩

theorem describedExactly (found : List Record) :
    (∀ tapes (symbols : List S) rules,
      (∃ header alphabet others, found = header :: alphabet :: others ∧
        Describes header alphabet others tapes symbols rules) ↔
      ∃ machine, machineOf found = .ok machine ∧ machine.tapes = tapes ∧
        machine.alphabet.symbols = symbols ∧ machine.table.rules.toList = rules) ∧
    (¬ Overflows found →
      (machineByPlace found : Lookup (Machine S)).run = some (machineOf found)) ∧
    (∀ machine : Machine S, machineOf found = .ok machine →
      (machineByPlace found).run = some (.ok machine)) ∧
    (∀ result, (machineByPlace found : Lookup (Machine S)).run = some result →
      machineOf found = result) ∧
    ∀ text, records text = .ok found →
      (Machine.ofText text : Except DescriptionError (Machine S)) = machineOf found := by
  have gives : Gives (Overflows found) (machineByPlace found) (machineOf found : Result (Machine S)) :=
    machineGives found
  refine ⟨fun tapes symbols rules => ⟨?_, ?_⟩, givesInRange gives, fun machine => givesOk gives,
    fun result => givesSome gives, ?_⟩
  · rintro ⟨header, alphabet, others, rfl, describes⟩
    exact machineOfDescribed describes
  · rintro ⟨machine, made, rfl, rfl, rfl⟩
    exact describedOfMachine made
  · intro text split
    exact ofTextRead split

theorem describedStampExactly : ∃ machine : Machine Char,
    Machine.ofText "1 2 2 1\n_,a\n0,_,_,h,a,N,_,N\n" = .ok machine ∧ machine.tapes = 2 ∧
    machine.alphabet.symbols = ['_', 'a'] ∧
    machine.table.rules.toList = [⟨0, ['_', '_'], .halt, ['a', '_'], [.stay, .stay]⟩] := by
  let header : Record := ⟨1, ["1", "2", "2", "1"]⟩
  let alphabet : Record := ⟨2, ["_", "a"]⟩
  let line : Record := ⟨3, ["0", "_", "_", "h", "a", "N", "_", "N"]⟩
  let rule : Rule Char := ⟨0, ['_', '_'], .halt, ['a', '_'], [.stay, .stay]⟩
  have spells : Spells 2 line.fields rule := {
    width := rfl
    source := by decide
    reads := rfl
    read := by decide
    next := by decide
    writes := rfl
    write := by decide
    turns := rfl
    moves := by decide }
  have describes : Describes header alphabet [line] 2 ['_', 'a'] [rule] := {
    counts := by decide
    positive := by decide
    letters := by decide
    distinct := by decide
    spelled := .cons spells .nil
    known := by simp [rule, Symbol.blank]
    keys := List.nodup_singleton _ }
  have split : records "1 2 2 1\n_,a\n0,_,_,h,a,N,_,N\n" = .ok [header, alphabet, line] := by decide
  obtain ⟨exact, -, -, -, read⟩ := describedExactly (S := Char) [header, alphabet, line]
  obtain ⟨machine, made, parts⟩ := (exact 2 ['_', 'a'] [rule]).mp ⟨_, _, _, rfl, describes⟩
  exact ⟨machine, (read _ split).trans made, parts⟩

end Multitape.Description
