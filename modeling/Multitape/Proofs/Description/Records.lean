import Multitape.Proofs.Description.Reading

/-! Rows of fields that are written one to a line, joined by commas or spaces, are in the
format, and they come back as records with these fields. A row whose first field starts with
`#` is the exception: it reads as a comment and is lost. -/
namespace Multitape.Description

def opensComment (text : String) : Bool := text.toList.head? = some '#'

def commented (fields : List String) : Bool := fields.head?.any opensComment

def row (isHeader : Bool) (fields : List String) : String :=
  (if isHeader then " " else ",").intercalate fields

def kept (number : Nat) : List (List String) → List Record
  | [] => []
  | fields :: rest =>
    if commented fields then kept (number + 1) rest
    else ⟨number, fields⟩ :: kept (number + 1) rest

def marked (isHeader : Bool) (fields : List String) : List (List Char × List Char) :=
  fields.map fun field => ([if isHeader then ' ' else ','], field.toList)

theorem joinedMarked (isHeader : Bool) (first : String) (rest : List String) :
    (row isHeader (first :: rest)).toList = first.toList ++ spread (marked isHeader rest) := by
  have single : (if isHeader then " " else ",").toList = [if isHeader then ' ' else ','] := by
    cases isHeader <;> rfl
  rw [row, String.toList_intercalate, single, List.map_cons]
  induction rest generalizing first with
  | nil => simp [marked, spread]
  | cons second rest ih =>
    rw [List.map_cons, List.intercalate_cons_cons, ih second]
    simp [marked, spread]

section
variable {isHeader : Bool} {first : String} {fields : List String}

theorem spreadMarked (plain : ∀ field ∈ fields, Plain field.toList) :
    Spread isHeader (marked isHeader fields) := by
  intro pair mem
  obtain ⟨field, here, rfl⟩ := List.mem_map.mp mem
  refine ⟨?_, plain field here⟩
  cases isHeader with
  | true => exact .blanks (by simp) (by simp [Blanks])
  | false =>
    have gap : Gap false ([] ++ ',' :: []) := .comma blanksNil blanksNil
    exact gap

theorem unbrokenRow (isHeader : Bool) (plain : ∀ field ∈ fields, Plain field.toList) :
    Unbroken (row isHeader fields).toList := by
  cases fields with
  | nil => simp [Unbroken, row]
  | cons first rest =>
    rw [joinedMarked]
    intro c mem
    rcases List.mem_append.mp mem with mem | mem
    · exact (plain first (by simp)).unbroken c mem
    · obtain ⟨pair, here, mem⟩ := List.mem_flatMap.mp mem
      obtain ⟨field, among, rfl⟩ := List.mem_map.mp here
      rcases List.mem_cons.mp mem with rfl | mem
      · cases isHeader <;> decide
      · exact (plain field (List.mem_cons_of_mem first among)).unbroken c mem

theorem writtenRow (plain : ∀ field ∈ first :: fields, Plain field.toList)
    (counted : ¬ commented (first :: fields)) (ends : Break) :
    Row isHeader ends (row isHeader (first :: fields)).toList
      ((first :: fields).map String.toList) := by
  obtain ⟨head, tail⟩ := List.forall_mem_cons.mp plain
  have written : Row isHeader ends
      ([] ++ (first.toList ++ (spread (marked isHeader fields) ++ [])))
      (first.toList :: (marked isHeader fields).map Prod.snd) :=
    .fields blanksNil head (by simpa [commented, opensComment] using counted)
      (spreadMarked tail) (.blanks blanksNil)
  have same : (marked isHeader fields).map Prod.snd = fields.map String.toList := by
    rw [marked, List.map_map]
    rfl
  rw [same, List.append_nil] at written
  rw [joinedMarked]
  exact written

theorem writtenIdle (comment : commented (first :: fields)) :
    Idle (row isHeader (first :: fields)).toList := by
  obtain ⟨rest, same⟩ : ∃ rest, first.toList = '#' :: rest :=
    List.head?_eq_some_iff.mp (by simpa [commented, opensComment] using comment)
  have idle : Idle ([] ++ '#' :: (rest ++ spread (marked isHeader fields))) :=
    .comment blanksNil
  rw [joinedMarked, same]
  exact idle

end

def writtenLines (texts : List String) : List (List Char × Break) :=
  texts.map (fun text => (text.toList, .lineFeed)) ++ [([], .textEnd)]

theorem fieldsWritten (fields : List String) :
    (fields.map String.toList).map String.ofList = fields := by simp

theorem linedWritten {texts : List String} (unbroken : ∀ text ∈ texts, Unbroken text.toList) :
    Lined (writtenLines texts) := by
  induction texts with
  | nil => exact .last unbrokenNil
  | cons text texts ih =>
    obtain ⟨first, others⟩ := List.forall_mem_cons.mp unbroken
    exact .more first (by simp) (by simp) (ih others)

theorem textWritten (texts : List String) :
    textOf (writtenLines texts) = (String.join (texts.map (· ++ "\n"))).toList := by
  induction texts with
  | nil => rfl
  | cons text texts ih =>
    rw [String.toList_join] at ih ⊢
    have rest : textOf (writtenLines (text :: texts)) =
        text.toList ++ '\n' :: textOf (writtenLines texts) := by
      simp [writtenLines, textOf, Break.text]
    rw [rest, ih]
    simp

/- Induction on the rows. Behind the last one there is the empty line of the end. -/
theorem rowsWritten {rows : List (List String)} (filled : ∀ fields ∈ rows, fields ≠ [])
    (plain : ∀ fields ∈ rows, ∀ field ∈ fields, Plain field.toList) (before : List Char) :
    Rows false before (writtenLines (rows.map (row false)))
      (kept (1 + before.count '\n') rows) := by
  induction rows generalizing before with
  | nil => exact .idle (.blank blanksNil) .done
  | cons fields rows ih =>
    obtain ⟨firstFilled, restFilled⟩ := List.forall_mem_cons.mp filled
    obtain ⟨firstPlain, restPlain⟩ := List.forall_mem_cons.mp plain
    obtain ⟨first, fields, rfl⟩ := List.exists_cons_of_ne_nil firstFilled
    have later := ih restFilled restPlain (before ++ ((row false (first :: fields)).toList ++ ['\n']))
    have next : 1 + (before ++ ((row false (first :: fields)).toList ++ ['\n'])).count '\n' =
        1 + before.count '\n' + 1 := by
      simp [noFeeds (unbrokenRow false firstPlain), Nat.add_assoc]
    rw [next] at later
    rw [kept]
    by_cases comment : commented (first :: fields) = true
    · rw [if_pos comment]
      exact .idle (writtenIdle comment) later
    · have whole := Rows.row (writtenRow firstPlain comment .lineFeed) later
      rw [fieldsWritten] at whole
      rw [if_neg comment]
      exact whole

theorem recordsJoined {header : List String} {rows : List (List String)} (starts : header ≠ [])
    (filled : ∀ fields ∈ rows, fields ≠ []) (counted : ¬ commented header)
    (plain : ∀ fields ∈ header :: rows, ∀ field ∈ fields, Plain field.toList) :
    records (String.join ((row true header :: rows.map (row false)).map (· ++ "\n"))) =
      .ok (⟨1, header⟩ :: kept 2 rows) := by
  obtain ⟨headerPlain, restPlain⟩ := List.forall_mem_cons.mp plain
  obtain ⟨first, fields, rfl⟩ := List.exists_cons_of_ne_nil starts
  have unbroken : ∀ text ∈ row true (first :: fields) :: rows.map (row false),
      Unbroken text.toList := by
    intro text mem
    rcases List.mem_cons.mp mem with rfl | mem
    · exact unbrokenRow true headerPlain
    · obtain ⟨fields, here, rfl⟩ := List.mem_map.mp mem
      exact unbrokenRow false (restPlain fields here)
  have later := rowsWritten filled restPlain ((row true (first :: fields)).toList ++ ['\n'])
  have second : 1 + ((row true (first :: fields)).toList ++ ['\n']).count '\n' = 2 := by
    simp [noFeeds (unbrokenRow true headerPlain)]
  rw [second] at later
  have whole : Rows true [] (writtenLines (row true (first :: fields) :: rows.map (row false))) _ :=
    .row (writtenRow headerPlain counted .lineFeed) later
  rw [fieldsWritten] at whole
  exact formatRead.mpr ⟨_, linedWritten unbroken, textWritten _, whole⟩

end Multitape.Description
