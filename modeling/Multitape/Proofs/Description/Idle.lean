import Multitape.Proofs.Description.Described
import Multitape.Proofs.Description.Reading

/-! Lines that do not count. A blank line or a comment may be put in front of any line of a
text, and the text describes the same machine as before. Behind the last line it may be put
only if no comment follows the fields of that line: a row can have one at the end of the text
and nowhere else, so another line spoils it, and a final line feed alone does. -/
namespace Multitape
namespace Description

inductive Listed : Bool → List (List Char × Break) → List (List String) → Prop where
  | done {isHeader : Bool} : Listed isHeader [] []
  | idle {isHeader : Bool} {chars : List Char} {ends : Break} {lines : List (List Char × Break)}
    {rows : List (List String)} (idle : Idle chars) (rest : Listed isHeader lines rows) :
    Listed isHeader ((chars, ends) :: lines) rows
  | row {isHeader : Bool} {chars : List Char} {ends : Break} {lines : List (List Char × Break)}
    {fields : List (List Char)} {rows : List (List String)} (row : Row isHeader ends chars fields)
    (rest : Listed false lines rows) :
    Listed isHeader ((chars, ends) :: lines) (fields.map String.ofList :: rows)

variable {isHeader : Bool} {chars : List Char} {ends : Break} {lines : List (List Char × Break)}
  {rows : List (List String)} {fields : List (List Char)}

theorem rowsListed {before : List Char} : Listed isHeader lines rows ↔
    ∃ found, Rows isHeader before lines found ∧ found.map Record.fields = rows := by
  constructor
  · intro listed
    induction listed generalizing before with
    | done => exact ⟨[], .done, rfl⟩
    | idle idle _ ih =>
      obtain ⟨found, rows, same⟩ := ih
      exact ⟨found, .idle idle rows, same⟩
    | row row _ ih =>
      obtain ⟨found, rows, same⟩ := ih
      exact ⟨_ :: found, .row row rows, congrArg _ same⟩
  · rintro ⟨found, read, rfl⟩
    induction read with
    | done => exact .done
    | idle idle _ ih => exact .idle idle ih
    | row row _ ih => exact .row row ih

theorem idleNoRow (idle : Idle chars) : ¬ Row isHeader ends chars fields := by
  intro row
  have nothing : recordOf? ⟨.first, chars, ends⟩ isHeader = .ok none := idleReads idle
  have something : recordOf? ⟨.first, chars, ends⟩ isHeader = .ok (some _) := rowReads row
  cases nothing.symm.trans something

theorem spoiltNotListed (spoilt : Spoilt isHeader ends chars) :
    ¬ Listed isHeader ((chars, ends) :: lines) rows := by
  obtain ⟨cause, failed⟩ : ∃ cause, recordOf? ⟨.first, chars, ends⟩ isHeader = .error cause :=
    spoiltReads spoilt
  intro listed
  cases listed with
  | idle idle _ =>
    have read : recordOf? ⟨.first, chars, ends⟩ isHeader = .ok none := idleReads idle
    cases failed.symm.trans read
  | row row _ =>
    have read : recordOf? ⟨.first, chars, ends⟩ isHeader = .ok (some _) := rowReads row
    cases failed.symm.trans read

theorem listedFew (listed : Listed isHeader lines rows) : rows.length ≤ lines.length := by
  induction listed with
  | done => exact Nat.le_refl 0
  | idle _ _ ih => exact Nat.le_succ_of_le ih
  | row _ _ ih => exact Nat.succ_le_succ ih

/- The lines in front see of those behind only what is listed of them. -/
theorem listedInFront (front : List (List Char × Break)) {a b : List (List Char × Break)}
    (onward : ∀ isHeader rows, Listed isHeader a rows → Listed isHeader b rows)
    (listed : Listed isHeader (front ++ a) rows) : Listed isHeader (front ++ b) rows := by
  induction front generalizing isHeader rows with
  | nil => exact onward _ _ listed
  | cons pair front ih =>
    cases listed with
    | idle idle rest => exact .idle idle (ih rest)
    | row row rest => exact .row row (ih rest)

theorem listedIdle (front : List (List Char × Break)) (idle : Idle chars) :
    Listed isHeader (front ++ (chars, ends) :: lines) rows ↔ Listed isHeader (front ++ lines) rows := by
  refine ⟨listedInFront front fun _ _ listed => ?_, listedInFront front fun _ _ => .idle idle⟩
  cases listed with
  | idle _ rest => exact rest
  | row row _ => exact absurd row (idleNoRow idle)

/- A row that does not end with the text has no comment, so it may end in any way. -/
theorem rowAnywhere {other : Break} (row : Row isHeader ends chars fields)
    (inside : ends ≠ .textEnd) : Row isHeader other chars fields := by
  cases row with
  | fields blank plain counted spaced ended =>
    cases ended with
    | blanks blank' => exact .fields blank plain counted spaced (.blanks blank')
    | comment => exact absurd rfl inside

theorem listedAnywhere {other : Break} (inside : ends ≠ .textEnd)
    (listed : Listed isHeader ((chars, ends) :: lines) rows) :
    Listed isHeader ((chars, other) :: lines) rows := by
  cases listed with
  | idle idle rest => exact .idle idle rest
  | row row rest => exact .row (rowAnywhere row inside) rest

/- A carriage return takes a line feed behind it to its own line. Taken on its own the line feed
would end an empty line, which is idle. -/
theorem listedBreak {text : List Char} (unbroken : Unbroken chars) (inside : ends ≠ .textEnd) :
    Listed isHeader (cut (chars ++ ends.text ++ text)) rows ↔
      Listed isHeader ((chars, ends) :: cut text) rows := by
  have lined := linedCut text
  have whole : textOf (cut text) = text := flattenCut text
  by_cases joins : ends = .carriageReturn ∧ text.head? = some '\n'
  · obtain ⟨rfl, feed⟩ := joins
    obtain ⟨rest, same⟩ := feedBehind lined (by rwa [whole])
    rw [same] at lined whole
    cases lined with
    | more _ _ _ later =>
      have joined : cut (textOf ((chars, .pair) :: rest)) = (chars, .pair) :: rest :=
        cutLined (.more unbroken (by decide) (by simp) later)
      have text' : textOf ((chars, .pair) :: rest) = chars ++ Break.carriageReturn.text ++ text := by
        rw [← whole]
        simp [textOf, Break.text]
      rw [← text', joined, same]
      have empty : Listed isHeader ((chars, .carriageReturn) :: ([], .lineFeed) :: rest) rows ↔
          Listed isHeader ((chars, .carriageReturn) :: rest) rows :=
        listedIdle [(chars, .carriageReturn)] (.blank blanksNil)
      rw [empty]
      exact ⟨listedAnywhere (by decide), listedAnywhere (by decide)⟩
  · have apart : cut (textOf ((chars, ends) :: cut text)) = (chars, ends) :: cut text := by
      refine cutLined (.more unbroken inside (fun lone => ?_) lined)
      rw [whole]
      exact fun feed => joins ⟨lone, feed⟩
    rw [← apart, show textOf ((chars, ends) :: cut text) = chars ++ ends.text ++ textOf (cut text)
      from rfl, whole]

def Ended (lines : List (List Char × Break)) : Prop :=
  ∀ pair ∈ lines, Unbroken pair.1 ∧ pair.2 ≠ .textEnd

/- Induction on the lines, from the last of them. -/
theorem listedBehind {text : List Char} (ended : Ended lines) :
    Listed isHeader (cut (textOf lines ++ text)) rows ↔
      Listed isHeader (lines ++ cut text) rows := by
  induction lines generalizing isHeader rows with
  | nil => exact Iff.rfl
  | cons pair lines ih =>
    obtain ⟨⟨unbroken, inside⟩, others⟩ := List.forall_mem_cons.mp ended
    rw [show textOf (pair :: lines) ++ text = pair.1 ++ pair.2.text ++ (textOf lines ++ text) by
      simp [textOf], listedBreak unbroken inside]
    constructor
    · exact listedInFront [pair] fun _ _ => (ih others).mp
    · exact listedInFront [pair] fun _ _ => (ih others).mpr

theorem endedCut (text : List Char) : ∃ lines last, cut text = lines ++ [(last, .textEnd)] ∧
    Ended lines ∧ Unbroken last ∧ text = textOf lines ++ last := by
  have parts : ∀ {all}, Lined all → ∃ lines last, all = lines ++ [(last, .textEnd)] ∧
      Ended lines ∧ Unbroken last := by
    intro all lined
    induction lined with
    | last unbroken => exact ⟨[], _, rfl, by simp [Ended], unbroken⟩
    | more unbroken inside _ _ ih =>
      obtain ⟨lines, last, rfl, ended, unbroken'⟩ := ih
      exact ⟨_ :: lines, last, rfl, List.forall_mem_cons.mpr ⟨⟨unbroken, inside⟩, ended⟩, unbroken'⟩
  obtain ⟨lines, last, same, ended, unbroken⟩ := parts (linedCut text)
  refine ⟨lines, last, same, ended, unbroken, ?_⟩
  have whole : textOf (cut text) = text := flattenCut text
  rw [← whole, same]
  simp [textOf, Break.text]

def Whole (text : List Char) : Prop := ∀ c ∈ text.getLast?, c = '\n' ∨ c = '\r'

theorem wholeAppend {front back : List Char} (first : Whole front) (second : Whole back) :
    Whole (front ++ back) := by
  intro c last
  rw [List.getLast?_append, Option.mem_def, Option.or_eq_some_iff] at last
  exact last.elim (second c) fun ⟨_, last⟩ => first c last

theorem wholeBreak (chars : List Char) (inside : ends ≠ .textEnd) : Whole (chars ++ ends.text) := by
  cases ends <;> simp_all [Whole, Break.text, List.getLast?_append]

theorem wholeOfEnded (ended : Ended lines) : Whole (textOf lines) := by
  induction lines with
  | nil => simp [Whole, textOf]
  | cons pair lines ih =>
    obtain ⟨⟨_, inside⟩, others⟩ := List.forall_mem_cons.mp ended
    exact wholeAppend (wholeBreak pair.1 inside) (ih others)

/- Behind a break there is no unbroken end but the empty one. -/
theorem unbrokenWhole {front last : List Char} (whole : Whole (front ++ last))
    (unbroken : Unbroken last) : last = [] := by
  cases ending : last.getLast? with
  | none => exact List.getLast?_eq_none_iff.mp ending
  | some c =>
    obtain ⟨notFeed, notReturn⟩ := unbroken c (List.mem_of_getLast? ending)
    have here : (front ++ last).getLast? = some c := by rw [List.getLast?_append, ending]; rfl
    exact absurd (whole c here) (not_or.mpr ⟨notFeed, notReturn⟩)

theorem lastLineUnique {front front' last last' : List Char} (whole : Whole front)
    (whole' : Whole front') (unbroken : Unbroken last) (unbroken' : Unbroken last')
    (same : front ++ last = front' ++ last') : last = last' := by
  rcases List.append_eq_append_iff.mp same with ⟨more, rfl, rfl⟩ | ⟨more, rfl, rfl⟩
  · obtain rfl := unbrokenWhole whole' (List.forall_mem_append.mp unbroken).1
    rfl
  · obtain rfl := unbrokenWhole whole (List.forall_mem_append.mp unbroken').1
    rfl

theorem endedOfWhole {text : List Char} (whole : Whole text) :
    ∃ lines, Ended lines ∧ textOf lines = text := by
  obtain ⟨lines, last, -, ended, unbroken, rfl⟩ := endedCut text
  obtain rfl := unbrokenWhole whole unbroken
  exact ⟨lines, ended, (List.append_nil _).symm⟩

def Annotated (chars : List Char) : Prop := ∃ row blanks rest fields,
  chars = row ++ (blanks ++ '#' :: rest) ∧ Row false .lineFeed row fields ∧ blanks ≠ [] ∧ Blanks blanks

def Trailing (text : List Char) : Prop :=
  ∃ front last, text = front ++ last ∧ Whole front ∧ Unbroken last ∧ Annotated last

theorem annotatedSpoilt (annotated : Annotated chars) (inside : ends ≠ .textEnd) :
    Spoilt false ends chars := by
  obtain ⟨row, blanks, rest, fields, rfl, row, filled, blank⟩ := annotated
  cases row with
  | @fields lead first ending others blank' plain counted spaced ended =>
    cases ended with
    | blanks blank'' =>
      have stuck : Stuck false ends ((ending ++ blanks) ++ '#' :: rest) :=
        .field (by simp [filled]) (List.forall_mem_append.mpr ⟨blank'', blank⟩) (by decide)
          fun _ => inside
      have spoilt := Spoilt.stuck blank' plain counted spaced stuck
      simpa using spoilt

theorem annotatedOrRow (row : Row isHeader .textEnd chars fields) (ends : Break) :
    Row isHeader ends chars fields ∨ isHeader = false ∧ Annotated chars := by
  cases row with
  | @fields lead first ending others blank plain counted spaced ended =>
    cases ended with
    | blanks blank' => exact .inl (.fields blank plain counted spaced (.blanks blank'))
    | @comment before rest filled blank' =>
      have bare : Row false .lineFeed (lead ++ (first ++ (spread others ++ []))) _ :=
        .fields blank plain counted spaced (.blanks blanksNil)
      exact .inr ⟨rfl, _, before, rest, _, by simp, bare, filled, blank'⟩

/- Induction on the lines in front. Where the last line can be no header, it is listed at the
end of the text and before a break alike, unless it is annotated. -/
theorem listedLast {last : List Char} (inside : ends ≠ .textEnd)
    (late : isHeader = false ∨ 2 ≤ rows.length) :
    Listed isHeader (lines ++ [(last, ends)]) rows ↔
      Listed isHeader (lines ++ [(last, .textEnd)]) rows ∧ ¬ Annotated last := by
  induction lines generalizing isHeader rows with
  | nil =>
    constructor
    · intro listed
      refine ⟨listedAnywhere inside listed, fun annotated => ?_⟩
      have few : rows.length ≤ 1 := listedFew listed
      obtain rfl : isHeader = false := late.resolve_right (by omega)
      exact spoiltNotListed (annotatedSpoilt annotated inside) listed
    · rintro ⟨listed, bare⟩
      cases listed with
      | idle idle rest => exact .idle idle rest
      | row row rest =>
        have inner := (annotatedOrRow row ends).resolve_right fun ⟨_, annotated⟩ => bare annotated
        exact .row inner rest
  | cons pair lines ih =>
    constructor
    · intro listed
      cases listed with
      | idle idle rest => exact ((ih late).mp rest).imp_left (.idle idle)
      | row row rest => exact ((ih (.inl rfl)).mp rest).imp_left (.row row)
    · rintro ⟨listed, bare⟩
      cases listed with
      | idle idle rest => exact .idle idle ((ih late).mpr ⟨rest, bare⟩)
      | row row rest => exact .row row ((ih (.inl rfl)).mpr ⟨rest, bare⟩)

variable {S : Type} [Symbol S] [DecidableEq S] {machine : Machine S}

theorem ofTextListed {text : List Char} : Machine.ofText (.ofList text) = .ok machine ↔
    ∃ rows, Listed true (cut text) rows ∧ 2 ≤ rows.length ∧
      machineOf (rows.map (Record.mk 1)) = .ok machine := by
  have format : ∀ {found}, Format (.ofList text) found ↔ Rows true [] (cut text) found := by
    intro found
    constructor
    · rintro ⟨lines, lined, same, rows⟩
      rw [String.toList_ofList] at same
      rwa [← same, cutLined lined]
    · intro rows
      exact ⟨_, linedCut text, (flattenCut text).trans String.toList_ofList.symm, rows⟩
  unfold Machine.ofText
  simp only [bindOkIff, mapErrorOkIff, formatRead, format]
  constructor
  · rintro ⟨found, read, made⟩
    obtain ⟨first, second, others, -, -, rfl, -⟩ := machineOfIff.mp made
    exact ⟨_, rowsListed.mpr ⟨_, read, rfl⟩, by simp,
      machineOfFields (by simp [Function.comp_def]) made⟩
  · rintro ⟨rows, listed, -, made⟩
    obtain ⟨found, read, rfl⟩ := rowsListed.mp listed
    exact ⟨found, read, machineOfFields (by simp [Function.comp_def]) made⟩

/- A line between two others, and then a line at the end. -/
theorem listedAdded {line after : List Char} (idle : Idle line) (unbroken : Unbroken line)
    (inside : ends ≠ .textEnd) (ended : Ended lines) :
    Listed isHeader (cut (textOf lines ++ (line ++ ends.text) ++ after)) rows ↔
      Listed isHeader (cut (textOf lines ++ after)) rows := by
  have larger : Ended (lines ++ [(line, ends)]) :=
    List.forall_mem_append.mpr ⟨ended, by simpa using ⟨unbroken, inside⟩⟩
  have text : textOf (lines ++ [(line, ends)]) = textOf lines ++ (line ++ ends.text) := by
    simp [textOf]
  rw [← text, listedBehind larger, listedBehind ended, List.append_assoc, List.singleton_append,
    listedIdle lines idle]

theorem listedAppended {line text : List Char} (idle : Idle line) (unbroken : Unbroken line)
    (inside : ends ≠ .textEnd) (late : 2 ≤ rows.length) :
    Listed true (cut (text ++ ends.text ++ line)) rows ↔
      Listed true (cut text) rows ∧ ¬ Trailing text := by
  obtain ⟨lines, last, same, ended, whole, rfl⟩ := endedCut text
  have larger : Ended (lines ++ [(last, ends)]) :=
    List.forall_mem_append.mpr ⟨ended, by simpa using ⟨whole, inside⟩⟩
  have text : textOf (lines ++ [(last, ends)]) = textOf lines ++ last ++ ends.text := by
    simp [textOf]
  have alone : cut line = [(line, .textEnd)] := by
    have last := cutLined (.last unbroken)
    simpa [textOf, Break.text] using last
  have trailing : Trailing (textOf lines ++ last) ↔ Annotated last := by
    constructor
    · rintro ⟨front, last', same, whole', unbroken', annotated⟩
      rwa [lastLineUnique (wholeOfEnded ended) whole' whole unbroken' same]
    · intro annotated
      exact ⟨_, last, rfl, wholeOfEnded ended, whole, annotated⟩
  rw [← text, listedBehind larger, alone, listedIdle _ idle, List.append_nil, same, trailing,
    listedLast inside (.inr late)]

/- The first part is about a line in front of any other one, the second about a last line. -/
theorem idleLineUnseen {line : List Char} {ends : Break} (idle : Idle line)
    (unbroken : Unbroken line) (inside : ends ≠ .textEnd) :
    (∀ before after, Whole before → ∀ machine : Machine S,
      (Machine.ofText (.ofList (before ++ (line ++ ends.text) ++ after)) = .ok machine ↔
        Machine.ofText (.ofList (before ++ after)) = .ok machine)) ∧
    ∀ text, ∀ machine : Machine S,
      (Machine.ofText (.ofList (text ++ ends.text ++ line)) = .ok machine ↔
        Machine.ofText (.ofList text) = .ok machine ∧ ¬ Trailing text) := by
  constructor
  · intro before after whole machine
    obtain ⟨lines, ended, rfl⟩ := endedOfWhole whole
    simp only [ofTextListed, listedAdded idle unbroken inside ended]
  · intro text machine
    simp only [ofTextListed]
    constructor
    · rintro ⟨rows, listed, late, made⟩
      obtain ⟨listed, bare⟩ := (listedAppended idle unbroken inside late).mp listed
      exact ⟨⟨rows, listed, late, made⟩, bare⟩
    · rintro ⟨⟨rows, listed, late, made⟩, bare⟩
      exact ⟨rows, (listedAppended idle unbroken inside late).mpr ⟨listed, bare⟩, late, made⟩

theorem haltingText {text : String} (read : records text =
    .ok [⟨1, ["1", "1", "1", "1"]⟩, ⟨2, ["a"]⟩, ⟨3, ["0", "a", "h", "a", "N"]⟩]) :
    ∃ machine : Machine Char, Machine.ofText text = .ok machine := by
  let rule : Rule Char := ⟨0, ['a'], .halt, ['a'], [.stay]⟩
  have spells : Spells 1 ["0", "a", "h", "a", "N"] rule :=
    ⟨rfl, by decide, rfl, by decide, by decide, rfl, by decide, rfl, by decide⟩
  have describes : Describes ⟨1, ["1", "1", "1", "1"]⟩ ⟨2, ["a"]⟩
      [⟨3, ["0", "a", "h", "a", "N"]⟩] 1 ['a'] [rule] := {
    counts := by decide
    positive := by decide
    letters := by decide
    distinct := by decide
    spelled := .cons spells .nil
    known := by simp [rule]
    keys := by decide }
  obtain ⟨machine, made, -⟩ := machineOfDescribed describes
  exact ⟨machine, bindOkIff.mpr ⟨_, mapErrorOkIff.mpr read, made⟩⟩

/- A text with and without a comment in front of its second line or behind its last one. -/
theorem idleLineUnseenHalting : ∃ machine : Machine Char,
    Machine.ofText "1 1 1 1\na\n0,a,h,a,N" = .ok machine ∧
    Machine.ofText "1 1 1 1\n # b\na\n0,a,h,a,N" = .ok machine ∧
    Machine.ofText "1 1 1 1\na\n0,a,h,a,N\n # b" = .ok machine := by
  let text := "1 1 1 1\na\n0,a,h,a,N".toList
  let comment := [' ', '#', ' ', 'b']
  have idle : Idle comment := .comment (List.forall_mem_singleton.mpr (.inl rfl))
  have unbroken : Unbroken comment := by simp [comment, Unbroken]
  have feed : Break.lineFeed ≠ .textEnd := by decide
  obtain ⟨machine, fed⟩ : ∃ machine : Machine Char,
      Machine.ofText "1 1 1 1\na\n0,a,h,a,N\n" = .ok machine := haltingText rfl
  obtain ⟨read, bare⟩ :=
    ((idleLineUnseen (.blank blanksNil) unbrokenNil feed).2 text machine).mp fed
  refine ⟨machine, read, ?_, ((idleLineUnseen idle unbroken feed).2 text machine).mpr ⟨read, bare⟩⟩
  have second : Whole "1 1 1 1\n".toList := by simp [Whole]
  exact ((idleLineUnseen idle unbroken feed).1 _ "a\n0,a,h,a,N".toList second machine).mpr read

/- The one comment that is no line. -/
theorem finalFeedRefused :
    (∃ machine : Machine Char, Machine.ofText "1 1 1 1\na\n0,a,h,a,N #" = .ok machine) ∧
    ∃ fault, (Machine.ofText "1 1 1 1\na\n0,a,h,a,N #\n" : Except _ (Machine Char)) =
      .error fault := by
  refine ⟨haltingText rfl, ?_⟩
  have refused : ∃ cause, records "1 1 1 1\na\n0,a,h,a,N #\n" = .error cause := ⟨_, rfl⟩
  obtain ⟨cause, failed⟩ := refused
  exact ⟨.malformed cause, by rw [Machine.ofText, failed]; rfl⟩

end Description
end Multitape
