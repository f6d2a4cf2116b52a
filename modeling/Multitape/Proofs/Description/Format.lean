import Multitape.Description.Record

/-! The format of a description, said of its text alone. The text is cut into lines; a line is
blank, a comment or a row of fields, and the first row is the header. Every line that is none
of these is spoilt in one of three ways: it begins with a comma, a comma has no field behind
it, or a field has no comma in front. -/
namespace Multitape.Description

def Unbroken (chars : List Char) : Prop := ∀ c ∈ chars, c ≠ '\n' ∧ c ≠ '\r'

theorem unbrokenNil : Unbroken [] := by simp [Unbroken]

def textOf (lines : List (List Char × Break)) : List Char :=
  lines.flatMap fun (chars, ends) => chars ++ ends.text

/-- The lines of a text. A carriage return is a break of its own only where no line feed
follows. -/
inductive Lined : List (List Char × Break) → Prop where
  | last {chars : List Char} (unbroken : Unbroken chars) : Lined [(chars, .textEnd)]
  | more {chars : List Char} {ends : Break} {lines : List (List Char × Break)}
    (unbroken : Unbroken chars) (inside : ends ≠ .textEnd)
    (lone : ends = .carriageReturn → (textOf lines).head? ≠ some '\n') (rest : Lined lines) :
    Lined ((chars, ends) :: lines)

theorem feedBehind {lines : List (List Char × Break)} (lined : Lined lines)
    (feed : (textOf lines).head? = some '\n') : ∃ rest, lines = ([], .lineFeed) :: rest := by
  have whole : ∀ {c : Char} {chars : List Char}, Unbroken (c :: chars) → c ≠ '\n' :=
    fun unbroken => (unbroken _ (by simp)).1
  cases lined with
  | @last chars unbroken =>
    cases chars with
    | nil => simp [textOf, Break.text] at feed
    | cons c chars => exact absurd (by simpa [textOf] using feed) (whole unbroken)
  | @more chars ends lines unbroken inside =>
    cases chars with
    | nil => cases ends <;> simp_all [textOf, Break.text]
    | cons c chars => exact absurd (by simpa [textOf] using feed) (whole unbroken)

theorem linedCut (text : List Char) : Lined (cut text) := by
  induction text with
  | nil => exact .last unbrokenNil
  | cons c text ih =>
    rw [show cut (c :: text) = cutChar c (cut text) from rfl]
    generalize cut text = lines at *
    unfold cutChar
    split
    · exact .more unbrokenNil (by simp) (by simp) ih
    · cases ih with
      | more _ _ _ rest => exact .more unbrokenNil (by simp) (by simp) rest
    · rename_i other
      refine .more unbrokenNil (by simp) (fun _ feed => ?_) ih
      obtain ⟨rest, same⟩ := feedBehind ih feed
      exact other rest same
    · rename_i chars ends lines notFeed _ notReturn
      have bare : c ≠ '\n' ∧ c ≠ '\r' := by
        refine ⟨notFeed, ?_⟩
        rintro rfl
        exact notReturn rfl
      cases ih with
      | last unbroken => exact .last (List.forall_mem_cons.mpr ⟨bare, unbroken⟩)
      | more unbroken inside lone rest =>
        exact .more (List.forall_mem_cons.mpr ⟨bare, unbroken⟩) inside lone rest
    · cases ih

/- Induction on the characters from the front, as `cut` is a fold from the back. -/
theorem cutInFront {chars rest inner : List Char} {ends : Break} {lines : List (List Char × Break)}
    (unbroken : Unbroken chars) (behind : cut rest = (inner, ends) :: lines) :
    cut (chars ++ rest) = (chars ++ inner, ends) :: lines := by
  induction chars with
  | nil => exact behind
  | cons c chars ih =>
    obtain ⟨⟨notFeed, notReturn⟩, later⟩ := List.forall_mem_cons.mp unbroken
    change cutChar c (cut (chars ++ rest)) = _
    rw [ih later]
    unfold cutChar
    split <;> simp_all

theorem cutLined {lines : List (List Char × Break)} (lined : Lined lines) :
    cut (textOf lines) = lines := by
  induction lined with
  | @last chars unbroken =>
    have alone := cutInFront unbroken (show cut [] = [([], .textEnd)] from rfl)
    simpa [textOf, Break.text] using alone
  | @more chars ends lines unbroken inside lone rest ih =>
    have behind : cut (ends.text ++ textOf lines) = ([], ends) :: lines := by
      cases ends with
      | lineFeed => exact congrArg (cutChar '\n') ih
      | pair => exact congrArg (fun lines => cutChar '\r' (cutChar '\n' lines)) ih
      | carriageReturn =>
        change cutChar '\r' (cut (textOf lines)) = _
        rw [ih]
        unfold cutChar
        split
        · contradiction
        · simp [textOf, Break.text] at lone
        · rfl
        · contradiction
        · contradiction
      | textEnd => contradiction
    have whole := cutInFront unbroken behind
    rw [List.append_nil, ← List.append_assoc] at whole
    exact whole

def Blanks (chars : List Char) : Prop := ∀ c ∈ chars, c = ' ' ∨ c = '\t'

theorem blanksNil : Blanks [] := by simp [Blanks]

def Unspaced (text : List Char) : Prop := ∀ c ∈ text.head?, ¬ (c = ' ' ∨ c = '\t')

theorem unspacedNil : Unspaced [] := by simp [Unspaced]

def Bare (c : Char) : Prop := (c ≠ ',' ∧ c ≠ ' ' ∧ c ≠ '\t') ∧ c ≠ '\n' ∧ c ≠ '\r'

instance (c : Char) : Decidable (Bare c) := inferInstanceAs (Decidable (_ ∧ _))

structure Plain (field : List Char) : Prop where
  filled : field ≠ []
  apart : ∀ c ∈ field, c ≠ ',' ∧ c ≠ ' ' ∧ c ≠ '\t'
  unbroken : Unbroken field

/-- What stands between two fields: one comma, and blanks around it. In the header blanks are
enough. -/
inductive Gap : Bool → List Char → Prop where
  | comma {isHeader : Bool} {before after : List Char} (blank : Blanks before)
    (blank' : Blanks after) : Gap isHeader (before ++ ',' :: after)
  | blanks {chars : List Char} (filled : chars ≠ []) (blank : Blanks chars) : Gap true chars

theorem gapOpens {isHeader : Bool} {gap : List Char} (between : Gap isHeader gap) :
    ∃ c rest, gap = c :: rest ∧ (c = ',' ∨ c = ' ' ∨ c = '\t') := by
  cases between with
  | @comma _ before after blank =>
    cases before with
    | nil => exact ⟨_, _, rfl, .inl rfl⟩
    | cons c before => exact ⟨c, _, rfl, .inr (blank c (List.mem_cons_self ..))⟩
  | blanks filled blank =>
    obtain ⟨c, rest, rfl⟩ := List.exists_cons_of_ne_nil filled
    exact ⟨c, rest, rfl, .inr (blank c (List.mem_cons_self ..))⟩

inductive Ending : Bool → Break → List Char → Prop where
  | blanks {isHeader : Bool} {ends : Break} {chars : List Char} (blank : Blanks chars) :
    Ending isHeader ends chars
  | comment {before rest : List Char} (filled : before ≠ []) (blank : Blanks before) :
    Ending false .textEnd (before ++ '#' :: rest)

def spread (others : List (List Char × List Char)) : List Char :=
  others.flatMap fun (gap, field) => gap ++ field

def Spread (isHeader : Bool) (others : List (List Char × List Char)) : Prop :=
  ∀ pair ∈ others, Gap isHeader pair.1 ∧ Plain pair.2

inductive Row (isHeader : Bool) (ends : Break) : List Char → List (List Char) → Prop where
  | fields {lead first ending : List Char} {others : List (List Char × List Char)}
    (blank : Blanks lead) (plain : Plain first) (counted : first.head? ≠ some '#')
    (spaced : Spread isHeader others) (ended : Ending isHeader ends ending) :
    Row isHeader ends (lead ++ (first ++ (spread others ++ ending))) (first :: others.map Prod.snd)

inductive Idle : List Char → Prop where
  | blank {chars : List Char} (blank : Blanks chars) : Idle chars
  | comment {lead rest : List Char} (blank : Blanks lead) : Idle (lead ++ '#' :: rest)

/-- The records of these lines, of which the first is the header if `isHeader`. The line of a
record is one more than the line feeds before it. -/
inductive Rows : Bool → List Char → List (List Char × Break) → List Record → Prop where
  | done {isHeader : Bool} {before : List Char} : Rows isHeader before [] []
  | idle {isHeader : Bool} {before chars : List Char} {ends : Break}
    {lines : List (List Char × Break)} {found : List Record} (idle : Idle chars)
    (rest : Rows isHeader (before ++ (chars ++ ends.text)) lines found) :
    Rows isHeader before ((chars, ends) :: lines) found
  | row {isHeader : Bool} {before chars : List Char} {ends : Break}
    {lines : List (List Char × Break)} {fields : List (List Char)} {found : List Record}
    (row : Row isHeader ends chars fields)
    (rest : Rows false (before ++ (chars ++ ends.text)) lines found) :
    Rows isHeader before ((chars, ends) :: lines)
      (⟨1 + before.count '\n', fields.map String.ofList⟩ :: found)

/-- The text is in the format, and these are its header and its records. -/
def Format (text : String) (found : List Record) : Prop :=
  ∃ lines, Lined lines ∧ textOf lines = text.toList ∧ Rows true [] lines found

inductive Stuck : Bool → Break → List Char → Prop where
  | comma {isHeader : Bool} {ends : Break} {before after rest : List Char} (blank : Blanks before)
    (blank' : Blanks after) (last : ∀ c ∈ rest.head?, c = ',') :
    Stuck isHeader ends (before ++ ',' :: (after ++ rest))
  | field {ends : Break} {before rest : List Char} {c : Char} (filled : before ≠ [])
    (blank : Blanks before) (bare : Bare c) (inside : c = '#' → ends ≠ .textEnd) :
    Stuck false ends (before ++ c :: rest)

inductive Spoilt (isHeader : Bool) (ends : Break) : List Char → Prop where
  | comma {lead rest : List Char} (blank : Blanks lead) : Spoilt isHeader ends (lead ++ ',' :: rest)
  | stuck {lead first left : List Char} {others : List (List Char × List Char)}
    (blank : Blanks lead) (plain : Plain first) (counted : first.head? ≠ some '#')
    (spaced : Spread isHeader others) (stuck : Stuck isHeader ends left) :
    Spoilt isHeader ends (lead ++ (first ++ (spread others ++ left)))

inductive Broken : Bool → List (List Char × Break) → Prop where
  | here {isHeader : Bool} {chars : List Char} {ends : Break} {lines : List (List Char × Break)}
    (spoilt : Spoilt isHeader ends chars) : Broken isHeader ((chars, ends) :: lines)
  | idle {isHeader : Bool} {chars : List Char} {ends : Break} {lines : List (List Char × Break)}
    (idle : Idle chars) (rest : Broken isHeader lines) : Broken isHeader ((chars, ends) :: lines)
  | row {isHeader : Bool} {chars : List Char} {ends : Break} {lines : List (List Char × Break)}
    {fields : List (List Char)} (row : Row isHeader ends chars fields) (rest : Broken false lines) :
    Broken isHeader ((chars, ends) :: lines)

theorem runCut (p : Char → Prop) (text : List Char) :
    ∃ run rest, (∀ c ∈ run, p c) ∧ (∀ c ∈ rest.head?, ¬ p c) ∧ text = run ++ rest := by
  induction text with
  | nil => exact ⟨[], [], by simp, by simp, rfl⟩
  | cons c text ih =>
    by_cases inside : p c
    · obtain ⟨run, rest, all, stops, rfl⟩ := ih
      exact ⟨c :: run, rest, List.forall_mem_cons.mpr ⟨inside, all⟩, stops, rfl⟩
    · exact ⟨[], c :: text, by simp, by simpa using inside, rfl⟩

theorem blanksCut (text : List Char) :
    ∃ blanks rest, Blanks blanks ∧ Unspaced rest ∧ text = blanks ++ rest :=
  runCut _ text

theorem unbrokenBehind (before : List Char) {chars : List Char}
    (unbroken : Unbroken (before ++ chars)) : Unbroken chars :=
  fun c mem => unbroken c (List.mem_append_right before mem)

theorem unbrokenBlanks {chars : List Char} (blank : Blanks chars) : Unbroken chars := by
  intro c mem
  rcases blank c mem with rfl | rfl <;> decide

theorem noFeeds {chars : List Char} (unbroken : Unbroken chars) : chars.count '\n' = 0 :=
  List.count_eq_zero.mpr fun mem => (unbroken _ mem).1 rfl

theorem bareOf {c : Char} {rest : List Char} (unbroken : Unbroken (c :: rest))
    (notComma : c ≠ ',') (notBlank : ¬ (c = ' ' ∨ c = '\t')) : Bare c :=
  ⟨⟨notComma, not_or.mp notBlank⟩, unbroken c (List.mem_cons_self ..)⟩

/- The field that begins with this character. -/
theorem fieldCut {c : Char} (bare : Bare c) (rest : List Char) : ∃ field left, Plain (c :: field) ∧
    (∀ d ∈ left.head?, ¬ Bare d) ∧ rest = field ++ left := by
  obtain ⟨field, left, all, stops, rfl⟩ := runCut Bare rest
  have whole : ∀ d ∈ c :: field, Bare d := List.forall_mem_cons.mpr ⟨bare, all⟩
  refine ⟨field, left, ?_, stops, rfl⟩
  exact {
    filled := List.cons_ne_nil c field
    apart := fun d mem => (whole d mem).1
    unbroken := fun d mem => (whole d mem).2 }

/- Induction on the length: what follows a field is a gap with a field behind it, or the end. -/
theorem spreadCut (isHeader : Bool) (ends : Break) {chars : List Char} (unbroken : Unbroken chars)
    (parted : ∀ c ∈ chars.head?, ¬ Bare c) : ∃ others left, chars = spread others ++ left ∧
      Spread isHeader others ∧ (Ending isHeader ends left ∨ Stuck isHeader ends left) := by
  generalize size : chars.length = n
  induction n using Nat.strongRecOn generalizing chars with
  | _ n ih =>
    -- A field behind a gap, and what the induction says of the rest.
    have goesOn : ∀ {gap rest : List Char} {c : Char}, chars = gap ++ c :: rest →
        Gap isHeader gap → Bare c → ∃ others left, chars = spread others ++ left ∧
          Spread isHeader others ∧ (Ending isHeader ends left ∨ Stuck isHeader ends left) := by
      rintro gap rest c rfl between bare
      obtain ⟨field, behind, plain, stops, rfl⟩ := fieldCut bare rest
      have shorter : behind.length < n := by
        rw [← size]
        simp
        omega
      have later : Unbroken behind := unbrokenBehind (gap ++ c :: field) (by simpa using unbroken)
      obtain ⟨others, left, same, spaced, result⟩ := ih _ shorter later stops rfl
      refine ⟨(gap, c :: field) :: others, left, ?_, ?_, result⟩
      · simp [spread, same]
      · exact List.forall_mem_cons.mpr ⟨⟨between, plain⟩, spaced⟩
    obtain ⟨before, rest, blank, unspaced, rfl⟩ := blanksCut chars
    cases rest with
    | nil => exact ⟨[], before ++ [], rfl, by simp [Spread], .inl (.blanks (by simpa using blank))⟩
    | cons c rest =>
      have here := unbrokenBehind _ unbroken
      by_cases comma : c = ','
      · subst comma
        obtain ⟨after, rest, blank', unspaced', rfl⟩ := blanksCut rest
        cases rest with
        | nil => exact ⟨[], _, rfl, by simp [Spread], .inr (.comma blank blank' (by simp))⟩
        | cons d rest =>
          by_cases again : d = ','
          · exact ⟨[], _, rfl, by simp [Spread], .inr (.comma blank blank' (by simpa using again))⟩
          · have inside : Unbroken (d :: rest) :=
              unbrokenBehind (',' :: after) (by simpa using here)
            have split : before ++ ',' :: (after ++ d :: rest) =
                before ++ ',' :: after ++ d :: rest := by simp
            exact goesOn split (.comma blank blank') (bareOf inside again (unspaced' d rfl))
      · have bare := bareOf here comma (unspaced c rfl)
        have filled : before ≠ [] := by
          rintro rfl
          exact parted c rfl bare
        cases isHeader with
        | true => exact goesOn rfl (.blanks filled blank) bare
        | false =>
          by_cases comment : c = '#' ∧ ends = .textEnd
          · obtain ⟨rfl, rfl⟩ := comment
            exact ⟨[], _, rfl, by simp [Spread], .inl (.comment filled blank)⟩
          · have stuck : Stuck false ends (before ++ c :: rest) :=
              .field filled blank bare (not_and.mp comment)
            exact ⟨[], _, rfl, by simp [Spread], .inr stuck⟩

theorem lineCases (isHeader : Bool) (ends : Break) {chars : List Char} (unbroken : Unbroken chars) :
    Idle chars ∨ (∃ fields, Row isHeader ends chars fields) ∨ Spoilt isHeader ends chars := by
  obtain ⟨lead, rest, blank, unspaced, rfl⟩ := blanksCut chars
  cases rest with
  | nil => exact .inl (.blank (by simpa using blank))
  | cons c rest =>
    by_cases comment : c = '#'
    · subst comment
      exact .inl (.comment blank)
    by_cases comma : c = ','
    · subst comma
      exact .inr (.inr (.comma blank))
    have here := unbrokenBehind _ unbroken
    obtain ⟨field, left, plain, stops, rfl⟩ := fieldCut (bareOf here comma (unspaced c rfl)) rest
    have counted : (c :: field).head? ≠ some '#' := by simpa using comment
    have later : Unbroken left := unbrokenBehind (c :: field) here
    obtain ⟨others, left, rfl, spaced, ended | stuck⟩ := spreadCut isHeader ends later stops
    · exact .inr (.inl ⟨_, .fields blank plain counted spaced ended⟩)
    · exact .inr (.inr (.stuck blank plain counted spaced stuck))

theorem rowsOrBroken {lines : List (List Char × Break)} (lined : Lined lines) (isHeader : Bool)
    (before : List Char) : (∃ found, Rows isHeader before lines found) ∨ Broken isHeader lines := by
  induction lined generalizing isHeader before with
  | @last chars unbroken =>
    obtain idle | ⟨fields, row⟩ | spoilt := lineCases isHeader .textEnd unbroken
    · exact .inl ⟨_, .idle idle .done⟩
    · exact .inl ⟨_, .row row .done⟩
    · exact .inr (.here spoilt)
  | @more chars ends lines unbroken _ _ _ ih =>
    obtain idle | ⟨fields, row⟩ | spoilt := lineCases isHeader ends unbroken
    · obtain ⟨found, rest⟩ | rest := ih isHeader (before ++ (chars ++ ends.text))
      · exact .inl ⟨_, .idle idle rest⟩
      · exact .inr (.idle idle rest)
    · obtain ⟨found, rest⟩ | rest := ih false (before ++ (chars ++ ends.text))
      · exact .inl ⟨_, .row row rest⟩
      · exact .inr (.row row rest)
    · exact .inr (.here spoilt)

def Parted (text : List Char) : Prop := ∀ c ∈ text.head?, c = ',' ∨ c = ' ' ∨ c = '\t'

theorem partedBlanks {blanks rest : List Char} (blank : Blanks blanks) (parted : Parted rest) :
    Parted (blanks ++ rest) := by
  cases blanks with
  | nil => exact parted
  | cons c blanks =>
    rintro d ⟨⟩
    exact .inr (blank c (List.mem_cons_self ..))

theorem partedComma (rest : List Char) : Parted (',' :: rest) := by
  rintro d ⟨⟩
  exact .inl rfl

theorem partedFilled {blanks : List Char} (filled : blanks ≠ []) (blank : Blanks blanks)
    (rest : List Char) : Parted (blanks ++ rest) := by
  cases blanks with
  | nil => exact absurd rfl filled
  | cons c blanks =>
    rintro d ⟨⟩
    exact .inr (blank c (List.mem_cons_self ..))

theorem partedSpread {isHeader : Bool} {others : List (List Char × List Char)} {left : List Char}
    (spaced : Spread isHeader others) (parted : Parted left) : Parted (spread others ++ left) := by
  cases others with
  | nil => exact parted
  | cons pair others =>
    obtain ⟨gap, field⟩ := pair
    obtain ⟨c, more, rfl, opens⟩ := gapOpens (spaced _ (List.mem_cons_self ..)).1
    rintro d ⟨⟩
    exact opens

theorem partedEnding {isHeader : Bool} {ends : Break} {left : List Char}
    (ended : Ending isHeader ends left) :
    Parted left := by
  cases ended with
  | blanks blank =>
    have parted := partedBlanks blank (show Parted [] by simp [Parted])
    rwa [List.append_nil] at parted
  | comment filled blank => exact partedFilled filled blank _

theorem partedStuck {isHeader : Bool} {ends : Break} {left : List Char}
    (stuck : Stuck isHeader ends left) :
    Parted left := by
  cases stuck with
  | comma blank => exact partedBlanks blank (partedComma _)
  | field filled blank => exact partedFilled filled blank _

end Multitape.Description
