import Multitape.Proofs.Description.Peg

/-! The grammar of descriptions, and what its rules read of a line. -/
namespace Multitape.Description
namespace Peg

def comma : Peg := literal [',']

def sign : Peg := literal ['#']

def newline : Peg := either (literal ['\n']) (either (literal ['\r', '\n']) (literal ['\r']))

def letter : Peg := both (without (either comma (either newline blank))) any

-- A field has no blanks in it, so none are skipped between its letters.
def field : Peg := named .field (both letter (many letter))

def inside : Peg := next (without newline) any

def comment : Peg := next sign (repeated inside)

def item (isHeader : Bool) : Peg := next (if isHeader then optional comma else comma) field

def header : Peg := named .header (next (without sign) (next field (repeated (item true))))

def record : Peg := named .record (next field (repeated (item false)))

def line : Peg := either comment record

def idleLine : Peg := next (optional comment) newline

def laterLine : Peg := next newline (optional line)

def description : Peg := next header (repeated laterLine)

def machine : Peg :=
  named .machine (next start (next (repeated idleLine)
    (next (optional description) (next (optional comment) (named .textEnd finish)))))

end Peg

def Piece.text (piece : Piece) : List Char :=
  piece.start.rest.take (piece.start.rest.length - piece.stop.rest.length)

def Piece.record (piece : Piece) : Record :=
  ⟨1 + piece.start.before.count '\n', piece.inner.map (String.ofList ·.text)⟩

def recordsIn (pieces : List Piece) : List Record :=
  (pieces.filter fun piece => piece.kind = .header ∨ piece.kind = .record).map Piece.record

theorem recordsOne {piece : Piece} (kind : piece.kind = .header ∨ piece.kind = .record) :
    recordsIn [piece] = [piece.record] := by
  simp [recordsIn, kind]

def Closed (text : List Char) : Prop := ∀ c ∈ text.head?, ¬ Bare c

def LineEnd (text : List Char) : Prop := ∀ c ∈ text.head?, c = '\n' ∨ c = '\r'

theorem lineEndBreak {ends : Break} (inside : ends ≠ .textEnd) (rest : List Char) :
    LineEnd (ends.text ++ rest) := by
  cases ends with
  | textEnd => exact absurd rfl inside
  | _ =>
    rintro c ⟨⟩
    decide

theorem closedLineEnd {text : List Char} (lineEnd : LineEnd text) : Closed text := by
  intro c mem bare
  rcases lineEnd c mem with rfl | rfl
  · exact bare.2.1 rfl
  · exact bare.2.2 rfl

theorem closedParted {left rest : List Char} (parted : Parted left) (lineEnd : LineEnd rest) :
    Closed (left ++ rest) := by
  cases left with
  | nil => exact closedLineEnd lineEnd
  | cons c left =>
    rintro d ⟨⟩ ⟨⟨notComma, notSpace, notTab⟩, -⟩
    exact (parted c rfl).elim notComma fun blank => blank.elim notSpace notTab

theorem unspacedLineEnd {text : List Char} (lineEnd : LineEnd text) : Unspaced text := by
  intro c mem
  rcases lineEnd c mem with rfl | rfl <;> decide

theorem unspacedBare {c : Char} (bare : Bare c) (rest : List Char) : Unspaced (c :: rest) := by
  rintro d ⟨⟩
  exact not_or.mpr bare.1.2

theorem unspacedComma (rest : List Char) : Unspaced (',' :: rest) := by
  rintro d ⟨⟩
  decide

theorem closedSpread {isHeader : Bool} {others : List (List Char × List Char)} {rest : List Char}
    (spaced : Spread isHeader others) (closed : Closed rest) : Closed (spread others ++ rest) := by
  cases others with
  | nil => exact closed
  | cons pair others =>
    obtain ⟨gap, field⟩ := pair
    obtain ⟨c, more, rfl, opens⟩ := gapOpens (spaced _ (List.mem_cons_self ..)).1
    rintro d ⟨⟩ ⟨⟨notComma, notSpace, notTab⟩, -⟩
    exact opens.elim notComma fun blank => blank.elim notSpace notTab

theorem plainOpens {field : List Char} (plain : Plain field) :
    ∃ c rest, field = c :: rest ∧ ∀ d ∈ c :: rest, Bare d := by
  obtain ⟨c, rest, rfl⟩ := List.exists_cons_of_ne_nil plain.filled
  exact ⟨c, rest, rfl, fun d mem => ⟨plain.apart d mem, plain.unbroken d mem⟩⟩

theorem opensUnsigned {first : List Char} (plain : Plain first) (counted : first.head? ≠ some '#')
    (rest : List Char) : (first ++ rest).head? ≠ some '#' := by
  obtain ⟨c, letters, rfl, -⟩ := plainOpens plain
  exact counted

theorem unspacedField {field : List Char} (plain : Plain field) (rest : List Char) :
    Unspaced (field ++ rest) := by
  obtain ⟨c, chars, rfl, bare⟩ := plainOpens plain
  exact unspacedBare (bare c (List.mem_cons_self ..)) _

namespace Peg
variable {before text rest : List Char}

theorem charFails {c : Char} {more : List Char} (other : text.head? ≠ some c) :
    (literal (c :: more)).Reads ⟨before, text⟩ none := by
  refine .differs ?_
  rintro ⟨rest, rfl⟩
  exact other rfl

theorem newlineReads {ends : Break} (inside : ends ≠ .textEnd)
    (lone : ends = .carriageReturn → rest.head? ≠ some '\n') :
    newline.Reads ⟨before, ends.text ++ rest⟩ (some ([], ⟨before ++ ends.text, rest⟩)) := by
  cases ends with
  | lineFeed => exact .eitherFirst (.literal rfl)
  | pair => exact .eitherSecond (charFails (by simp [Break.text])) (.eitherFirst (.literal rfl))
  | carriageReturn =>
    refine .eitherSecond (charFails (by simp [Break.text])) (.eitherSecond (.differs ?_) (.literal rfl))
    rintro ⟨more, same⟩
    exact lone rfl (congrArg List.head? (List.cons.inj same).2).symm
  | textEnd => exact absurd rfl inside

theorem newlineFails (other : ∀ c ∈ text.head?, c ≠ '\n' ∧ c ≠ '\r') :
    newline.Reads ⟨before, text⟩ none := by
  have feed : text.head? ≠ some '\n' := fun same => (other _ same).1 rfl
  have lone : text.head? ≠ some '\r' := fun same => (other _ same).2 rfl
  exact .eitherSecond (charFails feed) (.eitherSecond (charFails lone) (charFails lone))

theorem breakReads {c : Char} (isBreak : c = '\n' ∨ c = '\r') :
    ∃ read, newline.Reads ⟨before, c :: rest⟩ (some read) := by
  rcases isBreak with rfl | rfl
  · exact ⟨_, newlineReads (show Break.lineFeed ≠ .textEnd by simp) (by simp)⟩
  · by_cases pair : rest.head? = some '\n'
    · obtain ⟨more, rfl⟩ := List.head?_eq_some_iff.mp pair
      exact ⟨_, newlineReads (show Break.pair ≠ .textEnd by simp) (by simp)⟩
    · exact ⟨_, newlineReads (show Break.carriageReturn ≠ .textEnd by simp) fun _ => pair⟩

theorem letterReads {c : Char} (bare : Bare c) :
    letter.Reads ⟨before, c :: rest⟩ (some ([], ⟨before ++ [c], rest⟩)) := by
  obtain ⟨⟨notComma, notSpace, notTab⟩, unbroken⟩ := bare
  have newline : newline.Reads ⟨before, c :: rest⟩ none := newlineFails (by simpa using unbroken)
  have blank : blank.Reads ⟨before, c :: rest⟩ none :=
    .eitherSecond (charFails (by simpa using notSpace)) (charFails (by simpa using notTab))
  have comma : comma.Reads ⟨before, c :: rest⟩ none := charFails (by simpa using notComma)
  exact .both (.without (.eitherSecond comma (.eitherSecond newline blank))) .any

/- The character that ends a field is a comma, a blank or a new line. -/
theorem separatorReads {c : Char} (other : ¬ Bare c) : ∃ read,
    (either comma (either newline blank)).Reads ⟨before, c :: rest⟩ (some read) := by
  by_cases isComma : c = ','
  · subst isComma
    exact ⟨_, .eitherFirst (.literal rfl)⟩
  have comma : comma.Reads ⟨before, c :: rest⟩ none := charFails (by simpa using isComma)
  suffices ∃ read, (either newline blank).Reads ⟨before, c :: rest⟩ (some read) by
    obtain ⟨read, two⟩ := this
    exact ⟨read, .eitherSecond comma two⟩
  by_cases isBreak : c = '\n' ∨ c = '\r'
  · obtain ⟨read, one⟩ := breakReads isBreak
    exact ⟨read, .eitherFirst one⟩
  have unbroken := not_or.mp isBreak
  have newline : newline.Reads ⟨before, c :: rest⟩ none := newlineFails (by simpa using unbroken)
  by_cases space : c = ' '
  · subst space
    exact ⟨_, .eitherSecond newline (.eitherFirst (.literal rfl))⟩
  by_cases tab : c = '\t'
  · subst tab
    exact ⟨_, .eitherSecond newline (.eitherSecond (charFails (by simp)) (.literal rfl))⟩
  exact absurd ⟨⟨isComma, space, tab⟩, unbroken⟩ other

theorem letterFails (closed : Closed text) : letter.Reads ⟨before, text⟩ none := by
  cases text with
  | nil =>
    have newline : newline.Reads ⟨before, []⟩ none := newlineFails (by simp)
    have blank : blank.Reads ⟨before, []⟩ none :=
      .eitherSecond (charFails (by simp)) (charFails (by simp))
    exact .bothSecond (.without (.eitherSecond (charFails (by simp)) (.eitherSecond newline blank)))
      .nothing
  | cons c text =>
    obtain ⟨read, one⟩ := separatorReads (closed c rfl)
    exact .bothFirst (.withoutNot one)

theorem lettersRead {chars : List Char} (bare : ∀ c ∈ chars, Bare c) (closed : Closed rest)
    (before : List Char) : (many letter).Reads ⟨before, chars ++ rest⟩
      (some ([], ⟨before ++ chars, rest⟩)) := by
  induction chars generalizing before with
  | nil =>
    rw [List.append_nil]
    exact .manyNone (letterFails closed)
  | cons c chars ih =>
    obtain ⟨first, others⟩ := List.forall_mem_cons.mp bare
    have later := ih others (before ++ [c])
    rw [List.append_assoc] at later
    exact .many (letterReads first) later

def fieldPiece (before field rest : List Char) : Piece :=
  ⟨.field, ⟨before, field ++ rest⟩, ⟨before ++ field, rest⟩, []⟩

theorem textField (before field rest : List Char) : (fieldPiece before field rest).text = field := by
  simp [Piece.text, fieldPiece]

theorem fieldReads {chars : List Char} (plain : Plain chars) (closed : Closed rest) :
    field.Reads ⟨before, chars ++ rest⟩
      (some ([fieldPiece before chars rest], ⟨before ++ chars, rest⟩)) := by
  obtain ⟨c, chars, rfl, bare⟩ := plainOpens plain
  obtain ⟨first, others⟩ := List.forall_mem_cons.mp bare
  have later := lettersRead others closed (before ++ [c])
  rw [List.append_assoc] at later
  exact .named (.both (letterReads first) later)

theorem fieldFails (closed : Closed text) : field.Reads ⟨before, text⟩ none :=
  .namedNone (.bothFirst (letterFails closed))

theorem commaGap {isHeader : Bool} {blanks blanks' : List Char}
    {result : Option (List Piece × Cursor)} (blank : Blanks blanks) (blank' : Blanks blanks') (unspaced : Unspaced rest)
    (read : field.Reads ⟨before ++ blanks ++ [','] ++ blanks', rest⟩ result) :
    (both skip (item isHeader)).Reads ⟨before, blanks ++ ',' :: (blanks' ++ rest)⟩ result := by
  have sign : comma.Reads ⟨before ++ blanks, ',' :: (blanks' ++ rest)⟩
      (some ([], ⟨before ++ blanks ++ [','], blanks' ++ rest⟩)) := .literal rfl
  have one : (if isHeader then optional comma else comma).Reads
      ⟨before ++ blanks, ',' :: (blanks' ++ rest)⟩
      (some ([], ⟨before ++ blanks ++ [','], blanks' ++ rest⟩)) := by
    cases isHeader
    · exact sign
    · exact .optional sign
  have two := (skipIff (skipsBlanks blank' (before ++ blanks ++ [',']) rest) unspaced).mpr read
  exact (skipIff (skipsBlanks blank before _) (unspacedComma _)).mpr (silentReads one two)

/- A row goes on after a gap with a field behind it. -/
theorem itemReads {isHeader : Bool} {gap chars : List Char} (between : Gap isHeader gap)
    (plain : Plain chars) (closed : Closed rest) :
    (both skip (item isHeader)).Reads ⟨before, gap ++ (chars ++ rest)⟩
      (some ([fieldPiece (before ++ gap) chars rest], ⟨before ++ gap ++ chars, rest⟩)) := by
  have unspaced := unspacedField plain rest
  cases between with
  | @comma _ blanks blanks' blank blank' =>
    have read : (both skip (item isHeader)).Reads
        ⟨before, blanks ++ ',' :: (blanks' ++ (chars ++ rest))⟩ _ :=
      commaGap blank blank' unspaced (fieldReads plain closed)
    simpa using read
  | blanks filled blank =>
    refine (skipIff (skipsBlanks blank before _) unspaced).mpr (silentReads (.optionalNone ?_) ?_)
    · obtain ⟨c, letters, rfl, bare⟩ := plainOpens plain
      exact charFails (by simpa using (bare c (by simp)).1.1)
    · exact (skipNothing unspaced).mpr (fieldReads plain closed)

/- Behind blanks there is neither a comma nor, in the header, a field. -/
theorem itemFails {isHeader : Bool} {blanks : List Char} (blank : Blanks blanks)
    (unspaced : Unspaced rest) (noComma : rest.head? ≠ some ',')
    (noField : isHeader = true → Closed rest) :
    (both skip (item isHeader)).Reads ⟨before, blanks ++ rest⟩ none := by
  have none : comma.Reads ⟨before ++ blanks, rest⟩ none := charFails noComma
  refine (skipIff (skipsBlanks blank before rest) unspaced).mpr ?_
  cases isHeader with
  | true =>
    have none' : (both skip field).Reads ⟨before ++ blanks, rest⟩ Option.none :=
      (skipNothing unspaced).mpr (fieldFails (noField rfl))
    exact .bothSecond (.optionalNone none) none'
  | false => exact .bothFirst none

structure Halts (isHeader : Bool) (left : List Char) : Prop where
  closed : Closed left
  fails (before : List Char) : (both skip (item isHeader)).Reads ⟨before, left⟩ none

theorem endingHalts {isHeader : Bool} {ends : Break} {left : List Char}
    (ended : Ending isHeader ends left) (lineEnd : LineEnd rest) : Halts isHeader (left ++ rest) := by
  refine ⟨closedParted (partedEnding ended) lineEnd, fun before => ?_⟩
  cases ended with
  | blanks blank =>
    refine itemFails blank (unspacedLineEnd lineEnd) (fun comma => ?_)
      fun _ => closedLineEnd lineEnd
    rcases lineEnd _ comma with same | same <;> cases same
  | comment filled blank =>
    rw [List.append_assoc]
    exact itemFails blank (unspacedBare (by decide) _) (by simp) (by simp)

theorem stuckHalts {isHeader : Bool} {ends : Break} {left : List Char}
    (stuck : Stuck isHeader ends left) (lineEnd : LineEnd rest) : Halts isHeader (left ++ rest) := by
  refine ⟨closedParted (partedStuck stuck) lineEnd, fun before => ?_⟩
  cases stuck with
  | @comma _ _ blanks blanks' more blank blank' last =>
    have unspaced : Unspaced (more ++ rest) := by
      cases more with
      | nil => exact unspacedLineEnd lineEnd
      | cons c more =>
        obtain rfl := last c rfl
        exact unspacedComma _
    have closed : Closed (more ++ rest) := by
      cases more with
      | nil => exact closedLineEnd lineEnd
      | cons c more =>
        obtain rfl := last c rfl
        rintro c ⟨⟩
        decide
    rw [List.append_assoc, List.cons_append, List.append_assoc]
    exact commaGap blank blank' unspaced (fieldFails closed)
  | field filled blank bare inside =>
    rw [List.append_assoc]
    exact itemFails blank (unspacedBare bare _) (by simpa using bare.1.1) (by simp)

/- Induction on the fields behind the first one. -/
theorem spreadReads {isHeader : Bool} {others : List (List Char × List Char)}
    (spaced : Spread isHeader others) (halts : Halts isHeader rest) (before : List Char) :
    ∃ pieces, (many (both skip (item isHeader))).Reads ⟨before, spread others ++ rest⟩
      (some (pieces, ⟨before ++ spread others, rest⟩)) ∧
      pieces.map Piece.text = others.map Prod.snd := by
  induction others generalizing before with
  | nil =>
    refine ⟨[], ?_, rfl⟩
    have stops := Reads.manyNone (halts.fails before)
    simpa [spread] using stops
  | cons pair others ih =>
    obtain ⟨gap, chars⟩ := pair
    obtain ⟨⟨between, plain⟩, spaced⟩ := List.forall_mem_cons.mp spaced
    obtain ⟨pieces, more, texts⟩ := ih spaced (before ++ gap ++ chars)
    have one : (both skip (item isHeader)).Reads ⟨before, gap ++ (chars ++ (spread others ++ rest))⟩ _ :=
      itemReads between plain (closedSpread spaced halts.closed)
    refine ⟨fieldPiece (before ++ gap) chars (spread others ++ rest) :: pieces, ?_, ?_⟩
    · have whole := Reads.many one more
      simpa [spread] using whole
    · rw [List.map_cons, textField, texts]
      rfl

def row (isHeader : Bool) : Peg := if isHeader then header else record

/- A row is read up to where it can neither end nor go on, or to blanks in front of that. -/
theorem rowTaken {isHeader : Bool} {first left : List Char} {others : List (List Char × List Char)}
    (plain : Plain first) (counted : first.head? ≠ some '#') (spaced : Spread isHeader others)
    (halts : Halts isHeader left) (before : List Char) : ∃ piece there,
      (row isHeader).Reads ⟨before, first ++ (spread others ++ left)⟩ (some ([piece], there)) ∧
      Cursor.Skips ⟨before ++ first ++ spread others, left⟩ there ∧
      recordsIn [piece] =
        [⟨1 + before.count '\n', (first :: others.map Prod.snd).map String.ofList⟩] := by
  have behind := closedSpread spaced halts.closed
  have unspaced := unspacedField plain (spread others ++ left)
  obtain ⟨pieces, more, texts⟩ := spreadReads spaced halts (before ++ first)
  obtain ⟨start, skips, bare⟩ := skipsCut ⟨before ++ first, spread others ++ left⟩
  obtain ⟨there, skips', read⟩ := repeatedReads skips bare more
  have fields : (next field (repeated (item isHeader))).Reads
      ⟨before, first ++ (spread others ++ left)⟩
      (some (fieldPiece before first (spread others ++ left) :: pieces, there)) :=
    .both (fieldReads plain behind) ((skipIff skips bare).mpr read)
  have strings : (fieldPiece before first (spread others ++ left) :: pieces).map
      (String.ofList ·.text) = (first :: others.map Prod.snd).map String.ofList := by
    have all := congrArg (List.map String.ofList) texts
    rw [List.map_map] at all
    rw [List.map_cons, textField, List.map_cons, ← all]
    rfl
  cases isHeader with
  | true =>
    have unsigned : (without sign).Reads ⟨before, first ++ (spread others ++ left)⟩ _ :=
      .without (charFails (opensUnsigned plain counted _))
    exact ⟨_, there, .named (silentReads unsigned ((skipNothing unspaced).mpr fields)), skips',
      (recordsOne (.inl rfl)).trans
        (congrArg (fun fields => [Record.mk (1 + before.count '\n') fields]) strings)⟩
  | false =>
    exact ⟨_, there, .named fields, skips',
      (recordsOne (.inr rfl)).trans
        (congrArg (fun fields => [Record.mk (1 + before.count '\n') fields]) strings)⟩

theorem insideFails (lineEnd : LineEnd rest) : inside.Reads ⟨before, rest⟩ none := by
  cases rest with
  | nil =>
    have none : (both skip any).Reads ⟨before, []⟩ Option.none :=
      (skipNothing unspacedNil).mpr .nothing
    exact .bothSecond (.without (newlineFails (by simp))) none
  | cons c rest =>
    obtain ⟨read, one⟩ := breakReads (lineEnd c rfl)
    exact .bothFirst (.withoutNot one)

/- Induction on the length: each character that is no blank is read with the blanks before it,
and the blanks that end the line are left. -/
theorem insideReads {body : List Char} (unbroken : Unbroken body) (lineEnd : LineEnd rest)
    (before : List Char) : ∃ there,
      (many (both skip inside)).Reads ⟨before, body ++ rest⟩ (some ([], there)) ∧
      there.Skips ⟨before ++ body, rest⟩ := by
  generalize size : body.length = n
  induction n using Nat.strongRecOn generalizing body before with
  | _ n ih =>
    obtain ⟨blanks, more, blank, unspaced, rfl⟩ := blanksCut body
    cases more with
    | nil =>
      rw [List.append_nil]
      have skips := skipsBlanks blank before rest
      exact ⟨_, .manyNone ((skipIff skips (unspacedLineEnd lineEnd)).mpr (insideFails lineEnd)), skips⟩
    | cons c more =>
      have here := unbrokenBehind _ unbroken
      obtain ⟨first, others⟩ := List.forall_mem_cons.mp here
      have shorter : more.length < n := by
        rw [← size, List.length_append, List.length_cons]
        omega
      obtain ⟨there, read, skips⟩ := ih _ shorter others (before ++ blanks ++ [c]) rfl
      have bare : Unspaced (c :: (more ++ rest)) := by
        rintro d ⟨⟩
        exact unspaced c rfl
      have any : (both skip Peg.any).Reads ⟨before ++ blanks, c :: (more ++ rest)⟩ _ :=
        (skipNothing bare).mpr .any
      have one : inside.Reads ⟨before ++ blanks, c :: (more ++ rest)⟩ _ :=
        silentReads (.without (newlineFails (by simpa using first))) any
      refine ⟨there, ?_, by simpa using skips⟩
      rw [List.append_assoc]
      exact .many ((skipIff (skipsBlanks blank before _) bare).mpr one) read

theorem commentReads {body : List Char} (unbroken : Unbroken body) (lineEnd : LineEnd rest)
    (before : List Char) : ∃ there,
      comment.Reads ⟨before, '#' :: (body ++ rest)⟩ (some ([], there)) ∧
      there.Skips ⟨before ++ '#' :: body, rest⟩ := by
  obtain ⟨last, more, long⟩ := insideReads unbroken lineEnd (before ++ ['#'])
  obtain ⟨start, skips, unspaced⟩ := skipsCut ⟨before ++ ['#'], body ++ rest⟩
  obtain ⟨there, short, read⟩ := repeatedReads skips unspaced more
  have one : sign.Reads ⟨before, '#' :: (body ++ rest)⟩ (some ([], ⟨before ++ ['#'], body ++ rest⟩)) :=
    .literal rfl
  refine ⟨there, .both one ((skipIff skips unspaced).mpr read), ?_⟩
  have onward := skipsOn short long (unspacedLineEnd lineEnd)
  rwa [List.append_assoc] at onward

theorem commentFails (other : rest.head? ≠ some '#') : comment.Reads ⟨before, rest⟩ none :=
  .bothFirst (charFails other)

/- A line that holds no record is skipped like blanks: what follows it is read behind it. -/
theorem idleSkipped {chars : List Char} {after : Peg} {result : Option (List Piece × Cursor)}
    (idle : Idle chars) (unbroken : Unbroken chars) (lineEnd : LineEnd rest)
    (read : (both skip after).Reads ⟨before ++ chars, rest⟩ result) :
    (both skip (both (optional comment) (both skip after))).Reads
      ⟨before, chars ++ rest⟩ result := by
  cases idle with
  | blank blank =>
    have none : comment.Reads ⟨before ++ chars, rest⟩ none := commentFails fun sign => by
      rcases lineEnd _ sign with same | same <;> cases same
    exact (skipIff (skipsBlanks blank before rest) (unspacedLineEnd lineEnd)).mpr
      (silentReads (.optionalNone none) read)
  | @comment lead body blank =>
    have here := unbrokenBehind _ unbroken
    obtain ⟨there, one, skips⟩ :=
      commentReads (List.forall_mem_cons.mp here).2 lineEnd (before ++ lead)
    rw [List.append_assoc]
    rw [← List.append_assoc] at read
    exact (skipIff (skipsBlanks blank before _) (unspacedBare (by decide) _)).mpr
      (silentReads (.optional one) ((skipAgain skips).mpr read))

end Peg
end Multitape.Description
