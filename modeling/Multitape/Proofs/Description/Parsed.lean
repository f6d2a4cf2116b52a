import Multitape.Description.Machine
import Multitape.Proofs.Description.Grammar
import Multitape.Proofs.Description.Reading

/-! The grammar read line by line. In front of the header it passes lines without a record,
behind it lines of all kinds; a spoilt line stops it short of the end of the text. So it reads
a text exactly when that is in the format, and the records it finds are those of the text. -/
namespace Multitape.Description
namespace Peg

def closing : Peg := both skip (both (optional comment) (both skip (named .textEnd finish)))

def later : Peg := both (many (both skip laterLine)) closing

def front : Peg :=
  both (many (both skip idleLine)) (both skip (both (optional description) closing))

theorem machineReads {text : List Char} {result : Option (List Piece × Cursor)}
    (read : front.Reads ⟨[], text⟩ result) : machine.Reads ⟨[], text⟩
      (result.map fun (pieces, last) => ([⟨.machine, ⟨[], text⟩, last, pieces⟩], last)) := by
  have whole := silentReads .start (thenRepeated read)
  cases result with
  | none => exact .namedNone whole
  | some => exact .named whole

variable {before rest : List Char}

theorem closingIdle {chars : List Char} (idle : Idle chars) (unbroken : Unbroken chars)
    (before : List Char) : ∃ pieces last,
      closing.Reads ⟨before, chars⟩ (some (pieces, last)) ∧ recordsIn pieces = [] := by
  have done : (both skip (named .textEnd finish)).Reads ⟨before ++ chars, []⟩
      (some ([⟨.textEnd, ⟨before ++ chars, []⟩, ⟨before ++ chars, []⟩, []⟩], ⟨before ++ chars, []⟩)) :=
    (skipNothing unspacedNil).mpr (.named .finish)
  have read := idleSkipped idle unbroken (by simp [LineEnd]) done
  rw [List.append_nil] at read
  exact ⟨_, _, read, by simp [recordsIn]⟩

/- Behind a comment too: what it leaves must be the end. -/
theorem closingUnfinished {chars : List Char} (idle : Idle chars) (unbroken : Unbroken chars)
    (lineEnd : LineEnd rest) (more : rest ≠ []) : closing.Reads ⟨before, chars ++ rest⟩ none := by
  obtain ⟨c, rest, rfl⟩ := List.exists_cons_of_ne_nil more
  exact idleSkipped idle unbroken lineEnd
    ((skipNothing (unspacedLineEnd lineEnd)).mpr (.namedNone .unfinished))

theorem closingFails {blanks : List Char} {c : Char} (blank : Blanks blanks)
    (unspaced : Unspaced (c :: rest)) (other : c ≠ '#') :
    closing.Reads ⟨before, blanks ++ c :: rest⟩ none := by
  refine (skipIff (skipsBlanks blank before _) unspaced).mpr (silentReads (.optionalNone ?_) ?_)
  · exact commentFails (by simpa using other)
  · exact (skipNothing unspaced).mpr (.namedNone .unfinished)

theorem laterFails {blanks : List Char} (blank : Blanks blanks) (unspaced : Unspaced rest)
    (other : ∀ c ∈ rest.head?, c ≠ '\n' ∧ c ≠ '\r') :
    (both skip laterLine).Reads ⟨before, blanks ++ rest⟩ none :=
  (skipIff (skipsBlanks blank before rest) unspaced).mpr (.bothFirst (newlineFails other))

/- No line follows on the same line, and the text does not end there either. -/
theorem laterStuck {isHeader : Bool} {ends : Break} {left : List Char}
    (stuck : Stuck isHeader ends left) (unbroken : Unbroken left) (lineEnd : LineEnd rest)
    (more : ends ≠ .textEnd → rest ≠ []) : later.Reads ⟨before, left ++ rest⟩ none := by
  cases stuck with
  | @comma _ _ blanks _ _ blank _ _ =>
    rw [List.append_assoc, List.cons_append]
    exact silentReads (.manyNone (laterFails blank (unspacedComma _) (by simp)))
      (closingFails blank (unspacedComma _) (by decide))
  | @field _ blanks behind c filled blank bare inside =>
    have stops : (both skip laterLine).Reads ⟨before, blanks ++ c :: behind ++ rest⟩ none := by
      rw [List.append_assoc]
      exact laterFails blank (unspacedBare bare _) (by simpa using bare.2)
    by_cases comment : c = '#'
    · have idle : Idle (blanks ++ c :: behind) := comment ▸ .comment blank
      exact silentReads (.manyNone stops)
        (closingUnfinished idle unbroken lineEnd (more (inside comment)))
    · refine silentReads (.manyNone stops) ?_
      rw [List.append_assoc]
      exact closingFails blank (unspacedBare bare _) comment

theorem lineFails {c : Char} (bare : ¬ Bare c) (other : c ≠ '#') :
    line.Reads ⟨before, c :: rest⟩ none := by
  have closed : Closed (c :: rest) := by
    rintro d ⟨⟩
    exact bare
  exact .eitherSecond (commentFails (by simpa using other))
    (.namedNone (.bothFirst (fieldFails closed)))

theorem lineEndFails (lineEnd : LineEnd rest) : line.Reads ⟨before, rest⟩ none := by
  have sign : rest.head? ≠ some '#' := fun sign => by
    rcases lineEnd _ sign with same | same <;> cases same
  exact .eitherSecond (commentFails sign)
    (.namedNone (.bothFirst (fieldFails (closedLineEnd lineEnd))))

section
variable {ends : Break} (inside : ends ≠ .textEnd)
include inside

/- A new line is the first that is read, as no blanks stand in front of it. -/
theorem laterLineReads {pieces : List Piece} {there : Cursor}
    (lone : ends = .carriageReturn → rest.head? ≠ some '\n')
    (read : (both skip (optional line)).Reads ⟨before ++ ends.text, rest⟩ (some (pieces, there))) :
    (both skip laterLine).Reads ⟨before, ends.text ++ rest⟩ (some (pieces, there)) := by
  have unspaced := unspacedLineEnd (lineEndBreak inside rest)
  exact (skipNothing unspaced).mpr (silentReads (newlineReads inside lone) read)

theorem laterIdle {chars : List Char} {result : Option (List Piece × Cursor)} (idle : Idle chars)
    (unbroken : Unbroken chars) (lineEnd : LineEnd rest)
    (lone : ends = .carriageReturn → (chars ++ rest).head? ≠ some '\n')
    (read : later.Reads ⟨before ++ ends.text ++ chars, rest⟩ result) :
    later.Reads ⟨before, ends.text ++ (chars ++ rest)⟩ result := by
  suffices ∃ there, (both skip (optional line)).Reads ⟨before ++ ends.text, chars ++ rest⟩
      (some ([], there)) ∧ there.Skips ⟨before ++ ends.text ++ chars, rest⟩ by
    obtain ⟨there, one, skips⟩ := this
    have whole := moreReads (laterLineReads inside lone one) ((loopIff skips).mpr read)
    rwa [behindNothing] at whole
  cases idle with
  | blank blank =>
    exact ⟨_, (skipIff (skipsBlanks blank _ rest) (unspacedLineEnd lineEnd)).mpr
      (.optionalNone (lineEndFails lineEnd)), skipsSelf _⟩
  | @comment lead body blank =>
    have here := unbrokenBehind _ unbroken
    obtain ⟨there, one, skips⟩ := commentReads (List.forall_mem_cons.mp here).2 lineEnd
      (before ++ ends.text ++ lead)
    rw [List.append_assoc, ← List.append_assoc _ lead]
    exact ⟨there, (skipIff (skipsBlanks blank _ _) (unspacedBare (by decide) _)).mpr
      (.optional (.eitherFirst one)), skips⟩

theorem laterComma {lead : List Char} (blank : Blanks lead)
    (lone : ends = .carriageReturn → (lead ++ ',' :: rest).head? ≠ some '\n') :
    later.Reads ⟨before, ends.text ++ (lead ++ ',' :: rest)⟩ none := by
  have none : line.Reads ⟨before ++ ends.text ++ lead, ',' :: rest⟩ Option.none :=
    lineFails (by decide) (by decide)
  have one : (both skip (optional line)).Reads ⟨before ++ ends.text, lead ++ ',' :: rest⟩ _ :=
    (skipIff (skipsBlanks blank _ _) (unspacedComma _)).mpr (.optionalNone none)
  have unspaced := unspacedComma rest
  have stops : (both skip laterLine).Reads ⟨before ++ ends.text ++ lead, ',' :: rest⟩ Option.none :=
    laterFails blanksNil unspaced (by simp)
  have done : closing.Reads ⟨before ++ ends.text ++ lead, ',' :: rest⟩ Option.none :=
    closingFails blanksNil unspaced (by decide)
  exact moreReads (laterLineReads inside lone one) (silentReads (.manyNone stops) done)

end

theorem idleLineFails {lead : List Char} (blank : Blanks lead) (unspaced : Unspaced rest)
    (unsigned : rest.head? ≠ some '#') (other : ∀ c ∈ rest.head?, c ≠ '\n' ∧ c ≠ '\r') :
    (both skip idleLine).Reads ⟨before, lead ++ rest⟩ none := by
  have none : (both skip newline).Reads ⟨before ++ lead, rest⟩ Option.none :=
    (skipNothing unspaced).mpr (newlineFails other)
  exact (skipIff (skipsBlanks blank before rest) unspaced).mpr
    (silentReads (.optionalNone (commentFails unsigned)) none)

theorem headerFails (unspaced : Unspaced rest) (closed : rest.head? ≠ some '#' → Closed rest) :
    header.Reads ⟨before, rest⟩ none := by
  by_cases signed : rest.head? = some '#'
  · obtain ⟨more, rfl⟩ := List.head?_eq_some_iff.mp signed
    exact .namedNone (.bothFirst (.withoutNot (.literal rfl)))
  · have none : (both skip (next field (repeated (item true)))).Reads ⟨before, rest⟩ Option.none :=
      (skipNothing unspaced).mpr (.bothFirst (fieldFails (closed signed)))
    exact .namedNone (silentReads (.without (charFails signed)) none)

theorem noHeader (unspaced : Unspaced rest) (closed : rest.head? ≠ some '#' → Closed rest)
    {result : Option (List Piece × Cursor)} (read : closing.Reads ⟨before, rest⟩ result) :
    (both (optional description) closing).Reads ⟨before, rest⟩ result :=
  silentReads (.optionalNone (.bothFirst (headerFails unspaced closed))) read

/- Behind the header the lines are read as a repetition that skips its blanks first. -/
theorem headerThen {here there : Cursor} {piece : Piece} {result : Option (List Piece × Cursor)}
    (taken : header.Reads here (some ([piece], there))) (read : later.Reads there result) :
    (both (optional description) closing).Reads here (behind [piece] result) := by
  obtain ⟨pieces, last, rest, more, two, rfl⟩ := afterMany read
  obtain ⟨start, skips, unspaced⟩ := skipsCut there
  obtain ⟨stop, onward, repeated⟩ := repeatedReads skips unspaced more
  have whole : description.Reads here (some ([piece] ++ pieces, stop)) :=
    .both taken ((skipIff skips unspaced).mpr repeated)
  rw [behindBehind]
  exact bothReads (.optional whole) ((skipAgain onward).mp two)

theorem frontIdle {chars : List Char} {ends : Break} {result : Option (List Piece × Cursor)}
    (idle : Idle chars) (unbroken : Unbroken chars) (inside : ends ≠ .textEnd)
    (lone : ends = .carriageReturn → rest.head? ≠ some '\n')
    (read : front.Reads ⟨before ++ (chars ++ ends.text), rest⟩ result) :
    front.Reads ⟨before, chars ++ (ends.text ++ rest)⟩ result := by
  have lineEnd := lineEndBreak inside rest
  have break' : (both skip newline).Reads ⟨before ++ chars, ends.text ++ rest⟩ _ :=
    (skipNothing (unspacedLineEnd lineEnd)).mpr (newlineReads inside lone)
  rw [← List.append_assoc] at read
  have whole := moreReads (idleSkipped idle unbroken lineEnd break') read
  rwa [behindNothing] at whole

theorem frontLast {chars : List Char} (idle : Idle chars) (unbroken : Unbroken chars)
    (before : List Char) : ∃ pieces last,
      front.Reads ⟨before, chars⟩ (some (pieces, last)) ∧ recordsIn pieces = [] := by
  have stops : (both skip idleLine).Reads ⟨before, chars⟩ none := by
    have none : (both skip newline).Reads ⟨before ++ chars, []⟩ Option.none :=
      (skipNothing unspacedNil).mpr (newlineFails (by simp))
    have whole := idleSkipped idle unbroken (by simp [LineEnd]) none
    rwa [List.append_nil] at whole
  suffices ∃ start, Cursor.Skips ⟨before, chars⟩ start ∧ Unspaced start.rest ∧
      (start.rest.head? ≠ some '#' → Closed start.rest) by
    obtain ⟨start, skips, unspaced, closed⟩ := this
    obtain ⟨pieces, last, done, none⟩ := closingIdle idle unbroken before
    have there : closing.Reads start (some (pieces, last)) := (skipAgain skips).mp done
    exact ⟨pieces, last, silentReads (.manyNone stops)
      ((skipIff skips unspaced).mpr (noHeader unspaced closed there)), none⟩
  cases idle with
  | blank blank =>
    have skips := skipsBlanks blank before []
    rw [List.append_nil] at skips
    exact ⟨_, skips, unspacedNil, by simp [Closed]⟩
  | comment blank =>
    exact ⟨_, skipsBlanks blank before _, unspacedBare (by decide) _, by simp⟩

theorem frontComma {lead : List Char} (blank : Blanks lead) :
    front.Reads ⟨before, lead ++ ',' :: rest⟩ none := by
  have unspaced := unspacedComma rest
  have closed : Closed (',' :: rest) := by
    rintro c ⟨⟩
    decide
  have done : closing.Reads ⟨before ++ lead, ',' :: rest⟩ none :=
    closingFails blanksNil unspaced (by decide)
  exact silentReads (.manyNone (idleLineFails blank unspaced (by simp) (by simp)))
    ((skipIff (skipsBlanks blank before _) unspaced).mpr (noHeader unspaced (fun _ => closed) done))

theorem countLead {lead : List Char} (blank : Blanks lead) (before : List Char) :
    (before ++ lead).count '\n' = before.count '\n' := by
  rw [List.count_append, noFeeds (unbrokenBlanks blank), Nat.add_zero]

section
variable {isHeader : Bool} {lead first left : List Char} {others : List (List Char × List Char)}
  {result : Option (List Piece × Cursor)} (blank : Blanks lead) (plain : Plain first)
  (counted : first.head? ≠ some '#') (spaced : Spread isHeader others) (halts : Halts isHeader left)
include blank plain counted spaced halts

theorem laterRow (isLater : isHeader = false) {ends : Break} (inside : ends ≠ .textEnd)
    (lone : ends = .carriageReturn →
      (lead ++ (first ++ (spread others ++ left))).head? ≠ some '\n')
    (read : later.Reads ⟨before ++ ends.text ++ lead ++ first ++ spread others, left⟩ result) :
    ∃ piece, later.Reads ⟨before, ends.text ++ (lead ++ (first ++ (spread others ++ left)))⟩
        (behind [piece] result) ∧
      recordsIn [piece] = [⟨1 + (before ++ ends.text).count '\n',
        (first :: others.map Prod.snd).map String.ofList⟩] := by
  obtain ⟨piece, there, taken, skips, same⟩ :=
    rowTaken plain counted spaced halts (before ++ ends.text ++ lead)
  subst isLater
  rw [countLead blank] at same
  have one : (both skip (optional line)).Reads
      ⟨before ++ ends.text, lead ++ (first ++ (spread others ++ left))⟩ (some ([piece], there)) :=
    (skipIff (skipsBlanks blank _ _) (unspacedField plain _)).mpr
      (.optional (.eitherSecond (commentFails (opensUnsigned plain counted _)) taken))
  exact ⟨piece, moreReads (laterLineReads inside lone one) ((loopIff skips).mp read), same⟩

theorem frontRow (isFirst : isHeader = true)
    (read : later.Reads ⟨before ++ lead ++ first ++ spread others, left⟩ result) :
    ∃ piece, front.Reads ⟨before, lead ++ (first ++ (spread others ++ left))⟩
        (behind [piece] result) ∧
      recordsIn [piece] = [⟨1 + before.count '\n',
        (first :: others.map Prod.snd).map String.ofList⟩] := by
  obtain ⟨piece, there, taken, skips, same⟩ :=
    rowTaken plain counted spaced halts (before ++ lead)
  subst isFirst
  rw [countLead blank] at same
  have unspaced := unspacedField plain (spread others ++ left)
  have unbroken : ∀ c ∈ (first ++ (spread others ++ left)).head?, c ≠ '\n' ∧ c ≠ '\r' := by
    obtain ⟨c, letters, rfl, bare⟩ := plainOpens plain
    rintro d ⟨⟩
    exact (bare c (List.mem_cons_self ..)).2
  have one := headerThen taken ((loopIff skips).mp read)
  exact ⟨piece, silentReads
    (.manyNone (idleLineFails blank unspaced (opensUnsigned plain counted _) unbroken))
    ((skipIff (skipsBlanks blank before _) unspaced).mpr one), same⟩

end

end Peg

theorem recordsAppend (pieces others : List Piece) :
    recordsIn (pieces ++ others) = recordsIn pieces ++ recordsIn others := by
  simp [recordsIn]

theorem textCons (chars : List Char) (ends : Break) (lines : List (List Char × Break)) :
    textOf ((chars, ends) :: lines) = chars ++ (ends.text ++ textOf lines) := by
  simp [textOf]

section
variable {chars : List Char} {ends : Break} {lines : List (List Char × Break)}
  (lined : Lined ((chars, ends) :: lines))
include lined

theorem lineEndBehind : LineEnd (ends.text ++ textOf lines) := by
  cases lined with
  | last => simp [LineEnd, Break.text, textOf]
  | more _ inside => exact lineEndBreak inside _

theorem filledBehind (inside : ends ≠ .textEnd) : ends.text ++ textOf lines ≠ [] := by
  cases ends with
  | textEnd => exact absurd rfl inside
  | _ => simp [Break.text]

theorem lastLine (last : ends = .textEnd) : lines = [] := by
  cases lined with
  | last => rfl
  | more _ inside => exact absurd last inside

theorem unbrokenLine : Unbroken chars := by
  cases lined with
  | last unbroken => exact unbroken
  | more unbroken => exact unbroken

end

namespace Peg

def Finds (peg : Peg) (here : Cursor) (found : List Record) : Prop :=
  ∃ pieces last, peg.Reads here (some (pieces, last)) ∧ recordsIn pieces = found

section
variable {isHeader : Bool} {before ending chars : List Char} {ends : Break}
  {lines : List (List Char × Break)} (lined : Lined ((chars, ends) :: lines))
  (ended : Ending isHeader ends ending)
include lined ended

/- The comment behind the last row stops the lines, and then the end of the text reads it. -/
theorem laterEnding {found : List Record} (unbroken : Unbroken ending)
    (rows : Rows false (before ++ ending ++ ends.text) lines found)
    (rest : later.Finds ⟨before ++ ending, ends.text ++ textOf lines⟩ found) :
    later.Finds ⟨before, ending ++ (ends.text ++ textOf lines)⟩ found := by
  cases ended with
  | blanks blank =>
    obtain ⟨pieces, last, read, same⟩ := rest
    exact ⟨pieces, last, (loopIff (skipsBlanks blank before _)).mpr read, same⟩
  | @comment blanks comment filled blank =>
    obtain rfl := lastLine lined rfl
    cases rows
    obtain ⟨pieces, last, done, none⟩ := closingIdle (.comment blank) unbroken before
    have stops : (both skip laterLine).Reads ⟨before, blanks ++ '#' :: comment⟩ Option.none :=
      laterFails blank (unspacedBare (by decide) _) (by simp)
    have whole : later.Reads ⟨before, blanks ++ '#' :: comment⟩ (some (pieces, last)) :=
      silentReads (.manyNone stops) done
    refine ⟨pieces, last, ?_, none⟩
    simpa [Break.text, textOf] using whole

theorem brokenEnding (broken : Broken false lines)
    (rest : later.Reads ⟨before ++ ending, ends.text ++ textOf lines⟩ none) :
    later.Reads ⟨before, ending ++ (ends.text ++ textOf lines)⟩ none := by
  cases ended with
  | blanks blank => exact (loopIff (skipsBlanks blank before _)).mpr rest
  | comment =>
    obtain rfl := lastLine lined rfl
    cases broken

end

theorem laterDone (before : List Char) : later.Finds ⟨before, []⟩ [] := by
  have stops : (both skip laterLine).Reads ⟨before, []⟩ none :=
    (skipNothing unspacedNil).mpr (.bothFirst (newlineFails (by simp)))
  obtain ⟨pieces, last, done, none⟩ :=
    closingIdle (.blank blanksNil) unbrokenNil before
  exact ⟨pieces, last, silentReads (.manyNone stops) done, none⟩

theorem findsBehind {peg next : Peg} {here there : Cursor} {record : Record} {found : List Record}
    (rest : next.Finds there found)
    (read : ∀ {result}, next.Reads there result → ∃ piece,
      peg.Reads here (behind [piece] result) ∧ recordsIn [piece] = [record]) :
    peg.Finds here (record :: found) := by
  obtain ⟨pieces, last, more, same⟩ := rest
  obtain ⟨piece, whole, one⟩ := read more
  refine ⟨piece :: pieces, last, whole, ?_⟩
  rw [← List.singleton_append, recordsAppend, one, same, List.singleton_append]

section
variable {isHeader : Bool} {lead first left : List Char} {others : List (List Char × List Char)}

theorem textRow (lead first left rest : List Char) (others : List (List Char × List Char)) :
    lead ++ (first ++ (spread others ++ left)) ++ rest =
      lead ++ (first ++ (spread others ++ (left ++ rest))) := by
  simp only [List.append_assoc]

theorem unbrokenLeft (unbroken : Unbroken (lead ++ (first ++ (spread others ++ left)))) :
    Unbroken left :=
  unbrokenBehind _ (unbrokenBehind _ (unbrokenBehind _ unbroken))

end

/- Induction on the lines; each is read with the break in front of it. -/
theorem laterRows {before chars : List Char} {ends : Break} {lines : List (List Char × Break)}
    {found : List Record} (lined : Lined ((chars, ends) :: lines))
    (rows : Rows false (before ++ ends.text) lines found) :
    later.Finds ⟨before, ends.text ++ textOf lines⟩ found := by
  induction lines generalizing before chars ends found with
  | nil =>
    cases lined with
    | last =>
      cases rows
      exact laterDone before
    | more _ _ _ rest => cases rest
  | cons line lines ih =>
    obtain ⟨chars, ends'⟩ := line
    cases lined with
    | more _ inside lone lined =>
      have lineEnd := lineEndBehind lined
      have unbroken := unbrokenLine lined
      rw [textCons] at lone ⊢
      cases rows with
      | idle idle rest =>
        rw [← List.append_assoc] at rest
        obtain ⟨pieces, last, read, same⟩ := ih lined rest
        exact ⟨pieces, last, laterIdle inside idle unbroken lineEnd lone read, same⟩
      | @row _ _ _ _ _ _ found row rest =>
        cases row with
        | @fields lead first ending others blank plain counted spaced ended =>
          have behind : Rows false (before ++ ends.text ++ lead ++ first ++ spread others ++
              ending ++ ends'.text) lines found := by simpa using rest
          have onward := laterEnding lined ended (unbrokenLeft unbroken) behind (ih lined behind)
          rw [textRow] at lone ⊢
          exact findsBehind onward
            (laterRow blank plain counted spaced (endingHalts ended lineEnd) rfl inside lone)

theorem laterBroken {before chars : List Char} {ends : Break} {lines : List (List Char × Break)}
    (lined : Lined ((chars, ends) :: lines)) (broken : Broken false lines) :
    later.Reads ⟨before, ends.text ++ textOf lines⟩ none := by
  induction lines generalizing before chars ends with
  | nil => cases broken
  | cons line lines ih =>
    obtain ⟨chars, ends'⟩ := line
    cases lined with
    | more _ inside lone lined =>
      have lineEnd := lineEndBehind lined
      have unbroken := unbrokenLine lined
      rw [textCons] at lone ⊢
      cases broken with
      | idle idle rest => exact laterIdle inside idle unbroken lineEnd lone (ih lined rest)
      | row row rest =>
        cases row with
        | @fields lead first ending others blank plain counted spaced ended =>
          have onward : later.Reads ⟨before ++ ends.text ++ lead ++ first ++ spread others,
              ending ++ (ends'.text ++ textOf lines)⟩ none :=
            brokenEnding lined ended rest (ih lined rest)
          rw [textRow] at lone ⊢
          obtain ⟨piece, read, -⟩ := laterRow blank plain counted spaced
            (endingHalts ended lineEnd) rfl inside lone onward
          exact read
      | here spoilt =>
        cases spoilt with
        | comma blank =>
          rw [List.append_assoc] at lone ⊢
          exact laterComma inside blank lone
        | @stuck lead first left others blank plain counted spaced stuck =>
          have onward : ∀ before, later.Reads ⟨before, left ++ (ends'.text ++ textOf lines)⟩ none :=
            fun _ => laterStuck stuck (unbrokenLeft unbroken) lineEnd (filledBehind lined)
          rw [textRow] at lone ⊢
          obtain ⟨piece, read, -⟩ := laterRow blank plain counted spaced
            (stuckHalts stuck lineEnd) rfl inside lone (onward _)
          exact read

theorem frontRows {before : List Char} {lines : List (List Char × Break)} {found : List Record}
    (lined : Lined lines) (rows : Rows true before lines found) :
    front.Finds ⟨before, textOf lines⟩ found := by
  induction lines generalizing before found with
  | nil => cases lined
  | cons line lines ih =>
    obtain ⟨chars, ends⟩ := line
    have lineEnd := lineEndBehind lined
    have unbroken := unbrokenLine lined
    rw [textCons]
    cases rows with
    | idle idle rest =>
      cases lined with
      | last =>
        cases rest
        obtain ⟨pieces, last, read, none⟩ := frontLast idle unbroken before
        exact ⟨pieces, last, by simpa [Break.text, textOf] using read, none⟩
      | more _ inside lone lined =>
        obtain ⟨pieces, last, read, same⟩ := ih lined rest
        exact ⟨pieces, last, frontIdle idle unbroken inside lone read, same⟩
    | @row _ _ _ _ _ _ found row rest =>
      cases row with
      | @fields lead first ending others blank plain counted spaced ended =>
        have behind : Rows false (before ++ lead ++ first ++ spread others ++ ending ++
            ends.text) lines found := by simpa using rest
        have onward := laterEnding lined ended (unbrokenLeft unbroken) behind
          (laterRows lined behind)
        rw [textRow]
        exact findsBehind onward
          (frontRow blank plain counted spaced (endingHalts ended lineEnd) rfl)

theorem frontBroken {before : List Char} {lines : List (List Char × Break)} (lined : Lined lines)
    (broken : Broken true lines) : front.Reads ⟨before, textOf lines⟩ none := by
  induction lines generalizing before with
  | nil => cases broken
  | cons line lines ih =>
    obtain ⟨chars, ends⟩ := line
    have lineEnd := lineEndBehind lined
    have unbroken := unbrokenLine lined
    rw [textCons]
    cases broken with
    | idle idle rest =>
      cases lined with
      | last => cases rest
      | more _ inside lone lined => exact frontIdle idle unbroken inside lone (ih lined rest)
    | row row rest =>
      cases row with
      | @fields lead first ending others blank plain counted spaced ended =>
        have onward : later.Reads ⟨before ++ lead ++ first ++ spread others,
            ending ++ (ends.text ++ textOf lines)⟩ none :=
          brokenEnding lined ended rest (laterBroken lined rest)
        rw [textRow]
        obtain ⟨piece, read, -⟩ := frontRow blank plain counted spaced
          (endingHalts ended lineEnd) rfl onward
        exact read
    | here spoilt =>
      cases spoilt with
      | comma blank =>
        rw [List.append_assoc]
        exact frontComma blank
      | @stuck lead first left others blank plain counted spaced stuck =>
        have onward : ∀ before, later.Reads ⟨before, left ++ (ends.text ++ textOf lines)⟩ none :=
          fun _ => laterStuck stuck (unbrokenLeft unbroken) lineEnd (filledBehind lined)
        rw [textRow]
        obtain ⟨piece, read, -⟩ := frontRow blank plain counted spaced
          (stuckHalts stuck lineEnd) rfl (onward _)
        exact read

theorem machineFinds {text : List Char} {found : List Record} (read : front.Finds ⟨[], text⟩ found) :
    ∃ pieces last, machine.Reads ⟨[], text⟩ (some (pieces, last)) ∧
      recordsIn (pieces.flatMap Piece.inner) = found := by
  obtain ⟨pieces, last, read, same⟩ := read
  exact ⟨_, _, machineReads read, by rwa [List.flatMap_singleton]⟩

end Peg

theorem formatFinds {text : String} {found : List Record} (format : Format text found) :
    ∃ pieces last, Peg.machine.Reads ⟨[], text.toList⟩ (some (pieces, last)) ∧
      recordsIn (pieces.flatMap Piece.inner) = found := by
  obtain ⟨lines, lined, whole, rows⟩ := format
  rw [← whole]
  exact Peg.machineFinds (Peg.frontRows lined rows)

theorem formatOrBroken (text : String) :
    (∃ found, Format text found) ∨ Peg.machine.Reads ⟨[], text.toList⟩ none := by
  have lined := linedCut text.toList
  have whole : textOf (cut text.toList) = text.toList := flattenCut text.toList
  obtain ⟨found, rows⟩ | broken := rowsOrBroken lined true []
  · exact .inl ⟨found, _, lined, whole, rows⟩
  · have read := Peg.machineReads (Peg.frontBroken lined broken)
    rw [whole] at read
    exact .inr read

/- The grammar takes exactly the texts in the format, and the records that it finds are those
of the format; so are the records that are read. Every other text is a syntax error. -/
theorem grammarExact (text : String) :
    (∃! result, Peg.machine.Reads ⟨[], text.toList⟩ result) ∧
    (∀ found, (∃ pieces last, Peg.machine.Reads ⟨[], text.toList⟩ (some (pieces, last)) ∧
      recordsIn (pieces.flatMap Piece.inner) = found) ↔ Format text found) ∧
    (∀ found, records text = .ok found ↔ Format text found) ∧
    ((∀ found, ¬ Format text found) → Peg.machine.Reads ⟨[], text.toList⟩ none ∧
      ∃ cause, records text = .error cause ∧ ∀ {S : Type} [Symbol S] [DecidableEq S],
        (Machine.ofText text : Except DescriptionError (Machine S)) = .error (.malformed cause)) := by
  refine ⟨?_, fun found => ⟨?_, formatFinds⟩, fun _ => formatRead, fun none => ?_⟩
  · obtain ⟨found, format⟩ | failed := formatOrBroken text
    · obtain ⟨pieces, last, read, -⟩ := formatFinds format
      exact ⟨_, read, fun _ other => Peg.readsOnce other read⟩
    · exact ⟨_, failed, fun _ other => Peg.readsOnce other failed⟩
  · rintro ⟨pieces, last, read, rfl⟩
    obtain ⟨found, format⟩ | failed := formatOrBroken text
    · obtain ⟨pieces', last', read', rfl⟩ := formatFinds format
      obtain ⟨rfl, rfl⟩ := Prod.mk.inj (Option.some.inj (Peg.readsOnce read read'))
      exact format
    · cases Peg.readsOnce read failed
  · refine ⟨(formatOrBroken text).resolve_left fun ⟨found, format⟩ => none found format, ?_⟩
    cases read : records text with
    | ok found => exact absurd (formatRead.mp read) (none found)
    | error cause =>
      refine ⟨cause, rfl, fun {S} _ _ => ?_⟩
      rw [Machine.ofText, read]
      rfl

end Multitape.Description
