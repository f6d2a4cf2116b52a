import Multitape.Proofs.Description.Format

/-! Reading lines that are in the format gives their records, and a spoilt line makes the
reading fail. As every line is in the format or spoilt, what is read is what the format says. -/
namespace Multitape.Description
open Lexeme (ofChars extend)

def Apart (column : Nat) (lexemes : List Lexeme) : Prop :=
  ∀ chars rest, lexemes ≠ .field column chars :: rest

theorem startsLater {chars field : List Char} {column start : Nat} {rest : List Lexeme}
    (starts : ofChars column chars = .field start field :: rest) : column ≤ start := by
  induction chars generalizing column with
  | nil => cases starts
  | cons c chars ih =>
    unfold ofChars at starts
    dsimp only at starts
    split at starts
    · have later := ih starts
      omega
    · split at starts
      · cases starts
      · unfold extend at starts
        split at starts
        · split at starts
          all_goals cases starts; exact Nat.le_refl _
        · cases starts
          exact Nat.le_refl _

theorem extendApart {column : Nat} {c : Char} {lexemes : List Lexeme}
    (apart : Apart (column + 1) lexemes) : extend column c lexemes = .field column [c] :: lexemes := by
  unfold extend
  split
  · rename_i start chars rest
    have other : start ≠ column + 1 := by
      rintro rfl
      exact apart chars rest rfl
    rw [if_neg other]
  · rfl

/- Induction on the field: its last character stands alone in front of what follows, and
each further one joins a field that starts right behind it. -/
theorem ofCharsField {field rest : List Char} {column : Nat} (filled : field ≠ [])
    (bare : ∀ c ∈ field, c ≠ ',' ∧ c ≠ ' ' ∧ c ≠ '\t')
    (apart : Apart (column + field.length) (ofChars (column + field.length) rest)) :
    ofChars column (field ++ rest) = .field column field :: ofChars (column + field.length) rest := by
  induction field generalizing column with
  | nil => exact absurd rfl filled
  | cons c field ih =>
    have head := bare c (by simp)
    have opened : ofChars column (c :: field ++ rest) =
        extend column c (ofChars (column + 1) (field ++ rest)) := by
      rw [List.cons_append, ofChars]
      simp only [head, or_self, if_false]
    rw [opened]
    cases field with
    | nil => exact extendApart apart
    | cons d field =>
      rw [List.length_cons, ← Nat.add_assoc, Nat.add_right_comm] at apart ⊢
      rw [ih (List.cons_ne_nil d field) (fun e mem => bare e (List.mem_cons_of_mem c mem)) apart]
      simp only [extend, if_true]

variable {isHeader : Bool}

theorem lexedBlanks {blanks : List Char} (blank : Blanks blanks) (rest : List Char) (column : Nat) :
    ofChars column (blanks ++ rest) = ofChars (column + blanks.length) rest := by
  induction blanks generalizing column with
  | nil => rfl
  | cons c blanks ih =>
    obtain ⟨here, later⟩ := List.forall_mem_cons.mp blank
    rw [List.cons_append, ofChars, if_pos here, ih later, List.length_cons, Nat.add_right_comm,
      Nat.add_assoc]

theorem lexedComma (rest : List Char) (column : Nat) :
    ofChars column (',' :: rest) = .comma column :: ofChars (column + 1) rest := by
  rw [ofChars, if_neg (by simp), if_pos rfl]

theorem lexedField {field rest : List Char} (plain : Plain field) (parted : Parted rest)
    (column : Nat) : ofChars column (field ++ rest) =
      .field column field :: ofChars (column + field.length) rest := by
  refine ofCharsField plain.filled plain.apart fun chars lexemes starts => ?_
  cases rest with
  | nil => cases starts
  | cons c rest =>
    rcases parted c rfl with rfl | blank
    · cases starts
    · rw [ofChars, if_pos blank] at starts
      have later := startsLater starts
      omega

/- The lexeme that begins with this character. -/
theorem lexedBare {c : Char} (bare : Bare c) (rest : List Char) (column : Nat) :
    ∃ chars lexemes, ofChars column (c :: rest) = .field column (c :: chars) :: lexemes := by
  obtain ⟨⟨notComma, notSpace, notTab⟩, -⟩ := bare
  have opened : ofChars column (c :: rest) = extend column c (ofChars (column + 1) rest) := by
    rw [ofChars]
    simp only [notComma, notSpace, notTab, or_self, if_false]
  rw [opened]
  unfold extend
  split
  · split
    · exact ⟨_, _, rfl⟩
    · exact ⟨_, _, rfl⟩
  · exact ⟨_, _, rfl⟩

section
variable {line : Line}

def rowTail (isHeader : Bool) (line : Line) (lexemes : List Lexeme) :
    Except SyntaxError (List String) :=
  if isHeader then headerTail line lexemes else recordTail line lexemes

theorem tailNext {gap field rest : List Char} (between : Gap isHeader gap) (plain : Plain field)
    (parted : Parted rest) (column : Nat) : ∃ later,
      rowTail isHeader line (ofChars column (gap ++ (field ++ rest))) =
        (rowTail isHeader line (ofChars later rest)).map (String.ofList field :: ·) := by
  cases between with
  | @comma _ before after blank blank' =>
    rw [List.append_assoc, lexedBlanks blank, List.cons_append, lexedComma, lexedBlanks blank',
      lexedField plain parted]
    refine ⟨column + before.length + 1 + after.length + field.length, ?_⟩
    cases isHeader <;> rfl
  | blanks filled blank =>
    rw [lexedBlanks blank, lexedField plain parted]
    exact ⟨_, rfl⟩

theorem tailEnds {left : List Char} (ended : Ending isHeader line.ends left) (column : Nat) :
    rowTail isHeader line (ofChars column left) = .ok [] := by
  generalize same : line.ends = ends at ended
  cases ended with
  | blanks blank =>
    have none := lexedBlanks blank [] column
    rw [List.append_nil] at none
    rw [none]
    cases isHeader <;> rfl
  | comment filled blank =>
    rw [lexedBlanks blank]
    obtain ⟨chars, lexemes, lexed⟩ := lexedBare (show Bare '#' by decide) _ _
    rw [lexed]
    simp [rowTail, recordTail, Lexeme.isComment, same]

theorem tailStuck {left : List Char} (stuck : Stuck isHeader line.ends left) (column : Nat) :
    ∃ cause, rowTail isHeader line (ofChars column left) = .error cause := by
  generalize same : line.ends = ends at stuck
  cases stuck with
  | @comma _ _ before after rest blank blank' last =>
    rw [lexedBlanks blank, lexedComma, lexedBlanks blank']
    cases rest with
    | nil => cases isHeader <;> exact ⟨_, rfl⟩
    | cons c rest =>
      obtain rfl := last c rfl
      rw [lexedComma]
      cases isHeader <;> exact ⟨_, rfl⟩
  | @field _ before rest c filled blank bare inside =>
    rw [lexedBlanks blank]
    obtain ⟨chars, lexemes, lexed⟩ := lexedBare bare rest (column + before.length)
    rw [lexed]
    simp only [rowTail, recordTail, Bool.false_eq_true, if_false, same]
    split
    · rename_i comment
      have sign : c = '#' := by
        unfold Lexeme.isComment at comment
        split at comment
        · rename_i whole
          exact (List.cons.inj (Lexeme.field.inj whole).2).1
        · cases comment
      rw [if_neg (inside sign)]
      exact ⟨_, rfl⟩
    · exact ⟨_, rfl⟩

/- Induction on the fields: each is read, and then what is left is as good as it was. -/
theorem tailSpread {others : List (List Char × List Char)} {left : List Char}
    (spaced : Spread isHeader others) (parted : Parted left) (column : Nat) : ∃ later,
      rowTail isHeader line (ofChars column (spread others ++ left)) =
        (rowTail isHeader line (ofChars later left)).map
          ((others.map Prod.snd).map String.ofList ++ ·) := by
  induction others generalizing column with
  | nil =>
    refine ⟨column, ?_⟩
    change rowTail isHeader line (ofChars column left) = _
    cases rowTail isHeader line (ofChars column left) <;> rfl
  | cons pair others ih =>
    obtain ⟨gap, field⟩ := pair
    obtain ⟨⟨between, plain⟩, spaced⟩ := List.forall_mem_cons.mp spaced
    obtain ⟨later, first⟩ := tailNext between plain (partedSpread spaced parted) column
    obtain ⟨last, rest⟩ := ih spaced later
    refine ⟨last, ?_⟩
    have split : spread ((gap, field) :: others) ++ left =
        gap ++ (field ++ (spread others ++ left)) := by simp [spread]
    rw [split, first, rest]
    cases rowTail isHeader line (ofChars last left) <;> rfl

theorem firstReads {lead first : List Char} {others : List (List Char × List Char)}
    {left : List Char} (blank : Blanks lead) (plain : Plain first) (counted : first.head? ≠ some '#')
    (spaced : Spread isHeader others) (parted : Parted left)
    (here : line.chars = lead ++ (first ++ (spread others ++ left))) : ∃ later,
      recordOf? line isHeader = (rowTail isHeader line (ofChars later left)).map fun fields =>
        some ⟨line.start.line, (first :: others.map Prod.snd).map String.ofList ++ fields⟩ := by
  have lexed : Lexeme.ofLine line = .field (line.start.column + lead.length) first ::
      ofChars (line.start.column + lead.length + first.length) (spread others ++ left) := by
    rw [Lexeme.ofLine, here, lexedBlanks blank, lexedField plain (partedSpread spaced parted)]
  have other : ∀ column, (Lexeme.field column first).isComment = false := by
    intro column
    unfold Lexeme.isComment
    split
    · rename_i same
      exact absurd (by rw [(Lexeme.field.inj same).2]; rfl) counted
    · rfl
  obtain ⟨later, rest⟩ := tailSpread spaced parted
    (line.start.column + lead.length + first.length)
  refine ⟨later, ?_⟩
  unfold recordOf?
  rw [lexed]
  dsimp only
  rw [other, if_neg (by simp)]
  change (rowTail isHeader line _).map _ = _
  rw [rest]
  cases rowTail isHeader line (ofChars later left) <;> rfl

theorem idleReads (idle : Idle line.chars) : recordOf? line isHeader = .ok none := by
  unfold recordOf? Lexeme.ofLine
  generalize line.chars = chars at idle
  cases idle with
  | blank blank =>
    have none := lexedBlanks blank [] line.start.column
    rw [List.append_nil] at none
    rw [none]
    rfl
  | comment blank =>
    rw [lexedBlanks blank]
    obtain ⟨chars, lexemes, lexed⟩ := lexedBare (show Bare '#' by decide) _ _
    rw [lexed]
    rfl

theorem rowReads {fields : List (List Char)} (row : Row isHeader line.ends line.chars fields) :
    recordOf? line isHeader = .ok (some ⟨line.start.line, fields.map String.ofList⟩) := by
  generalize here : line.chars = chars at row
  cases row with
  | fields blank plain counted spaced ended =>
    obtain ⟨later, read⟩ := firstReads blank plain counted spaced (partedEnding ended) here
    rw [read, tailEnds ended]
    simp [Except.map]

theorem spoiltReads (spoilt : Spoilt isHeader line.ends line.chars) :
    ∃ cause, recordOf? line isHeader = .error cause := by
  generalize here : line.chars = chars at spoilt
  cases spoilt with
  | @comma lead rest blank =>
    have lexed : Lexeme.ofLine line = .comma (line.start.column + lead.length) ::
        ofChars (line.start.column + lead.length + 1) rest := by
      rw [Lexeme.ofLine, here, lexedBlanks blank, lexedComma]
    unfold recordOf?
    rw [lexed]
    exact ⟨_, rfl⟩
  | stuck blank plain counted spaced stuck =>
    obtain ⟨later, read⟩ := firstReads blank plain counted spaced (partedStuck stuck) here
    obtain ⟨cause, failed⟩ := tailStuck stuck later
    rw [read, failed]
    exact ⟨cause, rfl⟩

end

theorem nextLine {start : Position} {before chars : List Char} {ends : Break}
    (unbroken : Unbroken chars) (here : start.line = 1 + before.count '\n') :
    (Line.mk start chars ends).next.line = 1 + (before ++ (chars ++ ends.text)).count '\n' := by
  cases ends <;> simp [Line.next, Break.text, here, noFeeds unbroken, Nat.add_assoc]

theorem unbrokenLines {lines : List (List Char × Break)} (lined : Lined lines) :
    ∀ pair ∈ lines, Unbroken pair.1 := by
  induction lined with
  | last unbroken => simpa using unbroken
  | more unbroken _ _ _ ih => exact List.forall_mem_cons.mpr ⟨unbroken, ih⟩

theorem rowsRead {lines : List (List Char × Break)} {before : List Char} {found : List Record}
    (rows : Rows isHeader before lines found) (unbroken : ∀ pair ∈ lines, Unbroken pair.1)
    {start : Position} (here : start.line = 1 + before.count '\n') :
    recordsOf isHeader (place start lines) = .ok found := by
  induction rows generalizing start with
  | done => rfl
  | idle idle _ ih =>
    obtain ⟨first, others⟩ := List.forall_mem_cons.mp unbroken
    have rest := ih others (nextLine first here)
    rw [place, recordsOf, idleReads idle]
    exact rest
  | @row _ before chars ends _ fields _ row _ ih =>
    obtain ⟨first, others⟩ := List.forall_mem_cons.mp unbroken
    have rest := ih others (nextLine first here)
    rw [place, recordsOf, rowReads row, ← here]
    simp only [bind, Except.bind, pure, Except.pure, rest]

theorem brokenReads {lines : List (List Char × Break)} (broken : Broken isHeader lines)
    (start : Position) : ∃ cause, recordsOf isHeader (place start lines) = .error cause := by
  induction broken generalizing start with
  | @here _ chars ends _ spoilt =>
    have first : Spoilt _ (Line.mk start chars ends).ends (Line.mk start chars ends).chars := spoilt
    obtain ⟨cause, failed⟩ := spoiltReads first
    exact ⟨cause, by rw [place, recordsOf, failed]; rfl⟩
  | @idle _ chars ends _ idle _ ih =>
    obtain ⟨cause, failed⟩ := ih (Line.mk start chars ends).next
    refine ⟨cause, ?_⟩
    rw [place, recordsOf, idleReads idle]
    exact failed
  | @row _ chars ends _ _ row _ ih =>
    obtain ⟨cause, failed⟩ := ih (Line.mk start chars ends).next
    refine ⟨cause, ?_⟩
    rw [place, recordsOf, rowReads row]
    simp only [bind, Except.bind, failed]

theorem formatRead {text : String} {found : List Record} :
    records text = .ok found ↔ Format text found := by
  constructor
  · intro read
    have lined := linedCut text.toList
    obtain ⟨other, rows⟩ | broken := rowsOrBroken lined true []
    · have same := rowsRead rows (unbrokenLines lined) (show Position.first.line = _ from rfl)
      obtain rfl := Except.ok.inj (read.symm.trans same)
      exact ⟨cut text.toList, lined, flattenCut text.toList, rows⟩
    · obtain ⟨cause, failed⟩ := brokenReads broken .first
      cases read.symm.trans failed
  · rintro ⟨lines, lined, same, rows⟩
    rw [records, Description.lines, ← same, cutLined lined]
    exact rowsRead rows (unbrokenLines lined) rfl

-- A lone carriage return ends a line, but the count of the lines leaves it out.
example : Format "# a\r1 2, 2 1\r\n\n 0 , _ # b" [⟨1, ["1", "2", "2", "1"]⟩, ⟨3, ["0", "_"]⟩] :=
  formatRead.mp rfl

end Multitape.Description
