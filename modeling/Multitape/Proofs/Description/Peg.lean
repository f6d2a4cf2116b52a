import Mathlib.Data.List.Infix
import Multitape.Proofs.Description.Format

/-! Parsing expressions and what they read. A choice that has been made is kept, a repetition
takes as much as it can, and what fails leaves no trace. Blanks are skipped between the items
of a sequence and of a repetition, so they are skipped wherever one of these goes on. -/
namespace Multitape.Description

structure Cursor where
  before : List Char
  rest : List Char

inductive Kind where
  | machine
  | header
  | record
  | field
  | textEnd
  deriving DecidableEq

structure Piece where
  kind : Kind
  start : Cursor
  stop : Cursor
  inner : List Piece

inductive Peg where
  | start
  | finish
  | any
  | literal (chars : List Char)
  | both (first second : Peg)
  | either (first second : Peg)
  | optional (item : Peg)
  | many (item : Peg)
  | without (item : Peg)
  | named (kind : Kind) (item : Peg)

namespace Peg

inductive Reads : Peg → Cursor → Option (List Piece × Cursor) → Prop where
  | start {rest : List Char} : Reads start ⟨[], rest⟩ (some ([], ⟨[], rest⟩))
  | started {c : Char} {before rest : List Char} : Reads start ⟨c :: before, rest⟩ none
  | finish {before : List Char} : Reads finish ⟨before, []⟩ (some ([], ⟨before, []⟩))
  | unfinished {c : Char} {before rest : List Char} : Reads finish ⟨before, c :: rest⟩ none
  | any {c : Char} {before rest : List Char} :
    Reads any ⟨before, c :: rest⟩ (some ([], ⟨before ++ [c], rest⟩))
  | nothing {before : List Char} : Reads any ⟨before, []⟩ none
  | literal {chars before text rest : List Char} (here : text = chars ++ rest) :
    Reads (literal chars) ⟨before, text⟩ (some ([], ⟨before ++ chars, rest⟩))
  | differs {chars before text : List Char} (other : ¬ chars <+: text) :
    Reads (literal chars) ⟨before, text⟩ none
  | both {first second : Peg} {here mid last : Cursor} {pieces others : List Piece}
    (one : Reads first here (some (pieces, mid))) (two : Reads second mid (some (others, last))) :
    Reads (both first second) here (some (pieces ++ others, last))
  | bothFirst {first second : Peg} {here : Cursor} (one : Reads first here none) :
    Reads (both first second) here none
  | bothSecond {first second : Peg} {here mid : Cursor} {pieces : List Piece}
    (one : Reads first here (some (pieces, mid))) (two : Reads second mid none) :
    Reads (both first second) here none
  | eitherFirst {first second : Peg} {here : Cursor} {read : List Piece × Cursor}
    (one : Reads first here (some read)) : Reads (either first second) here (some read)
  | eitherSecond {first second : Peg} {here : Cursor} {result : Option (List Piece × Cursor)}
    (one : Reads first here none) (two : Reads second here result) :
    Reads (either first second) here result
  | optional {item : Peg} {here : Cursor} {read : List Piece × Cursor}
    (one : Reads item here (some read)) : Reads (optional item) here (some read)
  | optionalNone {item : Peg} {here : Cursor} (one : Reads item here none) :
    Reads (optional item) here (some ([], here))
  | many {item : Peg} {here mid last : Cursor} {pieces others : List Piece}
    (one : Reads item here (some (pieces, mid)))
    (more : Reads (many item) mid (some (others, last))) :
    Reads (many item) here (some (pieces ++ others, last))
  | manyNone {item : Peg} {here : Cursor} (one : Reads item here none) :
    Reads (many item) here (some ([], here))
  | without {item : Peg} {here : Cursor} (one : Reads item here none) :
    Reads (without item) here (some ([], here))
  | withoutNot {item : Peg} {here : Cursor} {read : List Piece × Cursor}
    (one : Reads item here (some read)) : Reads (without item) here none
  | named {kind : Kind} {item : Peg} {here last : Cursor} {pieces : List Piece}
    (one : Reads item here (some (pieces, last))) :
    Reads (named kind item) here (some ([⟨kind, here, last, pieces⟩], last))
  | namedNone {kind : Kind} {item : Peg} {here : Cursor} (one : Reads item here none) :
    Reads (named kind item) here none

theorem readsOnce {peg : Peg} {here : Cursor} {one two : Option (List Piece × Cursor)}
    (first : peg.Reads here one) (second : peg.Reads here two) : one = two := by
  induction first generalizing two with
  | literal same =>
    cases second with
    | literal same' => rw [List.append_cancel_left (same.symm.trans same')]
    | differs other => exact absurd ⟨_, same.symm⟩ other
  | differs other =>
    cases second with
    | literal same => exact absurd ⟨_, same.symm⟩ other
    | differs => rfl
  | both _ _ ihOne ihTwo =>
    cases second with
    | both one' two' =>
      obtain ⟨rfl, rfl⟩ := Prod.mk.inj (Option.some.inj (ihOne one'))
      cases ihTwo two'
      rfl
    | bothFirst one' => cases ihOne one'
    | bothSecond one' two' =>
      obtain ⟨rfl, rfl⟩ := Prod.mk.inj (Option.some.inj (ihOne one'))
      cases ihTwo two'
  | bothFirst _ ih =>
    cases second with
    | bothFirst => rfl
    | both one' | bothSecond one' => cases ih one'
  | bothSecond _ _ ihOne ihTwo =>
    cases second with
    | both one' two' =>
      obtain ⟨rfl, rfl⟩ := Prod.mk.inj (Option.some.inj (ihOne one'))
      cases ihTwo two'
    | bothFirst | bothSecond => rfl
  | eitherFirst _ ih =>
    cases second with
    | eitherFirst one' => exact ih one'
    | eitherSecond one' => cases ih one'
  | eitherSecond _ _ ihOne ihTwo =>
    cases second with
    | eitherFirst one' => cases ihOne one'
    | eitherSecond _ two' => exact ihTwo two'
  | optional _ ih =>
    cases second with
    | optional one' => exact ih one'
    | optionalNone one' => cases ih one'
  | optionalNone _ ih =>
    cases second with
    | optional one' => cases ih one'
    | optionalNone => rfl
  | many _ _ ihOne ihMore =>
    cases second with
    | many one' more' =>
      obtain ⟨rfl, rfl⟩ := Prod.mk.inj (Option.some.inj (ihOne one'))
      cases ihMore more'
      rfl
    | manyNone one' => cases ihOne one'
  | manyNone _ ih =>
    cases second with
    | many one' => cases ih one'
    | manyNone => rfl
  | without _ ih =>
    cases second with
    | without => rfl
    | withoutNot one' => cases ih one'
  | withoutNot _ ih =>
    cases second with
    | without one' => cases ih one'
    | withoutNot => rfl
  | named _ ih =>
    cases second with
    | named one' =>
      cases ih one'
      rfl
    | namedNone one' => cases ih one'
  | namedNone _ ih =>
    cases second with
    | named one' => cases ih one'
    | namedNone => rfl
  | _ =>
    cases second
    rfl

def behind (pieces : List Piece) (result : Option (List Piece × Cursor)) :
    Option (List Piece × Cursor) :=
  result.map fun (others, last) => (pieces ++ others, last)

theorem behindBehind (pieces others : List Piece) (result : Option (List Piece × Cursor)) :
    behind pieces (behind others result) = behind (pieces ++ others) result := by
  cases result <;> simp [behind]

theorem behindNothing (result : Option (List Piece × Cursor)) : behind [] result = result := by
  cases result <;> rfl

section
variable {first second item after : Peg} {here mid : Cursor} {pieces : List Piece}
  {result : Option (List Piece × Cursor)}

theorem bothReads (one : first.Reads here (some (pieces, mid))) (two : second.Reads mid result) :
    (both first second).Reads here (behind pieces result) := by
  cases result with
  | none => exact .bothSecond one two
  | some read => exact .both one two

theorem afterMany (read : (both (many item) after).Reads here result) : ∃ pieces mid rest,
    (many item).Reads here (some (pieces, mid)) ∧ after.Reads mid rest ∧
      result = behind pieces rest := by
  cases read with
  | both one two => exact ⟨_, _, _, one, two, rfl⟩
  | bothFirst one => cases one
  | bothSecond one two => exact ⟨_, _, _, one, two, rfl⟩

/- What follows a repetition can be read item by item. -/
theorem moreReads (one : item.Reads here (some (pieces, mid)))
    (rest : (both (many item) after).Reads mid result) :
    (both (many item) after).Reads here (behind pieces result) := by
  obtain ⟨others, last, result, more, two, rfl⟩ := afterMany rest
  rw [behindBehind]
  exact bothReads (.many one more) two

theorem silentReads (one : first.Reads here (some ([], mid))) (two : second.Reads mid result) :
    (both first second).Reads here result := by
  have read := bothReads one two
  rwa [behindNothing] at read

end

def blank : Peg := either (literal [' ']) (literal ['\t'])

def skip : Peg := many blank

def next (first second : Peg) : Peg := both first (both skip second)

def repeated (item : Peg) : Peg := optional (both item (many (both skip item)))

end Peg

def Cursor.Skips (here there : Cursor) : Prop :=
  ∃ blanks, Blanks blanks ∧ here.rest = blanks ++ there.rest ∧ there.before = here.before ++ blanks

theorem skipsBlanks {blanks : List Char} (blank : Blanks blanks) (before rest : List Char) :
    Cursor.Skips ⟨before, blanks ++ rest⟩ ⟨before ++ blanks, rest⟩ :=
  ⟨blanks, blank, rfl, rfl⟩

theorem skipsSelf (here : Cursor) : here.Skips here :=
  ⟨[], blanksNil, rfl, (List.append_nil _).symm⟩

theorem skipsBoth {here mid last : Cursor} (one : here.Skips mid) (two : mid.Skips last) :
    here.Skips last := by
  obtain ⟨some, blank, left, place⟩ := one
  obtain ⟨more, blank', left', place'⟩ := two
  refine ⟨some ++ more, fun c mem => (List.mem_append.mp mem).elim (blank c) (blank' c), ?_, ?_⟩
  · rw [left, left', List.append_assoc]
  · rw [place', place, List.append_assoc]

/- Of two ways over blanks the longer one goes on from where the shorter one ends. -/
theorem skipsOn {here mid last : Cursor} (short : here.Skips mid) (long : here.Skips last)
    (unspaced : Unspaced last.rest) : mid.Skips last := by
  obtain ⟨some, blank, left, place⟩ := short
  obtain ⟨all, blank', left', place'⟩ := long
  obtain ⟨more, rfl, rest⟩ | ⟨more, rfl, rest⟩ :=
    List.append_eq_append_iff.mp (left.symm.trans left')
  · exact ⟨more, fun c mem => blank' c (List.mem_append_right _ mem), rest,
      by rw [place', place, List.append_assoc]⟩
  · cases more with
    | nil =>
      rw [List.append_nil] at place
      exact ⟨[], blanksNil, rest.symm, by rw [place', place, List.append_nil]⟩
    | cons c more => exact absurd (blank c (by simp)) (unspaced c (by simp [rest]))

theorem skipsCut (here : Cursor) : ∃ start, here.Skips start ∧ Unspaced start.rest := by
  obtain ⟨before, text⟩ := here
  obtain ⟨blanks, rest, blank, unspaced, rfl⟩ := blanksCut text
  exact ⟨_, skipsBlanks blank before rest, unspaced⟩

namespace Peg

theorem skipReads {here start : Cursor} (skips : here.Skips start) (unspaced : Unspaced start.rest) :
    skip.Reads here (some ([], start)) := by
  obtain ⟨before, text⟩ := here
  obtain ⟨_, rest⟩ := start
  obtain ⟨blanks, blank, left, place⟩ := skips
  dsimp only at left place unspaced
  subst left place
  induction blanks generalizing before with
  | nil =>
    have other : ∀ c, c = ' ' ∨ c = '\t' → ¬ [c] <+: rest := by
      rintro c blank ⟨more, rfl⟩
      exact unspaced c rfl blank
    rw [List.append_nil]
    exact .manyNone (.eitherSecond (.differs (other ' ' (.inl rfl))) (.differs (other '\t' (.inr rfl))))
  | cons c blanks ih =>
    obtain ⟨first, others⟩ := List.forall_mem_cons.mp blank
    have later := ih (before ++ [c]) others
    rw [List.append_assoc] at later
    have one : Peg.blank.Reads ⟨before, c :: blanks ++ rest⟩
        (some ([], ⟨before ++ [c], blanks ++ rest⟩)) := by
      rcases first with rfl | rfl
      · exact .eitherFirst (.literal rfl)
      · exact .eitherSecond (.differs (by simp)) (.literal rfl)
    exact .many one later

variable {item after : Peg} {here there start last : Cursor} {pieces : List Piece}
  {result : Option (List Piece × Cursor)}

theorem skipIff (skips : here.Skips start) (unspaced : Unspaced start.rest) :
    (both skip item).Reads here result ↔ item.Reads start result := by
  have skipped := skipReads skips unspaced
  constructor
  · intro read
    obtain ⟨others, mid, result, more, two, rfl⟩ := afterMany read
    cases readsOnce skipped more
    rwa [behindNothing]
  · exact silentReads skipped

theorem skipNothing (unspaced : Unspaced here.rest) :
    (both skip item).Reads here result ↔ item.Reads here result :=
  skipIff (skipsSelf here) unspaced

/- Skipping twice is skipping once. -/
theorem skipAgain (skips : here.Skips there) :
    (both skip item).Reads here result ↔ (both skip item).Reads there result := by
  obtain ⟨start, more, unspaced⟩ := skipsCut there
  rw [skipIff (skipsBoth skips more) unspaced, skipIff more unspaced]

/- Blanks that a repetition skips before it fails are given back; with the blanks skipped
first, it keeps them. -/
theorem repeatedReads (skips : here.Skips start) (unspaced : Unspaced start.rest)
    (read : (many (both skip item)).Reads here (some (pieces, last))) :
    ∃ there, last.Skips there ∧ (repeated item).Reads start (some (pieces, there)) := by
  cases read with
  | many one more =>
    exact ⟨last, skipsSelf last, .optional (.both ((skipIff skips unspaced).mp one) more)⟩
  | manyNone one =>
    exact ⟨start, skips, .optionalNone (.bothFirst ((skipIff skips unspaced).mp one))⟩

theorem thenRepeated (read : (both (many (both skip item)) (both skip after)).Reads here result) :
    (both skip (both (repeated item) (both skip after))).Reads here result := by
  obtain ⟨pieces, last, rest, more, two, rfl⟩ := afterMany read
  obtain ⟨start, skips, unspaced⟩ := skipsCut here
  obtain ⟨there, onward, repeated⟩ := repeatedReads skips unspaced more
  exact (skipIff skips unspaced).mpr (bothReads repeated ((skipAgain onward).mp two))

/- The repetition may begin in front of blanks or behind them. -/
theorem loopIff (skips : here.Skips there) :
    (both (many (both skip item)) (both skip after)).Reads here result ↔
      (both (many (both skip item)) (both skip after)).Reads there result := by
  constructor
  · intro read
    obtain ⟨pieces, last, rest, more, two, rfl⟩ := afterMany read
    cases more with
    | many one more => exact bothReads (.many ((skipAgain skips).mp one) more) two
    | manyNone one =>
      exact bothReads (.manyNone ((skipAgain skips).mp one)) ((skipAgain skips).mp two)
  · intro read
    obtain ⟨pieces, last, rest, more, two, rfl⟩ := afterMany read
    cases more with
    | many one more => exact bothReads (.many ((skipAgain skips).mpr one) more) two
    | manyNone one =>
      exact bothReads (.manyNone ((skipAgain skips).mpr one)) ((skipAgain skips).mpr two)

end Peg
end Multitape.Description
