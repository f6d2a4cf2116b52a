import Multitape.Description.Machine
import Multitape.Proofs.Description.Format
import Multitape.Proofs.Symbol

/-! Each field of a written rule is read back: numbers below their bound, states, moves and
symbols that a field can hold. So a rule that fits is read back as a whole. -/
namespace Multitape

namespace Numeral

theorem readRepr {bound n : Nat} (below : n < bound) : read? bound n.repr = some n := by
  have digits : ∀ c ∈ Nat.toDigits 10 n, c.isDigit := fun c mem =>
    Nat.isDigit_of_mem_toDigits (by decide) (by decide) mem
  have bare : unsigned (Nat.toDigits 10 n) = Nat.toDigits 10 n := by
    unfold unsigned
    split
    · rename_i rest same
      have sign := digits '+' (by simp [same])
      exact absurd sign (by decide)
    · rfl
  unfold read?
  rw [Nat.toList_repr, bare, digits?, if_pos ⟨Nat.toDigits_ne_nil, List.all_eq_true.mpr digits⟩,
    Nat.ofDigitChars_ten_toDigits]
  simp [below]

end Numeral

theorem reprHead (n : Nat) : ∃ c rest, n.repr.toList = c :: rest ∧ c.isDigit := by
  rw [Nat.toList_repr]
  cases digits : Nat.toDigits 10 n with
  | nil => exact absurd digits Nat.toDigits_ne_nil
  | cons c rest =>
    have mem : c ∈ Nat.toDigits 10 n := by simp [digits]
    exact ⟨c, rest, rfl, Nat.isDigit_of_mem_toDigits (by decide) (by decide) mem⟩

def State.Bounded (state : State) : Prop :=
  ∀ number ∈ state.number?.toList, number < Numeral.stateBound

theorem State.ofFieldText {state : State} (bounded : state.Bounded) :
    ofField? state.text = some state := by
  cases state with
  | ordinary number =>
    obtain ⟨c, rest, head, digit⟩ := reprHead number
    have unnamed : ∀ name : String, ¬ name.toList.head?.any Char.isDigit → number.repr ≠ name := by
      rintro name letter rfl
      simp [head, digit] at letter
    unfold ofField?
    rw [text, if_neg (by simp [unnamed]), if_neg (by simp [unnamed]), if_neg (by simp [unnamed]),
      Numeral.readRepr (bounded number (by simp [number?]))]
    rfl
  | accept => rfl
  | reject => rfl
  | halt => rfl

theorem State.boundedOfField {field : String} {state : State}
    (read : ofField? field = some state) : state.Bounded := by
  unfold ofField? at read
  split at read
  · cases read
    simp [Bounded, number?]
  · split at read
    · cases read
      simp [Bounded, number?]
    · split at read
      · cases read
        simp [Bounded, number?]
      · obtain ⟨number, found, rfl⟩ := Option.map_eq_some_iff.mp read
        simpa [Bounded, number?] using Numeral.readBelow found

def Rule.Bounded {S : Type} (rule : Rule S) : Prop :=
  ∀ number ∈ rule.states, number < Numeral.stateBound

namespace Symbol

theorem fieldDigit {c : Char} (digit : c.isDigit) : isFieldChar c := by
  have bounds : 48 ≤ c.toNat ∧ c.toNat ≤ 57 := Char.isDigit_iff_toNat.mp digit
  have outside : ∀ range ∈ Text.blankRanges, range.2 < 48 ∨ 57 < range.1 := by decide
  have notBlank : Text.isBlank c = false := by
    apply List.any_eq_false.mpr
    intro range mem inside
    have apart := outside range mem
    simp only [Bool.and_eq_true, decide_eq_true_eq] at inside
    omega
  have notComma : c ≠ ',' := by
    rintro rfl
    exact absurd digit (by decide)
  have notMark : c ≠ mark := by
    rintro rfl
    exact absurd digit (by decide)
  simp [isFieldChar, notBlank, notComma, notMark]

theorem fieldRepr (n : Nat) : isField n.repr := by
  have digits : ∀ c ∈ Nat.toDigits 10 n, isFieldChar c := fun c mem =>
    fieldDigit (Nat.isDigit_of_mem_toDigits (by decide) (by decide) mem)
  unfold isField
  rw [Nat.toList_repr]
  simp only [Bool.and_eq_true, decide_eq_true_eq, List.all_eq_true]
  exact ⟨Nat.toDigits_ne_nil, digits⟩

theorem fieldState (state : State) : isField state.text := by
  cases state with
  | ordinary number => exact fieldRepr number
  | accept => decide
  | reject => decide
  | halt => decide

theorem fieldMove (move : Direction) : isField move.text := by
  cases move <;> decide

theorem fieldRule {S : Type} [Symbol S] {rule : Rule S}
    (valid : ∀ symbol ∈ rule.read ++ rule.write, isField (text symbol)) :
    ∀ field ∈ rule.fields, isField field := by
  intro field mem
  unfold Rule.fields at mem
  rcases List.mem_append.mp mem with front | behind
  · rcases List.mem_cons.mp front with rfl | read
    · exact fieldRepr rule.state
    · obtain ⟨symbol, here, rfl⟩ := List.mem_map.mp read
      exact valid symbol (List.mem_append_left _ here)
  · rcases List.mem_cons.mp behind with rfl | actions
    · exact fieldState rule.next
    · obtain ⟨⟨symbol, move⟩, pair, mem⟩ := List.mem_flatMap.mp actions
      have written : symbol ∈ rule.write := (List.of_mem_zip pair).1
      simp only [List.mem_cons, List.not_mem_nil, or_false] at mem
      rcases mem with rfl | rfl
      · exact valid symbol (List.mem_append_right _ written)
      · exact fieldMove move

end Symbol

namespace Description

theorem plainOfField {field : String} (valid : Symbol.isField field) : Plain field.toList := by
  simp only [Symbol.isField, Bool.and_eq_true, decide_eq_true_eq, List.all_eq_true] at valid
  obtain ⟨filled, valid⟩ := valid
  have other : ∀ d, Symbol.isFieldChar d = false → ∀ c ∈ field.toList, c ≠ d := by
    rintro d bad c mem rfl
    rw [valid c mem] at bad
    cases bad
  exact {
    filled
    apart c mem := ⟨other ',' (by decide) c mem, other ' ' (by decide) c mem,
      other '\t' (by decide) c mem⟩
    unbroken c mem := ⟨other '\n' (by decide) c mem, other '\r' (by decide) c mem⟩ }

theorem readStateText {state : State} (bounded : state.Bounded) (line : Nat) :
    readState line state.text = .ok state := by
  unfold readState
  rw [State.ofFieldText bounded]

theorem readSourceRepr {number : Nat} (below : number < Numeral.stateBound) (line : Nat) :
    readSource line number.repr = .ok number := by
  have bounded : (State.ordinary number).Bounded := by simpa [State.Bounded, State.number?]
  unfold readSource
  rw [show number.repr = (State.ordinary number).text from rfl, readStateText bounded]
  rfl

theorem readDirectionText (move : Direction) (line : Nat) :
    readDirection line move.text = .ok move := by
  unfold readDirection
  rw [Direction.ofFieldText]

variable {S : Type} [Symbol S]

theorem readSymbolText {symbol : S} (readable : Symbol.Readable symbol) (line : Nat) :
    readSymbol line (Symbol.text symbol) = .ok symbol := by
  unfold readSymbol
  rw [show Symbol.ofField? (Symbol.text symbol) = some symbol from readable]

theorem readSymbols {symbols : List S} (readable : ∀ symbol ∈ symbols, Symbol.Readable symbol)
    (line : Nat) : (symbols.map Symbol.text).mapM (readSymbol line) = Except.ok symbols := by
  induction symbols with
  | nil => rfl
  | cons first rest ih =>
    rw [List.map_cons, List.mapM_cons, readSymbolText (readable first (by simp)),
      ih fun symbol mem => readable symbol (List.mem_cons_of_mem first mem)]
    rfl

/- Induction on both lists at once; they are of one length. -/
theorem readActionsText {write : List S} {moves : List Direction}
    (even : write.length = moves.length) (readable : ∀ symbol ∈ write, Symbol.Readable symbol)
    (line : Nat) :
    readActions line ((write.zip moves).flatMap fun (symbol, move) =>
      [Symbol.text symbol, move.text]) = .ok (write, moves) := by
  induction write generalizing moves with
  | nil =>
    cases moves with
    | nil => rfl
    | cons => cases even
  | cons symbol write ih =>
    cases moves with
    | nil => cases even
    | cons move moves =>
      have later := ih (Nat.succ.inj even)
        fun other mem => readable other (List.mem_cons_of_mem symbol mem)
      rw [List.zip_cons_cons, List.flatMap_cons]
      simp only [List.cons_append, List.nil_append, readActions]
      rw [readSymbolText (readable symbol (by simp)), readDirectionText, later]
      rfl

omit [Symbol S] in
theorem lengthActions (write : List S) (moves : List Direction) (text : S → String) :
    ((write.zip moves).flatMap fun (symbol, move) => [text symbol, move.text]).length =
      2 * min write.length moves.length := by
  simp only [List.length_flatMap, List.length_cons, List.length_nil, List.map_const',
    List.sum_replicate_nat, List.length_zip, Nat.mul_comm]

theorem readRuleFields {rule : Rule S} {tapes : Nat} {alphabet : Alphabet S}
    (fits : rule.Fits tapes alphabet) (bounded : rule.Bounded)
    (readable : ∀ symbol ∈ rule.read ++ rule.write, Symbol.Readable symbol) (line : Nat) :
    readRule tapes ⟨line, rule.fields⟩ = .ok rule ∧ rule.write.length = tapes := by
  have source : rule.state < Numeral.stateBound := bounded rule.state (by simp [Rule.states])
  have target : rule.next.Bounded := fun number mem =>
    bounded number (List.mem_cons_of_mem rule.state mem)
  have length : rule.fields.length = 2 + 3 * tapes := by
    simp only [Rule.fields, List.length_append, List.length_cons, List.length_map, lengthActions,
      fits.read, fits.write, fits.moves]
    omega
  have width : rule.fields.length % Numeral.countBound = ruleWidth tapes :=
    congrArg (· % Numeral.countBound) length
  have size : (rule.read.map Symbol.text).length = tapes := by simp [fits.read]
  have read := readSymbols (fun symbol mem => readable symbol (List.mem_append_left _ mem)) line
  have actions := readActionsText (fits.write.trans fits.moves.symm)
    (fun symbol mem => readable symbol (List.mem_append_right _ mem)) line
  refine ⟨?_, fits.write⟩
  unfold readRule
  dsimp only
  rw [if_neg (not_not_intro width)]
  simp only [Rule.fields, List.cons_append]
  rw [readSourceRepr source, List.take_left' size, List.drop_left' size]
  simp only [read, readStateText target, actions, bind, Except.bind, pure, Except.pure]

end Description
end Multitape
