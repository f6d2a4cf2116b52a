import Multitape.Layout.Cell

/-! What the proofs ask of a symbol type, and what follows for the cells of a layout. A
symbol is told by its text, and the blank has the text `_` in every type. Cells are told
by their tokens as long as no symbol in them is reserved; whether a description could
hold the symbol is a second matter, which only reading a token back depends on. -/
namespace Multitape

class LawfulSymbol (S : Type) [Symbol S] : Prop where
  ofTextText (symbol : S) : Symbol.ofText? (Symbol.text symbol) = some symbol
  textOfText {text : String} {symbol : S} :
    Symbol.ofText? text = some symbol → Symbol.text symbol = text
  textBlank : Symbol.text (Symbol.blank : S) = "_"

instance : LawfulSymbol Char where
  ofTextText symbol := by simp [Symbol.ofText?, Symbol.onlyChar?, Symbol.text]
  textOfText {text symbol} read := by
    simp only [Symbol.ofText?, Symbol.onlyChar?] at read
    split at read
    · rename_i only
      cases read
      exact String.toList_inj.mp (String.toList_ofList.trans only.symm)
    · cases read
  textBlank := rfl

instance : LawfulSymbol Token where
  ofTextText _ := rfl
  textOfText read := by cases read; rfl
  textBlank := rfl

namespace Symbol
variable {S : Type} [Symbol S]

def Readable (symbol : S) : Prop := ofField? (text symbol) = some symbol

instance [DecidableEq S] (symbol : S) : Decidable (Readable symbol) :=
  inferInstanceAs (Decidable (_ = _))

variable [LawfulSymbol S]

theorem textInjective {a b : S} (same : text a = text b) : a = b := by
  have h := congrArg (ofText? (S := S)) same
  rw [LawfulSymbol.ofTextText, LawfulSymbol.ofTextText] at h
  exact Option.some.inj h

theorem toTokenInjective {a b : S} (same : toToken a = toToken b) : a = b :=
  textInjective (congrArg Token.text same)

theorem toTokenOfBlank : toToken (blank : S) = blank :=
  congrArg Token.mk LawfulSymbol.textBlank

theorem toTokenBlankIff {symbol : S} : toToken symbol = blank ↔ symbol = blank := by
  rw [← toTokenOfBlank (S := S)]
  exact ⟨toTokenInjective, congrArg toToken⟩

theorem readableIff {symbol : S} : Readable symbol ↔ isField (text symbol) := by
  unfold Readable ofField?
  split
  · rename_i field
    simp [field, LawfulSymbol.ofTextText]
  · rename_i field
    simp [field]

theorem ofFieldReadable {field : String} {symbol : S} (read : ofField? field = some symbol) :
    text symbol = field ∧ Readable symbol := by
  unfold ofField? at read
  split at read
  · rename_i valid
    have same := LawfulSymbol.textOfText read
    exact ⟨same, readableIff.mpr (same ▸ valid)⟩
  · cases read

theorem readableBlank : Readable (blank : S) := by
  rw [readableIff, LawfulSymbol.textBlank]
  decide

end Symbol

namespace Cell
variable {S : Type} [Symbol S]

def Free (cell : Cell S) : Prop := ∀ symbol, cell.symbol? = some symbol → ¬ isReserved symbol

theorem freePlain {symbol : S} : (plain symbol).Free ↔ ¬ isReserved symbol := by simp [Free, symbol?]

theorem freeSign {cell : Cell S} (sign : cell.isBoundary) : cell.Free := by
  cases cell <;> simp_all [Free, symbol?, isBoundary]

theorem notReservedBlank [LawfulSymbol S] : ¬ isReserved (Symbol.blank : S) := by
  unfold isReserved
  rw [LawfulSymbol.textBlank]
  decide

theorem markedText (symbol : S) :
    (marked symbol).token.text.toList = '*' :: (Symbol.text symbol).toList := by
  simp [token]

/- A token alone says what kind of cell it stands for and the text of the symbol in it,
whether or not a description could hold that text. So tokens tell free cells apart. -/
def kind : List Char → Cell (List Char)
  | ['^'] => leftEnd
  | ['/'] => separator
  | ['$'] => rightEnd
  | '*' :: symbol => marked symbol
  | text => plain text

def texts : Cell S → Cell (List Char)
  | plain symbol => plain (Symbol.text symbol).toList
  | marked symbol => marked (Symbol.text symbol).toList
  | leftEnd => leftEnd
  | separator => separator
  | rightEnd => rightEnd

theorem kindToken {cell : Cell S} (free : cell.Free) :
    kind cell.token.text.toList = cell.texts := by
  cases cell with
  | plain symbol =>
    have h := freePlain.mp free
    change kind (Symbol.text symbol).toList = plain (Symbol.text symbol).toList
    unfold isReserved at h
    split at h <;> try simp at h
    unfold kind
    split <;> simp_all
  | marked symbol => rw [markedText]; rfl
  | leftEnd => simp [token, leftSign, kind, texts]
  | separator => simp [token, separatorSign, kind, texts]
  | rightEnd => simp [token, rightSign, kind, texts]

theorem textsInjective [LawfulSymbol S] {a b : Cell S} (same : a.texts = b.texts) : a = b := by
  cases a <;> cases b <;> simp only [texts, plain.injEq, marked.injEq, reduceCtorEq] at same
  all_goals first | rfl | rw [Symbol.textInjective (String.toList_inj.mp same)]

theorem tokenInjective [LawfulSymbol S] {a b : Cell S} (left : a.Free) (right : b.Free)
    (same : a.token = b.token) : a = b := by
  have kinds : kind a.token.text.toList = kind b.token.text.toList := by rw [same]
  rw [kindToken left, kindToken right] at kinds
  exact textsInjective kinds

/-- The token of the cell is read as this cell. A mark keeps even a reserved symbol apart. -/
def Legible : Cell S → Prop
  | plain symbol => Symbol.Readable symbol ∧ ¬ isReserved symbol
  | marked symbol => Symbol.Readable symbol
  | _ => True

theorem notReservedText {text : String} {symbol : S} (same : Symbol.text symbol = text)
    (left : text.toList ≠ ['^']) (separator : text.toList ≠ ['/']) (right : text.toList ≠ ['$'])
    (star : ∀ rest, text.toList ≠ '*' :: rest) : ¬ isReserved symbol := by
  unfold isReserved
  rw [same]
  split
  · exact absurd ‹_› left
  · exact absurd ‹_› separator
  · exact absurd ‹_› right
  · exact absurd ‹_› (star _)
  · simp

theorem ofTokenLegible {cell : Cell S} (legible : cell.Legible) : ofToken? cell.token = some cell := by
  cases cell with
  | plain symbol =>
    obtain ⟨readable, free⟩ := legible
    have back : Symbol.ofField? (Symbol.text symbol) = some symbol := readable
    unfold isReserved at free
    split at free <;> try simp at free
    simp_all [ofToken?, token, Symbol.toToken]
  | marked symbol =>
    have back : Symbol.ofField? (Symbol.text symbol) = some symbol := legible
    simp [ofToken?, markedText, back]
  | leftEnd => simp [ofToken?, token, leftSign]
  | separator => simp [ofToken?, token, separatorSign]
  | rightEnd => simp [ofToken?, token, rightSign]

theorem legibleOfToken [LawfulSymbol S] {token : Token} {cell : Cell S}
    (read : ofToken? token = some cell) : cell.Legible ∧ cell.token = token := by
  obtain ⟨text⟩ := token
  unfold ofToken? at read
  dsimp only at read
  split at read
  · rename_i sign
    cases read
    exact ⟨trivial, congrArg Token.mk (String.toList_inj.mp sign.symm)⟩
  · rename_i sign
    cases read
    exact ⟨trivial, congrArg Token.mk (String.toList_inj.mp sign.symm)⟩
  · rename_i sign
    cases read
    exact ⟨trivial, congrArg Token.mk (String.toList_inj.mp sign.symm)⟩
  · rename_i rest star
    obtain ⟨symbol, found, rfl⟩ := Option.map_eq_some_iff.mp read
    obtain ⟨same, readable⟩ := Symbol.ofFieldReadable found
    refine ⟨readable, congrArg Token.mk (String.toList_inj.mp ?_)⟩
    rw [star]
    simp [same]
  · rename_i left separator right star
    obtain ⟨symbol, found, rfl⟩ := Option.map_eq_some_iff.mp read
    obtain ⟨same, readable⟩ := Symbol.ofFieldReadable found
    exact ⟨⟨readable, notReservedText same left separator right star⟩, congrArg Token.mk same⟩

theorem ofTokenIff [LawfulSymbol S] {token : Token} {cell : Cell S} :
    ofToken? token = some cell ↔ cell.Legible ∧ cell.token = token := by
  constructor
  · exact legibleOfToken
  · rintro ⟨legible, rfl⟩
    exact ofTokenLegible legible

theorem legibleFree {cell : Cell S} (free : cell.Free)
    (readable : ∀ symbol, cell.symbol? = some symbol → Symbol.Readable symbol) : cell.Legible := by
  cases cell with
  | plain symbol => exact ⟨readable symbol rfl, freePlain.mp free⟩
  | marked symbol => exact readable symbol rfl
  | _ => trivial

/-- A symbol is reserved exactly when its token, without a mark, is not read as the symbol again.
Whatever a token is read as has this token, a mark keeps every symbol apart that a description
could hold, and symbols that are not reserved have tokens that tell all cells apart. -/
theorem reservedExactly [LawfulSymbol S] :
    (∀ symbol : S, Symbol.Readable symbol →
      (isReserved symbol ↔ ofToken? (plain symbol).token ≠ some (plain symbol))) ∧
    (∀ token, ∀ cell : Cell S, ofToken? token = some cell → cell.token = token) ∧
    (∀ symbol : S, Symbol.Readable symbol →
      ofToken? (marked symbol).token = some (marked symbol)) ∧
    ∀ known : S → Prop, (∀ symbol, known symbol → ¬ isReserved symbol) → ∀ a b : Cell S,
      (∀ symbol, a.symbol? = some symbol → known symbol) →
      (∀ symbol, b.symbol? = some symbol → known symbol) → a.token = b.token → a = b := by
  refine ⟨fun symbol readable => ?_, fun token cell read => (ofTokenIff.mp read).2,
    fun symbol readable => ofTokenLegible readable, fun known free a b left right same => ?_⟩
  · have legible : (plain symbol).Legible ↔ ¬ isReserved symbol := and_iff_right readable
    rw [Ne, ofTokenIff, legible]
    simp
  · exact tokenInjective (fun symbol held => free symbol (left symbol held))
      (fun symbol held => free symbol (right symbol held)) same

/- Tokens that come close: the star, which is read back with a mark only; two stars, which are a
marked star; and the empty text, which no description holds and which is told apart all the same. -/
theorem reservedExactlyStar :
    ofToken? (plain (Token.mk "*")).token ≠ some (plain (Token.mk "*")) ∧
    ofToken? (marked (Token.mk "*")).token = some (marked (Token.mk "*")) ∧
    (∀ cell : Cell Token, ofToken? ⟨"**"⟩ = some cell → cell.token = ⟨"**"⟩) ∧
    ofToken? (plain '^').token ≠ some (plain '^') ∧
    ∀ a b : Cell Token,
      (∀ symbol, a.symbol? = some symbol → symbol ∈ [Token.mk "", Token.mk "^a"]) →
      (∀ symbol, b.symbol? = some symbol → symbol ∈ [Token.mk "", Token.mk "^a"]) →
        a.token = b.token → a = b := by
  obtain ⟨tokens, written, marks, apart⟩ := reservedExactly (S := Token)
  obtain ⟨chars, -⟩ := reservedExactly (S := Char)
  exact ⟨(tokens ⟨"*"⟩ (by decide)).mp (by decide), marks ⟨"*"⟩ (by decide), written ⟨"**"⟩,
    (chars '^' (by decide)).mp (by decide), apart (· ∈ [Token.mk "", Token.mk "^a"]) (by decide)⟩

end Cell
end Multitape
