import Mathlib.Data.List.ProdSigma
import Multitape.Proofs.Description.RoundTrip
import Multitape.Proofs.SingleTape.Compiled

/-! The text of a compiled machine. Its alphabet line starts with the first source symbol that
is not the blank. If the source declares the blank in front of a symbol that starts like a
comment, the line is taken for a comment and the text is refused; otherwise the text is read
back as the compiled machine. -/
namespace Multitape.SingleTape
open Description SingleTape.Numbering
variable {S : Type} [Symbol S] [DecidableEq S] {machine : Machine S} {mode : TapeMode}

def CommentBehindBlank (machine : Machine S) : Prop :=
  ∃ symbol rest, machine.alphabet.symbols = Symbol.blank :: symbol :: rest ∧
    opensComment (Symbol.text symbol)

theorem readableSign {token : Token} (sign : token ∈ [Cell.leftSign, Cell.separatorSign, Cell.rightSign]) :
    Symbol.Readable token := by
  simp only [List.mem_cons, List.not_mem_nil, or_false] at sign
  rcases sign with rfl | rfl | rfl <;> decide

section
variable [LawfulSymbol S]

theorem readableTokens (readable : ∀ symbol ∈ machine.alphabet.symbols, Symbol.Readable symbol) :
    ∀ token ∈ tokens machine, Symbol.Readable token := by
  have held : ∀ symbol ∈ machine.alphabet.withBlank, Symbol.isField (Symbol.text symbol) := by
    intro symbol mem
    rcases Alphabet.memWithBlank.mp mem with rfl | declared
    · exact Symbol.readableIff.mp Symbol.readableBlank
    · exact Symbol.readableIff.mp (readable symbol declared)
  intro token mem
  simp only [tokens, List.mem_append, List.mem_map, List.mem_filter] at mem
  rcases mem with (⟨symbol, ⟨mem, _⟩, rfl⟩ | ⟨symbol, mem, rfl⟩) | sign
  · exact Symbol.readableIff.mpr (held symbol mem)
  · have field := held symbol mem
    rw [Symbol.readableIff]
    simp only [Symbol.isField, Symbol.text, Cell.markedText, Bool.and_eq_true, List.all_cons,
      decide_eq_true_eq] at field ⊢
    exact ⟨List.cons_ne_nil _ _, by decide, field.2⟩
  · exact readableSign sign

end

omit [DecidableEq S] in
theorem markedBare (symbol : S) : opensComment (Cell.marked symbol).token.text = false := by
  simp [opensComment, Cell.markedText]

/- The first token is the text of the first symbol that is not the blank; where there is none,
it is the marked blank. -/
theorem commentedTokens (filled : machine.alphabet.symbols ≠ [])
    (bare : ¬ commented (machine.alphabet.symbols.map Symbol.text)) :
    commented ((tokens machine).map Symbol.text) ↔ CommentBehindBlank machine := by
  have distinct := machine.alphabet.distinct
  unfold CommentBehindBlank commented
  rw [List.head?_map, Option.any_map]
  cases shape : machine.alphabet.symbols with
  | nil => exact absurd shape filled
  | cons first rest =>
    rw [shape] at bare distinct
    by_cases blank : first = Symbol.blank
    · have all : machine.alphabet.withBlank = first :: rest :=
        (if_pos (by simp [shape, blank])).trans shape
      cases rest with
      | nil =>
        have head : (tokens machine).head? = some (Cell.marked first).token := by
          simp [tokens, all, Symbol.isBlank, blank]
        have closed : opensComment (Symbol.text (Cell.marked first).token) = false :=
          markedBare first
        simp [head, closed]
      | cons symbol rest =>
        have other : symbol ≠ Symbol.blank := by
          rintro rfl
          simp [blank] at distinct
        have head : (tokens machine).head? = some (Symbol.toToken symbol) := by
          simp [tokens, all, Symbol.isBlank, blank, other, Cell.token]
        have text : Symbol.text (Symbol.toToken symbol) = Symbol.text symbol := rfl
        simp [head, blank, text]
    · obtain ⟨more, all⟩ : ∃ more, machine.alphabet.withBlank = first :: more := by
        unfold Alphabet.withBlank
        split <;> simp [shape]
      have head : (tokens machine).head? = some (Symbol.toToken first) := by
        simp [tokens, all, Symbol.isBlank, blank, Cell.token]
      have closed : opensComment (Symbol.text (Symbol.toToken first)) = false := by
        simpa [commented, Symbol.toToken, Symbol.text] using bare
      simp [head, blank, closed]

section
variable (several : 2 ≤ machine.tapes)
  (few : (numbering machine mode).phases.size ≤ Numeral.stateBound)
include several few

theorem statesBelow {rule : Rule Token}
    (mem : rule ∈ rules machine mode (numbering machine mode)) :
    ∀ number ∈ rule.states, number < (numbering machine mode).phases.size := by
  obtain ⟨state, phase, here, instruction, known, rfl⟩ := (memRules few).mp mem
  have numbered := Array.mem_of_getElem? here
  intro number mem
  rcases List.mem_cons.mp mem with rfl | mem
  · exact (Array.getElem?_eq_some_iff.mp here).1
  · cases target : instruction.target with
    | phase next =>
      obtain rfl : number = (numbering machine mode).stateOf next := by
        simpa [Instruction.rule, target, Target.state, State.number?] using mem
      have next := getStateOf few (numberedNext several numbered known target)
      exact (Array.getElem?_eq_some_iff.mp next).1
    | terminal state =>
      obtain ⟨tape, rfl⟩ := terminalTarget known target
      have terminal : state.isTerminal := (numberedPossible several numbered).1
      have none : state.number? = none := by simpa [State.isTerminal] using terminal
      simp [Instruction.rule, target, Target.state, none] at mem

/- Keys are pairs of a state and a token. -/
theorem lengthRules [LawfulSymbol S] (free : Free machine) :
    (rules machine mode (numbering machine mode)).length ≤
      (numbering machine mode).phases.size * ((tokens machine).length + 1) := by
  let keys := List.range (numbering machine mode).phases.size ×ˢ
    ((Symbol.blank :: tokens machine).map fun token => [token])
  have within : (rules machine mode (numbering machine mode)).map Rule.key ⊆ keys := by
    intro key mem
    obtain ⟨rule, inside, rfl⟩ := List.mem_map.mp mem
    obtain ⟨state, phase, here, instruction, known, rfl⟩ := (memRules few).mp inside
    have fits := allowed several (numberedPossible several (Array.mem_of_getElem? here)) known
    apply List.mem_product.mpr
    refine ⟨List.mem_range.mpr (Array.getElem?_eq_some_iff.mp here).1, ?_⟩
    exact List.mem_map.mpr ⟨_, List.mem_cons.mpr (memTokens fits.read), rfl⟩
  have distinct : ((rules machine mode (numbering machine mode)).map Rule.key).Nodup :=
    keysDistinct several free few
  have length := distinct.length_le_of_subset within
  simpa [keys, List.length_product] using length

end

section
variable [LawfulSymbol S]

theorem representableOfFew {compiled : SingleTape S} (several : 2 ≤ machine.tapes)
    (free : Free machine) (result : Compiled machine mode compiled)
    (few : (possiblePhases machine).length * ((tokens machine).length + 1) < Numeral.stateBound) :
    compiled.machine.Representable := by
  have bounds : Numeral.stateBound < Numeral.countBound := by decide
  have size : (numbering machine mode).phases.size ≤ (possiblePhases machine).length :=
    numberedSize several
  have room := Nat.mul_le_mul_right ((tokens machine).length + 1) size
  have nonempty : 0 < (numbering machine mode).phases.size :=
    (Array.getElem?_eq_some_iff.mp (numberedFirst several)).1
  have symbols := Nat.le_mul_of_pos_left ((tokens machine).length + 1) nonempty
  have states : (numbering machine mode).phases.size ≤
      (numbering machine mode).phases.size * ((tokens machine).length + 1) :=
    Nat.le_mul_of_pos_right _ (Nat.succ_pos _)
  have length : compiled.machine.table.rules.size ≤
      (numbering machine mode).phases.size * ((tokens machine).length + 1) := by
    rw [← Array.length_toList, result.rules]
    exact lengthRules several result.few free
  exact {
    tapes := by rw [result.tapes]; decide
    symbols := by rw [result.symbols]; omega
    rules := by omega
    states := fun rule mem number inside => by
      rw [result.rules] at mem
      have below := statesBelow several result.few mem number inside
      omega }

section
variable {text : String} {compiled : SingleTape S} (read : Machine.ofText text = .ok machine)
  (ok : compile machine mode = .ok compiled)
include read ok

theorem compiledLegible : (∀ token ∈ compiled.machine.alphabet.symbols, Symbol.Readable token) ∧
    compiled.machine.declared = compiled.machine.alphabet.symbols ∧
    (commented (compiled.machine.declared.map Symbol.text) ↔ CommentBehindBlank machine) := by
  obtain ⟨-, readable, filled, bare⟩ := acceptedParts read
  obtain ⟨-, -, result⟩ := ofCompile ok
  have nonempty : compiled.machine.alphabet.symbols ≠ [] := by
    rw [result.symbols]
    simp [tokens]
  rw [declaredOfFilled nonempty, result.symbols]
  exact ⟨readableTokens readable, rfl, commentedTokens filled bare⟩

theorem compiledTextReads (fits : compiled.machine.Representable)
    (clear : ¬ CommentBehindBlank machine) :
    ∃ again, Machine.ofText compiled.machine.text = .ok again ∧ again == compiled.machine := by
  obtain ⟨legible, declared, lost⟩ := compiledLegible read ok
  obtain ⟨again, reread, tapes, symbols, rules, -⟩ := readsBack fits legible (mt lost.mp clear)
  exact ⟨again, reread, sameParts tapes (symbols.trans declared) rules⟩

theorem compiledTextRefused (fits : compiled.machine.Representable)
    (hidden : CommentBehindBlank machine) :
    ∃ fault, (Machine.ofText compiled.machine.text : Except DescriptionError (Machine Token)) =
      .error fault := by
  obtain ⟨legible, -, lost⟩ := compiledLegible read ok
  exact commentRefused fits legible (lost.mpr hidden)

end

theorem compiledTextRoundTrip {text : String} {compiled : SingleTape S}
    (read : Machine.ofText text = .ok machine) (ok : compile machine mode = .ok compiled)
    (fits : compiled.machine.Representable) :
    (∃ again, Machine.ofText compiled.machine.text = .ok again ∧ again == compiled.machine) ↔
      ¬ CommentBehindBlank machine := by
  constructor
  · rintro ⟨again, reread, -⟩ hidden
    obtain ⟨fault, refused⟩ := compiledTextRefused read ok fits hidden
    cases refused.symm.trans reread
  · exact compiledTextReads read ok fits

end

theorem nodupBehindBlank {symbol : Char} (other : symbol ≠ Symbol.blank) :
    [Symbol.blank, symbol].Nodup := by
  simp [other.symm]

def stamp (symbol : Char) (other : symbol ≠ Symbol.blank) : Machine Char where
  tapes := 2
  alphabet := ⟨[Symbol.blank, symbol], nodupBehindBlank other⟩
  table := Table.empty.push ⟨0, ['_', '_'], .halt, [symbol, '_'], [.stay, .stay]⟩
    (Table.getNoneIff.mpr (by simp [Table.empty]))
  hasTapes := Nat.zero_lt_two
  fits rule mem := by
    obtain rfl : rule = _ := by simpa [Table.push, Table.empty] using mem
    exact ⟨rfl, rfl, rfl, by simp [Alphabet.memIff, Symbol.blank]⟩

section
variable {symbol : Char} (other : symbol ≠ Symbol.blank)

theorem stampReads (readable : Symbol.Readable symbol) :
    ∃ machine, Machine.ofText (stamp symbol other).text = .ok machine ∧ machine.tapes = 2 ∧
      machine.alphabet.symbols = [Symbol.blank, symbol] ∧
      machine.table.rules = (stamp symbol other).table.rules := by
  have fits : (stamp symbol other).Representable := {
    tapes := show 2 < Numeral.countBound by decide
    symbols := show 2 < Numeral.countBound by decide
    rules := show 1 < Numeral.countBound by decide
    states := by
      intro rule mem
      obtain rfl : rule = _ := by simpa [stamp, Table.push, Table.empty] using mem
      simp [Rule.Bounded, Rule.states, State.number?, Numeral.stateBound] }
  have legible : ∀ held ∈ (stamp symbol other).alphabet.symbols, Symbol.Readable held := by
    intro held mem
    simp only [stamp, List.mem_cons, List.not_mem_nil, or_false] at mem
    rcases mem with rfl | rfl
    · exact Symbol.readableBlank
    · exact readable
  obtain ⟨machine, read, tapes, symbols, rules, -⟩ := readsBack fits legible
    (show ¬ commented ["_", Symbol.text symbol] by simp [commented, opensComment])
  exact ⟨machine, read, tapes, symbols, rules⟩

theorem stampCompiles (readable : Symbol.Readable symbol) (free : ¬ Cell.isReserved symbol)
    (few : (possiblePhases (stamp symbol other)).length *
      ((tokens (stamp symbol other)).length + 1) < Numeral.stateBound) :
    ∃ machine compiled, Machine.ofText (stamp symbol other).text = .ok machine ∧
      machine.alphabet.symbols = [Symbol.blank, symbol] ∧
      compile machine .biInfinite = .ok compiled ∧ compiled.machine.Representable := by
  obtain ⟨machine, read, tapes, symbols, rules⟩ := stampReads other readable
  have several : 2 ≤ machine.tapes := Nat.le_of_eq tapes.symm
  have clear : Free machine := by
    intro held mem
    rw [symbols, List.mem_cons, List.mem_singleton] at mem
    rcases mem with rfl | rfl
    · exact Cell.notReservedBlank
    · exact free
  have all : machine.alphabet.withBlank = (stamp symbol other).alphabet.withBlank := by
    unfold Alphabet.withBlank
    rw [symbols]
    rfl
  have phases : possiblePhases machine = possiblePhases (stamp symbol other) := by
    simp only [possiblePhases, cells, contents, Table.states, all, tapes, rules]
    rfl
  have same : tokens machine = tokens (stamp symbol other) := by
    simp only [tokens, all]
  rw [← phases, ← same] at few
  have possible : (possiblePhases machine).length ≤ Numeral.stateBound :=
    (Nat.le_mul_of_pos_right _ (Nat.succ_pos _)).trans (Nat.le_of_lt few)
  have numbered : (numbering machine .biInfinite).phases.size ≤ Numeral.stateBound :=
    numberedFew several possible
  obtain ⟨compiled, ok, result⟩ := compiles several clear numbered
  exact ⟨machine, compiled, read, symbols, ok, representableOfFew several clear result few⟩

end

theorem stampTextReadsBack : ∃ machine compiled,
    Machine.ofText "1 2 2 1\n_,a\n0,_,_,h,a,N,_,N\n" = .ok machine ∧
    compile (machine : Machine Char) .biInfinite = .ok compiled ∧
    ∃ again, Machine.ofText compiled.machine.text = .ok again ∧ again == compiled.machine := by
  have text : (stamp 'a' (by decide)).text = "1 2 2 1\n_,a\n0,_,_,h,a,N,_,N\n" := by decide
  obtain ⟨machine, compiled, read, symbols, ok, fits⟩ :=
    stampCompiles (show 'a' ≠ '_' by decide) (by decide) (by decide) (by decide)
  rw [text] at read
  refine ⟨machine, compiled, read, ok, (compiledTextRoundTrip read ok fits).mpr ?_⟩
  rintro ⟨symbol, rest, shape, sign⟩
  rw [symbols] at shape
  cases shape
  exact absurd sign (by decide)

theorem stampTextRefused : ∃ machine compiled,
    Machine.ofText "1 2 2 1\n_,#\n0,_,_,h,#,N,_,N\n" = .ok machine ∧
    compile (machine : Machine Char) .biInfinite = .ok compiled ∧
    ¬ ∃ again, Machine.ofText compiled.machine.text = .ok again ∧ again == compiled.machine := by
  have text : (stamp '#' (by decide)).text = "1 2 2 1\n_,#\n0,_,_,h,#,N,_,N\n" := by decide
  obtain ⟨machine, compiled, read, symbols, ok, fits⟩ :=
    stampCompiles (show '#' ≠ '_' by decide) (by decide) (by decide) (by decide)
  rw [text] at read
  have hidden : CommentBehindBlank machine := ⟨'#', [], symbols, by decide⟩
  refine ⟨machine, compiled, read, ok, ?_⟩
  rintro ⟨again, reread, -⟩
  obtain ⟨fault, refused⟩ := compiledTextRefused read ok fits hidden
  cases refused.symm.trans reread

end Multitape.SingleTape
