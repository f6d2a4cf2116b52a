import Multitape.Proofs.Decoding
import Multitape.Proofs.SingleTape.Confined

/-! The inputs of a compiled machine. It takes those that its source takes and refuses the others
for the same symbol. The tokens that it gets are those of the symbols with the sign of the right
end behind them. No symbol is written like that sign, whatever blanks there are, so the tokens
tell where the input ends and which input it is. -/
namespace Multitape.SingleTape
variable {S : Type} [Symbol S] [DecidableEq S] {machine : Machine S} {mode : TapeMode}
  {compiled : SingleTape S} {input : List S} {tokens : List Token} {cause : InputError}

section
variable (result : Compiled machine mode compiled)
include result

theorem encodeErrorIff :
    compiled.encodeInput input = .error cause ↔ machine.alphabet.refuse? input = some cause := by
  unfold encodeInput Layout.encodeInput
  rw [result.alphabet]
  cases machine.alphabet.refuse? input <;> simp

theorem knownOfEncode (encodes : compiled.encodeInput input = .ok tokens) :
    (∀ symbol ∈ input, symbol ∈ machine.alphabet) ∧ tokens = inputTokens input := by
  have known : ∀ symbol ∈ input, symbol ∈ machine.alphabet := by
    apply refuseNoneIff.mp
    cases refused : machine.alphabet.refuse? input with
    | none => rfl
    | some cause => cases ((encodeErrorIff result).mpr refused).symm.trans encodes
  exact ⟨known, Except.ok.inj (encodes.symm.trans (encodesInput result known))⟩

end

variable [LawfulSymbol S]

omit [DecidableEq S] in
theorem signBehind (free : Free machine) (known : ∀ symbol ∈ input, symbol ∈ machine.alphabet) :
    Cell.rightSign ∉ input.map Symbol.toToken := by
  intro mem
  obtain ⟨symbol, inside, same⟩ := List.mem_map.mp mem
  have plain : (Cell.plain symbol).Free := freeCell free (knownPlain.mpr (known symbol inside))
  have sign : (Cell.rightEnd : Cell S).Free := Cell.freeSign rfl
  cases Cell.tokenInjective plain sign same

omit [DecidableEq S] in
theorem symbolsBack (input : List S) :
    (inputTokens input).dropLast.mapM (fun token => Symbol.ofText? token.text) = some input := by
  have back : ∀ symbol ∈ input,
      Symbol.ofText? (Symbol.toToken symbol).text = some (id symbol) :=
    fun symbol _ => LawfulSymbol.ofTextText symbol
  rw [inputTokens, List.dropLast_concat, List.mapM_map]
  exact (mapMSome back).trans (by rw [List.map_id])

theorem inputsAlike (ok : compile machine mode = .ok compiled) (input : List S) :
    (∀ config cause, compiled.encodeInput input = .error cause ↔
      Run.start machine config input = .error cause) ∧
    (∀ cause, compiled.encodeInput input = .error cause ↔
      ∃ known symbol rest, input = known ++ symbol :: rest ∧
        (∀ earlier ∈ known, earlier ∈ machine.alphabet) ∧ symbol ∉ machine.alphabet ∧
        cause = .unknownSymbol (Symbol.text symbol) known.length) ∧
    ∀ tokens, compiled.encodeInput input = .ok tokens →
      (∀ config, ∃ run, Run.start compiled.machine config tokens = .ok run) ∧
      tokens = input.map Symbol.toToken ++ [Cell.rightSign] ∧
      Cell.rightSign ∉ input.map Symbol.toToken ∧
      tokens.dropLast.mapM (fun token => Symbol.ofText? token.text) = some input ∧
      ∀ other, compiled.encodeInput other = .ok tokens → other = input := by
  obtain ⟨-, free, result⟩ := ofCompile ok
  refine ⟨fun config cause => ?_, fun cause => ?_, fun tokens encodes => ?_⟩
  · rw [encodeErrorIff result, startErrorIff]
  · rw [encodeErrorIff result, refuseSomeIff]
  · obtain ⟨known, rfl⟩ := knownOfEncode result encodes
    refine ⟨fun config => ⟨_, startAccepted config (knownTokens result known)⟩, rfl,
      signBehind free known, symbolsBack input, fun other encodes' => ?_⟩
    have same := symbolsBack other
    rw [← (knownOfEncode result encodes').2, symbolsBack input] at same
    exact (Option.some.inj same).symm

/- The blank counts as a symbol of the input, although the alphabet does not declare it. -/
theorem inputsAlikeCopier : ∃ compiled, compile copier .biInfinite = .ok compiled ∧
    compiled.encodeInput ['_', 'a', '_', 'b'] = .error (.unknownSymbol "b" 3) ∧
    Run.start copier ⟨10, .biInfinite⟩ ['_', 'a', '_', 'b'] = .error (.unknownSymbol "b" 3) ∧
    compiled.encodeInput ['_', 'a', '_'] = .ok [⟨"_"⟩, ⟨"a"⟩, ⟨"_"⟩, ⟨"$"⟩] ∧
    (∃ run, Run.start compiled.machine ⟨10, .biInfinite⟩ [⟨"_"⟩, ⟨"a"⟩, ⟨"_"⟩, ⟨"$"⟩] = .ok run) ∧
    ∀ other, compiled.encodeInput other = .ok [⟨"_"⟩, ⟨"a"⟩, ⟨"_"⟩, ⟨"$"⟩] → other = ['_', 'a', '_'] := by
  obtain ⟨compiled, ok, result⟩ := copierCompiles .biInfinite
  have known : ∀ symbol ∈ ['_', 'a', '_'], symbol ∈ copier.alphabet := by
    simp [copier, Alphabet.memIff, Symbol.blank]
  obtain ⟨alike, refused, -⟩ := inputsAlike ok ['_', 'a', '_', 'b']
  have cause : compiled.encodeInput ['_', 'a', '_', 'b'] = .error (.unknownSymbol "b" 3) :=
    (refused _).mpr ⟨['_', 'a', '_'], 'b', [], rfl, known, by decide, rfl⟩
  obtain ⟨-, -, taken⟩ := inputsAlike ok ['_', 'a', '_']
  have tokens : compiled.encodeInput ['_', 'a', '_'] = .ok [⟨"_"⟩, ⟨"a"⟩, ⟨"_"⟩, ⟨"$"⟩] :=
    encodesInput result known
  obtain ⟨starts, -, -, -, back⟩ := taken _ tokens
  exact ⟨compiled, ok, cause, (alike ⟨10, .biInfinite⟩ _).mp cause, tokens, starts _, back⟩

end Multitape.SingleTape
