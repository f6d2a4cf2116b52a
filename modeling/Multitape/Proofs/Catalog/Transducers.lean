import Multitape.Proofs.Catalog.Increment

/-! The machines that are there for their output. Two of them go over the word once, from its
start to its end, and put on the second tape all of its symbols or those of one kind. -/
namespace Multitape.Catalog
open Tape

def transcriberRules (symbols : List Char) (keep : Char → Bool) : List (Rule Char) :=
  symbols.map (fun symbol =>
    if keep symbol then ⟨0, [symbol, '_'], .ordinary 0, [symbol, symbol], [.right, .right]⟩
    else ⟨0, [symbol, '_'], .ordinary 0, [symbol, '_'], [.right, .stay]⟩) ++
    [⟨0, ['_', '_'], .halt, ['_', '_'], [.stay, .stay]⟩]

set_option maxRecDepth 8000 in
theorem offersCopy : ∃ machine, Offers "copy" machine ∧
    machine.Consists 2 digits (transcriberRules digits fun _ => true) :=
  offersOfContents 0 ⟨3, 1, 2, 2, 3⟩ rfl (by decide +kernel) rfl
    (by decide +kernel) ⟨by decide, rfl, rfl, by decide, by decide, by decide, by decide⟩

set_option maxRecDepth 8000 in
theorem offersAddition : ∃ machine, Offers "unary-addition" machine ∧
    machine.Consists 2 ['1', '+'] (transcriberRules ['1', '+'] (· = '1')) :=
  offersOfContents 2 ⟨3, 1, 2, 2, 3⟩ rfl (by decide +kernel) rfl
    (by decide +kernel) ⟨by decide, rfl, rfl, by decide, by decide, by decide, by decide⟩

theorem transcribed {machine : Machine Char} {symbols : List Char} {keep : Char → Bool}
    (consists : machine.Consists 2 symbols (transcriberRules symbols keep)) {word : List Char}
    (letters : ∀ symbol ∈ word, symbol ∈ symbols) (plain : ∀ symbol ∈ word, symbol ≠ Symbol.blank)
    (bound : Nat) (enough : word.length + 1 ≤ bound) : ∃ outcome tape,
      machine.run ⟨bound, .biInfinite⟩ word = .ok outcome ∧ outcome.verdict = .halt ∧
      outcome.steps = word.length + 1 ∧ outcome.tapes[1]? = some tape ∧
      tape.output = word.filter keep ∧ outcome.output = tape.output := by
  have copied : ∀ symbol ∈ word, keep symbol → ⟨0, [symbol, '_'], .ordinary 0, [symbol, symbol],
      [.right, .right]⟩ ∈ machine.table.rules.toList := by
    intro symbol mem kept
    rw [consists.rules]
    exact List.mem_append_left _ (List.mem_map.mpr ⟨symbol, letters symbol mem, if_pos kept⟩)
  have skipped : ∀ symbol ∈ word, ¬ keep symbol → ⟨0, [symbol, '_'], .ordinary 0, [symbol, '_'],
      [.right, .stay]⟩ ∈ machine.table.rules.toList := by
    intro symbol mem dropped
    rw [consists.rules]
    exact List.mem_append_left _ (List.mem_map.mpr ⟨symbol, letters symbol mem, if_neg dropped⟩)
  have stops : ⟨0, ['_', '_'], .halt, ['_', '_'], [.stay, .stay]⟩ ∈ machine.table.rules.toList := by
    rw [consists.rules]
    exact List.mem_append_right _ (List.mem_singleton_self _)
  have passed := afterTranscribed keep [] copied skipped
  rw [List.append_nil] at passed
  have ended : machine.after? .biInfinite ⟨.ordinary 0, [facing 0 [] word, facing 0 [] []]⟩
      (word.length + 1) = some ⟨.halt,
        [facing 0 word.reverse [], facing 0 (word.filter keep).reverse []]⟩ :=
    (afterSucc passed).trans (stepPair stops rfl rfl)
  have output : (facing 0 (word.filter keep).reverse []).output = word.filter keep :=
    outputFacing (fun symbol mem => plain symbol (List.mem_filter.mp mem).1) 0 0
      (by rw [List.reverse_reverse]; rfl)
  exact ⟨_, _, runReaching consists letters ended rfl enough, rfl, rfl, rfl, output, rfl⟩

def Transduces (name : String) (symbols : List Char)
    (result : List Char → Outcome Char → Prop) : Prop :=
  ∃ machine, Offers name machine ∧ ∀ (word : List Char) (bound : Nat),
    (∀ symbol ∈ word, symbol ∈ symbols) → 2 * word.length + 2 ≤ bound →
      ∃ outcome, machine.run ⟨bound, .biInfinite⟩ word = .ok outcome ∧
        outcome.verdict = .halt ∧ result word outcome

theorem incrementTransduces : Transduces "binary-increment" digits fun word outcome =>
    (∀ symbol ∈ outcome.output, symbol ∈ digits) ∧
    Nat.ofDigitChars 2 outcome.output 0 = Nat.ofDigitChars 2 word 0 + 1 ∧
    outcome.output.length = word.length + if '0' ∈ word then 0 else 1 := by
  obtain ⟨machine, offered, consists⟩ := offersIncrement
  refine ⟨machine, offered, fun word bound letters enough => ?_⟩
  have letters' : ∀ symbol ∈ word.reverse, symbol ∈ digits :=
    fun symbol mem => letters symbol (List.mem_reverse.mp mem)
  obtain ⟨n, tape, few, ended, output⟩ := incrementEnds consists.rules letters
  refine ⟨_, runReaching consists letters ended rfl (few.trans enough), rfl, ?_⟩
  have shown : (Configuration.outcome ⟨.halt, [tape]⟩ n).output = (raised word.reverse).reverse :=
    output
  beta_reduce
  rw [shown]
  refine ⟨fun symbol mem => raisedDigits letters' symbol (List.mem_reverse.mp mem), ?_, ?_⟩
  · rw [raisedValue letters', List.reverse_reverse]
  · rw [List.length_reverse, raisedLength, List.length_reverse]
    simp only [List.mem_reverse]

theorem additionTransduces : Transduces "unary-addition" ['1', '+'] fun word outcome =>
    outcome.output = List.replicate (word.count '1') '1' := by
  obtain ⟨machine, offered, consists⟩ := offersAddition
  refine ⟨machine, offered, fun word bound letters enough => ?_⟩
  have plain : ∀ symbol ∈ ['1', '+'], symbol ≠ Symbol.blank := by decide
  obtain ⟨outcome, tape, ran, halted, -, -, kept, output⟩ := transcribed consists letters
    (fun symbol mem => plain symbol (letters symbol mem)) bound (by omega)
  exact ⟨outcome, ran, halted, (output.trans kept).trans (List.filter_eq '1')⟩

theorem copyTransduces : Transduces "copy" digits fun word outcome =>
    outcome.steps = word.length + 1 ∧ outcome.output = word ∧
      ∃ tape, outcome.tapes[1]? = some tape ∧ tape.output = word := by
  obtain ⟨machine, offered, consists⟩ := offersCopy
  refine ⟨machine, offered, fun word bound letters enough => ?_⟩
  obtain ⟨outcome, tape, ran, halted, steps, second, copied, output⟩ :=
    transcribed consists letters (plainDigits letters) bound (by omega)
  rw [List.filter_true] at copied
  exact ⟨outcome, ran, halted, steps, output.trans copied, tape, second, copied⟩

theorem transducersCompute :
    (Transduces "binary-increment" digits fun word outcome =>
      (∀ symbol ∈ outcome.output, symbol ∈ digits) ∧
      Nat.ofDigitChars 2 outcome.output 0 = Nat.ofDigitChars 2 word 0 + 1 ∧
      outcome.output.length = word.length + if '0' ∈ word then 0 else 1) ∧
    (Transduces "unary-addition" ['1', '+'] fun word outcome =>
      outcome.output = List.replicate (word.count '1') '1') ∧
    Transduces "copy" digits fun word outcome =>
      outcome.steps = word.length + 1 ∧ outcome.output = word ∧
        ∃ tape, outcome.tapes[1]? = some tape ∧ tape.output = word :=
  ⟨incrementTransduces, additionTransduces, copyTransduces⟩

theorem transducersComputeShort :
    (∃ machine outcome, Offers "binary-increment" machine ∧
      machine.run ⟨8, .biInfinite⟩ ['1', '1', '1'] = .ok outcome ∧
      Nat.ofDigitChars 2 outcome.output 0 = 8 ∧ outcome.output.length = 4) ∧
    (∃ machine outcome, Offers "unary-addition" machine ∧
      machine.run ⟨10, .biInfinite⟩ ['1', '1', '+', '1'] = .ok outcome ∧
      outcome.output = ['1', '1', '1']) ∧
    ∃ machine outcome tape, Offers "copy" machine ∧
      machine.run ⟨6, .biInfinite⟩ ['0', '1'] = .ok outcome ∧ outcome.steps = 3 ∧
      outcome.tapes[1]? = some tape ∧ tape.output = ['0', '1'] := by
  obtain ⟨⟨raiser, offered, raises⟩, ⟨adder, offered', adds⟩, copier, offered'', copies⟩ :=
    transducersCompute
  obtain ⟨one, ran, -, -, value, size⟩ := raises ['1', '1', '1'] 8 (by decide) (by decide)
  obtain ⟨two, ran', -, sum⟩ := adds ['1', '1', '+', '1'] 10 (by decide) (by decide)
  obtain ⟨three, ran'', -, steps, -, second, place, same⟩ :=
    copies ['0', '1'] 6 (by decide) (by decide)
  exact ⟨⟨raiser, one, offered, ran, value, size⟩, ⟨adder, two, offered', ran', sum⟩,
    copier, three, second, offered'', ran'', steps, place, same⟩

end Multitape.Catalog
