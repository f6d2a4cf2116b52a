import Multitape.Proofs.Abstract
import Multitape.Proofs.Symbol

/-! A machine whose symbols are written as tokens. It looks up, writes and moves as before,
so on an input that is written the same way its runs are those of the first machine, with
every symbol on every tape written as its token. -/
namespace Multitape
open Symbol (toToken)
variable {S : Type} [Symbol S]

def Rule.spelled (rule : Rule S) : Rule Token :=
  ⟨rule.state, rule.read.map toToken, rule.next, rule.write.map toToken, rule.moves⟩

def Tape.spelled (tape : Tape S) : Tape Token :=
  ⟨tape.left.map toToken, toToken tape.here, tape.right.map toToken, tape.head⟩

def Configuration.spelled (now : Configuration S) : Configuration Token :=
  ⟨now.state, now.tapes.map Tape.spelled⟩

def Outcome.spelled (outcome : Outcome S) : Outcome Token :=
  ⟨outcome.verdict, outcome.steps, outcome.tapes.map Tape.spelled, outcome.state⟩

structure Machine.SpelledBy (machine : Machine S) (spelled : Machine Token) : Prop where
  tapes : spelled.tapes = machine.tapes
  symbols : spelled.alphabet.symbols = machine.alphabet.symbols.map toToken
  rules : spelled.table.rules.toList = machine.table.rules.toList.map Rule.spelled

variable [LawfulSymbol S]

theorem spelledInput (input : List S) :
    Tape.ofInput (input.map toToken) = (Tape.ofInput input).spelled := by
  cases input with
  | nil => simp [Tape.ofInput, Tape.spelled, Symbol.toTokenOfBlank]
  | cons => rfl

theorem spelledHead (cells : List S) :
    (cells.map toToken).headD Symbol.blank = toToken (cells.headD Symbol.blank) := by
  cases cells with
  | nil => exact Symbol.toTokenOfBlank.symm
  | cons => rfl

theorem spelledShift (mode : TapeMode) (tape : Tape S) (move : Direction) :
    mode.shift tape.spelled move = (mode.shift tape move).spelled := by
  have head : tape.spelled.head = tape.head := rfl
  unfold TapeMode.shift
  rw [head]
  split
  · rfl
  · cases move <;> simp only [Tape.shift, Tape.spelled, spelledHead, List.map_tail, List.map_cons]

theorem spelledAct (mode : TapeMode) (tapes : List (Tape S)) (write : List S)
    (moves : List Direction) : act mode (tapes.map Tape.spelled) (write.map toToken) moves =
      (act mode tapes write moves).map Tape.spelled := by
  induction tapes generalizing write moves with
  | nil => simp [act]
  | cons tape tapes ih =>
    cases write with
    | nil => simp [act]
    | cons symbol write =>
      cases moves with
      | nil => simp [act]
      | cons move moves =>
        simp only [List.map_cons, act, ih, ← spelledShift]
        rfl

theorem spelledStart (tapes : Nat) (input : List S) :
    Configuration.start tapes (input.map toToken) = (Configuration.start tapes input).spelled := by
  have blank : (Tape.empty : Tape S).spelled = Tape.empty := (spelledInput []).symm
  simp [Configuration.start, Configuration.spelled, spelledInput, blank]

theorem spelledListInjective : Function.Injective (List.map (toToken : S → Token)) :=
  List.map_injective_iff.mpr fun _ _ => Symbol.toTokenInjective

theorem spelledKeyIff {rule : Rule S} {state : Nat} {read : List S} :
    rule.spelled.key = (state, read.map toToken) ↔ rule.key = (state, read) := by
  simp only [Rule.key, Rule.spelled, Prod.mk.injEq, spelledListInjective.eq_iff]

section
variable {machine : Machine S} {spelled : Machine Token} (same : machine.SpelledBy spelled)
include same

theorem spelledMem {symbol : S} :
    toToken symbol ∈ spelled.alphabet ↔ symbol ∈ machine.alphabet := by
  rw [Alphabet.memIff, Alphabet.memIff, Symbol.toTokenBlankIff, same.symbols,
    List.mem_map_of_injective fun _ _ => Symbol.toTokenInjective]

variable [DecidableEq S]

theorem spelledRefuse (input : List S) :
    spelled.alphabet.refuse? (input.map toToken) = machine.alphabet.refuse? input := by
  have known : ∀ symbol : S, toToken symbol ∉ spelled.alphabet ↔ symbol ∉ machine.alphabet :=
    fun symbol => not_congr (spelledMem same)
  simp only [Alphabet.refuse?, List.zipIdx_map, List.find?_map, Function.comp_def, Prod.map,
    Option.map_map, id, known]
  rfl

theorem spelledGet (state : Nat) (read : List S) :
    spelled.table.get? state (read.map toToken) = (machine.table.get? state read).map Rule.spelled := by
  rw [getByKey, getByKey, same.rules, List.find?_map]
  simp only [Function.comp_def, spelledKeyIff]

theorem spelledStep (mode : TapeMode) (now : Configuration S) :
    spelled.step? mode now.spelled = (machine.step? mode now).map Configuration.spelled := by
  have symbols : now.spelled.symbols = now.symbols.map toToken := by
    simp [Configuration.symbols, Configuration.spelled, Tape.spelled, Tape.read]
  obtain ⟨state, tapes⟩ := now
  cases state with
  | ordinary number =>
    have found := spelledGet same number (Configuration.mk (.ordinary number) tapes).symbols
    rw [← symbols] at found
    unfold Machine.step?
    dsimp only [Configuration.spelled] at found ⊢
    rw [found]
    cases machine.table.get? number (Configuration.mk (.ordinary number) tapes).symbols with
    | none => rfl
    | some rule => simp [Rule.spelled, spelledAct, Configuration.spelled]
  | _ => rfl

theorem spelledAfter (mode : TapeMode) (start : Configuration S) (n : Nat) :
    spelled.after? mode start.spelled n =
      (machine.after? mode start n).map Configuration.spelled := by
  induction n with
  | zero => rfl
  | succ n ih =>
    rw [Machine.after?, Machine.after?, ih]
    cases machine.after? mode start n with
    | none => rfl
    | some now => exact spelledStep same mode now

theorem spelledEnds {mode : TapeMode} {start last : Configuration S} {bound n : Nat}
    (ends : machine.Ends mode start bound n last) :
    spelled.Ends mode start.spelled bound n last.spelled := by
  obtain ⟨reached, rest⟩ := ends
  exact ⟨by rw [spelledAfter same, reached]; rfl, rest⟩

/- The same refusal, or the same outcome with its tapes written as tokens. -/
theorem spelledRun (config : Config) (input : List S) :
    spelled.run config (input.map toToken) = (machine.run config input).map Outcome.spelled := by
  have refused := spelledRefuse same input
  cases checked : machine.alphabet.refuse? input with
  | some cause =>
    rw [checked] at refused
    simp only [Machine.run, Run.start, checked, refused]
    rfl
  | none =>
    rw [checked] at refused
    obtain ⟨n, last, ends⟩ :=
      endsExists machine config.tapeMode (.start machine.tapes input) config.maxSteps
    have spelledEnds := spelledEnds same ends
    rw [← spelledStart, ← same.tapes] at spelledEnds
    rw [runOfEnds checked ends, runOfEnds refused spelledEnds]
    rfl

end
end Multitape
