import Multitape.Proofs.SingleTape.Trail

/-! The simulation, by induction on the source steps. As long as the source machine is in
an ordinary state its tapes are met as a layout, once after every step and in order; and
when it stops the compiled machine stops too, on the contents of the last tape. -/
namespace Multitape.SingleTape
variable {S : Type} [Symbol S]

def inputTokens (input : List S) : List Token := input.map Symbol.toToken ++ [Cell.rightSign]

def firstShown (input : List S) : Configuration Token :=
  ⟨.start, [Tape.ofInput (inputTokens input)]⟩

variable [DecidableEq S]

def Records (machine : Machine S) (mode : TapeMode) (compiled : SingleTape S) (input : List S)
    (met : List (Configuration Token)) : Prop :=
  ∀ n entry, met[n]? = some entry → ∃ number tapes state tape,
    machine.after? mode (.start machine.tapes input) n = some ⟨.ordinary number, tapes⟩ ∧
      entry = ⟨state, [tape]⟩ ∧ Shows compiled state tape (.entry number tapes)

structure Arrived (machine : Machine S) (mode : TapeMode) (compiled : SingleTape S) (input : List S)
    (n steps : Nat) (met : List (Configuration Token)) (now : Configuration Token) (scan : Scan S) :
    Prop where
  trail : compiled.Trail (firstShown input) met steps now
  shown : ∃ state tape, now = ⟨state, [tape]⟩ ∧ Shows compiled state tape scan
  later : n ≤ steps
  records : Records machine mode compiled input met

variable {machine : Machine S} {mode : TapeMode} {compiled : SingleTape S} {input : List S}

theorem recordsAppend {met : List (Configuration Token)} {number : Nat} {tapes : List (Tape S)}
    {state : State} {tape : Tape Token} (records : Records machine mode compiled input met)
    (source : machine.after? mode (.start machine.tapes input) met.length =
      some ⟨.ordinary number, tapes⟩)
    (shows : Shows compiled state tape (.entry number tapes)) :
    Records machine mode compiled input (met ++ [⟨state, [tape]⟩]) := by
  intro n entry found
  rcases Nat.lt_trichotomy n met.length with less | rfl | more
  · rw [List.getElem?_append_left less] at found
    exact records n entry found
  · rw [List.getElem?_concat_length] at found
    exact ⟨number, tapes, state, tape, source, (Option.some.inj found).symm, shows⟩
  · rw [List.getElem?_eq_none (by simp; omega)] at found
    cases found

omit [Symbol S] [DecidableEq S] in
theorem entryBegins (number : Nat) (tapes : List (Tape S)) : (Scan.entry number tapes).Begins :=
  ⟨⟨number, rfl⟩, rfl⟩

section
variable (result : Compiled machine mode compiled) (several : 2 ≤ machine.tapes)
include result several

theorem shownInitial (input : List S) :
    Shows compiled .start (Tape.ofInput (inputTokens input)) (.initial input) := by
  have tokens : inputTokens input = (Scan.initial input).ahead.map Cell.token := by
    simp [inputTokens, Scan.initial, Cell.token]
  refine ⟨⟨0, rfl, ?_⟩, ?_, ?_, 0, ?_⟩
  · rw [result.phases]
    exact numberedFirst several
  · cases h : inputTokens input <;> rfl
  · cases h : inputTokens input <;> rfl
  · rw [← tokens]
    cases h : inputTokens input with
    | nil => simp [inputTokens] at h
    | cons token rest => simp [Tape.ofInput]

theorem trailInitial (input : List S) : compiled.Trail (firstShown input) [] 0 (firstShown input) := by
  have silent : compiled.begins (firstShown input) = false := by
    rw [Bool.eq_false_iff, Ne, firstShown, shownBegins (shownInitial result several input)]
    exact Scan.notBegins (by simp [Scan.initial])
  exact ⟨fun _ => rfl, fun _ => by simp [entries, Machine.after?, silent], fun n less => by omega⟩

variable [LawfulSymbol S]

/- From one entry to the next. -/
theorem arrivedNext {n steps number next : Nat} {met : List (Configuration Token)}
    {now : Configuration Token} {tapes moved : List (Tape S)} (count : met.length = n + 1)
    (arrived : Arrived machine mode compiled input n steps met now (.entry number tapes))
    (source : machine.after? mode (.start machine.tapes input) (n + 1) = some ⟨.ordinary next, moved⟩)
    (arrives : Arrives machine mode (.entry number tapes) (.entry next moved)) :
    ∃ more later, Arrived machine mode compiled input (n + 1) more (met ++ [later]) later
      (.entry next moved) := by
  obtain ⟨state, tape, rfl, shows⟩ := arrived.shown
  obtain ⟨more, later, moved, less, shown, trail⟩ :=
    trailArrives result several arrived.trail shows arrives
  have begins := (shownBegins shown).mpr (entryBegins _ _)
  have bound := arrived.later
  rw [List.filter_singleton, begins] at trail
  rw [← count] at source
  exact ⟨more, _, trail, ⟨later, moved, rfl, shown⟩, by omega,
    recordsAppend arrived.records source shown⟩

theorem arrivedStop {n steps number : Nat} {met : List (Configuration Token)}
    {now : Configuration Token} {tapes : List (Tape S)} {terminal : State} {kept : Tape S}
    {erased : Nat}
    (arrived : Arrived machine mode compiled input n steps met now (.entry number tapes))
    (arrives : Arrives machine mode (.entry number tapes) (.cleaned terminal kept erased)) :
    ∃ more later, Arrived machine mode compiled input (n + 1) more met later
      (.cleaned terminal kept erased) := by
  obtain ⟨state, tape, rfl, shows⟩ := arrived.shown
  obtain ⟨more, later, moved, less, shown, trail⟩ :=
    trailArrives result several arrived.trail shows arrives
  have silent : compiled.begins ⟨later, [moved]⟩ = false := by
    rw [Bool.eq_false_iff, Ne, shownBegins shown]
    exact Scan.notBegins (by simp [Scan.cleaned])
  have bound := arrived.later
  rw [List.filter_singleton, silent] at trail
  exact ⟨more, _, by simpa using trail, ⟨later, moved, rfl, shown⟩, by omega, arrived.records⟩

variable (known : ∀ symbol ∈ input, symbol ∈ machine.alphabet)
include known

theorem arrivedFirst : ∃ steps now, Arrived machine mode compiled input 0 steps [now] now
    (.entry 0 (Configuration.start machine.tapes input).tapes) := by
  obtain ⟨steps, state, tape, _, shown, trail⟩ := trailArrives result several
    (trailInitial result several input) (shownInitial result several input)
    (arrivesFirst several known)
  have begins := (shownBegins shown).mpr (entryBegins _ _)
  rw [List.filter_singleton, begins] at trail
  have none : Records machine mode compiled input [] := by simp [Records]
  exact ⟨steps, _, trail, ⟨state, tape, rfl, shown⟩, by omega, recordsAppend none rfl shown⟩

/- Induction on the number of source steps. -/
theorem arrivedOrdinary {n number : Nat} {tapes : List (Tape S)}
    (source : machine.after? mode (.start machine.tapes input) n = some ⟨.ordinary number, tapes⟩) :
    ∃ steps met now, met.length = n + 1 ∧
      Arrived machine mode compiled input n steps met now (.entry number tapes) := by
  induction n generalizing number tapes with
  | zero =>
    cases source
    obtain ⟨steps, now, arrived⟩ := arrivedFirst result several known
    exact ⟨steps, [now], now, rfl, arrived⟩
  | succ n ih =>
    obtain ⟨⟨state, before⟩, reached, step⟩ := Option.bind_eq_some_iff.mp source
    cases state with
    | ordinary previous =>
      obtain ⟨steps, met, now, count, arrived⟩ := ih reached
      rcases rounds (soundAfter (soundStart known) reached) step with
        ⟨later, same, arrives⟩ | ⟨terminal, _⟩
      · cases same
        obtain ⟨more, later, next⟩ := arrivedNext result several count arrived source arrives
        exact ⟨more, met ++ [later], later, by simp [count], next⟩
      · cases terminal
    | _ => cases step

/- And how it ends; the one terminal state comes last. -/
theorem arrivedTerminal {n : Nat} {last : Configuration S} (terminal : last.state.isTerminal)
    (source : machine.after? mode (.start machine.tapes input) n = some last) :
    ∃ steps met now kept erased, met.length = n ∧ (∃ final, last.tapes.getLast? = some final ∧
        kept.output = final.output) ∧ kept.Over machine.alphabet ∧
      Arrived machine mode compiled input n steps met now (.cleaned last.state kept erased) := by
  cases n with
  | zero =>
    cases source
    cases terminal
  | succ n =>
    obtain ⟨⟨state, before⟩, reached, step⟩ := Option.bind_eq_some_iff.mp source
    cases state with
    | ordinary previous =>
      obtain ⟨steps, met, now, count, arrived⟩ := arrivedOrdinary result several known reached
      rcases rounds (soundAfter (soundStart known) reached) step with
        ⟨later, same, arrives⟩ | ⟨_, final, kept, erased, last', output, lettered, arrives⟩
      · rw [same] at terminal
        cases terminal
      · obtain ⟨more, later, stopped⟩ := arrivedStop result several arrived arrives
        exact ⟨more, met, later, kept, erased, count, ⟨final, last', output⟩, lettered, stopped⟩
    | _ => cases step

end
end Multitape.SingleTape
