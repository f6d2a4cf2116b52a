import Multitape.Proofs.Run

/-! What holds of every configuration that a machine reaches: it keeps all its tapes, they
hold symbols of its alphabet only, and where tapes end at offset 0 no tape holds a cell to
the left of it. -/
namespace Multitape
variable {S : Type} [Symbol S]

namespace Tape

def Over (tape : Tape S) (alphabet : Alphabet S) : Prop := ∀ symbol ∈ tape.cells, symbol ∈ alphabet

def Anchored (tape : Tape S) : Prop := tape.head = tape.left.length

theorem overIff {tape : Tape S} {alphabet : Alphabet S} : tape.Over alphabet ↔
    (∀ symbol ∈ tape.left, symbol ∈ alphabet) ∧ tape.here ∈ alphabet ∧
      ∀ symbol ∈ tape.right, symbol ∈ alphabet := by
  simp only [Over, cells, List.mem_append, List.mem_reverse, List.mem_cons]
  constructor
  · intro h
    exact ⟨fun s mem => h s (.inl mem), h _ (.inr (.inl rfl)), fun s mem => h s (.inr (.inr mem))⟩
  · rintro ⟨left, here, right⟩ s (mem | rfl | mem)
    · exact left s mem
    · exact here
    · exact right s mem

theorem overOfInput {input : List S} {alphabet : Alphabet S}
    (known : ∀ symbol ∈ input, symbol ∈ alphabet) : (ofInput input).Over alphabet := by
  cases input with
  | nil => simp [overIff, ofInput, alphabet.blankMem]
  | cons symbol rest =>
    refine overIff.mpr ⟨by simp [ofInput], known symbol (by simp), fun s mem => ?_⟩
    exact known s (List.mem_cons_of_mem _ mem)

theorem overWrite {tape : Tape S} {alphabet : Alphabet S} {symbol : S}
    (lettered : tape.Over alphabet) (known : symbol ∈ alphabet) : (tape.write symbol).Over alphabet := by
  have h := overIff.mp lettered
  exact overIff.mpr ⟨h.1, known, h.2.2⟩

theorem headDMem {cells : List S} {alphabet : Alphabet S} (known : ∀ symbol ∈ cells, symbol ∈ alphabet) :
    cells.headD Symbol.blank ∈ alphabet := by
  cases cells with
  | nil => exact alphabet.blankMem
  | cons cell rest => exact known cell (by simp)

theorem overShift {tape : Tape S} {alphabet : Alphabet S} (lettered : tape.Over alphabet)
    (move : Direction) : (tape.shift move).Over alphabet := by
  obtain ⟨left, here, right⟩ := overIff.mp lettered
  cases move with
  | stay => exact lettered
  | left =>
    refine overIff.mpr ⟨fun s mem => left s (List.mem_of_mem_tail mem), headDMem left, ?_⟩
    intro s mem
    rcases List.mem_cons.mp mem with rfl | mem
    · exact here
    · exact right s mem
  | right =>
    refine overIff.mpr ⟨?_, headDMem right, fun s mem => right s (List.mem_of_mem_tail mem)⟩
    intro s mem
    rcases List.mem_cons.mp mem with rfl | mem
    · exact here
    · exact left s mem

end Tape

theorem overModeShift {mode : TapeMode} {tape : Tape S} {alphabet : Alphabet S}
    (lettered : tape.Over alphabet) (move : Direction) : (mode.shift tape move).Over alphabet := by
  unfold TapeMode.shift
  split
  · exact lettered
  · exact Tape.overShift lettered move

theorem anchoredShift (tape : Tape S) (anchored : tape.Anchored) (move : Direction) :
    (TapeMode.shift .rightInfinite tape move).Anchored := by
  have same : tape.head = tape.left.length := anchored
  unfold TapeMode.shift
  split
  · exact anchored
  · rename_i free
    cases move with
    | stay => exact anchored
    | right => simp [Tape.Anchored, Tape.shift, same]
    | left =>
      have moved : tape.head ≠ 0 := by simpa using free
      simp only [Tape.Anchored, Tape.shift, List.length_tail]
      omega

structure Configuration.Sound (now : Configuration S) (machine : Machine S) (mode : TapeMode) :
    Prop where
  count : now.tapes.length = machine.tapes
  lettered : ∀ tape ∈ now.tapes, tape.Over machine.alphabet
  anchored : mode = .rightInfinite → ∀ tape ∈ now.tapes, tape.Anchored

theorem soundStart {machine : Machine S} {mode : TapeMode} {input : List S}
    (known : ∀ symbol ∈ input, symbol ∈ machine.alphabet) :
    (Configuration.start machine.tapes input).Sound machine mode where
  count := by
    have := machine.hasTapes
    simp only [Configuration.start, List.length_cons, List.length_replicate]
    omega
  lettered tape mem := by
    rcases List.mem_cons.mp mem with rfl | mem
    · exact Tape.overOfInput known
    · rw [List.eq_of_mem_replicate mem]
      exact Tape.overOfInput (by simp)
  anchored _ tape mem := by
    rcases List.mem_cons.mp mem with rfl | mem
    · cases input <;> rfl
    · rw [List.eq_of_mem_replicate mem]
      rfl

/- Each tape after a step is one from before, written on and moved. -/
theorem memAct {mode : TapeMode} {tapes : List (Tape S)} {write : List S} {moves : List Direction}
    {tape : Tape S} (mem : tape ∈ act mode tapes write moves) :
    tape ∈ tapes ∨ ∃ old ∈ tapes, ∃ symbol ∈ write, ∃ move,
      tape = mode.shift (old.write symbol) move := by
  induction tapes generalizing write moves with
  | nil => simp [act] at mem
  | cons first tapes ih =>
    cases write with
    | nil => exact .inl (by simpa [act] using mem)
    | cons symbol write =>
      cases moves with
      | nil => exact .inl (by simpa [act] using mem)
      | cons move moves =>
        simp only [act, List.mem_cons] at mem
        rcases mem with rfl | mem
        · exact .inr ⟨first, by simp, symbol, by simp, move, rfl⟩
        · rcases ih mem with old | ⟨old, hold, written, hwritten, moved, rfl⟩
          · exact .inl (by simp [old])
          · exact .inr ⟨old, by simp [hold], written, by simp [hwritten], moved, rfl⟩

variable [DecidableEq S] {machine : Machine S} {mode : TapeMode}

theorem ruleOfGet {state : Nat} {read : List S} {rule : Rule S}
    (found : machine.table.get? state read = some rule) :
    rule.state = state ∧ rule.read = read ∧ rule.Fits machine.tapes machine.alphabet := by
  obtain ⟨mem, key⟩ := Table.getIff.mp found
  exact ⟨congrArg Prod.fst key, congrArg Prod.snd key, machine.fits rule mem⟩

theorem soundStep {now next : Configuration S} (sound : now.Sound machine mode)
    (step : machine.step? mode now = some next) : next.Sound machine mode := by
  obtain ⟨number, -, ⟨rule, found, rfl⟩ | ⟨-, rfl⟩⟩ := stepIff.mp step
  · have fits := (ruleOfGet found).2.2
    refine ⟨(lengthAct ..).trans sound.count, fun tape mem => ?_, fun right tape mem => ?_⟩
    · rcases memAct mem with old | ⟨old, hold, symbol, hs, move, rfl⟩
      · exact sound.lettered tape old
      · exact overModeShift
          (Tape.overWrite (sound.lettered old hold) (fits.symbols symbol (by simp [hs]))) move
    · rcases memAct mem with old | ⟨old, hold, symbol, hs, move, rfl⟩
      · exact sound.anchored right tape old
      · subst right
        exact anchoredShift (old.write symbol) (sound.anchored rfl old hold) move
  · exact ⟨sound.count, sound.lettered, sound.anchored⟩

theorem soundAfter {start now : Configuration S} {n : Nat} (sound : start.Sound machine mode)
    (reached : machine.after? mode start n = some now) : now.Sound machine mode := by
  induction n generalizing now with
  | zero =>
    cases Option.some.inj reached
    exact sound
  | succ n ih =>
    obtain ⟨before, found, step⟩ := Option.bind_eq_some_iff.mp reached
    exact soundStep (ih found) step

end Multitape
