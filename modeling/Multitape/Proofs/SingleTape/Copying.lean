import Multitape.Proofs.Layout
import Multitape.Proofs.SingleTape.Scan

/-! The first sweep turns the input into the layout of the first configuration. The way
back to the left end is common to all sweeps and comes first. -/
namespace Multitape.SingleTape
open Instruction Layout

export Layout (segment)

variable {S : Type} [Symbol S] [DecidableEq S] {machine : Machine S} {mode : TapeMode}

theorem memContents {cell : Cell S} : cell ∈ contents machine ↔
    ∃ symbol ∈ machine.alphabet, cell = .plain symbol ∨ cell = .marked symbol := by
  simp only [contents, List.mem_append, List.mem_map, Alphabet.memWithBlank]
  grind

theorem contentsOfSegment {tape : Tape S} (lettered : tape.Over machine.alphabet) {cell : Cell S}
    (mem : cell ∈ segment tape) : cell ∈ contents machine := by
  obtain ⟨left, here, right⟩ := Tape.overIff.mp lettered
  rw [memContents]
  rcases memSegment.mp mem with ⟨symbol, hs, rfl⟩ | rfl | ⟨symbol, hs, rfl⟩
  · exact ⟨symbol, left symbol hs, .inl rfl⟩
  · exact ⟨tape.here, here, .inr rfl⟩
  · exact ⟨symbol, right symbol hs, .inl rfl⟩

theorem cellsOfSegments {tapes : List (Tape S)}
    (lettered : ∀ tape ∈ tapes, tape.Over machine.alphabet) {cell : Cell S}
    (mem : cell ∈ segments tapes) : cell ∈ contents machine ∨ cell = .separator := by
  rcases memSegments mem with sep | ⟨tape, htape, inside⟩
  · exact .inr sep
  · exact .inl (contentsOfSegment (lettered tape htape) inside)

def Scan.entry (state : Nat) (tapes : List (Tape S)) : Scan S :=
  ⟨.phase (.read state []), [.leftEnd], segments tapes ++ [.rightEnd]⟩

variable (machine mode) in
/-- A source step is over: some steps after `a` the next one begins, or the run ends. -/
def Arrives (a b : Scan S) : Prop :=
  ∃ last, Travel machine mode a last ∧ Step machine mode last b

theorem Travel.arrives {a b c : Scan S} (first : Travel machine mode a b)
    (second : Arrives machine mode b c) : Arrives machine mode a c := by
  obtain ⟨last, travel, step⟩ := second
  exact ⟨last, first.trans travel, step⟩

theorem rewinds {resume : Resume} {cells ahead : List (Cell S)}
    (known : ∀ cell ∈ cells, cell ∈ contents machine ∨ cell = .separator) :
    Travel machine mode (.back (.phase (.rewind resume)) (cells.reverse ++ [.leftEnd]) ahead)
      ⟨.phase (.rewind resume), [], .leftEnd :: cells ++ ahead⟩ := by
  have sweep : Travel machine mode
      (.back (.phase (.rewind resume)) (cells.reverse ++ [.leftEnd]) ahead)
      (.back (.phase (.rewind resume)) [.leftEnd] ((cells.reverse.map id).reverse ++ ahead)) := by
    refine sweepLeft cells.reverse (fun cell mem => ?_) (by simp) (by simp)
    refine List.mem_append_left _ (List.mem_map.mpr ⟨cell, ?_, rfl⟩)
    rcases known cell (by simpa using mem) with inside | rfl
    · exact List.mem_append_left _ inside
    · simp [SingleTape.cells]
  simpa [Scan.back] using sweep

theorem resumesRead {state : Nat} {tapes : List (Tape S)} :
    Step machine mode ⟨.phase (.rewind (.read state)), [], whole tapes⟩ (.entry state tapes) :=
  stepRight (List.mem_append_right _ (by simp [Instruction.pass, put]))

/- From the right end back to the left one and into the next source step. -/
theorem arrivesFromRightEnd {state : Nat} {done : List (Tape S)} {tape : Tape S}
    (lettered : ∀ t ∈ done.reverse ++ [tape], t.Over machine.alphabet) :
    Arrives machine mode
      (.back (.phase (.rewind (.read state))) ((segment tape).reverse ++ front done) [.rightEnd])
      (.entry state (done.reverse ++ [tape])) := by
  rw [frontSegment]
  exact ⟨_, rewinds fun cell mem => cellsOfSegments lettered mem, resumesRead⟩

def carriedCell (symbol : S) (first : Bool) : Cell S :=
  if first then .marked symbol else .plain symbol

theorem carries {symbol : S} {first : Bool} {rest : List S} {left : List (Cell S)}
    (known : ∀ s ∈ rest, s ∈ machine.alphabet) :
    Travel machine mode ⟨.phase (.carry symbol first), left, rest.map .plain ++ [.rightEnd]⟩
      ⟨.phase (.separator 1), (carriedCell symbol first :: rest.map .plain).reverse ++ left, []⟩ := by
  induction rest generalizing symbol first left with
  | nil =>
    apply travelRight
    · exact List.mem_append_right _ (by simp [carriedCell])
    · simp
  | cons next rest ih =>
    have first' : Travel machine mode
        ⟨.phase (.carry symbol first), left, .plain next :: (rest.map .plain ++ [.rightEnd])⟩
        ⟨.phase (.carry next false), carriedCell symbol first :: left,
          rest.map .plain ++ [.rightEnd]⟩ := by
      apply travelRight
      · have listed := Alphabet.memWithBlank.mpr (known next (by simp))
        exact List.mem_append_left _ (List.mem_map.mpr ⟨next, listed, rfl⟩)
      · simp
    have later : Travel machine mode
        ⟨.phase (.carry next false), carriedCell symbol first :: left,
          rest.map .plain ++ [.rightEnd]⟩ _ :=
      ih fun s mem => known s (by simp [mem])
    simpa [carriedCell] using first'.trans later

/- One blank segment after the other, up to the last tape; induction on how many follow. -/
theorem laysBlanks {n tape : Nat} {done : List (Tape S)} (count : tape + n + 1 = machine.tapes) :
    Travel machine mode ⟨.phase (.layBlank tape), front done, []⟩
      ⟨.phase .terminator,
        (segment Tape.empty).reverse ++ front (List.replicate n Tape.empty ++ done), []⟩ := by
  induction n generalizing tape done with
  | zero =>
    apply travelRightBeyond
    · simp [instructions, put, show ¬ tape + 1 < machine.tapes by omega, Tape.empty, Tape.ofInput]
    · simp
  | succ n ih =>
    have blank : Travel machine mode ⟨.phase (.layBlank tape), front done, []⟩
        ⟨.phase (.separator (tape + 1)), .marked Symbol.blank :: front done, []⟩ := by
      apply travelRightBeyond
      · simp [instructions, put, show tape + 1 < machine.tapes by omega]
      · simp
    have opened : Travel machine mode
        ⟨.phase (.separator (tape + 1)), .marked Symbol.blank :: front done, []⟩
        ⟨.phase (.layBlank (tape + 1)), front (Tape.empty :: done), []⟩ := by
      apply travelRightBeyond
      · simp [instructions, put]
      · simp
    have later : Travel machine mode
        ⟨.phase (.layBlank (tape + 1)), front (Tape.empty :: done), []⟩ _ := ih (by omega)
    rw [List.replicate_succ', List.append_assoc]
    exact blank.trans (opened.trans later)

theorem closes {done : List (Tape S)} {tape : Tape S}
    (lettered : ∀ t ∈ done.reverse ++ [tape], t.Over machine.alphabet) :
    Arrives machine mode ⟨.phase .terminator, (segment tape).reverse ++ front done, []⟩
      (.entry 0 (done.reverse ++ [tape])) := by
  have ended : Travel machine mode ⟨.phase .terminator, (segment tape).reverse ++ front done, []⟩
      (.back (.phase (.rewind (.read 0))) ((segment tape).reverse ++ front done) [.rightEnd]) := by
    apply travelLeftBeyond
    · simp [instructions, put]
    · simp [segment]
    · simp
  exact ended.arrives (arrivesFromRightEnd lettered)

def Scan.initial (input : List S) : Scan S :=
  ⟨.phase .start, [], input.map .plain ++ [.rightEnd]⟩

theorem arrivesFirst {input : List S} (several : 2 ≤ machine.tapes)
    (known : ∀ symbol ∈ input, symbol ∈ machine.alphabet) :
    Arrives machine mode (.initial input)
      (.entry 0 (Configuration.start machine.tapes input).tapes) := by
  have sound : (Configuration.start machine.tapes input).Sound machine mode := soundStart known
  have lettered := sound.lettered
  cases input with
  | nil =>
    obtain ⟨n, count⟩ : ∃ n, 0 + n + 1 = machine.tapes := ⟨machine.tapes - 1, by omega⟩
    have tapes : (Configuration.start machine.tapes ([] : List S)).tapes =
        (List.replicate n Tape.empty ++ []).reverse ++ [Tape.empty] := by
      simp [Configuration.start, ← count, Tape.empty, ← List.replicate_succ', List.replicate_succ]
    have first : Travel machine mode (.initial []) ⟨.phase (.layBlank 0), front [], []⟩ := by
      apply travelRight
      · exact List.mem_append_right _ (by simp)
      · simp
    rw [tapes] at lettered ⊢
    exact (first.trans (laysBlanks count)).arrives (closes lettered)
  | cons symbol rest =>
    obtain ⟨n, count⟩ : ∃ n, 1 + n + 1 = machine.tapes := ⟨machine.tapes - 2, by omega⟩
    have tapes : (Configuration.start machine.tapes (symbol :: rest)).tapes =
        (List.replicate n Tape.empty ++ [Tape.ofInput (symbol :: rest)]).reverse ++
          [Tape.empty] := by
      simp [Configuration.start, ← count, ← List.replicate_succ', Nat.add_comm 1 n]
    have first : Travel machine mode (.initial (symbol :: rest))
        ⟨.phase (.carry symbol true), [.leftEnd], rest.map .plain ++ [.rightEnd]⟩ := by
      apply travelRight
      · have listed := Alphabet.memWithBlank.mpr (known symbol (by simp))
        exact List.mem_append_left _ (List.mem_map.mpr ⟨symbol, listed, rfl⟩)
      · simp
    have copied : Travel machine mode
        ⟨.phase (.carry symbol true), [.leftEnd], rest.map .plain ++ [.rightEnd]⟩
        ⟨.phase (.separator 1), (segment (Tape.ofInput (symbol :: rest))).reverse ++ front [], []⟩ :=
      carries fun s mem => known s (List.mem_cons_of_mem symbol mem)
    have opened : Travel machine mode
        ⟨.phase (.separator 1), (segment (Tape.ofInput (symbol :: rest))).reverse ++ front [], []⟩
        ⟨.phase (.layBlank 1), front [Tape.ofInput (symbol :: rest)], []⟩ := by
      apply travelRightBeyond
      · simp [instructions, put]
      · simp
    rw [tapes] at lettered ⊢
    exact (((first.trans copied).trans opened).trans (laysBlanks count)).arrives (closes lettered)

end Multitape.SingleTape
