import Multitape.Proofs.SingleTape.Copying

/-! The sweep that collects the marked symbols. It reaches the right end with all of them,
unless no rule of the state starts by reading what it has seen so far; then it turns back
to reject. Either way it changes no cell. -/
namespace Multitape.SingleTape
open Instruction Layout
variable {S : Type} [Symbol S] [DecidableEq S] {machine : Machine S} {mode : TapeMode}
  {state : Nat}

theorem isKnownIff {seen : List S} : isKnown machine state seen ↔
    ∃ rule ∈ machine.table.rules.toList, rule.state = state ∧ seen <+: rule.read := by
  simp only [isKnown, Table.leaving, machine.table.indexed, List.any_eq_true, List.mem_filter,
    decide_eq_true_eq, List.isPrefixOf_iff_prefix, and_assoc]

theorem readsPlain {seen symbols : List S} {left ahead : List (Cell S)} (started : left ≠ [])
    (known : ∀ symbol ∈ symbols, symbol ∈ machine.alphabet) :
    Travel machine mode ⟨.phase (.read state seen), left, symbols.map .plain ++ ahead⟩
      ⟨.phase (.read state seen), (symbols.map .plain).reverse ++ left, ahead⟩ := by
  have sweep : Travel machine mode
      ⟨.phase (.read state seen), left, symbols.map .plain ++ ahead⟩
      ⟨.phase (.read state seen), ((symbols.map .plain).map id).reverse ++ left, ahead⟩ := by
    refine sweepRight _ (fun cell mem => ?_) started
    obtain ⟨symbol, hs, rfl⟩ := List.mem_map.mp mem
    refine List.mem_append_left _ (List.mem_map.mpr ⟨symbol, ?_, rfl⟩)
    exact Alphabet.memWithBlank.mpr (known symbol hs)
  simpa using sweep

section
variable {seen : List S} {tape : Tape S} {left ahead : List (Cell S)}

theorem readsSegment (started : left ≠ []) (more : seen.length < machine.tapes)
    (lettered : tape.Over machine.alphabet) (known : isKnown machine state (seen ++ [tape.read])) :
    Travel machine mode ⟨.phase (.read state seen), left, segment tape ++ ahead⟩
      ⟨.phase (.read state (seen ++ [tape.read])), (segment tape).reverse ++ left, ahead⟩ := by
  obtain ⟨before, here, after⟩ := Tape.overIff.mp lettered
  have first : Travel machine mode ⟨.phase (.read state seen), left, segment tape ++ ahead⟩
      ⟨.phase (.read state seen), (tape.left.reverse.map .plain).reverse ++ left,
        .marked tape.here :: (tape.right.map .plain ++ ahead)⟩ := by
    rw [segment, List.append_assoc]
    exact readsPlain started fun s mem => before s (List.mem_reverse.mp mem)
  have marked : Travel machine mode
      ⟨.phase (.read state seen), (tape.left.reverse.map .plain).reverse ++ left,
        .marked tape.here :: (tape.right.map .plain ++ ahead)⟩
      ⟨.phase (.read state (seen ++ [tape.read])),
        .marked tape.here :: ((tape.left.reverse.map .plain).reverse ++ left),
        tape.right.map .plain ++ ahead⟩ := by
    apply travelRight
    · simp only [instructions, if_pos more]
      apply List.mem_append_right _ (List.mem_cons_of_mem _ (List.mem_map.mpr _))
      refine ⟨tape.here, Alphabet.memWithBlank.mpr here, ?_⟩
      simp only [show isKnown machine state (seen ++ [tape.here]) from known, if_pos]
      rfl
    · simp
  have last : Travel machine mode
      ⟨.phase (.read state (seen ++ [tape.read])),
        .marked tape.here :: ((tape.left.reverse.map .plain).reverse ++ left),
        tape.right.map .plain ++ ahead⟩ _ := readsPlain (by simp) after
  simpa [segment] using first.trans (marked.trans last)

theorem turnsAtSegment (started : left ≠ []) (more : seen.length < machine.tapes)
    (lettered : tape.Over machine.alphabet) (unknown : ¬ isKnown machine state (seen ++ [tape.read])) :
    Travel machine mode ⟨.phase (.read state seen), left, segment tape ++ ahead⟩
      (.back (.phase (.rewind (.cleanup .reject))) ((tape.left.reverse.map .plain).reverse ++ left)
        (.marked tape.here :: tape.right.map .plain ++ ahead)) := by
  obtain ⟨before, here, after⟩ := Tape.overIff.mp lettered
  have first : Travel machine mode ⟨.phase (.read state seen), left, segment tape ++ ahead⟩
      ⟨.phase (.read state seen), (tape.left.reverse.map .plain).reverse ++ left,
        .marked tape.here :: (tape.right.map .plain ++ ahead)⟩ := by
    rw [segment, List.append_assoc]
    exact readsPlain started fun s mem => before s (List.mem_reverse.mp mem)
  apply first.trans
  apply travelLeft
  · simp only [instructions, if_pos more]
    apply List.mem_append_right _ (List.mem_cons_of_mem _ (List.mem_map.mpr _))
    refine ⟨tape.here, Alphabet.memWithBlank.mpr here, ?_⟩
    simp only [show ¬ isKnown machine state (seen ++ [tape.here]) from unknown, if_neg,
      Bool.false_eq_true, not_false_eq_true]
    rfl
  · simp [started]
  · simp

end

/- Rejecting halfway through: the cells from the head on are untouched, so the way back to
the left end meets a whole layout again. -/
theorem turnsBack {seen : List S} {done tapes : List (Tape S)} {tape : Tape S}
    (lettered : ∀ t ∈ done.reverse ++ tape :: tapes, t.Over machine.alphabet)
    (more : seen.length < machine.tapes)
    (unknown : ¬ isKnown machine state (seen ++ [tape.read])) :
    Travel machine mode
      ⟨.phase (.read state seen), front done, segment tape ++ behind tapes⟩
      ⟨.phase (.rewind (.cleanup .reject)), [], whole (done.reverse ++ tape :: tapes)⟩ := by
  obtain ⟨cells, split, inside⟩ := frontCells done
  have turn : Travel machine mode
      ⟨.phase (.read state seen), front done, segment tape ++ behind tapes⟩ _ :=
    turnsAtSegment (by simp [split]) more (lettered tape (by simp)) unknown
  have known : ∀ cell ∈ cells ++ tape.left.reverse.map Cell.plain,
      cell ∈ contents machine ∨ cell = .separator := by
    intro cell mem
    rcases List.mem_append.mp mem with old | here
    · rcases inside cell old with sep | ⟨other, hother, within⟩
      · exact .inr sep
      · exact .inl (contentsOfSegment (lettered other (by simp [hother])) within)
    · exact .inl (contentsOfSegment (lettered tape (by simp)) (List.mem_append_left _ here))
  have back : Travel machine mode
      (.back (.phase (.rewind (.cleanup .reject)))
        ((cells ++ tape.left.reverse.map Cell.plain).reverse ++ [.leftEnd])
        (.marked tape.here :: tape.right.map .plain ++ behind tapes)) _ := rewinds known
  rw [split] at turn
  rw [List.reverse_append, List.append_assoc] at back
  rw [wholeAround, split]
  simpa [segment] using turn.trans back

theorem passesSeparator {seen : List S} {left ahead : List (Cell S)} (started : left ≠ []) :
    Travel machine mode ⟨.phase (.read state seen), left, .separator :: ahead⟩
      ⟨.phase (.read state seen), .separator :: left, ahead⟩ :=
  travelRightInside (List.mem_append_right _ (List.mem_cons_self ..)) started

variable (machine mode) in
def Turns (state : Nat) (scan : Scan S) (tapes : List (Tape S)) : Prop :=
  (∃ seen, seen <+: tapes.map Tape.read ∧ ¬ isKnown machine state seen) ∧
    Travel machine mode scan ⟨.phase (.rewind (.cleanup .reject)), [], whole tapes⟩

theorem readsOrTurns {done tapes : List (Tape S)} {tape : Tape S}
    (lettered : ∀ t ∈ done.reverse ++ tape :: tapes, t.Over machine.alphabet)
    (count : (done.reverse ++ tape :: tapes).length ≤ machine.tapes) :
    Travel machine mode
        ⟨.phase (.read state (done.reverse.map Tape.read)), front done,
          segment tape ++ behind tapes⟩
        ⟨.phase (.read state ((tape :: done).reverse.map Tape.read)),
          (segment tape).reverse ++ front done, behind tapes⟩ ∨
      Turns machine mode state
        ⟨.phase (.read state (done.reverse.map Tape.read)), front done,
          segment tape ++ behind tapes⟩ (done.reverse ++ tape :: tapes) := by
  have more : (done.reverse.map Tape.read).length < machine.tapes := by
    simp only [List.length_append, List.length_reverse, List.length_cons] at count
    simp only [List.length_map, List.length_reverse]
    omega
  by_cases known : isKnown machine state (done.reverse.map Tape.read ++ [tape.read])
  · rw [List.reverse_cons, List.map_append]
    exact .inl (readsSegment (frontNonempty done) more (lettered tape (by simp)) known)
  · exact .inr ⟨⟨_, by simp, known⟩, turnsBack lettered more known⟩

/- Over the segments that are left; what was read in those that are done is in the phase. -/
theorem readsThrough {done tapes : List (Tape S)} {tape : Tape S}
    (lettered : ∀ t ∈ done.reverse ++ tape :: tapes, t.Over machine.alphabet)
    (count : (done.reverse ++ tape :: tapes).length ≤ machine.tapes) :
    Travel machine mode
        ⟨.phase (.read state (done.reverse.map Tape.read)), front done,
          segment tape ++ behind tapes⟩
        ⟨.phase (.read state ((done.reverse ++ tape :: tapes).map Tape.read)),
          (segments (done.reverse ++ tape :: tapes)).reverse ++ [.leftEnd], [.rightEnd]⟩ ∨
      Turns machine mode state
        ⟨.phase (.read state (done.reverse.map Tape.read)), front done,
          segment tape ++ behind tapes⟩ (done.reverse ++ tape :: tapes) := by
  induction tapes generalizing done tape with
  | nil =>
    rw [← frontSegment]
    simpa [behind] using readsOrTurns lettered count
  | cons next tapes ih =>
    rcases readsOrTurns lettered count with here | turns
    · have shape : (tape :: done).reverse ++ next :: tapes = done.reverse ++ tape :: next :: tapes := by
        simp
      have passed : Travel machine mode
          ⟨.phase (.read state ((tape :: done).reverse.map Tape.read)),
            (segment tape).reverse ++ front done, behind (next :: tapes)⟩
          ⟨.phase (.read state ((tape :: done).reverse.map Tape.read)), front (tape :: done),
            segment next ++ behind tapes⟩ :=
        passesSeparator (by simp [frontNonempty])
      rw [← shape] at lettered count ⊢
      rcases ih lettered count with through | ⟨unknown, back⟩
      · exact .inl (here.trans (passed.trans through))
      · exact .inr ⟨unknown, here.trans (passed.trans back)⟩
    · exact .inr turns

theorem leavesRightEnd {seen : List S} {left : List (Cell S)} (full : seen.length = machine.tapes)
    (inside : left ≠ []) :
    Travel machine mode ⟨.phase (.read state seen), left, [.rightEnd]⟩
      (.back (.phase ((machine.table.position? state seen).elim (.rewind (.cleanup .reject))
        (.write · (machine.tapes - 1)))) left [.rightEnd]) := by
  apply travelLeft
  · cases h : machine.table.position? state seen <;> simp [instructions, full, h, Instruction.pass, put]
  · exact inside
  · cases machine.table.position? state seen <;> simp

section
variable {tapes : List (Tape S)} (lettered : ∀ t ∈ tapes, t.Over machine.alphabet)
  (count : tapes.length = machine.tapes)
include lettered count

theorem readsEntry :
    Travel machine mode (.entry state tapes)
        ⟨.phase (.read state (tapes.map Tape.read)), (segments tapes).reverse ++ [.leftEnd],
          [.rightEnd]⟩ ∨
      Turns machine mode state (.entry state tapes) tapes := by
  cases tapes with
  | nil =>
    have := machine.hasTapes
    simp at count
    omega
  | cons tape tapes =>
    have shape : tape :: tapes = [].reverse ++ tape :: tapes := rfl
    rw [Scan.entry, segmentsCons]
    rw [shape] at lettered count ⊢
    exact readsThrough lettered (by omega)

/- The rule that applies is found at the right end; its writing starts there. -/
theorem readsRule {rule : Rule S}
    (found : machine.table.get? state (tapes.map Tape.read) = some rule) :
    ∃ index, machine.table.rules[index]? = some rule ∧
      Travel machine mode (.entry state tapes)
        (.back (.phase (.write index (machine.tapes - 1)))
          ((segments tapes).reverse ++ [.leftEnd]) [.rightEnd]) := by
  obtain ⟨index, position, here⟩ := Table.positionOfGet found
  obtain ⟨mem, key⟩ := Table.getIff.mp found
  refine ⟨index, here, ?_⟩
  rcases readsEntry lettered count with through | ⟨⟨seen, begins, unknown⟩, _⟩
  · have turn : Travel machine mode ⟨.phase (.read state (tapes.map Tape.read)),
        (segments tapes).reverse ++ [.leftEnd], [.rightEnd]⟩ _ :=
      leavesRightEnd (by simpa using count) (by simp)
    rw [position] at turn
    exact through.trans turn
  · refine absurd (isKnownIff.mpr ⟨rule, mem, congrArg Prod.fst key, ?_⟩) unknown
    rw [show rule.read = tapes.map Tape.read from congrArg Prod.snd key]
    exact begins

theorem readsNothing (missing : machine.table.get? state (tapes.map Tape.read) = none) :
    Travel machine mode (.entry state tapes)
      ⟨.phase (.rewind (.cleanup .reject)), [], whole tapes⟩ := by
  rcases readsEntry lettered count with through | ⟨_, turns⟩
  · have turn : Travel machine mode ⟨.phase (.read state (tapes.map Tape.read)),
        (segments tapes).reverse ++ [.leftEnd], [.rightEnd]⟩ _ :=
      leavesRightEnd (by simpa using count) (by simp)
    rw [Table.positionNone missing] at turn
    exact (through.trans turn).trans (rewinds fun cell mem => cellsOfSegments lettered mem)
  · exact turns

end

end Multitape.SingleTape
