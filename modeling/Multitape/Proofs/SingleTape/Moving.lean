import Multitape.Proofs.SingleTape.Inserting

/-! The sweep that moves the marks, segment by segment from the left end. A mark moves to
a neighbour of its cell; one that leaves its segment makes it grow, unless tapes end at
offset 0 and it would go beyond that. -/
namespace Multitape.SingleTape
open Instruction Layout
variable {S : Type} [Symbol S] [DecidableEq S] {machine : Machine S} {mode : TapeMode}
  {rule : Nat}

section
variable {tape : Nat} {finished : Bool} {left ahead : List (Cell S)}

theorem movesOver {symbols : List S} (started : left ≠ [])
    (known : ∀ symbol ∈ symbols, symbol ∈ machine.alphabet) :
    Travel machine mode ⟨.phase (.move rule tape finished), left, symbols.map .plain ++ ahead⟩
      ⟨.phase (.move rule tape finished), (symbols.map .plain).reverse ++ left, ahead⟩ := by
  have sweep : Travel machine mode
      ⟨.phase (.move rule tape finished), left, symbols.map .plain ++ ahead⟩
      ⟨.phase (.move rule tape finished), ((symbols.map .plain).map id).reverse ++ left,
        ahead⟩ := by
    refine sweepRight _ (fun cell mem => ?_) started
    obtain ⟨symbol, hs, rfl⟩ := List.mem_map.mp mem
    refine List.mem_append_left _ (List.mem_flatMap.mpr ⟨symbol, ?_, by simp [Instruction.pass, put]⟩)
    exact Alphabet.memWithBlank.mpr (known symbol hs)
  simpa using sweep

/- Marks the next cell in one of the phases that do only that, and goes on. -/
theorem marks {phase : Phase S} {symbol : S}
    (known : put (.plain symbol) (.move rule tape true) (.marked symbol) .right ∈
      instructions machine mode phase) :
    Travel machine mode ⟨.phase phase, left, .plain symbol :: ahead⟩
      ⟨.phase (.move rule tape true), .marked symbol :: left, ahead⟩ :=
  travelRight known (by simp)

end

theorem leavesSegment {done tapes : List (Tape S)} {tape : Tape S}
    (count : done.length + 1 + tapes.length = machine.tapes) :
    Travel machine mode
      ⟨.phase (.move rule done.length true), (segment tape).reverse ++ front done, behind tapes⟩
      (.moved machine rule done tape tapes) := by
  rw [movedResumed]
  cases tapes with
  | nil =>
    refine Travel.step (stepLeft ?_ (by simp [frontNonempty])) resumedSilent
    apply List.mem_append_right _
    simp only [List.length_nil] at count
    simp [show ¬ done.length + 1 < machine.tapes by omega, Instruction.pass, put]
  | cons next tapes =>
    refine Travel.step (stepRight ?_) resumedSilent
    apply List.mem_append_right _
    simp only [List.length_cons] at count
    simp [show done.length + 1 < machine.tapes by omega, Instruction.pass, put]

/- Up to the mark, which is taken away where the move is not finished. -/
theorem reachesMark {done tapes : List (Tape S)} {tape : Tape S}
    (lettered : tape.Over machine.alphabet) (moves : movedBy machine rule done.length ≠ .stay) :
    Travel machine mode
      ⟨.phase (startMove machine rule done.length), front done, segment tape ++ behind tapes⟩
      ⟨.phase (.move rule done.length false), tape.left.map .plain ++ front done,
        .marked tape.here :: (tape.right.map .plain ++ behind tapes)⟩ := by
  have sweep : Travel machine mode
      ⟨.phase (.move rule done.length false), front done,
        tape.left.reverse.map .plain ++ .marked tape.here :: (tape.right.map .plain ++ behind tapes)⟩ _ :=
    movesOver (frontNonempty done)
      (fun s mem => (Tape.overIff.mp lettered).1 s (List.mem_reverse.mp mem))
  simpa [startMove, moves, segment] using sweep

/- The mark has been taken from the first cell of the segment, in which case the head stands
on the cell in front of it. -/
theorem turnsAtEdge {done : List (Tape S)} {ahead : List (Cell S)} {next : Phase S}
    (silent : ∀ state, next ≠ .read state [])
    (known : Instruction.pass (boundaryBefore done.length) .right next ∈
      instructions machine mode (.markPrevious rule done.length)) :
    Travel machine mode (.back (.phase (.markPrevious rule done.length)) (front done) ahead)
      ⟨.phase next, front done, ahead⟩ := by
  cases done with
  | nil => exact travelRight known silent
  | cons t done => exact travelRight known silent

/- The ways a mark can go. -/
section
variable {done tapes : List (Tape S)} {tape : Tape S}
  (count : done.length + 1 + tapes.length = machine.tapes)
  (lettered : tape.Over machine.alphabet)
include count lettered

theorem staysPut (stay : movedBy machine rule done.length = .stay) :
    Travel machine mode
      ⟨.phase (startMove machine rule done.length), front done, segment tape ++ behind tapes⟩
      (.moved machine rule done tape tapes) := by
  have sweep : Travel machine mode
      ⟨.phase (.move rule done.length true), front done, segment tape ++ behind tapes⟩
      ⟨.phase (.move rule done.length true), ((segment tape).map id).reverse ++ front done,
        behind tapes⟩ := by
    refine sweepRight _ (fun cell mem => ?_) (frontNonempty done)
    obtain ⟨symbol, known, rfl | rfl⟩ := memContents.mp (contentsOfSegment lettered mem)
    all_goals
      refine List.mem_append_left _ (List.mem_flatMap.mpr ⟨symbol, ?_, by simp [Instruction.pass, put]⟩)
      exact Alphabet.memWithBlank.mpr known
  rw [List.map_id] at sweep
  simpa [startMove, stay] using sweep.trans (leavesSegment count)

/- The mark is put on a cell and the sweep goes on over the rest of the segment. -/
theorem marksAndLeaves {phase : Phase S} {symbol : S} {before after : List S}
    (parts : tape = ⟨before, symbol, after, tape.head⟩)
    (known : put (.plain symbol) (.move rule done.length true) (.marked symbol) .right ∈
      instructions machine mode phase) :
    Travel machine mode
      ⟨.phase phase, before.map .plain ++ front done,
        .plain symbol :: (after.map .plain ++ behind tapes)⟩
      (.moved machine rule done tape tapes) := by
  rw [parts] at lettered
  have passed : Travel machine mode
      ⟨.phase (.move rule done.length true),
        .marked symbol :: (before.map .plain ++ front done), after.map .plain ++ behind tapes⟩ _ :=
    movesOver (by simp) (Tape.overIff.mp lettered).2.2
  have left : Travel machine mode ⟨.phase (.move rule done.length true),
      (segment tape).reverse ++ front done, behind tapes⟩ _ := leavesSegment count
  apply ((marks known).trans passed).trans
  have cells : segment tape = before.reverse.map .plain ++ .marked symbol :: after.map .plain := by
    rw [parts]
    rfl
  simpa [cells] using left

end

section
variable {done tapes : List (Tape S)} {tape : Tape S}
  (count : done.length + 1 + tapes.length = machine.tapes)
  (lettered : tape.Over machine.alphabet) (others : ∀ t ∈ tapes, t.Over machine.alphabet)
include count lettered others

theorem movesRight (right : movedBy machine rule done.length = .right) :
    Travel machine mode
      ⟨.phase (startMove machine rule done.length), front done, segment tape ++ behind tapes⟩
      (.moved machine rule done (tape.shift .right) tapes) := by
  obtain ⟨_, here, after⟩ := Tape.overIff.mp lettered
  have taken : Travel machine mode
      ⟨.phase (.move rule done.length false), tape.left.map .plain ++ front done,
        .marked tape.here :: (tape.right.map .plain ++ behind tapes)⟩
      ⟨.phase (.markNext rule done.length), (tape.here :: tape.left).map .plain ++ front done,
        tape.right.map .plain ++ behind tapes⟩ := by
    apply travelRight
    · have listed := Alphabet.memWithBlank.mpr here
      exact List.mem_append_left _ (List.mem_flatMap.mpr ⟨tape.here, listed, by simp [right, put]⟩)
    · simp
  apply ((reachesMark lettered (by simp [right])).trans taken).trans
  cases split : tape.right with
  | nil =>
    have shape : (segment (tape.shift .right)).reverse ++ front done =
        .marked Symbol.blank :: ((tape.here :: tape.left).map .plain ++ front done) := by
      simp [segment, Tape.shift, split]
    rw [movedResumed, shape]
    exact insertsBehind count others
  | cons symbol rest =>
    rw [split] at after
    apply marksAndLeaves count (Tape.overShift lettered .right) (by simp [Tape.shift, split])
    refine List.mem_append_left _ (List.mem_map.mpr ⟨symbol, ?_, rfl⟩)
    exact Alphabet.memWithBlank.mpr (after symbol (by simp))

/- At the first cell of its segment the mark makes it grow to the left. -/
theorem growsLeft (edge : tape.left = []) :
    Travel machine .biInfinite
      (.back (.phase (.markPrevious rule done.length)) (front done)
        (.plain tape.here :: (tape.right.map .plain ++ behind tapes)))
      (.moved machine rule done (tape.shift .left) tapes) := by
  obtain ⟨_, here, after⟩ := Tape.overIff.mp lettered
  have turned : Travel machine .biInfinite
      (.back (.phase (.markPrevious rule done.length)) (front done)
        (.plain tape.here :: (tape.right.map .plain ++ behind tapes)))
      ⟨.phase (.insertBlank rule done.length), front done,
        .plain tape.here :: (tape.right.map .plain ++ behind tapes)⟩ := by
    refine turnsAtEdge (by simp) (List.mem_append_right _ ?_)
    simp
  have shape : (segment (tape.shift .left)).reverse ++ front done =
      ((tape.here :: tape.right).map .plain).reverse ++ .marked Symbol.blank :: front done := by
    simp [segment, Tape.shift, edge]
  rw [movedResumed, shape]
  apply turned.trans
  exact insertsBefore count others (List.forall_mem_cons.mpr ⟨here, after⟩)

omit others in
/- There is nothing to the left of offset 0: the mark is put back where it was. -/
theorem marksAgain (edge : tape.left = []) :
    Travel machine .rightInfinite
      (.back (.phase (.markPrevious rule done.length)) (front done)
        (.plain tape.here :: (tape.right.map .plain ++ behind tapes)))
      (.moved machine rule done tape tapes) := by
  have turned : Travel machine .rightInfinite
      (.back (.phase (.markPrevious rule done.length)) (front done)
        (.plain tape.here :: (tape.right.map .plain ++ behind tapes)))
      ⟨.phase (.remark rule done.length), [].map .plain ++ front done,
        .plain tape.here :: (tape.right.map .plain ++ behind tapes)⟩ := by
    refine turnsAtEdge (by simp) (List.mem_append_right _ ?_)
    simp
  refine turned.trans (marksAndLeaves count lettered (by rw [← edge]) (List.mem_map.mpr ?_))
  exact ⟨tape.here, Alphabet.memWithBlank.mpr (Tape.overIff.mp lettered).2.1, rfl⟩

theorem movesLeft (left : movedBy machine rule done.length = .left)
    (anchored : mode = .rightInfinite → tape.Anchored) :
    Travel machine mode
      ⟨.phase (startMove machine rule done.length), front done, segment tape ++ behind tapes⟩
      (.moved machine rule done (mode.shift tape .left) tapes) := by
  obtain ⟨before, here, after⟩ := Tape.overIff.mp lettered
  have taken : Travel machine mode
      ⟨.phase (.move rule done.length false), tape.left.map .plain ++ front done,
        .marked tape.here :: (tape.right.map .plain ++ behind tapes)⟩
      (.back (.phase (.markPrevious rule done.length)) (tape.left.map .plain ++ front done)
        (.plain tape.here :: (tape.right.map .plain ++ behind tapes))) := by
    apply travelLeft
    · have listed := Alphabet.memWithBlank.mpr here
      exact List.mem_append_left _ (List.mem_flatMap.mpr ⟨tape.here, listed, by simp [left, put]⟩)
    · simp [frontNonempty]
    · simp
  apply ((reachesMark lettered (by simp [left])).trans taken).trans
  cases split : tape.left with
  | cons symbol rest =>
    have free : mode.shift tape .left = tape.shift .left := by
      apply if_neg
      rintro ⟨bounded, _, zero⟩
      have same : tape.head = tape.left.length := anchored bounded
      simp only [split, List.length_cons] at same
      omega
    have parts : tape.shift .left =
        ⟨rest, symbol, tape.here :: tape.right, (tape.shift .left).head⟩ := by
      simp [Tape.shift, split]
    rw [split] at before
    rw [free]
    apply marksAndLeaves count (Tape.overShift lettered .left) parts
    refine List.mem_append_left _ (List.mem_map.mpr ⟨symbol, ?_, rfl⟩)
    exact Alphabet.memWithBlank.mpr (before symbol (by simp))
  | nil =>
    cases mode with
    | biInfinite => exact growsLeft count lettered others split
    | rightInfinite =>
      have held : TapeMode.shift .rightInfinite tape .left = tape := by
        have same : tape.head = tape.left.length := anchored rfl
        exact if_pos ⟨rfl, rfl, by simpa [split] using same⟩
      rw [held]
      exact marksAgain count lettered split

/- One segment of the sweep. -/
theorem movesSegment (anchored : mode = .rightInfinite → tape.Anchored) :
    Travel machine mode
      ⟨.phase (startMove machine rule done.length), front done, segment tape ++ behind tapes⟩
      (.moved machine rule done (mode.shift tape (movedBy machine rule done.length)) tapes) := by
  cases direction : movedBy machine rule done.length with
  | stay => simpa [TapeMode.shift, Tape.shift] using staysPut count lettered direction
  | right => simpa [TapeMode.shift] using movesRight count lettered others direction
  | left => exact movesLeft count lettered others direction anchored

end

variable (machine mode) in
def shifted (rule from_ : Nat) : List (Tape S) → List (Tape S)
  | [] => []
  | tape :: tapes =>
    mode.shift tape (movedBy machine rule from_) :: shifted rule (from_ + 1) tapes

/- Over the segments that are left; induction on them. -/
theorem movesThrough {state : Nat} {done tapes : List (Tape S)} {tape : Tape S}
    (count : done.length + 1 + tapes.length = machine.tapes)
    (lettered : ∀ t ∈ done.reverse ++ tape :: tapes, t.Over machine.alphabet)
    (anchored : mode = .rightInfinite → ∀ t ∈ tape :: tapes, t.Anchored)
    (more : resumeAfter machine rule = .read state) :
    Arrives machine mode
      ⟨.phase (startMove machine rule done.length), front done, segment tape ++ behind tapes⟩
      (.entry state (done.reverse ++ shifted machine mode rule done.length (tape :: tapes))) := by
  induction tapes generalizing done tape with
  | nil =>
    refine (movesSegment count (lettered tape (by simp)) (by simp)
      fun bounded => anchored bounded tape (by simp)).arrives ?_
    rw [Scan.moved, more]
    refine arrivesFromRightEnd fun t mem => ?_
    rcases List.mem_append.mp mem with old | last
    · exact lettered t (List.mem_append_left _ old)
    · rw [List.mem_singleton.mp last]
      exact overModeShift (lettered tape (by simp)) _
  | cons next tapes ih =>
    refine (movesSegment count (lettered tape (by simp)) (fun t mem => lettered t ?_)
      fun bounded => anchored bounded tape (by simp)).arrives ?_
    · exact List.mem_append_right _ (List.mem_cons_of_mem _ mem)
    let moved := mode.shift tape (movedBy machine rule done.length)
    have later : Arrives machine mode
        ⟨.phase (startMove machine rule (moved :: done).length), front (moved :: done),
          segment next ++ behind tapes⟩
        (.entry state ((moved :: done).reverse ++
          shifted machine mode rule (moved :: done).length (next :: tapes))) := by
      refine ih ?_ (fun t mem => ?_) fun bounded t mem => anchored bounded t (by simp [mem])
      · simp only [List.length_cons] at count ⊢
        omega
      · simp only [List.reverse_cons, List.append_assoc, List.mem_append, List.singleton_append,
          List.mem_cons] at mem
        rcases mem with old | rfl | rest
        · exact lettered t (by simp at old; simp [old])
        · exact overModeShift (lettered tape (by simp)) _
        · exact lettered t (by simp [rest])
    simpa [Scan.moved, shifted, moved] using later

end Multitape.SingleTape
