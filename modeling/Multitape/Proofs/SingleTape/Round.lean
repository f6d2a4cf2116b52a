import Multitape.Proofs.Output
import Multitape.Proofs.SingleTape.Cleanup

/-! One source step as a whole. From where the step begins the sweeps end where the next
one begins; or, if the step stops the source machine, in that terminal state with the
contents of the last tape and blanks around them. -/
namespace Multitape.SingleTape
open Layout
variable {S : Type} [Symbol S] [DecidableEq S] {machine : Machine S} {mode : TapeMode}

omit [DecidableEq S] in
/- Each tape is written and moved on its own. Induction on the tapes; `index` is the number
of the first one. -/
theorem actFrom {rule index : Nat} {source : Rule S} {tapes : List (Tape S)}
    (here : machine.table.rules[rule]? = some source)
    (write : source.write.length = index + tapes.length)
    (moves : source.moves.length = index + tapes.length) :
    act mode tapes (source.write.drop index) (source.moves.drop index) =
      shifted machine mode rule index
        (tapes.mapIdx fun i tape => tape.write (writtenBy machine rule (i + index))) := by
  induction tapes generalizing index with
  | nil => simp [act, shifted]
  | cons tape tapes ih =>
    simp only [List.length_cons] at write moves
    have writes : source.write.drop index = source.write[index] :: source.write.drop (index + 1) :=
      List.drop_eq_getElem_cons (by omega)
    have turns : source.moves.drop index = source.moves[index] :: source.moves.drop (index + 1) :=
      List.drop_eq_getElem_cons (by omega)
    have symbol : writtenBy machine rule index = source.write[index] := by
      simp [writtenBy, here, show index < source.write.length by omega]
    have move : movedBy machine rule index = source.moves[index] := by
      simp [movedBy, here, show index < source.moves.length by omega]
    rw [writes, turns, act, ih (by omega) (by omega), List.mapIdx_cons, shifted, Nat.zero_add,
      symbol, move]
    simp only [Nat.add_assoc, Nat.add_comm 1]

omit [DecidableEq S] in
theorem actRule {rule : Nat} {source : Rule S} {tapes : List (Tape S)}
    (here : machine.table.rules[rule]? = some source)
    (fits : source.Fits tapes.length machine.alphabet) :
    act mode tapes source.write source.moves =
      shifted machine mode rule 0 (written machine rule tapes) := by
  have whole : act mode tapes (source.write.drop 0) (source.moves.drop 0) =
      shifted machine mode rule 0
        (tapes.mapIdx fun i tape => tape.write (writtenBy machine rule (i + 0))) :=
    actFrom here (by simpa using fits.write) (by simpa using fits.moves)
  simpa [written] using whole

omit [DecidableEq S] in
theorem lastShifted {rule index : Nat} {tapes : List (Tape S)} {last : Tape S}
    (final : tapes.getLast? = some last) :
    ∃ move, (shifted machine mode rule index tapes).getLast? = some (mode.shift last move) := by
  induction tapes generalizing index with
  | nil => cases final
  | cons tape tapes ih =>
    cases tapes with
    | nil =>
      cases final
      exact ⟨_, rfl⟩
    | cons next tapes =>
      obtain ⟨move, later⟩ : ∃ move, (shifted machine mode rule (index + 1) (next :: tapes)).getLast?
          = some (mode.shift last move) := ih (by simpa using final)
      exact ⟨move, by simpa [shifted] using later⟩

omit [DecidableEq S] in
theorem writtenByMem (rule index : Nat) : writtenBy machine rule index ∈ machine.alphabet := by
  unfold writtenBy
  cases found : machine.table.rules[rule]?.bind (·.write[index]?) with
  | none => exact machine.alphabet.blankMem
  | some symbol =>
    obtain ⟨source, here, there⟩ := Option.bind_eq_some_iff.mp found
    have fits := Machine.fitsAt here
    exact fits.symbols symbol (List.mem_append_right _ (List.mem_of_getElem? there))

omit [DecidableEq S] in
theorem memWritten {rule : Nat} {tapes : List (Tape S)} {tape : Tape S}
    (mem : tape ∈ written machine rule tapes) :
    ∃ old ∈ tapes, ∃ symbol ∈ machine.alphabet, tape = old.write symbol := by
  obtain ⟨index, bound, rfl⟩ := List.mem_mapIdx.mp mem
  exact ⟨_, List.getElem_mem bound, _, writtenByMem rule index, rfl⟩

omit [DecidableEq S] in
theorem soundWritten {state : State} {tapes : List (Tape S)}
    (sound : Configuration.Sound ⟨state, tapes⟩ machine mode) (rule : Nat) :
    Configuration.Sound ⟨state, written machine rule tapes⟩ machine mode where
  count := by simpa [written] using sound.count
  lettered tape mem := by
    obtain ⟨old, hold, symbol, hs, rfl⟩ := memWritten mem
    exact Tape.overWrite (sound.lettered old hold) hs
  anchored bounded tape mem := by
    obtain ⟨old, hold, symbol, hs, rfl⟩ := memWritten mem
    exact sound.anchored bounded old hold

section
variable {tapes : List (Tape S)} {state : Nat} {source : Rule S}
  (sound : Configuration.Sound ⟨.ordinary state, tapes⟩ machine mode)
  (found : machine.table.get? state (tapes.map Tape.read) = some source)
include sound found

/- The reading and the writing sweep. -/
theorem readsAndWrites : ∃ rule, machine.table.rules[rule]? = some source ∧
    Travel machine mode (.entry state tapes)
      ⟨.phase (.write rule 0), [], whole (written machine rule tapes)⟩ := by
  obtain ⟨rule, here, reads⟩ := readsRule sound.lettered sound.count found
  exact ⟨rule, here, reads.trans (writesAll sound.lettered sound.count)⟩

theorem goesOn {next : Nat} (ordinary : source.next = .ordinary next) :
    Arrives machine mode (.entry state tapes)
      (.entry next (act mode tapes source.write source.moves)) := by
  obtain ⟨rule, here, first⟩ := readsAndWrites sound found
  have fits := (ruleOfGet found).2.2
  rw [← sound.count] at fits
  have after := soundWritten sound rule
  have more := resumeAfterOrdinary here ordinary
  rw [actRule here fits]
  cases split : written machine rule tapes with
  | nil =>
    have := machine.hasTapes
    have count := after.count
    simp only [split, List.length_nil] at count
    omega
  | cons tape rest =>
    rw [split] at first after
    have count := after.count
    have moved : Arrives machine mode
        ⟨.phase (startMove machine rule ([] : List (Tape S)).length), front [],
          segment tape ++ behind rest⟩ _ :=
      movesThrough (by simpa [Nat.add_comm] using count) after.lettered after.anchored more
    rw [wholeCons] at first
    exact (first.trans (startsMoving more)).arrives moved

theorem stops (terminal : source.next.isTerminal) {final : Tape S}
    (last : (act mode tapes source.write source.moves).getLast? = some final) :
    ∃ kept erased, kept.output = final.output ∧ kept.Over machine.alphabet ∧
      Arrives machine mode (.entry state tapes) (.cleaned source.next kept erased) := by
  obtain ⟨rule, here, first⟩ := readsAndWrites sound found
  have fits := (ruleOfGet found).2.2
  rw [← sound.count] at fits
  have after := soundWritten sound rule
  cases split : (written machine rule tapes).getLast? with
  | none =>
    have := machine.hasTapes
    have count := after.count
    rw [List.getLast?_eq_none_iff.mp split, List.length_nil] at count
    omega
  | some kept =>
    obtain ⟨move, shift⟩ : ∃ move, _ = some (mode.shift kept move) := lastShifted split
    rw [actRule here fits, shift] at last
    obtain ⟨erased, cleaned⟩ := cleans after.count split after.lettered
    refine ⟨kept, erased, ?_, after.lettered kept (List.mem_of_getLast? split),
      (first.trans (startsCleaning (resumeAfterTerminal here terminal))).arrives cleaned⟩
    rw [← Option.some.inj last, outputModeShift]

end

/- For want of a rule the machine rejects and leaves its tapes as they are. -/
theorem rejects {tapes : List (Tape S)} {state : Nat} {last : Tape S}
    (sound : Configuration.Sound ⟨.ordinary state, tapes⟩ machine mode)
    (missing : machine.table.get? state (tapes.map Tape.read) = none)
    (final : tapes.getLast? = some last) :
    ∃ erased, Arrives machine mode (.entry state tapes) (.cleaned .reject last erased) := by
  obtain ⟨erased, cleaned⟩ := cleans sound.count final sound.lettered
  have turned : Travel machine mode
      ⟨.phase (.rewind (.cleanup .reject)), [], whole tapes⟩
      ⟨.phase (.cleanup .reject 0), [.plain Symbol.blank], segments tapes ++ [.rightEnd]⟩ := by
    apply travelRight
    · exact List.mem_append_right _ (by simp [beginCleanup, Instruction.put])
    · simp
  exact ⟨erased, ((readsNothing sound.lettered sound.count missing).trans turned).arrives cleaned⟩

/- What a whole round does, whichever way the source step goes. -/
theorem rounds {state : Nat} {tapes : List (Tape S)} {next : Configuration S}
    (sound : Configuration.Sound ⟨.ordinary state, tapes⟩ machine mode)
    (step : machine.step? mode ⟨.ordinary state, tapes⟩ = some next) :
    (∃ later, next.state = .ordinary later ∧
        Arrives machine mode (.entry state tapes) (.entry later next.tapes)) ∨
      next.state.isTerminal ∧ ∃ final kept erased, next.tapes.getLast? = some final ∧
        kept.output = final.output ∧ kept.Over machine.alphabet ∧
        Arrives machine mode (.entry state tapes) (.cleaned next.state kept erased) := by
  have kept := (soundStep sound step).count
  have := machine.hasTapes
  obtain ⟨final, last⟩ : ∃ final, next.tapes.getLast? = some final :=
    ⟨_, List.getLast?_eq_some_getLast (List.ne_nil_of_length_pos (by omega))⟩
  obtain ⟨number, same, ⟨source, found, rfl⟩ | ⟨missing, rfl⟩⟩ := stepIff.mp step
  · cases same
    cases direction : source.next with
    | ordinary later => exact .inl ⟨later, rfl, goesOn sound found direction⟩
    | _ =>
      have terminal : source.next.isTerminal := by rw [direction]; rfl
      obtain ⟨kept, erased, arrives⟩ := stops sound found terminal last
      rw [direction] at arrives
      exact .inr ⟨rfl, final, kept, erased, last, arrives⟩
  · cases same
    obtain ⟨erased, arrives⟩ := rejects sound missing last
    refine .inr ⟨rfl, final, final, erased, last, rfl, ?_, arrives⟩
    exact sound.lettered final (List.mem_of_getLast? last)

end Multitape.SingleTape
