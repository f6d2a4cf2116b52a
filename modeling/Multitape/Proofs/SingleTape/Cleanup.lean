import Multitape.Proofs.SingleTape.Moving

/-! The last sweep. It blanks the left end and all segments but the last with the
separators behind them, takes the mark from the last segment and stops on the right end,
which it blanks as well. Only the cells of the last tape are left. -/
namespace Multitape.SingleTape
open Instruction Layout
variable {S : Type} [Symbol S] [DecidableEq S] {machine : Machine S} {mode : TapeMode}

def Scan.cleaned (terminal : State) (last : Tape S) (erased : Nat) : Scan S :=
  ⟨.terminal terminal,
    (last.cells.map .plain).reverse ++ List.replicate erased (.plain Symbol.blank),
    [.plain Symbol.blank]⟩

theorem erasesSegment {terminal : State} {index : Nat} {tape : Tape S} {left ahead : List (Cell S)}
    (more : index + 1 < machine.tapes) (lettered : tape.Over machine.alphabet) (started : left ≠ []) :
    Travel machine mode ⟨.phase (.cleanup terminal index), left, segment tape ++ ahead⟩
      ⟨.phase (.cleanup terminal index),
        List.replicate (segment tape).length (.plain Symbol.blank) ++ left, ahead⟩ := by
  have sweep : Travel machine mode
      ⟨.phase (.cleanup terminal index), left, segment tape ++ ahead⟩
      ⟨.phase (.cleanup terminal index),
        ((segment tape).map fun _ => .plain Symbol.blank).reverse ++ left, ahead⟩ := by
    refine sweepRight _ (fun cell mem => ?_) started
    simp only [instructions, if_pos more]
    exact List.mem_append_left _ (List.mem_map.mpr ⟨cell, contentsOfSegment lettered mem, rfl⟩)
  simpa [List.map_const'] using sweep

def unmarked : Cell S → Cell S
  | .marked symbol => .plain symbol
  | cell => cell

omit [Symbol S] [DecidableEq S] in
theorem segmentUnmarked (tape : Tape S) : (segment tape).map unmarked = tape.cells.map .plain := by
  simp [segment, unmarked, Tape.cells, Function.comp_def]

theorem unmarksSegment {terminal : State} {index : Nat} {tape : Tape S} {left ahead : List (Cell S)}
    (last : ¬ index + 1 < machine.tapes) (lettered : tape.Over machine.alphabet) (started : left ≠ []) :
    Travel machine mode ⟨.phase (.cleanup terminal index), left, segment tape ++ ahead⟩
      ⟨.phase (.cleanup terminal index), (tape.cells.map .plain).reverse ++ left, ahead⟩ := by
  have sweep : Travel machine mode
      ⟨.phase (.cleanup terminal index), left, segment tape ++ ahead⟩
      ⟨.phase (.cleanup terminal index), ((segment tape).map unmarked).reverse ++ left, ahead⟩ := by
    refine sweepRight _ (fun cell mem => ?_) started
    obtain ⟨symbol, known, shape⟩ := memContents.mp (contentsOfSegment lettered mem)
    simp only [instructions, if_neg last]
    refine List.mem_append_left _ (List.mem_flatMap.mpr ⟨symbol, ?_, ?_⟩)
    · exact Alphabet.memWithBlank.mpr known
    · rcases shape with rfl | rfl <;> simp [unmarked, Instruction.pass, put]
  rwa [segmentUnmarked] at sweep

/- Over the segments that are left; all in front of them is blank by now. -/
theorem cleansThrough {terminal : State} {index erased : Nat} {tape : Tape S} {tapes : List (Tape S)}
    (count : index + 1 + tapes.length = machine.tapes) (started : erased ≠ 0)
    (lettered : ∀ t ∈ tape :: tapes, t.Over machine.alphabet) :
    ∃ all, Arrives machine mode
      ⟨.phase (.cleanup terminal index), List.replicate erased (.plain Symbol.blank),
        segment tape ++ behind tapes⟩
      (.cleaned terminal ((tape :: tapes).getLast (by simp)) all) := by
  induction tapes generalizing index erased tape with
  | nil =>
    have last : ¬ index + 1 < machine.tapes := by
      simp only [List.length_nil] at count
      omega
    refine ⟨erased, _, unmarksSegment last (lettered tape (by simp)) (by simpa), ?_⟩
    have known : ⟨.rightEnd, .terminal terminal, .plain Symbol.blank, .stay⟩ ∈
        instructions machine mode (.cleanup terminal index) := by
      simp only [instructions, if_neg last]
      exact List.mem_append_right _ (by simp)
    exact Step.on known fun stays => by cases stays
  | cons next tapes ih =>
    have more : index + 1 < machine.tapes := by
      simp only [List.length_cons] at count
      omega
    have first : Travel machine mode
        ⟨.phase (.cleanup terminal index), List.replicate erased (.plain Symbol.blank),
          segment tape ++ behind (next :: tapes)⟩ _ :=
      erasesSegment more (lettered tape (by simp)) (by simpa)
    have passed : Travel machine mode
        ⟨.phase (.cleanup terminal index),
          List.replicate (segment tape).length (.plain Symbol.blank) ++
            List.replicate erased (.plain Symbol.blank), behind (next :: tapes)⟩
        ⟨.phase (.cleanup terminal (index + 1)),
          .plain Symbol.blank :: (List.replicate (segment tape).length (.plain Symbol.blank) ++
            List.replicate erased (.plain Symbol.blank)), segment next ++ behind tapes⟩ := by
      apply travelRight
      · simp only [instructions, if_pos more]
        exact List.mem_append_right _ (by simp)
      · simp
    obtain ⟨all, later⟩ : ∃ all, Arrives machine mode
        ⟨.phase (.cleanup terminal (index + 1)),
          List.replicate ((segment tape).length + erased + 1) (.plain Symbol.blank),
          segment next ++ behind tapes⟩
        (.cleaned terminal ((next :: tapes).getLast (by simp)) all) := by
      refine ih ?_ (by simp) fun t mem => lettered t (List.mem_cons_of_mem _ mem)
      simp only [List.length_cons] at count
      omega
    refine ⟨all, (first.trans passed).arrives ?_⟩
    simpa [List.replicate_append_replicate, List.replicate_succ] using later

/- From the left end, once the source machine has stopped. -/
theorem cleans {terminal : State} {tapes : List (Tape S)} {last : Tape S}
    (count : tapes.length = machine.tapes) (final : tapes.getLast? = some last)
    (lettered : ∀ t ∈ tapes, t.Over machine.alphabet) :
    ∃ erased, Arrives machine mode
      ⟨.phase (.cleanup terminal 0), [.plain Symbol.blank], segments tapes ++ [.rightEnd]⟩
      (.cleaned terminal last erased) := by
  cases tapes with
  | nil => cases final
  | cons tape tapes =>
    obtain rfl : (tape :: tapes).getLast (by simp) = last := by
      rw [List.getLast?_eq_some_getLast (by simp)] at final
      exact Option.some.inj final
    rw [segmentsCons, ← List.replicate_one]
    exact cleansThrough (by simpa [Nat.add_comm] using count) (by simp) lettered

end Multitape.SingleTape
