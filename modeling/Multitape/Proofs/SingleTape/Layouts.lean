import Multitape.Proofs.Decoding
import Multitape.Proofs.SingleTape.Confined

/-! Step by step the compiled machine holds the layout of the source tapes. Where a source
step begins its one tape is their encoding and decodes to the same cells with the heads at
the same places; and these moments are as many as the source has ordinary configurations. -/
namespace Multitape.SingleTape
variable {S : Type} [Symbol S]

/-- The configuration stands for one of the source: it is about to read for the same state,
with the layout of the same tapes and nothing but blanks behind it. -/
def Represents (compiled : SingleTape S) (entry : Configuration Token) (number : Nat)
    (tapes : List (Tape S)) : Prop :=
  compiled.phase? entry.state = some (.read number []) ∧
    ∃ tape blanks decoded, entry.tapes = [tape] ∧ tape.head = 1 ∧
      tape.cells = Layout.encode tapes ++ List.replicate blanks Symbol.blank ∧
      compiled.decodeLayout? tape.cells = some decoded ∧
      decoded.map Tape.cells = tapes.map Tape.cells ∧
      decoded.map Tape.headIndex = tapes.map Tape.headIndex

theorem cellsOfEntry {compiled : SingleTape S} {state : State} {tape : Tape Token} {number : Nat}
    {tapes : List (Tape S)} (shows : Shows compiled state tape (.entry number tapes)) :
    tape.head = 1 ∧ ∃ blanks,
      tape.cells = Layout.encode tapes ++ List.replicate blanks Symbol.blank := by
  have left : tape.left = [Cell.leftSign] := shows.left
  have anchored : tape.head = tape.left.length := shows.anchored
  obtain ⟨blanks, ahead⟩ := shows.ahead
  refine ⟨by rw [anchored, left]; rfl, blanks, ?_⟩
  unfold Tape.cells
  rw [left, ahead]
  simp [Layout.encode, Scan.entry, Cell.token]

variable [DecidableEq S] [LawfulSymbol S] {machine : Machine S} {mode : TapeMode}
  {compiled : SingleTape S}

theorem entryRepresents (result : Compiled machine mode compiled) (free : Free machine)
    (readable : ∀ symbol ∈ machine.alphabet.symbols, Symbol.Readable symbol)
    {state : State} {tape : Tape Token} {number : Nat} {tapes : List (Tape S)}
    (sound : Configuration.Sound ⟨.ordinary number, tapes⟩ machine mode)
    (shows : Shows compiled state tape (.entry number tapes)) :
    compiled.Represents ⟨state, [tape]⟩ number tapes := by
  obtain ⟨other, rfl, here⟩ := shows.target
  obtain ⟨head, blanks, cells⟩ := cellsOfEntry shows
  have known : ∀ cell ∈ Layout.segments tapes, KnownCell machine cell := by
    intro cell mem
    rcases cellsOfSegments sound.lettered mem with inside | rfl
    · exact knownContents inside
    · exact knownSeparator
  have decodes : compiled.decodeLayout? tape.cells = some (tapes.map Layout.grounded) := by
    have nonempty : tapes ≠ [] := by
      rintro rfl
      have positive := machine.hasTapes
      have none : machine.tapes = 0 := sound.count.symm
      omega
    unfold decodeLayout?
    rw [cells, result.sourceTapes, ← sound.count]
    refine Layout.decodeEncode nonempty (fun cell mem => ?_) 0 _
    apply Cell.legibleFree (freeCell free (known cell mem))
    intro symbol held
    rcases known cell mem symbol held with rfl | declared
    · exact Symbol.readableBlank
    · exact readable symbol declared
  refine ⟨here, tape, blanks, _, rfl, head, cells, decodes, ?_, ?_⟩
  · simp [Tape.cells, Layout.grounded, Function.comp_def]
  · simp [Tape.headIndex, Layout.grounded, Function.comp_def]

section
variable {input : List S} (result : Compiled machine mode compiled) (several : 2 ≤ machine.tapes)
  (known : ∀ symbol ∈ input, symbol ∈ machine.alphabet)
include result several known

/- However far one looks, nothing is met but what the simulation records. -/
theorem entriesRecorded (run : TapeMode) (count : Nat) :
    ∃ met, compiled.entries run (firstShown input) count <+: met ∧
      Records machine mode compiled input met := by
  obtain ⟨k, last, source, le, done⟩ := endsExists machine mode (.start machine.tapes input) count
  cases terminal : last.state.isTerminal with
  | false =>
    obtain ⟨state, tapes⟩ := last
    obtain rfl : k = count := done.resolve_right (by simp [terminal])
    cases state with
    | ordinary number =>
      obtain ⟨steps, met, now, _, arrived⟩ := arrivedOrdinary result several known source
      have later := arrived.later
      refine ⟨met, ?_, arrived.records⟩
      rw [← arrived.trail.met run]
      exact entriesPrefix (by omega)
    | _ => cases terminal
  | true =>
    obtain ⟨steps, met, now, kept, erased, _, _, _, arrived⟩ :=
      arrivedTerminal result several known terminal source
    obtain ⟨state, tape, rfl, shows⟩ := arrived.shown
    obtain ⟨rfl, stops⟩ : state = last.state ∧ last.state.isTerminal := shows.target
    refine ⟨met, ?_, arrived.records⟩
    rw [← arrived.trail.met run]
    rcases Nat.le_total count (steps + 1) with less | more
    · exact entriesPrefix less
    · refine ⟨[], ?_⟩
      rw [List.append_nil]
      exact entriesStopped (arrived.trail.here run) stops more

theorem entryRecorded {run : TapeMode} {count n : Nat} {entry : Configuration Token}
    (found : (compiled.entries run (firstShown input) count)[n]? = some entry) :
    ∃ number tapes state tape,
      machine.after? mode (.start machine.tapes input) n = some ⟨.ordinary number, tapes⟩ ∧
        entry = ⟨state, [tape]⟩ ∧ Shows compiled state tape (.entry number tapes) := by
  obtain ⟨met, ⟨rest, shape⟩, records⟩ := entriesRecorded result several known run count
  obtain ⟨bound, _⟩ := List.getElem?_eq_some_iff.mp found
  apply records n entry
  rw [← shape, List.getElem?_append_left bound, found]

theorem entryExists {run : TapeMode} {n number : Nat} {tapes : List (Tape S)}
    (source : machine.after? mode (.start machine.tapes input) n = some ⟨.ordinary number, tapes⟩) :
    ∃ count entry, (compiled.entries run (firstShown input) count)[n]? = some entry := by
  obtain ⟨steps, met, now, count, arrived⟩ := arrivedOrdinary result several known source
  refine ⟨steps + 1, met[n], ?_⟩
  rw [arrived.trail.met run]
  exact List.getElem?_eq_getElem (by omega)

end

theorem layoutsFollowSource {input : List S} (ok : compile machine mode = .ok compiled)
    (readable : ∀ symbol ∈ machine.alphabet.symbols, Symbol.Readable symbol)
    (known : ∀ symbol ∈ input, symbol ∈ machine.alphabet) :
    ∃ tokens, compiled.encodeInput input = .ok tokens ∧
      ∀ n, ((∃ count entry, (compiled.entries .biInfinite
            (.start compiled.machine.tapes tokens) count)[n]? = some entry) ↔
          ∃ number tapes, machine.after? mode (.start machine.tapes input) n =
            some ⟨.ordinary number, tapes⟩) ∧
        ∀ count entry, (compiled.entries .biInfinite
            (.start compiled.machine.tapes tokens) count)[n]? = some entry →
          ∃ number tapes, machine.after? mode (.start machine.tapes input) n =
              some ⟨.ordinary number, tapes⟩ ∧ tapes.length = machine.tapes ∧
            compiled.Represents entry number tapes := by
  obtain ⟨several, free, result⟩ := ofCompile ok
  refine ⟨inputTokens input, encodesInput result known, fun n => ?_⟩
  rw [startOfCompiled result]
  refine ⟨⟨?_, ?_⟩, ?_⟩
  · rintro ⟨count, entry, found⟩
    obtain ⟨number, tapes, _, _, source, _⟩ := entryRecorded result several known found
    exact ⟨number, tapes, source⟩
  · rintro ⟨number, tapes, source⟩
    exact entryExists result several known source
  · intro count entry found
    obtain ⟨number, tapes, state, tape, source, rfl, shows⟩ :=
      entryRecorded result several known found
    have sound := soundAfter (soundStart known) source
    exact ⟨number, tapes, source, sound.count, entryRepresents result free readable sound shows⟩

theorem layoutsFollowCopier : ∃ compiled tokens, compile copier .rightInfinite = .ok compiled ∧
    compiled.encodeInput ['a'] = .ok tokens ∧ ∃ count entry,
      (compiled.entries .biInfinite (.start compiled.machine.tapes tokens) count)[0]? = some entry ∧
        compiled.Represents entry 0 [.ofInput ['a'], .empty] := by
  obtain ⟨compiled, ok, -⟩ := copierCompiles .rightInfinite
  obtain ⟨tokens, encodes, follows⟩ := layoutsFollowSource ok readableCopier knownCopier
  obtain ⟨exact, represents⟩ := follows 0
  obtain ⟨count, entry, found⟩ := exact.mpr ⟨0, _, rfl⟩
  obtain ⟨number, tapes, source, _, shown⟩ := represents count entry found
  cases source
  exact ⟨compiled, tokens, ok, encodes, count, entry, found, shown⟩

end Multitape.SingleTape
