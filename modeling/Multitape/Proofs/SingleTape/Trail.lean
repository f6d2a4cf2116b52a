import Multitape.Proofs.Run
import Multitape.Proofs.SingleTape.Shown

/-! The run of a compiled machine, as far as it is known. A trail is a number of steps with
the configuration after them and, in order, those met so far in which a source step begins.
What scans do prolongs it. -/
namespace Multitape.SingleTape
variable {S : Type} [Symbol S]

def begins (compiled : SingleTape S) (now : Configuration Token) : Bool :=
  match compiled.phase? now.state, now.tapes with
  | some (.read _ []), [tape] => tape.head = 1
  | _, _ => false

def entries (compiled : SingleTape S) (run : TapeMode) (start : Configuration Token) (count : Nat) :
    List (Configuration Token) :=
  (List.range count).filterMap fun n =>
    (compiled.machine.after? run start n).filter compiled.begins

def Steady (compiled : SingleTape S) (now : Configuration Token) : Prop :=
  ∃ number tape, now = ⟨.ordinary number, [tape]⟩ ∧ tape.Anchored ∧
    (compiled.machine.table.get? number [tape.read]).isSome

structure Trail (compiled : SingleTape S) (start : Configuration Token)
    (met : List (Configuration Token)) (steps : Nat) (now : Configuration Token) : Prop where
  here : ∀ run, compiled.machine.after? run start steps = some now
  met : ∀ run, compiled.entries run start (steps + 1) = met
  steady : ∀ n < steps, ∃ earlier, compiled.Steady earlier ∧
    ∀ run, compiled.machine.after? run start n = some earlier

variable {compiled : SingleTape S} {start : Configuration Token} {met : List (Configuration Token)}
  {steps : Nat} {run : TapeMode}

theorem entriesSucc (count : Nat) : compiled.entries run start (count + 1) =
    compiled.entries run start count ++
      ((compiled.machine.after? run start count).filter compiled.begins).toList := by
  unfold entries
  rw [List.range_succ, List.filterMap_append]
  congr 1

theorem entriesPrefix {count more : Nat} (le : count ≤ more) :
    compiled.entries run start count <+: compiled.entries run start more := by
  induction more with
  | zero =>
    obtain rfl := Nat.le_zero.mp le
    exact List.prefix_rfl
  | succ more ih =>
    rcases Nat.lt_or_eq_of_le le with less | rfl
    · rw [entriesSucc]
      exact (ih (Nat.le_of_lt_succ less)).trans (List.prefix_append ..)
    · exact List.prefix_rfl

/- After a terminal state no configuration is met any more. -/
theorem entriesStopped {last : Configuration Token} {count : Nat}
    (reached : compiled.machine.after? run start steps = some last) (terminal : last.state.isTerminal)
    (le : steps + 1 ≤ count) :
    compiled.entries run start count = compiled.entries run start (steps + 1) := by
  induction count with
  | zero => omega
  | succ count ih =>
    rcases Nat.lt_or_eq_of_le le with less | same
    · have gone : compiled.machine.after? run start count = none := by
        cases later : compiled.machine.after? run start count with
        | none => rfl
        | some other =>
          have bound := afterTerminal reached terminal later
          omega
      rw [entriesSucc, gone, ih (by omega)]
      simp
    · rw [same]

section
variable {state : State} {tape : Tape Token} {scan next : Scan S}

theorem shownBegins (shows : Shows compiled state tape scan) :
    compiled.begins ⟨state, [tape]⟩ ↔ scan.Begins := by
  have anchored : tape.head = tape.left.length := shows.anchored
  rw [shows.left, List.length_map] at anchored
  have target := shows.target
  unfold Scan.Begins
  cases aim : scan.target with
  | terminal terminal =>
    rw [aim] at target
    obtain ⟨rfl, terminal⟩ := target
    cases state <;> simp_all [begins, phase?, State.isTerminal, State.number?]
  | phase phase =>
    rw [aim] at target
    obtain ⟨number, rfl, here⟩ := target
    simp only [begins, phase?, here]
    split
    · rename_i other _ read tapes
      cases Option.some.inj read
      cases tapes
      simp only [decide_eq_true_eq, anchored]
      constructor
      · intro one
        exact ⟨⟨_, rfl⟩, by omega⟩
      · rintro ⟨_, one⟩
        omega
    · rename_i other
      simp only [Bool.false_eq_true, false_iff, not_and]
      rintro ⟨number, same⟩
      cases same
      exact absurd rfl (other _ _ rfl)

variable [DecidableEq S] [LawfulSymbol S] {machine : Machine S} {mode : TapeMode}
  (result : Compiled machine mode compiled) (several : 2 ≤ machine.tapes)
include result several

theorem trailStep (trail : compiled.Trail start met steps ⟨state, [tape]⟩)
    (shows : Shows compiled state tape scan) (step : Step machine mode scan next) :
    ∃ later moved, Shows compiled later moved next ∧
      compiled.Trail start (met ++ [⟨later, [moved]⟩].filter compiled.begins) (steps + 1)
        ⟨later, [moved]⟩ := by
  obtain ⟨⟨number, rfl, found⟩, later, moved, shown, steps'⟩ := shownStep result several shows step
  have here : ∀ run, compiled.machine.after? run start (steps + 1) = some ⟨later, [moved]⟩ :=
    fun run => (afterSucc (trail.here run)).trans (steps' run)
  refine ⟨later, moved, shown, here, fun run => ?_, fun n less => ?_⟩
  · rw [entriesSucc, trail.met run, here run]
    cases first : compiled.begins ⟨later, [moved]⟩ <;> simp [Option.filter, first]
  · rcases Nat.lt_or_eq_of_le (Nat.le_of_lt_succ less) with before | rfl
    · exact trail.steady n before
    · exact ⟨_, ⟨number, tape, rfl, shows.anchored, found⟩, trail.here⟩

theorem trailTravel (trail : compiled.Trail start met steps ⟨state, [tape]⟩)
    (shows : Shows compiled state tape scan) (travel : Travel machine mode scan next) :
    ∃ more later moved, steps ≤ more ∧ Shows compiled later moved next ∧
      compiled.Trail start met more ⟨later, [moved]⟩ := by
  induction travel with
  | refl => exact ⟨steps, state, tape, Nat.le_refl _, shows, trail⟩
  | tail _ last ih =>
    obtain ⟨more, later, moved, le, shown, trail⟩ := ih
    obtain ⟨later, moved, shown, trail⟩ := trailStep result several trail shown last.1
    have silent : compiled.begins ⟨later, [moved]⟩ = false := by
      rw [Bool.eq_false_iff, Ne, shownBegins shown]
      exact last.2
    rw [List.filter_singleton, silent] at trail
    exact ⟨more + 1, later, moved, by omega, shown, by simpa using trail⟩

theorem trailArrives (trail : compiled.Trail start met steps ⟨state, [tape]⟩)
    (shows : Shows compiled state tape scan) (arrives : Arrives machine mode scan next) :
    ∃ more later moved, steps < more ∧ Shows compiled later moved next ∧
      compiled.Trail start (met ++ [⟨later, [moved]⟩].filter compiled.begins) more
        ⟨later, [moved]⟩ := by
  obtain ⟨last, travel, step⟩ := arrives
  obtain ⟨more, later, moved, le, shown, trail⟩ := trailTravel result several trail shows travel
  obtain ⟨later, moved, shown, trail⟩ := trailStep result several trail shown step
  exact ⟨more + 1, later, moved, by omega, shown, trail⟩

end

end Multitape.SingleTape
