import Mathlib.Data.ENat.Lattice
import Multitape.Proofs.Configuration
import Multitape.Proofs.Machine

/-! The abstract machine: each tape is a function from all offsets to symbols, with its head
at an offset, and a step looks through the rules for the one to apply. The engine keeps only
the cells that a tape has come upon, counts its steps against a bound and stops; after any
number of calls it shows what the abstract machine does. -/
namespace Multitape
variable {S : Type} [Symbol S]

structure Abstract (S : Type) (tapes : Nat) where
  state : State
  heads : Fin tapes → Int
  cells : Fin tapes → Int → S

namespace Abstract
variable {tapes : Nat}

def start (input : List S) : Abstract S tapes where
  state := .ordinary 0
  heads _ := 0
  cells tape offset :=
    if tape.val = 0 ∧ 0 ≤ offset then input.getD offset.toNat Symbol.blank else Symbol.blank

def moved (mode : TapeMode) (head : Int) : Direction → Int
  | .left => if mode = .rightInfinite ∧ head = 0 then head else head - 1
  | .right => head + 1
  | .stay => head

def symbols (now : Abstract S tapes) : List S := List.ofFn fun tape => now.cells tape (now.heads tape)

def apply (mode : TapeMode) (rule : Rule S) (now : Abstract S tapes) : Abstract S tapes where
  state := rule.next
  heads tape := moved mode (now.heads tape) (rule.moves.getD tape .stay)
  cells tape :=
    Function.update (now.cells tape) (now.heads tape) (rule.write.getD tape Symbol.blank)

variable [DecidableEq S] (machine : Machine S) (mode : TapeMode)

def step (now : Abstract S machine.tapes) : Abstract S machine.tapes :=
  match now.state with
  | .ordinary number =>
    match machine.table.rules.toList.find? (·.key = (number, now.symbols)) with
    | some rule => now.apply mode rule
    | none => { now with state := .reject }
  | _ => now

def after (input : List S) : Nat → Abstract S machine.tapes
  | 0 => start input
  | n + 1 => (after input n).step machine mode

noncomputable def lifetime (input : List S) : ℕ∞ :=
  ⨅ (n : Nat) (_ : (after machine mode input n).state.isTerminal), (n : ℕ∞)

variable {machine mode}

theorem lifetimeAt {input : List S} {n : Nat}
    (terminal : (after machine mode input n).state.isTerminal) :
    lifetime machine mode input ≤ n :=
  iInf₂_le n terminal

theorem lifetimeFrom {input : List S} {n : Nat}
    (going : ∀ earlier < n, ¬ (after machine mode input earlier).state.isTerminal) :
    n ≤ lifetime machine mode input := by
  refine le_iInf₂ fun other terminal => ?_
  have later : n ≤ other := Nat.le_of_not_lt fun less => going other less terminal
  exact Nat.cast_le.mpr later

end Abstract

structure Configuration.Shows {tapes : Nat} (now : Configuration S) (drawn : Abstract S tapes) :
    Prop where
  state : now.state = drawn.state
  count : now.tapes.length = tapes
  tape : ∀ (index : Fin tapes) (held : Tape S), now.tapes[index.val]? = some held →
    held.head = drawn.heads index ∧ ∀ offset, held.peek offset = drawn.cells index offset

theorem Tape.peekInput (input : List S) (offset : Int) : (Tape.ofInput input).peek offset =
    if 0 ≤ offset then input.getD offset.toNat Symbol.blank else Symbol.blank := by
  have head : (Tape.ofInput input).head = 0 := by cases input <;> rfl
  have left : (Tape.ofInput input).left = [] := by cases input <;> rfl
  rcases Tape.offsetCases 0 offset with ⟨n, rfl⟩ | ⟨n, rfl⟩
  · rw [Tape.peekLeft (Tape.ofInput input) (by rw [head]), left, if_neg (by omega)]
    rfl
  · rw [Tape.peekRight (Tape.ofInput input) (by rw [head]), if_pos (by omega)]
    have index : ((0 : Int) + n).toNat = n := by omega
    rw [index]
    cases input with
    | nil => cases n <;> simp [Tape.ofInput]
    | cons symbol rest => rfl

theorem shiftHead (mode : TapeMode) (tape : Tape S) (move : Direction) :
    (mode.shift tape move).head = Abstract.moved mode tape.head move := by
  unfold TapeMode.shift
  cases move with
  | left =>
    simp only [Abstract.moved, true_and]
    split <;> rfl
  | right => simp [Abstract.moved, Tape.shift]
  | stay => simp [Abstract.moved, Tape.shift]

theorem peekModeShift (mode : TapeMode) (tape : Tape S) (move : Direction) (offset : Int) :
    (mode.shift tape move).peek offset = tape.peek offset := by
  unfold TapeMode.shift
  split
  · rfl
  · exact tape.peekShift move offset

theorem actAt {mode : TapeMode} {tapes : List (Tape S)} {write : List S} {moves : List Direction}
    {index : Nat} {held : Tape S} {symbol : S} {move : Direction} (tape : tapes[index]? = some held)
    (written : write[index]? = some symbol) (moving : moves[index]? = some move) :
    (act mode tapes write moves)[index]? = some (mode.shift (held.write symbol) move) := by
  induction index generalizing tapes write moves with
  | zero =>
    cases tapes <;> cases write <;> cases moves <;> simp_all [act]
  | succ index ih =>
    cases tapes with
    | nil => simp at tape
    | cons first tapes =>
      cases write with
      | nil => simp at written
      | cons other write =>
        cases moves with
        | nil => simp at moving
        | cons turn moves =>
          simp only [List.getElem?_cons_succ, act] at tape written moving ⊢
          exact ih tape written moving

theorem showsStart {tapes : Nat} (positive : 0 < tapes) (input : List S) :
    (Configuration.start tapes input).Shows (Abstract.start input : Abstract S tapes) where
  state := rfl
  count := by
    simp only [Configuration.start, List.length_cons, List.length_replicate]
    omega
  tape := by
    rintro ⟨index, bound⟩ held found
    cases index with
    | zero =>
      simp only [Configuration.start, List.getElem?_cons_zero, Option.some.injEq] at found
      subst found
      refine ⟨by cases input <;> rfl, fun offset => ?_⟩
      rw [Tape.peekInput]
      simp [Abstract.start]
    | succ index =>
      simp only [Configuration.start, List.getElem?_cons_succ] at found
      obtain rfl : held = Tape.empty := List.eq_of_mem_replicate (List.mem_of_getElem? found)
      refine ⟨rfl, fun offset => ?_⟩
      rw [Tape.empty, Tape.peekInput]
      simp [Abstract.start]

section
variable {tapes : Nat} {now : Configuration S} {drawn : Abstract S tapes}

theorem showsSymbols (agrees : now.Shows drawn) : now.symbols = drawn.symbols := by
  apply List.ext_getElem
  · simp [Configuration.symbols, Abstract.symbols, agrees.count]
  · intro index left right
    have bound : index < now.tapes.length := by simpa [Configuration.symbols] using left
    obtain ⟨head, peek⟩ := agrees.tape ⟨index, agrees.count ▸ bound⟩ now.tapes[index]
      (List.getElem?_eq_getElem bound)
    simp only [Configuration.symbols, Abstract.symbols, List.getElem_map, List.getElem_ofFn]
    rw [← peek, ← head, Tape.peekHead]

theorem showsApply {mode : TapeMode} {rule : Rule S} {alphabet : Alphabet S}
    (agrees : now.Shows drawn) (fits : rule.Fits tapes alphabet) :
    (⟨rule.next, act mode now.tapes rule.write rule.moves⟩ : Configuration S).Shows
      (drawn.apply mode rule) where
  state := rfl
  count := (lengthAct ..).trans agrees.count
  tape := by
    rintro ⟨index, bound⟩ held found
    have before := List.getElem?_eq_getElem (agrees.count ▸ bound : index < now.tapes.length)
    have written := List.getElem?_eq_getElem (fits.write ▸ bound : index < rule.write.length)
    have moving := List.getElem?_eq_getElem (fits.moves ▸ bound : index < rule.moves.length)
    obtain ⟨head, peek⟩ := agrees.tape ⟨index, bound⟩ _ before
    rw [actAt before written moving] at found
    obtain rfl := Option.some.inj found
    refine ⟨?_, fun offset => ?_⟩
    · simp [shiftHead, Tape.write, Abstract.apply, moving, head]
    · simp [peekModeShift, Tape.peekWrite, Abstract.apply, Function.update_apply, written, head, peek]

variable [DecidableEq S]

omit [Symbol S] in
theorem getByKey (table : Table S) (state : Nat) (read : List S) :
    table.get? state read = table.rules.toList.find? (·.key = (state, read)) := by
  cases found : table.rules.toList.find? (·.key = (state, read)) with
  | some rule =>
    have key : rule.key = (state, read) := by simpa using List.find?_some found
    exact Table.getIff.mpr ⟨List.mem_of_find?_eq_some found, key⟩
  | none =>
    apply Table.getNoneIff.mpr
    intro rule mem key
    simpa [key] using List.find?_eq_none.mp found rule mem

end

section
variable [DecidableEq S] {machine : Machine S} {mode : TapeMode} {now next : Configuration S}
  {drawn : Abstract S machine.tapes}

theorem showsStep (agrees : now.Shows drawn) (step : machine.step? mode now = some next) :
    next.Shows (drawn.step machine mode) := by
  obtain ⟨number, state, next⟩ := stepIff.mp step
  have looked := getByKey machine.table number drawn.symbols
  have same : drawn.state = .ordinary number := agrees.state.symm.trans state
  unfold Abstract.step
  rw [same]
  dsimp only
  rw [← looked, ← showsSymbols agrees]
  obtain ⟨rule, found, rfl⟩ | ⟨found, rfl⟩ := next
  · rw [found]
    exact showsApply agrees (ruleOfGet found).2.2
  · rw [found]
    exact ⟨rfl, agrees.count, agrees.tape⟩

end

variable [DecidableEq S]

namespace Run

/-- One call of the engine, and whether it halts. Once there is a verdict, a call does
nothing but give it. -/
def call (run : Run S) : Option Verdict × Run S :=
  match run.verdict? with
  | some verdict => (some verdict, run)
  | none => (none, run.step?.getD run)

def calls : Nat → Run S → Run S
  | 0, run => run
  | n + 1, run => (run.calls n).call.2

theorem callStep (run : Run S) : run.call.2 = run.step?.getD run := by
  unfold call
  cases verdict : run.verdict? with
  | none => rfl
  | some verdict' =>
    have none : run.step? = none := by simp [stepNoneIffVerdict, verdict]
    simp [none]

theorem advanceSucc (n : Nat) (run : Run S) :
    run.advance (n + 1) = (run.advance n).step?.getD (run.advance n) := by
  induction n generalizing run with
  | zero =>
    cases next : run.step? <;> simp [advance, next]
  | succ n ih =>
    cases next : run.step? with
    | none => simp [advance, next]
    | some later =>
      have first : ∀ m, run.advance (m + 1) = later.advance m := fun m => by rw [advance, next]
      rw [first, first, ih]

theorem callsAdvance (n : Nat) (run : Run S) : run.calls n = run.advance n := by
  induction n with
  | zero => rfl
  | succ n ih => rw [calls, callStep, advanceSucc, ih]

/-- After `n` calls: the run shows the abstract machine after its steps, none of which left a
terminal state, and it has a verdict if they are less than `n`. -/
structure Follows (machine : Machine S) (config : Config) (input : List S) (n : Nat) (run : Run S) :
    Prop where
  sameMachine : run.machine = machine
  sameConfig : run.config = config
  agrees : run.Shows (Abstract.after machine config.tapeMode input run.steps)
  within : run.steps ≤ n
  bounded : run.steps ≤ config.maxSteps
  going : ∀ earlier < run.steps,
    ¬ (Abstract.after machine config.tapeMode input earlier).state.isTerminal
  busy : run.verdict? = none → run.steps = n

section
variable {machine : Machine S} {config : Config} {input : List S} {n : Nat} {run : Run S}

omit [DecidableEq S] in
theorem verdictNoneIff : run.verdict? = none ↔
    ¬ run.state.isTerminal ∧ run.steps < run.config.maxSteps := by
  unfold verdict?
  cases run.state <;> simp [State.verdict?, State.isTerminal, State.number?]

theorem followsStart (started : Run.start machine config input = .ok run) :
    Follows machine config input 0 run := by
  unfold Run.start at started
  split at started
  · cases started
  · cases started
    exact {
      sameMachine := rfl
      sameConfig := rfl
      agrees := showsStart machine.hasTapes input
      within := Nat.le_refl 0
      bounded := Nat.zero_le _
      going := by simp
      busy := fun _ => rfl }

theorem followsCall (follows : Follows machine config input n run) :
    Follows machine config input (n + 1) run.call.2 := by
  obtain ⟨sameMachine, sameConfig, agrees, within, bounded, going, busy⟩ := follows
  unfold call
  cases verdict : run.verdict? with
  | some given => exact {
      sameMachine, sameConfig, agrees, bounded, going
      within := by dsimp only; omega
      busy := fun none => by simp [verdict] at none }
  | none =>
    obtain ⟨ordinary, room⟩ := verdictNoneIff.mp verdict
    cases next : run.machine.step? run.config.tapeMode run.toConfiguration with
    | none => exact absurd ((stepNoneIff _ _ _).mp next) ordinary
    | some later =>
      have moves : run.step? =
          some { run with toConfiguration := later, steps := run.steps + 1 } :=
        nextIff.mpr ⟨room, later, next, rfl⟩
      have terminal : ¬ (Abstract.after machine config.tapeMode input run.steps).state.isTerminal := by
        rwa [← agrees.state]
      rw [moves]
      rw [sameMachine, sameConfig] at next
      rw [sameConfig] at room
      exact {
        sameMachine, sameConfig
        agrees := showsStep agrees next
        within := Nat.succ_le_succ within
        bounded := room
        going := fun earlier less => by
          rcases Nat.lt_or_eq_of_le (Nat.le_of_lt_succ less) with before | rfl
          · exact going earlier before
          · exact terminal
        busy := fun _ => congrArg Nat.succ (busy verdict) }

theorem followsCalls (started : Run.start machine config input = .ok run) (n : Nat) :
    Follows machine config input n (run.calls n) := by
  induction n with
  | zero => exact followsStart started
  | succ n ih => exact followsCall ih

open Abstract

theorem verdictReached (follows : Follows machine config input n run)
    (given : run.verdict? ≠ none) :
    min (lifetime machine config.tapeMode input) config.maxSteps ≤ (run.steps : ℕ∞) := by
  rw [ne_eq, verdictNoneIff, not_and_or, not_not, not_lt] at given
  rcases given with terminal | spent
  · rw [follows.agrees.state] at terminal
    exact (min_le_left _ _).trans (lifetimeAt terminal)
  · rw [follows.sameConfig] at spent
    exact (min_le_right _ _).trans (Nat.cast_le.mpr spent)

theorem stepsOf (follows : Follows machine config input n run) : (run.steps : ℕ∞) =
    min (n : ℕ∞) (min (lifetime machine config.tapeMode input) config.maxSteps) := by
  have below := lifetimeFrom follows.going
  have within : (run.steps : ℕ∞) ≤ n := Nat.cast_le.mpr follows.within
  have bounded : (run.steps : ℕ∞) ≤ config.maxSteps := Nat.cast_le.mpr follows.bounded
  apply le_antisymm (le_min within (le_min below bounded))
  cases verdict : run.verdict? with
  | none =>
    rw [follows.busy verdict]
    exact min_le_left _ _
  | some given =>
    have reached := verdictReached follows (by simp [verdict])
    exact (min_le_right _ _).trans reached

/- Without a verdict the abstract machine has a step to go, and so has the bound. -/
theorem verdictIff (follows : Follows machine config input n run) : run.verdict? ≠ none ↔
    min (lifetime machine config.tapeMode input) config.maxSteps ≤ n := by
  constructor
  · intro given
    exact (verdictReached follows given).trans (Nat.cast_le.mpr follows.within)
  · intro reached none
    obtain ⟨ordinary, room⟩ := verdictNoneIff.mp none
    rw [follows.agrees.state] at ordinary
    rw [follows.sameConfig] at room
    have ahead : ((run.steps + 1 : Nat) : ℕ∞) ≤ lifetime machine config.tapeMode input := by
      apply lifetimeFrom
      intro earlier less
      rcases Nat.lt_or_eq_of_le (Nat.le_of_lt_succ less) with before | rfl
      · exact follows.going earlier before
      · exact ordinary
    have more : ((run.steps + 1 : Nat) : ℕ∞) ≤ n :=
      (le_min ahead (Nat.cast_le.mpr room)).trans reached
    have full := follows.busy none
    have less := Nat.cast_le.mp more
    omega

theorem haltsIff (follows : Follows machine config input n run) (verdict : Verdict) :
    run.call.1 = some verdict ↔
      min (lifetime machine config.tapeMode input) config.maxSteps ≤ n ∧
      verdict = run.state.verdict?.getD .stepBoundExceeded := by
  have answer : run.call.1 = run.verdict? := by
    unfold call
    cases run.verdict? <;> rfl
  rw [answer, ← verdictIff follows]
  unfold verdict?
  cases run.state.verdict? <;> simp [eq_comm]

end

end Run

open Abstract

theorem engineFollowsAbstract (machine : Machine S) (config : Config) (input : List S)
    (known : ∀ symbol ∈ input, symbol ∈ machine.alphabet) :
    ∃ run, Run.start machine config input = .ok run ∧ ∀ n,
      let now := run.calls n
      let last := min (lifetime machine config.tapeMode input) config.maxSteps
      (now.steps : ℕ∞) = min (n : ℕ∞) last ∧
      now.Shows (after machine config.tapeMode input now.steps) ∧
      ∀ verdict, now.call.1 = some verdict ↔ last ≤ n ∧ verdict =
        (after machine config.tapeMode input now.steps).state.verdict?.getD .stepBoundExceeded := by
  have accepted := refuseNoneIff.mpr known
  obtain ⟨run, started⟩ : ∃ run, Run.start machine config input = .ok run := by
    unfold Run.start
    rw [accepted]
    exact ⟨_, rfl⟩
  refine ⟨run, started, fun n => ?_⟩
  have follows := Run.followsCalls started n
  refine ⟨Run.stepsOf follows, follows.agrees, fun verdict => ?_⟩
  rw [← follows.agrees.state]
  exact Run.haltsIff follows verdict

theorem engineFollowsCopier : ∃ run, Run.start copier ⟨10, .biInfinite⟩ ['a'] = .ok run ∧
    (run.calls 5).steps = 1 ∧ (run.calls 5).call.1 = some .accept := by
  obtain ⟨run, started, follows⟩ :=
    engineFollowsAbstract copier ⟨10, .biInfinite⟩ ['a'] knownCopier
  obtain ⟨steps, -, halts⟩ := follows 5
  have accepts : (after copier .biInfinite ['a'] 1).state = .accept := by decide
  have one : lifetime copier .biInfinite ['a'] = (1 : Nat) := by
    apply le_antisymm
    · exact lifetimeAt (by rw [accepts]; rfl)
    · apply lifetimeFrom
      intro earlier less
      obtain rfl : earlier = 0 := by omega
      decide
  have last : min (lifetime copier .biInfinite ['a']) ((10 : Nat) : ℕ∞) = (1 : Nat) := by
    rw [one]
    exact min_eq_left (Nat.cast_le.mpr (by decide))
  have sooner : min ((5 : Nat) : ℕ∞) (1 : Nat) = (1 : Nat) :=
    min_eq_right (Nat.cast_le.mpr (by decide))
  rw [last, sooner] at steps
  have same := Nat.cast_inj.mp steps
  refine ⟨run, started, same, (halts .accept).mpr ⟨?_, ?_⟩⟩
  · rw [last]
    exact Nat.cast_le.mpr (by decide)
  · rw [same]
    exact (congrArg (fun state : State => state.verdict?.getD .stepBoundExceeded) accepts).symm

end Multitape
