import Multitape.Proofs.SingleTape.Possible

/-! The numbering is complete: it holds the phases that instructions lead to from the first
one, and no other. The walk is given as many rounds as there are phases that can be met, and
each round deals with one position, so it does not run out before the positions do. As long as
32 bits hold all positions, they are the state numbers. -/
namespace Multitape.SingleTape
variable {S : Type} [Symbol S] [DecidableEq S]

namespace Numbering
variable {numbering : Numbering S}

theorem positionGet {phase : Phase S} {number : Nat}
    (found : numbering.phases[number]? = some phase) : numbering.position phase = number := by
  unfold position
  rw [(numbering.agrees phase number).mpr found]
  rfl

theorem getPosition {phase : Phase S} (mem : phase ∈ numbering.phases) :
    numbering.phases[numbering.position phase]? = some phase := by
  obtain ⟨number, bound, found⟩ := Array.mem_iff_getElem.mp mem
  have here : numbering.phases[number]? = some phase := by rw [Array.getElem?_eq_getElem bound, found]
  rwa [positionGet here]

theorem stateAtBelow {position : Nat} (below : position < Numeral.stateBound) :
    stateAt position = position := Nat.mod_eq_of_lt below

section
variable (few : numbering.phases.size ≤ Numeral.stateBound)
include few

theorem stateOfGet {phase : Phase S} {number : Nat}
    (found : numbering.phases[number]? = some phase) : numbering.stateOf phase = number := by
  obtain ⟨bound, -⟩ := Array.getElem?_eq_some_iff.mp found
  rw [stateOf, positionGet found, stateAtBelow (by omega)]

theorem getStateOf {phase : Phase S} (mem : phase ∈ numbering.phases) :
    numbering.phases[numbering.stateOf phase]? = some phase := by
  have here := getPosition mem
  rwa [stateOfGet few here]

end

theorem phasesAdd (numbering : Numbering S) (phase : Phase S) :
    (numbering.add phase).phases = numbering.phases ∧ phase ∈ numbering.phases ∨
    (numbering.add phase).phases = numbering.phases.push phase := by
  unfold add
  split
  · rename_i number found
    have here := (numbering.agrees phase number).mp found
    exact .inl ⟨rfl, Array.mem_of_getElem? here⟩
  · exact .inr rfl

theorem memAdd {phase other : Phase S} :
    other ∈ (numbering.add phase).phases ↔ other ∈ numbering.phases ∨ other = phase := by
  rcases phasesAdd numbering phase with ⟨same, mem⟩ | grown
  · rw [same]
    constructor
    · exact .inl
    · rintro (old | rfl)
      · exact old
      · exact mem
  · rw [grown, Array.mem_push]

theorem keptAdd {phase other : Phase S} {number : Nat}
    (found : numbering.phases[number]? = some other) :
    (numbering.add phase).phases[number]? = some other := by
  rcases phasesAdd numbering phase with ⟨same, _⟩ | grown
  · rwa [same]
  · obtain ⟨bound, _⟩ := Array.getElem?_eq_some_iff.mp found
    rw [grown, Array.getElem?_push_lt bound, ← found, Array.getElem?_eq_getElem bound]

theorem memAddAll {phases : List (Phase S)} {other : Phase S} :
    other ∈ (phases.foldl add numbering).phases ↔ other ∈ numbering.phases ∨ other ∈ phases := by
  induction phases generalizing numbering with
  | nil => simp
  | cons phase phases ih => rw [List.foldl_cons, ih, memAdd, List.mem_cons, or_assoc]

theorem keptAddAll {phases : List (Phase S)} {other : Phase S} {number : Nat}
    (found : numbering.phases[number]? = some other) :
    (phases.foldl add numbering).phases[number]? = some other := by
  induction phases generalizing numbering with
  | nil => exact found
  | cons phase phases ih => exact ih (keptAdd found)

theorem sizeAdd (numbering : Numbering S) (phase : Phase S) : (numbering.add phase).phases.size =
    numbering.phases.size + if phase ∈ numbering.phases then 0 else 1 := by
  unfold add
  split
  · rename_i number found
    have here := (numbering.agrees phase number).mp found
    simp [Array.mem_of_getElem? here]
  · rename_i fresh
    have absent : phase ∉ numbering.phases := by
      intro mem
      rw [(numbering.agrees phase _).mpr (getPosition mem)] at fresh
      cases fresh
    simp [absent]

theorem exploreDone {successors : Phase S → List (Phase S)} {fuel next : Nat}
    (done : numbering.phases.size ≤ next) :
    explore successors fuel next numbering = numbering := by
  cases fuel with
  | zero => rfl
  | succ fuel =>
    have missing : numbering.phase? next = none := Array.getElem?_eq_none done
    rw [explore, missing]

theorem keptExplore {successors : Phase S → List (Phase S)} {fuel next number : Nat}
    {phase : Phase S} (found : numbering.phases[number]? = some phase) :
    (explore successors fuel next numbering).phases[number]? = some phase := by
  induction fuel generalizing next numbering with
  | zero => exact found
  | succ fuel ih =>
    unfold explore
    split
    · exact found
    · exact ih (keptAddAll found)

theorem sizeExplore {successors : Phase S → List (Phase S)} {fuel next : Nat} :
    numbering.phases.size ≤ (explore successors fuel next numbering).phases.size := by
  by_contra shrunk
  have last := Array.getElem?_eq_getElem (Nat.lt_of_not_le shrunk)
  have kept : (explore successors fuel next numbering).phases[
      (explore successors fuel next numbering).phases.size]? = some _ := keptExplore last
  simp at kept

/- What holds of a phase and is passed on holds of every phase that is come upon. -/
theorem everyExplore {holds : Phase S → Prop} {successors : Phase S → List (Phase S)}
    (onward : ∀ phase, holds phase → ∀ next ∈ successors phase, holds next) {fuel next : Nat}
    (all : ∀ phase ∈ numbering.phases, holds phase) :
    ∀ phase ∈ (explore successors fuel next numbering).phases, holds phase := by
  induction fuel generalizing next numbering with
  | zero => exact all
  | succ fuel ih =>
    unfold explore
    split
    · exact all
    · rename_i phase found
      refine ih fun other mem => ?_
      rcases memAddAll.mp mem with old | new
      · exact all other old
      · exact onward phase (all phase (Array.mem_of_getElem? found)) other new

theorem nodupPhases (numbering : Numbering S) : numbering.phases.toList.Nodup := by
  apply List.pairwise_iff_getElem.mpr
  intro i j left right less same
  rw [Array.getElem_toList, Array.getElem_toList] at same
  have one := positionGet (Array.getElem?_eq_getElem (by simpa using left))
  have two := positionGet (Array.getElem?_eq_getElem (by simpa using right))
  rw [same] at one
  omega

end Numbering

variable {machine : Machine S} {mode : TapeMode}

theorem memSuccessors {phase next : Phase S} : next ∈ successors machine mode phase ↔
    ∃ instruction ∈ instructions machine mode phase, instruction.target = .phase next := by
  have same : ∀ target : Target S, target.phase? = some next ↔ target = .phase next := by
    intro target
    cases target <;> simp [Target.phase?]
  simp only [successors, List.mem_filterMap, same]

variable (machine mode) in
/-- The walk has come to `next`: all that it has met are possible, the first phase is the
first one, and what follows from the phases before `next` is numbered. -/
structure Walked (next : Nat) (numbering : Numbering S) : Prop where
  first : numbering.phases[0]? = some .start
  possible : ∀ phase ∈ numbering.phases, Possible machine phase
  closed : ∀ number < next, ∀ phase, numbering.phases[number]? = some phase →
    ∀ other ∈ successors machine mode phase, other ∈ numbering.phases

open SingleTape.Numbering

theorem walkedStart : Walked machine mode 0 ((Numbering.empty : Numbering S).add .start) where
  first := by
    rcases phasesAdd (.empty : Numbering S) .start with ⟨_, old⟩ | pushed
    · simp [Numbering.empty] at old
    · rw [pushed]
      simp [Numbering.empty]
  possible phase mem := by
    rcases memAdd.mp mem with old | rfl
    · simp [Numbering.empty] at old
    · trivial
  closed number less := by omega

theorem walkedNext (several : 2 ≤ machine.tapes) {next : Nat} {phase : Phase S}
    {numbering : Numbering S} (walked : Walked machine mode next numbering)
    (here : numbering.phases[next]? = some phase) :
    Walked machine mode (next + 1) ((successors machine mode phase).foldl add numbering) where
  first := keptAddAll walked.first
  possible other mem := by
    rcases memAddAll.mp mem with old | new
    · exact walked.possible other old
    · exact possibleSuccessor several (walked.possible phase (Array.mem_of_getElem? here)) new
  closed number less other found follower mem := by
    obtain ⟨bound, _⟩ := Array.getElem?_eq_some_iff.mp here
    have old : numbering.phases[number]? = some numbering.phases[number] :=
      Array.getElem?_eq_getElem (by omega)
    obtain rfl : numbering.phases[number] = other := Option.some.inj ((keptAddAll old).symm.trans found)
    rcases Nat.lt_or_eq_of_le (Nat.le_of_lt_succ less) with before | rfl
    · exact memAddAll.mpr (.inl (walked.closed number before _ old follower mem))
    · obtain rfl := Option.some.inj (here.symm.trans old)
      exact memAddAll.mpr (.inr mem)

theorem sizeWalked {next : Nat} {numbering : Numbering S} (walked : Walked machine mode next numbering) :
    numbering.phases.size ≤ (possiblePhases machine).length := by
  apply (nodupPhases numbering).length_le_of_subset
  intro phase mem
  exact memPossiblePhases (walked.possible phase (Array.mem_toList_iff.mp mem))

/- With fuel for all numbers that are left, the walk ends behind the last one. -/
theorem walkedExplore (several : 2 ≤ machine.tapes) {fuel next : Nat} {numbering : Numbering S}
    (walked : Walked machine mode next numbering)
    (enough : (possiblePhases machine).length ≤ next + fuel) :
    ∃ last, Walked machine mode last (explore (successors machine mode) fuel next numbering) ∧
      (explore (successors machine mode) fuel next numbering).phases.size ≤ last := by
  induction fuel generalizing next numbering with
  | zero =>
    have size := sizeWalked walked
    exact ⟨next, walked, by unfold explore; omega⟩
  | succ fuel ih =>
    unfold explore
    unfold phase?
    cases here : numbering.phases[next]? with
    | none => exact ⟨next, walked, Array.getElem?_eq_none_iff.mp here⟩
    | some phase => exact ih (walkedNext several walked here) (by omega)

/- What the numbering of a machine is good for. -/
section
variable (several : 2 ≤ machine.tapes)
include several

theorem walkedNumbering : ∃ last, Walked machine mode last (numbering machine mode) ∧
    (numbering machine mode).phases.size ≤ last :=
  walkedExplore several walkedStart (by omega)

theorem numberedFirst : (numbering machine mode).phases[0]? = some .start := by
  obtain ⟨_, walked, _⟩ := walkedNumbering several
  exact walked.first

theorem numberedPossible {phase : Phase S} (mem : phase ∈ (numbering machine mode).phases) :
    Possible machine phase := by
  obtain ⟨_, walked, _⟩ := walkedNumbering several
  exact walked.possible phase mem

theorem numberedNext {phase next : Phase S} {instruction : Instruction S}
    (mem : phase ∈ (numbering machine mode).phases)
    (known : instruction ∈ instructions machine mode phase)
    (target : instruction.target = .phase next) : next ∈ (numbering machine mode).phases := by
  obtain ⟨last, walked, covered⟩ := walkedNumbering several
  obtain ⟨number, bound, rfl⟩ := Array.mem_iff_getElem.mp mem
  apply walked.closed number (by omega) _ (Array.getElem?_eq_getElem bound)
  exact memSuccessors.mpr ⟨instruction, known, target⟩

theorem numberedSize : (numbering machine mode).phases.size ≤ (possiblePhases machine).length := by
  obtain ⟨_, walked, _⟩ := walkedNumbering several
  exact sizeWalked walked

theorem numberedFew (possible : (possiblePhases machine).length ≤ Numeral.stateBound) :
    (numbering machine mode).phases.size ≤ Numeral.stateBound :=
  (numberedSize several).trans possible

end

variable (machine mode) in
inductive Met : Phase S → Prop where
  | first : Met .start
  | next {phase next : Phase S} {instruction : Instruction S} (met : Met phase)
    (known : instruction ∈ instructions machine mode phase)
    (target : instruction.target = .phase next) : Met next

theorem numberedIff (several : 2 ≤ machine.tapes) {phase : Phase S} :
    phase ∈ (numbering machine mode).phases ↔ Met machine mode phase := by
  constructor
  · refine everyExplore (fun phase met next follows => ?_) (fun phase mem => ?_) phase
    · obtain ⟨instruction, known, target⟩ := memSuccessors.mp follows
      exact .next met known target
    · rcases memAdd.mp mem with old | rfl
      · simp [Numbering.empty] at old
      · exact .first
  · intro met
    induction met with
    | first => exact Array.mem_of_getElem? (numberedFirst several)
    | next _ known target ih => exact numberedNext several ih known target

end Multitape.SingleTape
