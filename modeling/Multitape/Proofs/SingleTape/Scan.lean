import Mathlib.Logic.Relation
import Multitape.SingleTape.Instruction

/-! The one-tape machine before its phases are numbered and its cells become tokens. A
scan is a phase, or a terminal state, with the cells left of the head, nearest first, and
those from the head on; what lies beyond is blank. A step carries out one instruction.
The head never leaves the left end: there is no step for that. -/
namespace Multitape.SingleTape
variable {S : Type}

structure Scan (S : Type) where
  target : Target S
  left : List (Cell S)
  ahead : List (Cell S)

namespace Scan

def back (target : Target S) : List (Cell S) → List (Cell S) → Scan S
  | [], ahead => ⟨target, [], ahead⟩
  | cell :: left, ahead => ⟨target, left, cell :: ahead⟩

def Begins (scan : Scan S) : Prop :=
  (∃ state, scan.target = .phase (.read state [])) ∧ scan.left.length = 1

theorem targetBack (target : Target S) (left ahead : List (Cell S)) :
    (back target left ahead).target = target := by
  cases left <;> rfl

theorem notBegins {scan : Scan S} (other : ∀ state, scan.target ≠ .phase (.read state [])) :
    ¬ scan.Begins := by
  rintro ⟨⟨state, same⟩, _⟩
  exact other state same

theorem notBeginsPhase {scan : Scan S} {phase : Phase S} (here : scan.target = .phase phase)
    (silent : ∀ state, phase ≠ .read state []) : ¬ scan.Begins := by
  apply notBegins
  intro state same
  exact silent state (Target.phase.inj (here.symm.trans same))

theorem notBeginsFar {scan : Scan S} (far : 1 < scan.left.length) : ¬ scan.Begins := by
  rintro ⟨_, near⟩
  omega

end Scan

def Instruction.result (instruction : Instruction S) (left ahead : List (Cell S)) : Scan S :=
  match instruction.move with
  | .right => ⟨instruction.target, instruction.write :: left, ahead⟩
  | .left => .back instruction.target left (instruction.write :: ahead)
  | .stay => ⟨instruction.target, left, instruction.write :: ahead⟩

variable [Symbol S] [DecidableEq S] (machine : Machine S) (mode : TapeMode)

inductive Step : Scan S → Scan S → Prop where
  | on {phase left ahead instruction} (known : instruction ∈ instructions machine mode phase)
      (inside : instruction.move = .left → left ≠ []) :
      Step ⟨.phase phase, left, instruction.read :: ahead⟩ (instruction.result left ahead)
  | beyond {phase left instruction} (known : instruction ∈ instructions machine mode phase)
      (blank : instruction.read = .plain Symbol.blank)
      (inside : instruction.move = .left → left ≠ []) :
      Step ⟨.phase phase, left, []⟩ (instruction.result left [])

/-- Any number of steps, none of which ends where a source step begins. -/
def Travel : Scan S → Scan S → Prop :=
  Relation.ReflTransGen fun scan next => Step machine mode scan next ∧ ¬ next.Begins

variable {machine mode}

open Instruction

theorem Travel.refl (scan : Scan S) : Travel machine mode scan scan := Relation.ReflTransGen.refl

theorem Travel.trans {a b c : Scan S} (first : Travel machine mode a b)
    (second : Travel machine mode b c) : Travel machine mode a c :=
  Relation.ReflTransGen.trans first second

theorem Travel.step {a b : Scan S} (step : Step machine mode a b) (silent : ¬ b.Begins) :
    Travel machine mode a b :=
  Relation.ReflTransGen.single ⟨step, silent⟩

section
variable {phase next : Phase S} {left ahead : List (Cell S)} {cell write : Cell S}

theorem stepRight (known : put cell next write .right ∈ instructions machine mode phase) :
    Step machine mode ⟨.phase phase, left, cell :: ahead⟩ ⟨.phase next, write :: left, ahead⟩ :=
  Step.on known (fun h => by cases h)

theorem stepLeft (known : put cell next write .left ∈ instructions machine mode phase)
    (inside : left ≠ []) :
    Step machine mode ⟨.phase phase, left, cell :: ahead⟩
      (.back (.phase next) left (write :: ahead)) :=
  Step.on known (fun _ => inside)

theorem stepRightBeyond
    (known : put (.plain Symbol.blank) next write .right ∈ instructions machine mode phase) :
    Step machine mode ⟨.phase phase, left, []⟩ ⟨.phase next, write :: left, []⟩ :=
  Step.beyond known rfl (fun h => by cases h)

theorem stepLeftBeyond
    (known : put (.plain Symbol.blank) next write .left ∈ instructions machine mode phase)
    (inside : left ≠ []) :
    Step machine mode ⟨.phase phase, left, []⟩ (.back (.phase next) left [write]) :=
  Step.beyond known rfl (fun _ => inside)

theorem travelRight (known : put cell next write .right ∈ instructions machine mode phase)
    (silent : ∀ state, next ≠ .read state []) :
    Travel machine mode ⟨.phase phase, left, cell :: ahead⟩ ⟨.phase next, write :: left, ahead⟩ :=
  Travel.step (stepRight known) (Scan.notBeginsPhase rfl silent)

/- Behind more than one cell no source step begins, whatever the phase. -/
theorem travelRightInside (known : put cell next write .right ∈ instructions machine mode phase)
    (started : left ≠ []) :
    Travel machine mode ⟨.phase phase, left, cell :: ahead⟩ ⟨.phase next, write :: left, ahead⟩ := by
  apply Travel.step (stepRight known)
  apply Scan.notBeginsFar
  have := List.length_pos_iff.mpr started
  simp only [List.length_cons]
  omega

theorem travelLeft (known : put cell next write .left ∈ instructions machine mode phase)
    (inside : left ≠ []) (silent : ∀ state, next ≠ .read state []) :
    Travel machine mode ⟨.phase phase, left, cell :: ahead⟩
      (.back (.phase next) left (write :: ahead)) :=
  Travel.step (stepLeft known inside) (Scan.notBeginsPhase (Scan.targetBack ..) silent)

theorem travelRightBeyond
    (known : put (.plain Symbol.blank) next write .right ∈ instructions machine mode phase)
    (silent : ∀ state, next ≠ .read state []) :
    Travel machine mode ⟨.phase phase, left, []⟩ ⟨.phase next, write :: left, []⟩ :=
  Travel.step (stepRightBeyond known) (Scan.notBeginsPhase rfl silent)

theorem travelLeftBeyond
    (known : put (.plain Symbol.blank) next write .left ∈ instructions machine mode phase)
    (inside : left ≠ []) (silent : ∀ state, next ≠ .read state []) :
    Travel machine mode ⟨.phase phase, left, []⟩ (.back (.phase next) left [write]) :=
  Travel.step (stepLeftBeyond known inside) (Scan.notBeginsPhase (Scan.targetBack ..) silent)

/- The sweeps. A phase that keeps going over these cells rewrites each of them; to the
right they pile up on the left of the head, to the left they come back in their order. -/
theorem sweepRight {rewrite : Cell S → Cell S} (cells : List (Cell S))
    (known : ∀ cell ∈ cells, put cell phase (rewrite cell) .right ∈ instructions machine mode phase)
    (started : left ≠ []) :
    Travel machine mode ⟨.phase phase, left, cells ++ ahead⟩
      ⟨.phase phase, (cells.map rewrite).reverse ++ left, ahead⟩ := by
  induction cells generalizing left with
  | nil => exact Travel.refl _
  | cons cell cells ih =>
    have first : Travel machine mode ⟨.phase phase, left, cell :: (cells ++ ahead)⟩
        ⟨.phase phase, rewrite cell :: left, cells ++ ahead⟩ :=
      travelRightInside (known cell (by simp)) started
    have later : Travel machine mode ⟨.phase phase, rewrite cell :: left, cells ++ ahead⟩ _ :=
      ih (fun cell mem => known cell (by simp [mem])) (by simp)
    simpa using first.trans later

theorem sweepLeft {rewrite : Cell S → Cell S} (cells : List (Cell S))
    (known : ∀ cell ∈ cells, put cell phase (rewrite cell) .left ∈ instructions machine mode phase)
    (inside : left ≠ []) (silent : ∀ state, phase ≠ .read state []) :
    Travel machine mode (.back (.phase phase) (cells ++ left) ahead)
      (.back (.phase phase) left ((cells.map rewrite).reverse ++ ahead)) := by
  induction cells generalizing ahead with
  | nil => exact Travel.refl _
  | cons cell cells ih =>
    have first : Travel machine mode ⟨.phase phase, cells ++ left, cell :: ahead⟩
        (.back (.phase phase) (cells ++ left) (rewrite cell :: ahead)) := by
      apply travelLeft (known cell (by simp))
      · simp [inside]
      · exact silent
    have later : Travel machine mode
        (.back (.phase phase) (cells ++ left) (rewrite cell :: ahead)) _ :=
      ih fun cell mem => known cell (by simp [mem])
    simpa [Scan.back] using first.trans later

end
end Multitape.SingleTape
