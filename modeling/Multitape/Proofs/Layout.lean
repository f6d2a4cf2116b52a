import Multitape.Layout
import Multitape.Proofs.Configuration
import Multitape.Proofs.Symbol

/-! Layouts from within. Around one segment stand those in front of it, nearest first and
each closed by its separator, and those behind it, each opened by one, up to the right
end. Decoding a layout gives its tapes back, from offset 0 on. -/
namespace Multitape.Layout
variable {S : Type}

def front : List (Tape S) → List (Cell S)
  | [] => [.leftEnd]
  | tape :: tapes => .separator :: (segment tape).reverse ++ front tapes

def behind : List (Tape S) → List (Cell S)
  | [] => [.rightEnd]
  | tape :: tapes => .separator :: segment tape ++ behind tapes

def whole (tapes : List (Tape S)) : List (Cell S) := .leftEnd :: segments tapes ++ [.rightEnd]

def opened (tapes : List (Tape S)) : List (Cell S) :=
  tapes.flatMap fun tape => .separator :: segment tape

theorem behindOpened (tapes : List (Tape S)) : behind tapes = opened tapes ++ [.rightEnd] := by
  induction tapes with
  | nil => rfl
  | cons tape tapes ih => simp [behind, opened, ih]

theorem joinFirst {α : Type} (sep : α) (y : List α) (zs : List (List α)) :
    [sep].intercalate (y :: zs) = y ++ zs.flatMap (sep :: ·) := by
  induction zs generalizing y with
  | nil => simp
  | cons z zs ih => simp [List.intercalate_cons_cons, ih z]

theorem joinAround {α : Type} (sep : α) (xs : List (List α)) (y : List α) (zs : List (List α)) :
    [sep].intercalate (xs ++ y :: zs) =
      xs.flatMap (· ++ [sep]) ++ (y ++ zs.flatMap (sep :: ·)) := by
  induction xs with
  | nil => exact joinFirst sep y zs
  | cons x xs ih =>
    obtain ⟨first, rest, split⟩ := List.exists_cons_of_ne_nil (show xs ++ y :: zs ≠ [] by simp)
    rw [List.cons_append, split, List.intercalate_cons_cons, ← split, ih]
    simp

theorem segmentsOne (tape : Tape S) : segments [tape] = segment tape := by
  simp [segments, List.intercalate]

theorem segmentsMore (tape next : Tape S) (tapes : List (Tape S)) :
    segments (tape :: next :: tapes) = segment tape ++ .separator :: segments (next :: tapes) := by
  simp [segments, List.intercalate]

theorem segmentsOpened (tape : Tape S) (tapes : List (Tape S)) :
    segments (tape :: tapes) = segment tape ++ opened tapes := by
  rw [segments, List.map_cons, joinFirst, List.flatMap_map, opened]

theorem segmentsCons (tape : Tape S) (tapes : List (Tape S)) :
    segments (tape :: tapes) ++ [.rightEnd] = segment tape ++ behind tapes := by
  rw [segmentsOpened, behindOpened, List.append_assoc]

theorem wholeCons (tape : Tape S) (tapes : List (Tape S)) :
    whole (tape :: tapes) = .leftEnd :: segment tape ++ behind tapes := by
  simp [whole, segmentsCons]

theorem encodeWhole [Symbol S] (tapes : List (Tape S)) :
    encode tapes = (whole tapes).map Cell.token := by
  simp [encode, whole, Cell.token]

theorem frontNonempty (done : List (Tape S)) : front done ≠ [] := by
  cases done <;> simp [front]

theorem frontJoined (done : List (Tape S)) :
    (front done).reverse = .leftEnd :: (done.reverse.map segment).flatMap (· ++ [.separator]) := by
  induction done with
  | nil => rfl
  | cons tape done ih => simp [front, ih]

/- A layout seen from one of its segments, whatever the cells of that one are. -/
theorem framedAround (before : List (Tape S)) (cells : List (Cell S)) (after : List (Tape S)) :
    .leftEnd :: List.intercalate [.separator] (before.map segment ++ cells :: after.map segment) ++
      [.rightEnd] = (front before.reverse).reverse ++ (cells ++ behind after) := by
  rw [joinAround, frontJoined, behindOpened]
  simp [opened, List.flatMap_map]

theorem wholeAround (done : List (Tape S)) (tape : Tape S) (tapes : List (Tape S)) :
    whole (done.reverse ++ tape :: tapes) =
      (front done).reverse ++ segment tape ++ behind tapes := by
  have framed := framedAround done.reverse (segment tape) tapes
  simpa [whole, segments] using framed

theorem frontSegment (done : List (Tape S)) (tape : Tape S) :
    (segment tape).reverse ++ front done =
      (segments (done.reverse ++ [tape])).reverse ++ [.leftEnd] := by
  have h := wholeAround done tape []
  simp only [whole, behind] at h
  have inner := List.append_cancel_right h
  simpa using (congrArg List.reverse inner).symm

theorem memSegment {tape : Tape S} {cell : Cell S} : cell ∈ segment tape ↔
    (∃ symbol ∈ tape.left, cell = .plain symbol) ∨ cell = .marked tape.here ∨
      ∃ symbol ∈ tape.right, cell = .plain symbol := by
  simp [segment, eq_comm]

theorem memOpened {tapes : List (Tape S)} {cell : Cell S} (mem : cell ∈ opened tapes) :
    cell = .separator ∨ ∃ tape ∈ tapes, cell ∈ segment tape := by
  obtain ⟨tape, inside, here⟩ := List.mem_flatMap.mp mem
  rcases List.mem_cons.mp here with sep | within
  · exact .inl sep
  · exact .inr ⟨tape, inside, within⟩

theorem memSegments {tapes : List (Tape S)} {cell : Cell S} (mem : cell ∈ segments tapes) :
    cell = .separator ∨ ∃ tape ∈ tapes, cell ∈ segment tape := by
  cases tapes with
  | nil => cases mem
  | cons tape tapes =>
    rw [segmentsOpened, List.mem_append] at mem
    rcases mem with inside | later
    · exact .inr ⟨tape, List.mem_cons_self .., inside⟩
    · rcases memOpened later with sep | ⟨other, there, inside⟩
      · exact .inl sep
      · exact .inr ⟨other, List.mem_cons_of_mem _ there, inside⟩

theorem segmentsOfMem {tapes : List (Tape S)} {tape : Tape S} {cell : Cell S} (mem : tape ∈ tapes)
    (inside : cell ∈ segment tape) : cell ∈ segments tapes := by
  cases tapes with
  | nil => cases mem
  | cons first tapes =>
    rw [segmentsOpened, List.mem_append]
    rcases List.mem_cons.mp mem with rfl | later
    · exact .inl inside
    · exact .inr (List.mem_flatMap.mpr ⟨tape, later, List.mem_cons_of_mem _ inside⟩)

theorem frontCells (done : List (Tape S)) : ∃ cells : List (Cell S), front done = cells.reverse ++ [.leftEnd] ∧
    ∀ cell ∈ cells, cell = .separator ∨ ∃ tape ∈ done, cell ∈ segment tape := by
  cases done with
  | nil => exact ⟨[], rfl, by simp⟩
  | cons tape done =>
    refine ⟨segments (done.reverse ++ [tape]) ++ [.separator], ?_, fun cell mem => ?_⟩
    · have h := frontSegment done tape
      simp [front, h]
    · rcases List.mem_append.mp mem with inside | sep
      · simpa [or_comm] using memSegments inside
      · exact .inl (List.mem_singleton.mp sep)

end Multitape.Layout
