import Multitape.Proofs.Description.InRange

/-! A description read record by record, and by place. What is kept of the records so far is how
far the reading has come: nothing yet, the counts, or the rules and beside them their lines. This
gives what reading all the records at once gives, and on the way the rules are the ones that the
records spell, each with its own line beside it. -/
namespace Multitape.Description

inductive Progress (S : Type) [Symbol S] where
  | started
  | counted (header : Header)
  | building (header : Header) (machine : Machine S) (lines : List Nat)

variable {S : Type} [Symbol S] [DecidableEq S]

namespace Progress

def next : Progress S → Record → Lookup (Progress S)
  | started, record => do
    return counted (← headerByPlace record)
  | counted header, record => do
    return building header (← readAlphabet header record) []
  | building header machine lines, record => do
    let rule ← ruleByPlace machine.tapes record
    match machine.add rule with
    | .ok larger => return building header larger (lines ++ [record.line])
    | .error (.duplicateRule _ _ index) => throw (.duplicateRule record.line (← look lines[index]?))
    | .error cause => throw (.invalid record.line cause)

def close : Progress S → Result (Machine S)
  | started => .error .missingHeader
  | counted _ => .error .missingAlphabet
  | building header machine _ => do
    checkCount header .rules header.rules machine.table.rules.size
    checkCount header .states header.states machine.stateCount
    return machine

end Progress

open Progress

/- Induction on the records. -/
theorem rulesByRecord {header : Header} {machine : Machine S} {lines : List Nat}
    {records : List Record} :
    (records.foldlM next (building header machine lines) >>= fun last => liftM (close last)) =
      addByPlace machine lines records >>= fun grown =>
        liftM (close (building header grown [])) := by
  induction records generalizing machine lines with
  | nil => rfl
  | cons record records ih =>
    rw [List.foldlM_cons, next, addByPlace]
    simp only [bind_assoc]
    refine bind_congr fun rule => ?_
    cases one : machine.add rule with
    | ok larger => exact ih
    | error cause =>
      cases cause with
      | duplicateRule state read index =>
        dsimp only
        rw [bind_assoc, bind_assoc]
        exact bind_congr fun line => rfl
      | _ => rfl

theorem machineByRecord (found : List Record) : (machineByPlace found : Lookup (Machine S)) =
    found.foldlM next started >>= fun last => liftM (close last) := by
  match found with
  | [] => rfl
  | [first] =>
    rw [List.foldlM_cons, next, machineByPlace, bind_assoc, bind_assoc]
    exact bind_congr fun header => rfl
  | first :: second :: others =>
    rw [List.foldlM_cons, next, machineByPlace]
    simp only [bind_assoc, pure_bind, List.foldlM_cons, next]
    refine bind_congr fun header => bind_congr fun start => ?_
    rw [rulesByRecord]
    refine bind_congr fun machine => ?_
    simp only [close]
    cases checkCount header .rules header.rules machine.table.rules.size with
    | error fault => rfl
    | ok done => cases checkCount header .states header.states machine.stateCount <;> rfl

inductive Reads : List Record → Progress S → Prop where
  | started : Reads [] started
  | counted {first : Record} {header : Header} (counts : readHeader first = .ok header) :
      Reads [first] (counted header)
  | building {first second : Record} {others : List Record} {header : Header} {machine : Machine S}
      (counts : readHeader first = .ok header) (tapes : machine.tapes = header.tapes)
      (rules : others.map (readRule header.tapes) = machine.table.rules.toList.map .ok) :
      Reads (first :: second :: others) (building header machine (others.map Record.line))

theorem readsNext {done : List Record} {record : Record} {progress later : Progress S}
    (reads : Reads done progress) (step : (progress.next record).run = some (.ok later)) :
    Reads (done ++ [record]) later := by
  cases reads with
  | started =>
    obtain ⟨header, counts, same⟩ := lookupOkIff.mp step
    cases same
    rw [headerInRange] at counts
    exact .counted (Option.some.inj counts)
  | @counted first header counts =>
    obtain ⟨start, letters, same⟩ := lookupOkIff.mp step
    cases same
    obtain ⟨symbols, -, built, -⟩ := readAlphabetIff.mp (Option.some.inj letters)
    obtain ⟨tapes, -, none⟩ := emptyShape built
    have rules : ([] : List Record).map (readRule header.tapes) =
        start.table.rules.toList.map .ok := by
      rw [none]
      rfl
    exact .building counts tapes rules
  | @building first second others header machine counts tapes rules =>
    obtain ⟨rule, found, added⟩ := lookupOkIff.mp step
    have read := givesSome (ruleGives _ _) found
    split at added
    · rename_i larger one
      cases added
      obtain ⟨tapes', -, pushed⟩ := addShape one
      have all : (others ++ [record]).map (readRule header.tapes) =
          larger.table.rules.toList.map .ok := by
        rw [tapes] at read
        rw [pushed, Array.toList_push, List.map_append, List.map_append, rules]
        simp [read]
      have lines : others.map Record.line ++ [record.line] = (others ++ [record]).map Record.line := by
        rw [List.map_append]
        rfl
      rw [lines]
      exact .building counts (tapes'.trans tapes) all
    · obtain ⟨line, -, failed⟩ := lookupOkIff.mp added
      cases failed
    · cases added

/- Induction on the records to come. -/
theorem readsAll {done found : List Record} {progress last : Progress S}
    (reads : Reads done progress) (read : (found.foldlM next progress).run = some (.ok last)) :
    Reads (done ++ found) last := by
  induction found generalizing done progress with
  | nil =>
    cases read
    rwa [List.append_nil]
  | cons record found ih =>
    rw [List.foldlM_cons] at read
    obtain ⟨later, step, rest⟩ := lookupOkIff.mp read
    have all := ih (readsNext reads step) rest
    rwa [List.append_assoc] at all

end Multitape.Description
