import Multitape.Catalog
import Multitape.Proofs.Description.Described

/-! The machines of the catalog, rule by rule. What stands in a text is read without building
anything: the counts, the symbols and the rules. Where these agree with one another there is a
machine that the text describes, and it has these tapes, symbols and rules. -/
namespace Multitape

structure Machine.Consists {S : Type} [Symbol S] (machine : Machine S) (tapes : Nat)
    (symbols : List S) (rules : List (Rule S)) : Prop where
  tapes : machine.tapes = tapes
  symbols : machine.alphabet.symbols = symbols
  rules : machine.table.rules.toList = rules

namespace Description
variable {S : Type} [Symbol S]

def contents (text : List Char) : Result (Header × List S × List (Rule S)) := do
  match ← (recordsOf true (place .first (cut text))).mapError .malformed with
  | header :: alphabet :: others =>
    let header ← readHeader header
    let symbols ← alphabet.fields.mapM (readSymbol alphabet.line)
    return (header, symbols, ← others.mapM (readRule header.tapes))
  | _ => .error .missingAlphabet

structure Agree (header : Header) (symbols : List S) (rules : List (Rule S)) : Prop where
  stated : header.states = statesOf rules
  lettered : header.alphabet = symbols.length
  ruled : header.rules = rules.length
  distinct : symbols.Nodup
  writes : ∀ rule ∈ rules, rule.write.length = header.tapes
  known : ∀ rule ∈ rules, ∀ symbol ∈ rule.read ++ rule.write, symbol ∈ Symbol.blank :: symbols
  keys : (rules.map Rule.key).Nodup

theorem readRulesSpell {tapes : Nat} {records : List Record} {rules : List (Rule S)}
    (read : records.mapM (readRule tapes) = Except.ok rules)
    (writes : ∀ rule ∈ rules, rule.write.length = tapes) :
    List.Forall₂ (fun record rule => Spells tapes record.fields rule) records rules := by
  induction records generalizing rules with
  | nil =>
    cases read
    exact .nil
  | cons record records ih =>
    rw [List.mapM_cons] at read
    obtain ⟨rule, first, rest⟩ := bindOkIff.mp read
    obtain ⟨others, later, last⟩ := bindOkIff.mp rest
    cases last
    obtain ⟨head, tail⟩ := List.forall_mem_cons.mp writes
    exact .cons (readRuleIff.mp ⟨first, head⟩) (ih later tail)

variable [DecidableEq S]

theorem consistsOfContents {text : List Char} {header : Header} {symbols : List S}
    {rules : List (Rule S)} (read : contents text = .ok (header, symbols, rules))
    (agree : Agree header symbols rules) : ∃ machine : Machine S,
      Machine.ofText (.ofList text) = .ok machine ∧ machine.Consists header.tapes symbols rules := by
  obtain ⟨found, split, rest⟩ := bindOkIff.mp read
  match found with
  | [] | [_] => cases rest
  | first :: second :: others =>
    obtain ⟨header', counts, rest⟩ := bindOkIff.mp rest
    obtain ⟨symbols', letters, rest⟩ := bindOkIff.mp rest
    obtain ⟨rules', spelled, last⟩ := bindOkIff.mp rest
    cases last
    obtain ⟨-, positive, counts⟩ := readHeaderIff.mp counts
    have describes : Describes first second others header.tapes symbols rules := {
      counts := by rw [counts, agree.stated, agree.lettered, agree.ruled]
      positive
      letters := readSymbolsIff.mp letters
      distinct := agree.distinct
      spelled := readRulesSpell spelled agree.writes
      known rule mem symbol used := List.mem_cons.mp (agree.known rule mem symbol used)
      keys := agree.keys }
    obtain ⟨machine, made, tapes, letters, listed⟩ := machineOfDescribed describes
    have records : records (.ofList text) = .ok (first :: second :: others) := by
      rw [records, lines, String.toList_ofList]
      exact mapErrorOkIff.mp split
    exact ⟨machine, (ofTextRead records).trans made, tapes, letters, listed⟩

end Description

namespace Catalog
open Description

def Offers (name : String) (machine : Machine Char) : Prop :=
  ∃ entry, find? name = .ok entry ∧ entry.machine = .ok machine

def Entry.called (entry : Entry) (name : String) : Bool :=
  entry.key = name || entry.name.toLower = name.toLower

theorem findAt {name : String} {index : Nat} {entry : Entry} (here : entries[index]? = some entry)
    (first : entries.findIdx? (·.called name) = some index) : find? name = .ok entry := by
  have found : entries.find? (·.called name) = some entry := by
    obtain ⟨bound, same⟩ := List.getElem?_eq_some_iff.mp here
    obtain ⟨_, called, before⟩ := List.findIdx?_eq_some_iff_getElem.mp first
    exact List.find?_eq_some_iff_getElem.mpr
      ⟨same ▸ called, index, bound, same, fun earlier less => by simpa using before earlier less⟩
  simp only [Entry.called] at found
  rw [find?, found]

theorem offersOfContents {name : String} {entry : Entry} {text symbols : List Char}
    {rules : List (Rule Char)} (index : Nat) (header : Header)
    (here : entries[index]? = some entry)
    (first : entries.findIdx? (·.called name) = some index) (same : .ofList text = entry.text)
    (read : contents text = .ok (header, symbols, rules)) (agree : Agree header symbols rules) :
    ∃ machine, Offers name machine ∧ machine.Consists header.tapes symbols rules := by
  obtain ⟨machine, made, consists⟩ := consistsOfContents read agree
  rw [same] at made
  exact ⟨machine, ⟨entry, findAt here first, made⟩, consists⟩

/- Deciding such a statement goes through the list, not through all characters. -/
scoped instance (priority := 2000) decidableEach (word : List Char) (holds : Char → Prop)
    [DecidablePred holds] : Decidable (∀ symbol ∈ word, holds symbol) :=
  List.decidableBAll holds word

def digits : List Char := ['0', '1']

theorem plainDigits {word : List Char} (letters : ∀ symbol ∈ word, symbol ∈ digits) :
    ∀ symbol ∈ word, symbol ≠ Symbol.blank := by
  have plain : ∀ digit ∈ digits, digit ≠ Symbol.blank := by decide
  exact fun symbol mem => plain symbol (letters symbol mem)

end Catalog
end Multitape
