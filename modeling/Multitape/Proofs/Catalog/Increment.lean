import Multitape.Proofs.Catalog.Sweep

/-! The increment machine. It goes to the end of the word and from there back over the ones, of
which it makes zeros, up to a zero or to the blank in front, of which it makes a one. -/
namespace Multitape.Catalog
open Tape

def incrementRules : List (Rule Char) :=
  [⟨0, ['0'], .ordinary 0, ['0'], [.right]⟩,
    ⟨0, ['1'], .ordinary 0, ['1'], [.right]⟩,
    ⟨0, ['_'], .ordinary 1, ['_'], [.left]⟩,
    ⟨1, ['1'], .ordinary 1, ['0'], [.left]⟩,
    ⟨1, ['0'], .halt, ['1'], [.stay]⟩,
    ⟨1, ['_'], .halt, ['1'], [.stay]⟩]

set_option maxRecDepth 8000 in
theorem offersIncrement : ∃ machine, Offers "binary-increment" machine ∧
    machine.Consists 1 digits incrementRules :=
  offersOfContents 3 ⟨3, 2, 1, 2, 6⟩ rfl (by decide +kernel) rfl
    (by decide +kernel) ⟨by decide, rfl, rfl, by decide, by decide, by decide, by decide⟩

def raised : List Char → List Char
  | [] => ['1']
  | digit :: more => if digit = '0' then '1' :: more else '0' :: raised more

section
variable {rest : List Char} (letters : ∀ symbol ∈ rest, symbol ∈ digits)
include letters

theorem raisedDigits : ∀ symbol ∈ raised rest, symbol ∈ digits := by
  induction rest with
  | nil => decide
  | cons digit more ih =>
    have others := (List.forall_mem_cons.mp letters).2
    rw [raised]
    split
    · exact List.forall_mem_cons.mpr ⟨by decide, others⟩
    · exact List.forall_mem_cons.mpr ⟨by decide, ih others⟩

theorem raisedValue :
    Nat.ofDigitChars 2 (raised rest).reverse 0 = Nat.ofDigitChars 2 rest.reverse 0 + 1 := by
  have pushed : ∀ (front : List Char) (digit : Char), Nat.ofDigitChars 2 (front ++ [digit]) 0 =
      2 * Nat.ofDigitChars 2 front 0 + (digit.toNat - '0'.toNat) := by
    intro front digit
    rw [Nat.ofDigitChars_append, Nat.ofDigitChars_cons, Nat.ofDigitChars_nil]
  induction rest with
  | nil => rfl
  | cons digit more ih =>
    obtain ⟨known, others⟩ := List.forall_mem_cons.mp letters
    have next := ih others
    rw [raised, List.reverse_cons, pushed]
    rcases List.mem_pair.mp known with rfl | rfl
    · rw [if_pos rfl, List.reverse_cons, pushed]
      rfl
    · rw [if_neg (by decide), List.reverse_cons, pushed, next]
      rfl

end

theorem raisedLength (rest : List Char) :
    (raised rest).length = rest.length + if '0' ∈ rest then 0 else 1 := by
  induction rest with
  | nil => rfl
  | cons digit more ih =>
    rw [raised]
    by_cases zero : digit = '0'
    · rw [if_pos zero, if_pos (List.mem_cons.mpr (.inl zero.symm))]
      rfl
    · simp only [if_neg zero, List.length_cons, ih, List.mem_cons, Ne.symm zero, false_or]
      omega

section
variable {machine : Machine Char} (listed : machine.table.rules.toList = incrementRules)
include listed

theorem incrementTurned {word : List Char} (letters : ∀ symbol ∈ word, symbol ∈ digits) :
    machine.after? .biInfinite ⟨.ordinary 0, [facing 0 [] word]⟩ (word.length + 1) =
      some ⟨.ordinary 1, [backing 0 word.reverse ['_']]⟩ := by
  have goes : ∀ symbol ∈ digits, ⟨0, [symbol], .ordinary 0, [symbol], [.right]⟩ ∈ incrementRules := by
    decide
  have turns : ⟨0, ['_'], .ordinary 1, ['_'], [.left]⟩ ∈ incrementRules := by decide
  rw [← listed] at goes turns
  let place : List Char → List Char → Configuration Char := fun done rest =>
    ⟨.ordinary 0, [facing 0 done rest]⟩
  have moves : ∀ symbol ∈ word, ∀ done rest, machine.step? .biInfinite
      (place done (symbol :: rest)) = some (place (symbol :: done) rest) := by
    intro symbol mem done rest
    rw [stepOne (goes symbol (letters symbol mem)) rfl, rightFacing]
  have swept := afterSweep moves []
  rw [List.append_nil] at swept
  exact (afterSucc swept).trans (stepOne turns rfl)

/- Induction on what the carry has still to pass, the digits behind it being whatever they are. -/
theorem incrementCarried {rest : List Char} (letters : ∀ symbol ∈ rest, symbol ∈ digits)
    (first : Int) (behind : List Char) : ∃ n last passed ahead, n ≤ rest.length + 1 ∧
      machine.after? .biInfinite ⟨.ordinary 1, [backing first rest behind]⟩ n =
        some ⟨.halt, [backing last passed ahead]⟩ ∧
      passed.reverse ++ ahead = (raised rest).reverse ++ behind := by
  have carries : ⟨1, ['1'], .ordinary 1, ['0'], [.left]⟩ ∈ incrementRules := by decide
  have ends : ∀ symbol ∈ ['0', '_'], ⟨1, [symbol], .halt, ['1'], [.stay]⟩ ∈ incrementRules := by decide
  rw [← listed] at carries ends
  induction rest generalizing behind with
  | nil =>
    have stopped := stepOne (ends '_' (by decide)) (rfl : (backing first [] behind).read = '_')
    refine ⟨1, first - 1, ['1'], behind, by simp, stopped.trans ?_, rfl⟩
    rw [backingBlank]
    rfl
  | cons digit more ih =>
    obtain ⟨known, others⟩ := List.forall_mem_cons.mp letters
    rcases List.mem_pair.mp known with rfl | rfl
    · have stopped := stepOne (ends '0' (by decide)) (rfl : (backing first ('0' :: more) behind).read = '0')
      exact ⟨1, first, '1' :: more, behind, by simp, stopped, rfl⟩
    · obtain ⟨n, last, passed, ahead, few, ended, held⟩ := ih others ('0' :: behind)
      have carried := stepOne carries (rfl : (backing first ('1' :: more) behind).read = '1')
      rw [leftBacking] at carried
      refine ⟨1 + n, last, passed, ahead, ?_, afterThen carried ended, ?_⟩
      · rw [List.length_cons]
        omega
      · rw [held, raised, if_neg (by decide), List.reverse_cons, List.append_assoc,
          List.singleton_append]

theorem incrementEnds {word : List Char} (letters : ∀ symbol ∈ word, symbol ∈ digits) :
    ∃ n tape, n ≤ 2 * word.length + 2 ∧ machine.after? .biInfinite
      ⟨.ordinary 0, [facing 0 [] word]⟩ n = some ⟨.halt, [tape]⟩ ∧
    tape.output = (raised word.reverse).reverse := by
  have letters' : ∀ symbol ∈ word.reverse, symbol ∈ digits :=
    fun symbol mem => letters symbol (List.mem_reverse.mp mem)
  have plain : ∀ symbol ∈ (raised word.reverse).reverse, symbol ≠ Symbol.blank :=
    plainDigits fun symbol mem => raisedDigits letters' symbol (List.mem_reverse.mp mem)
  obtain ⟨n, last, passed, ahead, few, carried, held⟩ := incrementCarried listed letters' 0 ['_']
  rw [List.length_reverse] at few
  exact ⟨_, _, by omega, afterThen (incrementTurned listed letters) carried,
    outputBacking plain last 1 held⟩

end
end Multitape.Catalog
