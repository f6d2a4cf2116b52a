import Multitape.Proofs.Catalog.Sweep

/-! The palindrome machine. It copies the word to the second tape, takes the first head back to
the start of the word and then compares what the two heads meet, the one on its way to the end,
the other on its way to the start. -/
namespace Multitape.Catalog
open Tape

def palindromeRules : List (Rule Char) :=
  [⟨0, ['0', '_'], .ordinary 0, ['0', '0'], [.right, .right]⟩,
    ⟨0, ['1', '_'], .ordinary 0, ['1', '1'], [.right, .right]⟩,
    ⟨0, ['_', '_'], .ordinary 1, ['_', '_'], [.left, .left]⟩,
    ⟨1, ['0', '0'], .ordinary 1, ['0', '0'], [.left, .stay]⟩,
    ⟨1, ['0', '1'], .ordinary 1, ['0', '1'], [.left, .stay]⟩,
    ⟨1, ['1', '0'], .ordinary 1, ['1', '0'], [.left, .stay]⟩,
    ⟨1, ['1', '1'], .ordinary 1, ['1', '1'], [.left, .stay]⟩,
    ⟨1, ['_', '0'], .ordinary 2, ['_', '0'], [.right, .stay]⟩,
    ⟨1, ['_', '1'], .ordinary 2, ['_', '1'], [.right, .stay]⟩,
    ⟨1, ['_', '_'], .accept, ['_', '_'], [.stay, .stay]⟩,
    ⟨2, ['0', '0'], .ordinary 2, ['0', '0'], [.right, .left]⟩,
    ⟨2, ['1', '1'], .ordinary 2, ['1', '1'], [.right, .left]⟩,
    ⟨2, ['0', '1'], .reject, ['0', '1'], [.stay, .stay]⟩,
    ⟨2, ['1', '0'], .reject, ['1', '0'], [.stay, .stay]⟩,
    ⟨2, ['_', '_'], .accept, ['_', '_'], [.stay, .stay]⟩]

set_option maxRecDepth 8000 in
theorem offersPalindrome : ∃ machine, Offers "binary-palindrome" machine ∧
    machine.Consists 2 digits palindromeRules :=
  offersOfContents 1 ⟨4, 3, 2, 2, 15⟩ rfl (by decide +kernel) rfl
    (by decide +kernel) ⟨by decide, rfl, rfl, by decide, by decide, by decide, by decide⟩

theorem palindromeHeld {word ys : List Char} (common : List Char) (back : word.reverse = common ++ ys) (offset : Int) :
    (backing 0 ys (common.reverse ++ ['_'])).peek offset = (ofInput word).peek offset := by
  have whole : ys.reverse ++ common.reverse = word := by
    rw [← List.reverse_append, ← back, List.reverse_reverse]
  rw [peekBacking, ← List.append_assoc, whole, Int.sub_zero]
  exact peekTrailing word 1 offset

section
variable {machine : Machine Char} (listed : machine.table.rules.toList = palindromeRules)
  {word : List Char} (letters : ∀ symbol ∈ word, symbol ∈ digits)
include listed letters

theorem palindromeCopied : machine.after? .biInfinite
    ⟨.ordinary 0, [facing 0 [] word, facing 0 [] []]⟩ (word.length + 1) =
      some ⟨.ordinary 1, [backing 0 word.reverse ['_'], backing 0 word.reverse ['_']]⟩ := by
  have copies : ∀ symbol ∈ digits, ⟨0, [symbol, '_'], .ordinary 0, [symbol, symbol],
      [.right, .right]⟩ ∈ palindromeRules := by decide
  have turns : ⟨0, ['_', '_'], .ordinary 1, ['_', '_'], [.left, .left]⟩ ∈ palindromeRules := by decide
  rw [← listed] at copies turns
  have copied := afterTranscribed (fun _ => true) []
    (fun symbol mem _ => copies symbol (letters symbol mem)) (fun _ _ none => absurd rfl none)
  rw [List.append_nil, List.filter_true] at copied
  exact (afterSucc copied).trans (stepPair turns rfl rfl)

theorem palindromeRewound {last : Char} {front : List Char} (filled : word.reverse = last :: front) :
    machine.after? .biInfinite
      ⟨.ordinary 1, [backing 0 word.reverse ['_'], backing 0 word.reverse ['_']]⟩ (word.length + 1) =
      some ⟨.ordinary 2, [facing (-1) ['_'] (word ++ ['_']), backing 0 word.reverse ['_']]⟩ := by
  have known : last ∈ digits := letters last (List.mem_reverse.mp (by rw [filled]; simp))
  have goes : ∀ symbol ∈ digits, ∀ other ∈ digits, ⟨1, [symbol, other], .ordinary 1, [symbol, other],
      [.left, .stay]⟩ ∈ palindromeRules := by decide
  have turns : ∀ other ∈ digits, ⟨1, ['_', other], .ordinary 2, ['_', other], [.right, .stay]⟩ ∈
      palindromeRules := by decide
  rw [← listed] at goes turns
  let place : List Char → List Char → Configuration Char := fun done rest =>
    ⟨.ordinary 1, [backing 0 rest (done ++ ['_']), backing 0 (last :: front) ['_']]⟩
  have moves : ∀ symbol ∈ word.reverse, ∀ done rest, machine.step? .biInfinite
      (place done (symbol :: rest)) = some (place (symbol :: done) rest) := by
    intro symbol mem done rest
    have rule := goes symbol (letters symbol (List.mem_reverse.mp mem)) last known
    rw [stepPair rule rfl rfl, leftBacking]
    rfl
  have swept := afterSweep moves []
  rw [List.length_reverse, List.reverse_reverse, List.append_nil] at swept
  rw [filled] at swept ⊢
  refine (afterSucc swept).trans ((stepPair (turns last known) rfl rfl).trans ?_)
  rw [backingBlank, rightBacking]
  rfl

theorem palindromeMatched {common xs ys : List Char} (forth : word = common ++ xs)
    (back : word.reverse = common ++ ys) : machine.after? .biInfinite
      ⟨.ordinary 2, [facing (-1) ['_'] (word ++ ['_']), backing 0 word.reverse ['_']]⟩ common.length =
      some ⟨.ordinary 2, [facing (-1) (common.reverse ++ ['_']) (xs ++ ['_']),
        backing 0 ys (common.reverse ++ ['_'])]⟩ := by
  have goes : ∀ symbol ∈ digits, ⟨2, [symbol, symbol], .ordinary 2, [symbol, symbol],
      [.right, .left]⟩ ∈ palindromeRules := by decide
  rw [← listed] at goes
  let place : List Char → List Char → Configuration Char := fun done rest =>
    ⟨.ordinary 2, [facing (-1) (done ++ ['_']) (rest ++ (xs ++ ['_'])),
      backing 0 (rest ++ ys) (done ++ ['_'])]⟩
  have moves : ∀ symbol ∈ common, ∀ done rest, machine.step? .biInfinite
      (place done (symbol :: rest)) = some (place (symbol :: done) rest) := by
    intro symbol mem done rest
    have known := letters symbol (by rw [forth]; exact List.mem_append_left _ mem)
    dsimp only [place]
    rw [stepPair (goes symbol known) rfl rfl, List.cons_append, List.cons_append, rightFacing,
      leftBacking]
    rfl
  have swept := afterSweep moves []
  rw [List.append_nil] at swept
  rw [forth, ← forth, back, forth, List.append_assoc]
  exact swept

/- The heads part where the word and its reverse do, or have both left the word. -/
theorem palindromeCompared : ∃ n one other, n ≤ word.length + 1 ∧ machine.after? .biInfinite
    ⟨.ordinary 2, [facing (-1) ['_'] (word ++ ['_']), backing 0 word.reverse ['_']]⟩ n =
      some ⟨if word = word.reverse then .accept else .reject, [one, other]⟩ ∧
    ∀ offset, other.peek offset = (ofInput word).peek offset := by
  have accepts : ⟨2, ['_', '_'], .accept, ['_', '_'], [.stay, .stay]⟩ ∈ palindromeRules := by decide
  have rejects : ∀ symbol ∈ digits, ∀ other ∈ digits, symbol ≠ other →
      ⟨2, [symbol, other], .reject, [symbol, other], [.stay, .stay]⟩ ∈ palindromeRules := by decide
  rw [← listed] at accepts rejects
  have plain := plainDigits letters
  have plain' : ∀ symbol ∈ word.reverse, symbol ≠ Symbol.blank :=
    fun symbol mem => plain symbol (List.mem_reverse.mp mem)
  obtain ⟨common, xs, ys, forth, back, parted⟩ := splitWhereOther plain plain'
  have matched := palindromeMatched listed letters forth back
  have held := palindromeHeld common back
  have size := congrArg List.length forth
  have size' := congrArg List.length back
  rw [List.length_append] at size
  rw [List.length_reverse, List.length_append] at size'
  refine ⟨common.length + 1, facing (-1) (common.reverse ++ ['_']) (xs ++ ['_']), _, by omega,
    (afterSucc matched).trans ?_, held⟩
  rcases parted with ⟨same, rfl, rfl⟩ | ⟨other, different⟩
  · rw [if_pos same]
    exact stepPair accepts rfl rfl
  · rw [if_neg other]
    cases xs with
    | nil =>
      obtain rfl : ys = [] := List.length_eq_zero_iff.mp (by rw [List.length_nil] at size; omega)
      exact absurd rfl different
    | cons x xs =>
      obtain ⟨y, ys, rfl⟩ : ∃ y rest, ys = y :: rest :=
        List.exists_cons_of_length_pos (by rw [List.length_cons] at size; omega)
      have known : x ∈ digits := letters x (by rw [forth]; simp)
      have known' : y ∈ digits := letters y (List.mem_reverse.mp (by rw [back]; simp))
      exact stepPair (rejects x known y known' different) rfl rfl

theorem palindromeEnds : ∃ n one other, n ≤ 3 * word.length + 3 ∧ machine.after? .biInfinite
    ⟨.ordinary 0, [facing 0 [] word, facing 0 [] []]⟩ n =
      some ⟨if word = word.reverse then .accept else .reject, [one, other]⟩ ∧
    ∀ offset, other.peek offset = (ofInput word).peek offset := by
  have copied := palindromeCopied listed letters
  cases filled : word.reverse with
  | nil =>
    have accepts : ⟨1, ['_', '_'], .accept, ['_', '_'], [.stay, .stay]⟩ ∈ palindromeRules := by decide
    rw [← listed] at accepts
    obtain rfl := List.reverse_eq_nil_iff.mp filled
    exact ⟨2, backing 0 [] ['_'], backing 0 [] ['_'], by decide,
      (afterSucc copied).trans (stepPair accepts rfl rfl), palindromeHeld [] rfl⟩
  | cons last front =>
    have rewound := palindromeRewound listed letters filled
    obtain ⟨n, one, other, few, compared, held⟩ := palindromeCompared listed letters
    rw [← filled]
    exact ⟨_, one, other, by omega, afterThen (afterThen copied rewound) compared, held⟩

end

theorem palindromesDecided : ∃ machine, Offers "binary-palindrome" machine ∧
    ∀ (word : List Char) (bound : Nat), (∀ symbol ∈ word, symbol = '0' ∨ symbol = '1') →
      3 * word.length + 3 ≤ bound → ∃ outcome tape,
        machine.run ⟨bound, .biInfinite⟩ word = .ok outcome ∧
        outcome.verdict = (if word = word.reverse then .accept else .reject) ∧
        outcome.tapes[1]? = some tape ∧ tape.output = word ∧
        ∀ offset, tape.peek offset = (ofInput word).peek offset := by
  obtain ⟨machine, offered, consists⟩ := offersPalindrome
  refine ⟨machine, offered, fun word bound binary enough => ?_⟩
  have letters : ∀ symbol ∈ word, symbol ∈ digits := by simpa [digits] using binary
  obtain ⟨n, one, other, few, ended, held⟩ := palindromeEnds consists.rules letters
  obtain ⟨outcome, ran, verdict, tapes⟩ := runDeciding consists letters ended (few.trans enough)
  have output : other.output = word :=
    outputWord (plainDigits letters) 0 fun offset => by rw [held, Int.sub_zero]
  exact ⟨outcome, other, ran, verdict, by rw [tapes]; rfl, output, held⟩

theorem palindromesDecidedShort : ∃ machine one other, Offers "binary-palindrome" machine ∧
    machine.run ⟨15, .biInfinite⟩ ['0', '1', '1', '0'] = .ok one ∧ one.verdict = .accept ∧
    machine.run ⟨9, .biInfinite⟩ ['0', '1'] = .ok other ∧ other.verdict = .reject := by
  obtain ⟨machine, offered, decided⟩ := palindromesDecided
  obtain ⟨one, _, ran, accepted, -⟩ := decided ['0', '1', '1', '0'] 15 (by decide) (by decide)
  obtain ⟨other, _, ran', rejected, -⟩ := decided ['0', '1'] 9 (by decide) (by decide)
  exact ⟨machine, one, other, offered, ran, accepted, ran', rejected⟩

end Multitape.Catalog
