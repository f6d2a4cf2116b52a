import Multitape.Proofs.Catalog.Sweep

/-! The equality machine. What stands before the first sign goes to the second tape, whose head
is then taken back to the start, and the rest of the word is compared with it. Without a sign
there is no rule at the end of the word. A second sign is met while there is something to compare
it with, a digit or the blank behind, so it is never passed. -/
namespace Multitape.Catalog
open Tape

def equalityRules : List (Rule Char) :=
  [⟨0, ['0', '_'], .ordinary 0, ['0', '0'], [.right, .right]⟩,
    ⟨0, ['1', '_'], .ordinary 0, ['1', '1'], [.right, .right]⟩,
    ⟨0, ['=', '_'], .ordinary 1, ['=', '_'], [.stay, .left]⟩,
    ⟨1, ['=', '0'], .ordinary 1, ['=', '0'], [.stay, .left]⟩,
    ⟨1, ['=', '1'], .ordinary 1, ['=', '1'], [.stay, .left]⟩,
    ⟨1, ['=', '_'], .ordinary 2, ['=', '_'], [.right, .right]⟩,
    ⟨2, ['0', '0'], .ordinary 2, ['0', '0'], [.right, .right]⟩,
    ⟨2, ['1', '1'], .ordinary 2, ['1', '1'], [.right, .right]⟩,
    ⟨2, ['0', '1'], .reject, ['0', '1'], [.stay, .stay]⟩,
    ⟨2, ['1', '0'], .reject, ['1', '0'], [.stay, .stay]⟩,
    ⟨2, ['_', '_'], .accept, ['_', '_'], [.stay, .stay]⟩,
    ⟨2, ['_', '0'], .reject, ['_', '0'], [.stay, .stay]⟩,
    ⟨2, ['_', '1'], .reject, ['_', '1'], [.stay, .stay]⟩,
    ⟨2, ['0', '_'], .reject, ['0', '_'], [.stay, .stay]⟩,
    ⟨2, ['1', '_'], .reject, ['1', '_'], [.stay, .stay]⟩,
    ⟨2, ['=', '0'], .reject, ['=', '0'], [.stay, .stay]⟩,
    ⟨2, ['=', '1'], .reject, ['=', '1'], [.stay, .stay]⟩,
    ⟨2, ['=', '_'], .reject, ['=', '_'], [.stay, .stay]⟩]

set_option maxRecDepth 8000 in
theorem offersEquality : ∃ machine, Offers "two-tape-equality" machine ∧
    machine.Consists 2 ['0', '1', '='] equalityRules :=
  offersOfContents 4 ⟨3, 3, 2, 3, 18⟩ rfl (by decide +kernel) rfl
    (by decide +kernel) ⟨by decide, rfl, rfl, by decide, by decide, by decide, by decide⟩

def Doubled (word : List Char) : Prop :=
  ∃ half, (∀ symbol ∈ half, symbol ∈ digits) ∧ word = half ++ '=' :: half

theorem unsigned {word : List Char} (letters : ∀ symbol ∈ word, symbol ∈ digits) : '=' ∉ word :=
  fun mem => absurd (letters _ mem) (by decide)

theorem doubledAround {front behind : List Char} (letters : ∀ symbol ∈ front, symbol ∈ digits) :
    Doubled (front ++ '=' :: behind) ↔ behind = front := by
  constructor
  · intro ⟨half, known, same⟩
    obtain ⟨rfl, -, rfl⟩ :=
      (List.append_cons_inj_of_notMem (unsigned known) (unsigned known)).mp same.symm
    rfl
  · intro same
    exact ⟨front, letters, by rw [same]⟩

instance (word : List Char) : Decidable (Doubled word) :=
  decidable_of_iff ((∀ symbol ∈ word.takeWhile (· ≠ '='), symbol ∈ digits) ∧
    word = word.takeWhile (· ≠ '=') ++ '=' :: word.takeWhile (· ≠ '=')) <| by
  constructor
  · intro ⟨known, same⟩
    exact ⟨_, known, same⟩
  · intro ⟨half, known, same⟩
    have whole : ∀ symbol ∈ half, decide (symbol ≠ '=') = true := by
      intro symbol mem
      exact decide_eq_true fun sign => unsigned known (sign ▸ mem)
    have first : word.takeWhile (· ≠ '=') = half := by
      rw [same, List.takeWhile_append_of_pos whole, List.takeWhile_cons_of_neg (by decide),
        List.append_nil]
    rw [first]
    exact ⟨known, same⟩

section
variable {machine : Machine Char} (listed : machine.table.rules.toList = equalityRules)
  {word : List Char} (letters : ∀ symbol ∈ word, symbol ∈ digits)
include listed letters

theorem equalityCopied (behind : List Char) : machine.after? .biInfinite
    ⟨.ordinary 0, [facing 0 [] (word ++ behind), facing 0 [] []]⟩ word.length =
      some ⟨.ordinary 0, [facing 0 word.reverse behind, facing 0 word.reverse []]⟩ := by
  have copies : ∀ symbol ∈ digits, ⟨0, [symbol, '_'], .ordinary 0, [symbol, symbol],
      [.right, .right]⟩ ∈ equalityRules := by decide
  rw [← listed] at copies
  have copied := afterTranscribed (fun _ => true) behind
    (fun symbol mem _ => copies symbol (letters symbol mem)) (fun _ _ none => absurd rfl none)
  rwa [List.filter_true] at copied

theorem equalityUnsigned : ∃ last, machine.after? .biInfinite
    ⟨.ordinary 0, [facing 0 [] word, facing 0 [] []]⟩ (word.length + 1) = some ⟨.reject, last⟩ := by
  have none : ∀ rule ∈ equalityRules, rule.key ≠ (0, ['_', '_']) := by decide
  rw [← listed] at none
  have copied := equalityCopied listed letters []
  rw [List.append_nil] at copied
  exact ⟨_, (afterSucc copied).trans
    (stepIff.mpr ⟨0, rfl, .inr ⟨Table.getNoneIff.mpr none, rfl⟩⟩)⟩

theorem equalityRewound (behind : List Char) : machine.after? .biInfinite
    ⟨.ordinary 0, [facing 0 [] (word ++ '=' :: behind), facing 0 [] []]⟩
      (word.length + 1 + (word.length + 1)) =
      some ⟨.ordinary 2, [facing 0 ('=' :: word.reverse) behind, facing (-1) ['_'] (word ++ ['_'])]⟩ := by
  have turns : ⟨0, ['=', '_'], .ordinary 1, ['=', '_'], [.stay, .left]⟩ ∈ equalityRules := by decide
  have goes : ∀ symbol ∈ digits, ⟨1, ['=', symbol], .ordinary 1, ['=', symbol],
      [.stay, .left]⟩ ∈ equalityRules := by decide
  have starts : ⟨1, ['=', '_'], .ordinary 2, ['=', '_'], [.right, .right]⟩ ∈ equalityRules := by decide
  rw [← listed] at turns goes starts
  let place : List Char → List Char → Configuration Char := fun done rest =>
    ⟨.ordinary 1, [facing 0 word.reverse ('=' :: behind), backing 0 rest (done ++ ['_'])]⟩
  have turned : machine.after? .biInfinite
      ⟨.ordinary 0, [facing 0 [] (word ++ '=' :: behind), facing 0 [] []]⟩ (word.length + 1) =
        some (place [] word.reverse) :=
    (afterSucc (equalityCopied listed letters ('=' :: behind))).trans (stepPair turns rfl rfl)
  have moves : ∀ symbol ∈ word.reverse, ∀ done rest, machine.step? .biInfinite
      (place done (symbol :: rest)) = some (place (symbol :: done) rest) := by
    intro symbol mem done rest
    rw [stepPair (goes symbol (letters symbol (List.mem_reverse.mp mem))) rfl rfl, leftBacking]
    rfl
  have swept := afterSweep moves []
  rw [List.length_reverse, List.reverse_reverse, List.append_nil] at swept
  refine afterThen turned ((afterSucc swept).trans ((stepPair starts rfl rfl).trans ?_))
  rw [backingBlank, rightFacing, rightBacking]
  rfl

theorem equalityMatched {behind common xs ys : List Char} (passed : List Char) (ahead : behind = common ++ xs)
    (back : word = common ++ ys) : machine.after? .biInfinite
      ⟨.ordinary 2, [facing 0 passed behind, facing (-1) ['_'] (word ++ ['_'])]⟩ common.length =
      some ⟨.ordinary 2, [facing 0 (common.reverse ++ passed) xs,
        facing (-1) (common.reverse ++ ['_']) (ys ++ ['_'])]⟩ := by
  have goes : ∀ symbol ∈ digits, ⟨2, [symbol, symbol], .ordinary 2, [symbol, symbol],
      [.right, .right]⟩ ∈ equalityRules := by decide
  rw [← listed] at goes
  let place : List Char → List Char → Configuration Char := fun done rest =>
    ⟨.ordinary 2, [facing 0 (done ++ passed) (rest ++ xs),
      facing (-1) (done ++ ['_']) (rest ++ (ys ++ ['_']))]⟩
  have moves : ∀ symbol ∈ common, ∀ done rest, machine.step? .biInfinite
      (place done (symbol :: rest)) = some (place (symbol :: done) rest) := by
    intro symbol mem done rest
    have known := letters symbol (by rw [back]; exact List.mem_append_left _ mem)
    dsimp only [place]
    rw [stepPair (goes symbol known) rfl rfl, List.cons_append, List.cons_append, rightFacing,
      rightFacing]
    rfl
  have swept := afterSweep moves []
  rw [List.append_nil] at swept
  rw [ahead, back, List.append_assoc]
  exact swept

/- Where the two part, one of them may have come to its end. -/
theorem equalityCompared {behind : List Char} (passed : List Char)
    (others : ∀ symbol ∈ behind, symbol ∈ ['0', '1', '=']) : ∃ n last, n ≤ word.length + 1 ∧
      machine.after? .biInfinite
        ⟨.ordinary 2, [facing 0 passed behind, facing (-1) ['_'] (word ++ ['_'])]⟩ n =
      some ⟨if behind = word then .accept else .reject, last⟩ := by
  have accepts : ⟨2, ['_', '_'], .accept, ['_', '_'], [.stay, .stay]⟩ ∈ equalityRules := by decide
  have rejects : ∀ symbol ∈ ['_', '0', '1', '='], ∀ other ∈ ['_', '0', '1'], symbol ≠ other →
      ⟨2, [symbol, other], .reject, [symbol, other], [.stay, .stay]⟩ ∈ equalityRules := by decide
  rw [← listed] at accepts rejects
  have plain : ∀ symbol ∈ behind, symbol ≠ Symbol.blank := by
    have letters : ∀ letter ∈ ['0', '1', '='], letter ≠ Symbol.blank := by decide
    exact fun symbol mem => letters symbol (others symbol mem)
  obtain ⟨common, xs, ys, ahead, back, parted⟩ := splitWhereOther plain (plainDigits letters)
  have matched := equalityMatched listed letters passed ahead back
  have few : common.length + 1 ≤ word.length + 1 := by
    rw [back, List.length_append]
    omega
  refine ⟨common.length + 1, [facing 0 (common.reverse ++ passed) xs,
    facing (-1) (common.reverse ++ ['_']) (ys ++ ['_'])], few, (afterSucc matched).trans ?_⟩
  rcases parted with ⟨same, rfl, rfl⟩ | ⟨other, different⟩
  · rw [if_pos same]
    exact stepPair accepts rfl rfl
  · rw [if_neg other]
    have known : xs.headD '_' ∈ ['_', '0', '1', '='] := by
      cases xs with
      | nil => decide
      | cons x xs => exact List.mem_cons_of_mem _ (others x (by rw [ahead]; simp))
    have known' : ys.headD '_' ∈ ['_', '0', '1'] := by
      cases ys with
      | nil => decide
      | cons y ys => exact List.mem_cons_of_mem _ (letters y (by rw [back]; simp))
    have met : (facing (-1) (common.reverse ++ ['_']) (ys ++ ['_'])).read = ys.headD '_' := by
      cases ys <;> rfl
    have rule := rejects _ known _ known' different
    rw [← met] at rule
    exact stepPair rule rfl rfl

end

/- The first sign parts the word, if there is one. -/
theorem equalityEnds {machine : Machine Char} (listed : machine.table.rules.toList = equalityRules)
    {word : List Char} (known : ∀ symbol ∈ word, symbol ∈ ['0', '1', '=']) :
    ∃ n last, n ≤ 3 * word.length + 3 ∧ machine.after? .biInfinite
      ⟨.ordinary 0, [facing 0 [] word, facing 0 [] []]⟩ n =
        some ⟨if Doubled word then .accept else .reject, last⟩ := by
  have digit : ∀ symbol ∈ ['0', '1', '='], symbol ≠ '=' → symbol ∈ digits := by decide
  by_cases sign : '=' ∈ word
  · obtain ⟨front, behind, rfl, fresh⟩ := List.eq_append_cons_of_mem sign
    have letters : ∀ symbol ∈ front, symbol ∈ digits := fun symbol mem =>
      digit symbol (known symbol (List.mem_append_left _ mem)) fun same => fresh (same ▸ mem)
    have rewound := equalityRewound listed letters behind
    obtain ⟨n, last, few, compared⟩ := equalityCompared listed letters ('=' :: front.reverse)
      fun symbol mem => known symbol (List.mem_append_right _ (List.mem_cons_of_mem _ mem))
    simp only [doubledAround letters]
    refine ⟨_, last, ?_, afterThen rewound compared⟩
    rw [List.length_append, List.length_cons]
    omega
  · have letters : ∀ symbol ∈ word, symbol ∈ digits := fun symbol mem =>
      digit symbol (known symbol mem) fun same => sign (same ▸ mem)
    have single : ¬ Doubled word := by
      intro ⟨half, _, same⟩
      exact sign (by rw [same]; simp)
    obtain ⟨last, ended⟩ := equalityUnsigned listed letters
    rw [if_neg single]
    exact ⟨_, last, by omega, ended⟩

theorem equalityDecided : ∃ machine, Offers "two-tape-equality" machine ∧
    ∀ (word : List Char) (bound : Nat),
      (∀ symbol ∈ word, symbol = '0' ∨ symbol = '1' ∨ symbol = '=') → 3 * word.length + 3 ≤ bound →
        ∃ outcome, machine.run ⟨bound, .biInfinite⟩ word = .ok outcome ∧
          outcome.verdict = if Doubled word then .accept else .reject := by
  obtain ⟨machine, offered, consists⟩ := offersEquality
  refine ⟨machine, offered, fun word bound letters enough => ?_⟩
  have known : ∀ symbol ∈ word, symbol ∈ ['0', '1', '='] := by simpa using letters
  obtain ⟨n, last, few, ended⟩ := equalityEnds consists.rules known
  obtain ⟨outcome, ran, verdict, -⟩ := runDeciding consists known ended (few.trans enough)
  exact ⟨outcome, ran, verdict⟩

theorem equalityDecidedShort : ∃ machine one other, Offers "two-tape-equality" machine ∧
    machine.run ⟨18, .biInfinite⟩ ['0', '1', '=', '0', '1'] = .ok one ∧ one.verdict = .accept ∧
    machine.run ⟨15, .biInfinite⟩ ['0', '=', '0', '='] = .ok other ∧ other.verdict = .reject := by
  obtain ⟨machine, offered, decided⟩ := equalityDecided
  obtain ⟨one, ran, accepted⟩ := decided ['0', '1', '=', '0', '1'] 18 (by decide) (by decide)
  obtain ⟨other, ran', rejected⟩ := decided ['0', '=', '0', '='] 15 (by decide) (by decide)
  exact ⟨machine, one, other, offered, ran, accepted, ran', rejected⟩

end Multitape.Catalog
