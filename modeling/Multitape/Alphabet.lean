import Multitape.Machine.Error
import Multitape.Symbol

/-! The alphabet of a machine: distinct symbols in the order of their declaration. The
blank belongs to it, declared or not. -/
namespace Multitape

structure Alphabet (S : Type) where
  symbols : List S
  distinct : symbols.Nodup

namespace Alphabet
variable {S : Type} [Symbol S]

instance : Membership S (Alphabet S) where
  mem alphabet symbol := symbol = Symbol.blank ∨ symbol ∈ alphabet.symbols

theorem memIff {symbol : S} {alphabet : Alphabet S} :
    symbol ∈ alphabet ↔ symbol = Symbol.blank ∨ symbol ∈ alphabet.symbols := Iff.rfl

theorem blankMem (alphabet : Alphabet S) : Symbol.blank ∈ alphabet := .inl rfl

variable [DecidableEq S]

instance (symbol : S) (alphabet : Alphabet S) : Decidable (symbol ∈ alphabet) :=
  inferInstanceAs (Decidable (_ ∨ _))

def firstRepeat? (seen : List S) : List S → Option S
  | [] => none
  | symbol :: rest => if symbol ∈ seen then some symbol else firstRepeat? (symbol :: seen) rest

omit [Symbol S] in
theorem distinctOfNoRepeat {seen symbols : List S} (none : firstRepeat? seen symbols = none) :
    symbols.Nodup ∧ ∀ symbol ∈ symbols, symbol ∉ seen := by
  induction symbols generalizing seen with
  | nil => simp
  | cons first rest ih =>
    simp only [firstRepeat?] at none
    split at none
    · contradiction
    · rename_i fresh
      have later := ih none
      refine ⟨List.nodup_cons.mpr ⟨fun mem => later.2 first mem (by simp), later.1⟩, ?_⟩
      intro symbol mem
      rcases List.mem_cons.mp mem with rfl | mem
      · exact fresh
      · exact fun old => later.2 symbol mem (by simp [old])

def ofList (symbols : List S) : Except DefinitionError (Alphabet S) :=
  match h : firstRepeat? [] symbols with
  | some symbol => .error (.duplicateSymbol (Symbol.text symbol))
  | none => .ok ⟨symbols, (distinctOfNoRepeat h).1⟩

def withBlank (alphabet : Alphabet S) : List S :=
  if Symbol.blank ∈ alphabet.symbols then alphabet.symbols
  else alphabet.symbols ++ [Symbol.blank]

theorem memWithBlank {symbol : S} {alphabet : Alphabet S} :
    symbol ∈ alphabet.withBlank ↔ symbol ∈ alphabet := by
  simp only [withBlank, memIff]
  split <;> grind

def refuse? (alphabet : Alphabet S) (input : List S) : Option InputError :=
  (input.zipIdx.find? fun (symbol, _) => symbol ∉ alphabet).map fun (symbol, position) =>
    .unknownSymbol (Symbol.text symbol) position

end Alphabet
end Multitape
