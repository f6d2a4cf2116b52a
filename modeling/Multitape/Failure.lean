import Multitape.Description.Error
import Multitape.SingleTape

/-! All that can go wrong between a name or a file and the end of a run, as one type. -/
namespace Multitape

inductive Failure where
  | description (cause : DescriptionError)
  | compile (cause : CompileError)
  | input (cause : InputError)
  | file (text : String)
  | notFound (name : String)
  deriving DecidableEq, Repr

def Failure.message : Failure → String
  | description cause => s!"Machine parsing error: {cause.message}"
  | compile cause => s!"Compilation error: {cause.message}"
  | input cause => s!"Input error: {cause.message}"
  | file text => s!"File error: {text}"
  | notFound name => s!"Machine not found: {name}"

end Multitape
