import Multitape.Catalog
import Multitape.Files

/-! Machines in files. -/
namespace Multitape.Library
variable {m : Type → Type} [Monad m] [Files m]

def extension : String := "tm"

section
variable {S : Type} [Symbol S] [DecidableEq S]

def load (path : String) : m (Except Failure (Machine S)) := do
  match ← Files.read path with
  | .error fault => return .error (.file s!"Failed to read file {path}: {fault.text}")
  | .ok text => return (Machine.ofText text).mapError .description

def save (path : String) (machine : Machine S) : m (Except Failure Unit) := do
  match ← Files.write path machine.text with
  | .error fault => return .error (.file s!"Failed to write file {path}: {fault.text}")
  | .ok () => return .ok ()

end

def loadNamed (path : String) : m (Except Failure (String × Machine Char)) := do
  match ← load path with
  | .ok machine => return .ok (path, machine)
  | .error cause =>
    return .error (.file s!"Failed to load machine from {path}: {cause.message}")

def loadAll (folder : String) : m (List (Except Failure (String × Machine Char))) := do
  match ← Files.names folder with
  | .error fault =>
    return [.error (.file s!"Failed to read directory {folder}: {fault.text}")]
  | .ok names =>
    let machines := names.filter (Files.extension? · = some extension.toList)
    (machines.mergeSort (· ≤ ·)).mapM fun name => loadNamed (Files.join folder name)

def open? {S : Type} [Symbol S] [DecidableEq S] (source : String) :
    m (Except Failure (Machine S × Option String)) := do
  if ← Files.isPresent source then
    return (← load source).map (·, none)
  else
    return do
      let entry ← Catalog.find? source
      let machine ← (Machine.ofText entry.text).mapError .description
      return (machine, some entry.sample)

end Multitape.Library
