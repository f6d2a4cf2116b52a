/-! Files as the library sees them: what can be asked of them and why it can fail. Paths
are texts whose parts are separated by slashes. -/
namespace Multitape

inductive FileFault where
  | missing
  | isFolder
  | notFolder
  | notText
  | other (text : String)
  deriving DecidableEq, Repr

def FileFault.text : FileFault → String
  | missing => "No such file or directory (os error 2)"
  | isFolder => "Is a directory (os error 21)"
  | notFolder => "Not a directory (os error 20)"
  | notText => "stream did not contain valid UTF-8"
  | other text => text

class Files (m : Type → Type) where
  isPresent : String → m Bool
  read : String → m (Except FileFault String)
  write : String → String → m (Except FileFault Unit)
  names : String → m (Except FileFault (List String))

namespace Files

def textOf (bytes : ByteArray) : Except FileFault String :=
  match String.fromUTF8? bytes with
  | some text => .ok text
  | none => .error .notText

def join (folder name : String) : String :=
  if folder.endsWith "/" then folder ++ name else folder ++ "/" ++ name

def extension? (name : String) : Option (List Char) :=
  let reversed := name.toList.reverse
  match reversed.dropWhile (· ≠ '.') with
  | '.' :: _ :: _ => some (reversed.takeWhile (· ≠ '.')).reverse
  | _ => none

end Files
end Multitape
