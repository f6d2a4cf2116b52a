import Multitape.Files

/-! Files held in memory: one folder with all that is in it. It is the current folder;
the folders around it are there, and nothing in them is known. -/
namespace Multitape

namespace Files

inductive Content where
  | folder
  | file (bytes : ByteArray)

/-- The contents by path, given by its parts. Of two contents for one path the first holds. -/
structure Store where
  entries : List (List String × Content)

/-- What a path leads to. `folder none` is a folder around the store. -/
inductive Place where
  | folder (path : Option (List String))
  | file (path : List String) (bytes : ByteArray)
  | free (path : List String)

namespace Store

def empty : Store := ⟨[]⟩

def content? (store : Store) (path : List String) : Option Content :=
  (store.entries.find? (·.1 = path)).map (·.2)

def put (store : Store) (path : List String) (content : Content) : Store :=
  ⟨(path, content) :: store.entries.filter (·.1 ≠ path)⟩

def putAll (store : Store) (path : List String) (content : Content) : Store :=
  let above := (List.range path.length).filterMap fun n =>
    if 0 < n then some (path.take n) else none
  (above.foldl (fun store folder => store.put folder .folder) store).put path content

def placeOf (store : Store) (path : List String) : Place :=
  match store.content? path with
  | none => .free path
  | some .folder => .folder (some path)
  | some (.file bytes) => .file path bytes

def enter (store : Store) (here : Place) (part : String) : Except FileFault Place :=
  match here with
  | .file .. => .error .notFolder
  | .free _ => .error .missing
  | .folder path =>
    if part = "" ∨ part = "." then .ok (.folder path)
    else match path, part with
      | none, ".." | some [], ".." => .ok (.folder none)
      | some path, ".." => .ok (.folder (some path.dropLast))
      | none, _ => .error .missing
      | some path, _ => .ok (store.placeOf (path ++ [part]))

def parts (path : String) : List String := path.splitOn "/"

def find (store : Store) (path : String) : Except FileFault Place :=
  if path = "" then .error .missing
  else
    let start := if path.startsWith "/" then none else some []
    (parts path).foldlM store.enter (.folder start)

def isPresent (store : Store) (path : String) : Bool :=
  match store.find path with
  | .ok (.folder _) | .ok (.file ..) => true
  | _ => false

def read (store : Store) (path : String) : Except FileFault String := do
  match ← store.find path with
  | .folder _ => .error .isFolder
  | .free _ => .error .missing
  | .file _ bytes => textOf bytes

def bare (path : String) : String :=
  String.ofList (path.toList.reverse.dropWhile (· = '/')).reverse

/-- Only a folder can have a path that ends in a slash. -/
def write (store : Store) (path text : String) : Except FileFault Store := do
  let place ← if path = "" then .error .missing
    else if bare path = "" then .ok (.folder none)
    else store.find (bare path)
  match place with
  | .folder _ => .error .isFolder
  | .free found | .file found _ =>
    if path.endsWith "/" then .error .isFolder
    else .ok (store.put found (.file text.toUTF8))

def names (store : Store) (path : String) : Except FileFault (List String) := do
  match ← store.find path with
  | .file .. => .error .notFolder
  | .free _ => .error .missing
  | .folder none => .ok []
  | .folder (some folder) =>
    .ok <| store.entries.filterMap fun (path, content) => match content with
      | .folder => none
      | .file _ => if path.dropLast = folder then path.getLast? else none

end Store

instance : Files (StateM Store) where
  isPresent path := do return (← get).isPresent path
  read path := do return (← get).read path
  write path text := do
    match (← get).write path text with
    | .ok store => do
      set store
      return .ok ()
    | .error fault => return .error fault
  names path := do return (← get).names path

end Files
end Multitape
