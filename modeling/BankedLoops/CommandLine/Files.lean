import BankedLoops.Error
import BankedLoops.FreeName

/-!
# Files

The files below a working directory as a value: reading a file, and what becomes of a temporary file. A
directory is there when a file lies in it.
-/

namespace BankedLoops

structure Files where
  entries : List (List String × ByteArray) := []

namespace Files

inductive Place where
  | file (path : List String) (contents : ByteArray)
  | directory (path : List String)
  /-- Nothing, but in a directory that is there. -/
  | vacant (path : List String)

/-- Whether some file lies below `path`. -/
def isDirectory (f : Files) (path : List String) : Bool :=
  f.entries.any fun entry => path.isPrefixOf entry.1 && path.length < entry.1.length

def locate (f : Files) (here : List String) : List String → Except FileFault Place
  | [] => .ok (.directory here)
  | name :: names =>
    if name = "" ∨ name = "." then
      locate f here names
    else if name = ".." then
      if here.isEmpty then .error .notFound else locate f here.dropLast names
    else
      let path := here ++ [name]
      match f.entries.lookup path with
      | some contents => if names.isEmpty then .ok (.file path contents) else .error .notDirectory
      | none =>
        if f.isDirectory path then locate f path names
        else if names.isEmpty then .ok (.vacant path)
        else .error .notFound

/-- The names on a relative path. Nothing is known of other places. -/
def names (path : String) : Except FileFault (List String) :=
  match path.toList with
  | [] => .error .notFound
  | '/' :: _ => .error .notFound
  | cs => .ok ((cs.splitOn '/').map String.ofList)

def read (f : Files) (path : String) : Except FileFault String := do
  match ← f.locate [] (← names path) with
  | .file _ contents =>
    match String.fromUTF8? contents with
    | some text => pure text
    | none => throw .invalidText
  | .directory _ => throw .isDirectory
  | .vacant _ => throw .notFound

def put (f : Files) (path : List String) (contents : ByteArray) : Files :=
  ⟨(path, contents) :: f.entries.filter (·.1 != path)⟩

def remove (f : Files) (path : List String) : Files :=
  ⟨f.entries.filter (·.1 != path)⟩

/-- A name that is on no path. -/
def unusedName (f : Files) : String :=
  let family := FreeName.numbered ".tmp"
  family (FreeName.firstFree (f.entries.flatMap (·.1)) family 0)

/-- Makes an empty file of its own in a directory. -/
def createIn (f : Files) (directory : String) : Except FileFault (List String × Files) :=
  match names directory >>= f.locate [] with
  | .ok (.directory path) =>
    let path := path ++ [f.unusedName]
    .ok (path, f.put path .empty)
  | .ok (.file ..) => .error (.beside ".tmp" .notDirectory)
  | .ok (.vacant _) => .error (.beside ".tmp" .notFound)
  | .error fault => .error (.beside ".tmp" fault)

def append (f : Files) (path : List String) (contents : ByteArray) : Files :=
  f.put path ((f.entries.lookup path).getD .empty ++ contents)

/-- Gives a file another path, in the place of a file that may be there. -/
def rename (f : Files) (path : List String) (target : String) : Except FileFault Files := do
  let parts ← names target
  let last := (parts.reverse.dropWhile (· == "")).head?
  if last = some "." ∨ last = some ".." then
    throw .busy
  if parts.getLast? = some "" then
    throw .notDirectory
  match f.entries.lookup path, ← f.locate [] parts with
  | none, _ => throw .notFound
  | some contents, .file target _ | some contents, .vacant target =>
    pure ((f.remove path).put target contents)
  | some _, .directory _ => throw .isDirectory

end Files

end BankedLoops
