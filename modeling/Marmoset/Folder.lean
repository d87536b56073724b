import Marmoset.Text.Quoted

/-!
A folder with the files in it and below it, and the paths that lead to them.
-/

namespace Marmoset

-- Why a file cannot be read.
inductive FileFault
  | notFound | notDirectory | isDirectory | nameTooLong
deriving DecidableEq

namespace FileFault

def number : FileFault → Nat
  | notFound => 2
  | notDirectory => 20
  | isDirectory => 21
  | nameTooLong => 36

def reason : FileFault → String
  | notFound => "No such file or directory"
  | notDirectory => "Not a directory"
  | isDirectory => "Is a directory"
  | nameTooLong => "File name too long"

def message (f : FileFault) (path : String) : String :=
  "[Errno " ++ toString f.number ++ "] " ++ f.reason ++ ": " ++ Text.quoted path

end FileFault

-- The files by their paths; a folder has no contents.
abbrev Folder := List (List String × Option ByteArray)

namespace Folder

inductive Place
  | file (bytes : ByteArray)
  | folder (path : List String)
  -- A folder that is not in this one.
  | outside

def Place.parent : Place → Place
  | folder path => if path.isEmpty then outside else folder path.dropLast
  | p => p

def find? (f : Folder) (path : List String) : Option Place :=
  match f.lookup path with
  | some (some bytes) => some (.file bytes)
  | some none => some (.folder path)
  | none => if f.any fun e => path.isPrefixOf e.1 then some (.folder path) else none

def child? (f : Folder) (part : String) : Place → Option Place
  | .folder path => f.find? (path ++ [part])
  | _ => none

-- The place that one part of a path leads to.
def step (f : Folder) (part : String) (p : Place) : Except FileFault Place :=
  match p, part with
  | .file _, _ => .error .notDirectory
  | p, "" | p, "." => .ok p
  | p, ".." => .ok p.parent
  | p, part =>
    if 255 < part.utf8ByteSize then .error .nameTooLong
    else
      match f.child? part p with
      | some p => .ok p
      | none => .error .notFound

def walk (f : Folder) : Place → List String → Except FileFault Place
  | p, [] => .ok p
  | p, part :: parts => do f.walk (← f.step part p) parts

-- The file at a path, which may begin at the root of all folders.
def read (f : Folder) (path : String) : Except FileFault ByteArray :=
  if path.isEmpty then .error .notFound
  else if 4096 ≤ path.utf8ByteSize then .error .nameTooLong
  else do
    let start := if path.toList.head? = some '/' then Place.outside else .folder []
    match ← f.walk start (path.splitOn "/") with
    | .file bytes => .ok bytes
    | _ => .error .isDirectory

-- The folder whose files have the given paths.
def ofPaths (files : List (String × Option ByteArray)) : Folder :=
  files.map fun (path, contents) => (path.splitOn "/", contents)

end Folder

end Marmoset
