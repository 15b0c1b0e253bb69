/-!
Paths to files. A path is followed from a directory whose files are known; of the directories above
it only their being there is known.
-/

namespace Lox

/-- What keeps the file that a path names from being read. -/
inductive PathFault where
  | missing
  | notPermitted
  | isDirectory
  | notDirectory
  | nameTooLong
deriving DecidableEq, Repr

/-- The reason with its number. -/
def PathFault.message : PathFault → String
  | .missing => "No such file or directory (os error 2)"
  | .notPermitted => "Permission denied (os error 13)"
  | .isDirectory => "No such device (os error 19)"
  | .notDirectory => "Not a directory (os error 20)"
  | .nameTooLong => "File name too long (os error 36)"

/-- The files of a directory by name. -/
structure Directory where
  files : List (String × List UInt8)

namespace Directory

/-- Where the way along a path has led. -/
inductive Place where
  | inside
  | above
  | file (bytes : List UInt8)

/-- A name has up to 255 bytes. -/
def nameLimit : Nat := 255

/-- A path has less than 4096 bytes. -/
def pathLimit : Nat := 4096

/-- One name further. Names that are empty or a dot stay in a directory. -/
def step (d : Directory) (place : Place) (name : String) : Except PathFault Place :=
  match place with
  | .file _ => .error .notDirectory
  | .inside =>
    if name == "" || name == "." then .ok .inside
    else if name == ".." then .ok .above
    else if nameLimit < name.utf8ByteSize then .error .nameTooLong
    else match d.files.lookup name with
      | some bytes => .ok (.file bytes)
      | none => .error .missing
  | .above =>
    if name == "" || name == "." || name == ".." then .ok .above
    else if nameLimit < name.utf8ByteSize then .error .nameTooLong
    else .error .missing

/-- The bytes of the file to which a path leads. A path that starts with a slash starts above. -/
def read (d : Directory) (path : String) : Except PathFault (List UInt8) := do
  if path.isEmpty then throw .missing
  if pathLimit ≤ path.utf8ByteSize then throw .nameTooLong
  let start := if path.startsWith "/" then Place.above else .inside
  match ← (path.splitOn "/").foldlM d.step start with
  | .file bytes => return bytes
  | .inside | .above => throw .isDirectory

end Directory

end Lox
