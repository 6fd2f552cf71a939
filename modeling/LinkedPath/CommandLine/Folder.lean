/-!
# Files of a folder

A file is read by its path, and the reading fails for the first name on the
path that cannot be followed.  A folder in memory follows the same rules as one
on a disk, so that a request can be answered without a file system.
-/

namespace LinkedPath.CommandLine

/-- Why a file cannot be read. -/
inductive ReadFault
  | notFound
  | notDirectory
  | isDirectory
  | nameTooLong
  /-- The bytes are no UTF-8 text. -/
  | notText
  | other (text : String)
  deriving DecidableEq, Repr

namespace ReadFault

/-- The wording of a file's fault. -/
def message : ReadFault → String
  | notFound => "No such file or directory (os error 2)"
  | notDirectory => "Not a directory (os error 20)"
  | isDirectory => "Is a directory (os error 21)"
  | nameTooLong => "File name too long (os error 36)"
  | notText => "stream did not contain valid UTF-8"
  | other text => text

/-- The fault that has a number in its wording. -/
def ofCode? : Nat → Option ReadFault
  | 2 => some notFound
  | 20 => some notDirectory
  | 21 => some isDirectory
  | 36 => some nameTooLong
  | _ => none

end ReadFault

/-- The files of a folder by name.  It has no folders inside it. -/
abbrev Folder := List (String × String)

namespace Folder

/-- The greatest number of bytes of a name. -/
def maxNameBytes : Nat := 255

/-- The greatest number of bytes of a path. -/
def maxPathBytes : Nat := 4095

/-- Follow the names of a path, from the folder or from somewhere above it,
where no other name is known.  A path that has led to no file ends at a
folder. -/
def follow (folder : Folder) : Bool → List String → Except ReadFault String
  | _, [] => .error .isDirectory
  | inside, name :: rest =>
      if name.isEmpty || name = "." then
        follow folder inside rest
      else if name = ".." then
        follow folder false rest
      else if maxNameBytes < name.utf8ByteSize then
        .error .nameTooLong
      else
        match (if inside then folder.lookup name else none), rest with
        | none, _ => .error .notFound
        | some text, [] => .ok text
        | some _, _ :: _ => .error .notDirectory

/-- Read the file that a path leads to. -/
def read (folder : Folder) (path : String) : Except ReadFault String :=
  if path.isEmpty then
    .error .notFound
  else if maxPathBytes < path.utf8ByteSize then
    .error .nameTooLong
  else
    folder.follow (!path.startsWith "/") (path.splitOn "/")

end Folder

end LinkedPath.CommandLine
