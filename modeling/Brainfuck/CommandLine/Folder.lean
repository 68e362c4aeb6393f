import Brainfuck.Error

/-!
# Folders

A folder with everything below it, as one place to read files from. Nothing is known of what lies
outside but that there are directories, so a folder stands for a file system only as far as the paths
stay below it.
-/

namespace Brainfuck.CommandLine

inductive Entry where
  | file (bytes : List UInt8)
  | directory
deriving DecidableEq, Repr

inductive PathFault where
  | missing
  | notDirectory
  | isDirectory
  | nameTooLong
deriving DecidableEq, Repr

def PathFault.cause : PathFault → String
  | .missing => "No such file or directory (os error 2)"
  | .notDirectory => "Not a directory (os error 20)"
  | .isDirectory => "Is a directory (os error 21)"
  | .nameTooLong => "File name too long (os error 36)"

/-- The entries below a folder, each by the names that lead to it. The directories on the way to an
entry need not be listed. -/
structure Folder where
  entries : List (List String × Entry)

namespace Folder

def maxNameBytes : Nat := 255

def maxPathBytes : Nat := 4095

def names (path : String) : List String := path.splitOn "/"

def ofPaths (entries : List (String × Entry)) : Folder :=
  ⟨entries.map fun (path, entry) => (names path, entry)⟩

/-- What the names lead to from the folder itself. -/
def entry? (folder : Folder) (steps : List String) : Option Entry :=
  match folder.entries.find? (·.1 = steps) with
  | some (_, entry) => some entry
  | none =>
      if steps.isEmpty || folder.entries.any fun e => steps.isPrefixOf e.1 then some .directory
      else none

/-- A name that leads to no other entry of a directory. -/
def isStay (name : String) : Bool := name = "" || name = "."

/-- What names lead to from a directory outside the folder, where only directories are known. -/
def followOutside : List String → Except PathFault Entry
  | [] => .ok .directory
  | name :: rest =>
      if isStay name || name = ".." then followOutside rest
      else if maxNameBytes < name.utf8ByteSize then .error .nameTooLong
      else .error .missing

/-- Follow names from a place below the folder. Each name needs a directory to start from, also
one that stays there. -/
def follow (folder : Folder) (place : List String) : List String → Except PathFault Entry
  | [] => (folder.entry? place).elim (.error .missing) .ok
  | name :: rest =>
    match folder.entry? place with
    | none => .error .missing
    | some (.file _) => .error .notDirectory
    | some .directory =>
        if isStay name then follow folder place rest
        else if name = ".." then
          if place.isEmpty then followOutside rest else follow folder place.dropLast rest
        else if maxNameBytes < name.utf8ByteSize then .error .nameTooLong
        else follow folder (place ++ [name]) rest

/-- What a path leads to. A path that starts with a slash starts outside. -/
def find (folder : Folder) (path : String) : Except PathFault Entry :=
  if maxPathBytes < path.utf8ByteSize then .error .nameTooLong
  else
    match names path with
    | "" :: rest => followOutside rest
    | names => folder.follow [] names

def read (folder : Folder) (path : String) : Except PathFault (List UInt8) :=
  match folder.find path with
  | .ok (.file bytes) => .ok bytes
  | .ok .directory => .error .isDirectory
  | .error fault => .error fault

end Folder

end Brainfuck.CommandLine
