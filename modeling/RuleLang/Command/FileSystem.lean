import RuleLang.Command.Host

/-!
A file system kept in memory, with what has been shown to the user. A location lists the names
on the way down from the top. Files have locations; the working directory, the directories that
are listed, and every proper beginning of a file's location are directories. A path is followed
from the working directory, or from the top if it starts with a slash, and each of its names but
the last must lead to a directory. A path that ends in a slash never creates a file, whatever
stands there. What is opened can be filled, and what is printed is shown.
-/
namespace RuleLang.Command

structure FileSystem where
  files : List (List String × List UInt8)
  directories : List (List String)
  workingDirectory : List String
  printed : String
  reported : String

namespace FileSystem

/-- What a path leads to. An absent name stands in a directory that exists. -/
inductive Target
  | file (location : List String) (contents : List UInt8)
  | directory
  | absent (location : List String)

/-- What a path is followed for. -/
inductive Purpose
  | reading | writing
  deriving DecidableEq

def contents? (f : FileSystem) (location : List String) : Option (List UInt8) :=
  f.files.lookup location

def isDirectory (f : FileSystem) (location : List String) : Bool :=
  location.isPrefixOf f.workingDirectory || f.directories.contains location
    || f.files.any fun e => location.isPrefixOf e.1 && location ≠ e.1

def longestName : Nat := 255
def longestPath : Nat := 4095

def follow (f : FileSystem) (purpose : Purpose) : List String → List String → Except Refusal Target
  | _, [] => .ok .directory
  | place, name :: rest =>
    if name = "" ∨ name = "." then follow f purpose place rest
    else if name = ".." then follow f purpose place.dropLast rest
    else if purpose = .writing ∧ rest ≠ [] ∧ rest.all (· = "") then .error .isADirectory
    else if longestName < name.utf8ByteSize then .error .nameTooLong
    else
      let location := place ++ [name]
      match f.contents? location with
      | some contents => if rest = [] then .ok (.file location contents) else .error .notADirectory
      | none =>
        if f.isDirectory location then follow f purpose location rest
        else if rest = [] then .ok (.absent location)
        else .error .missing

def names (path : List Char) : List String :=
  (cut path).map String.ofList
where
  cut : List Char → List (List Char)
    | [] => [[]]
    | c :: rest =>
      if c = '/' then [] :: cut rest
      else match cut rest with
        | [] => [[c]]
        | name :: more => (c :: name) :: more

def find (f : FileSystem) (purpose : Purpose) (path : String) : Except Refusal Target :=
  if path = "" then .error .missing
  else if longestPath < path.utf8ByteSize then .error .nameTooLong
  else
    let start := if path.toList.head? = some '/' then [] else f.workingDirectory
    follow f purpose start (names path.toList)

def read (f : FileSystem) (path : String) : Except Refusal (List UInt8) :=
  match f.find .reading path with
  | .error e => .error e
  | .ok (.file _ contents) => .ok contents
  | .ok .directory => .error .isADirectory
  | .ok (.absent _) => .error .missing

def store (f : FileSystem) (location : List String) (contents : List UInt8) : FileSystem :=
  { f with files := (location, contents) :: f.files.filter (·.1 ≠ location) }

/-- Opens a file to be filled, and leaves nothing in it. -/
def openFile (f : FileSystem) (path : String) : Except Refusal (List String × FileSystem) :=
  match f.find .writing path with
  | .error e => .error e
  | .ok (.file location _) | .ok (.absent location) => .ok (location, f.store location [])
  | .ok .directory => .error .isADirectory

theorem contents?_store (f : FileSystem) (location : List String) (contents : List UInt8) :
    (f.store location contents).contents? location = some contents := by
  simp [store, contents?]

/-- The files that are new or have other contents than before. -/
def changes (before after : FileSystem) : List (List String × List UInt8) :=
  after.files.filter fun e => before.contents? e.1 ≠ some e.2

def inside? (f : FileSystem) (location : List String) : Option (List String) :=
  if f.workingDirectory.isPrefixOf location then
    some (location.drop f.workingDirectory.length)
  else none

instance : Host (StateM FileSystem) where
  Handle := List String
  readFile path := do return ((← get).read path).mapError (⟨·, path⟩)
  openFile path := do
    match (← get).openFile path with
    | .error e => return .error e
    | .ok (location, f) =>
      set f
      return .ok location
  fill location contents := do
    modify fun f => f.store location contents
    return .ok ()
  print text := do
    modify fun f => { f with printed := f.printed ++ text }
    return .ok ()
  report text := modify fun f => { f with reported := f.reported ++ text }
  holds _ _ := return true

end FileSystem

end RuleLang.Command
