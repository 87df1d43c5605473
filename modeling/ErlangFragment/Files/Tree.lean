import ErlangFragment.Files
import ErlangFragment.Files.Path
import ErlangFragment.Text.Class

/-! File trees as values. A path is looked up part by part, from the current directory or the
root. -/

namespace ErlangFragment

/-- What a place in a file tree holds. -/
inductive FileEntry
  | directory
  /-- A file and its text, or none if its bytes are no text. -/
  | file (text : Option String)
deriving DecidableEq

/-- Entries by their place below the root. Directories on the way to an entry exist as well. -/
structure FileTree where
  entries : List (List String × FileEntry)

namespace FileTree

/-- What stands at a place. -/
def entry? (t : FileTree) (place : List String) : Option FileEntry :=
  match t.entries.lookup place with
  | some e => some e
  | none => if t.entries.any fun (p, _) => place.isPrefixOf p then some .directory else none

/-- The most bytes that a part of a path may have. -/
def greatestPart : Nat := 255

/-- The most bytes that a path may have. -/
def greatestPath : Nat := 4095

/-- Follows the parts of a path from a directory. -/
def follow (t : FileTree) (place : List String) : List String → Except FileError FileEntry
  | [] => .ok .directory
  | p :: ps =>
    if p = "" || p = "." then t.follow place ps
    else if p = ".." then t.follow place.dropLast ps
    else if greatestPart < byteLength p.toList then .error .nameTooLong
    else
      match t.entry? (place ++ [p]) with
      | none => .error .missing
      | some .directory => t.follow (place ++ [p]) ps
      | some (.file text) => if ps = [] then .ok (.file text) else .error .notDirectory

/-- What a path leads to. The empty path leads nowhere. -/
def find (t : FileTree) (current : List String) (path : String) : Except FileError FileEntry :=
  if path.toList.contains '\x00' then .error .nulInName
  else if path = "" then .error .missing
  else if greatestPath < byteLength path.toList then .error .nameTooLong
  else
    t.follow (if path.startsWith "/" then [] else current)
      ((Path.parts path.toList).map String.ofList)

/-- The text of the file that the path leads to. -/
def read (t : FileTree) (current : List String) (path : String) : Except FileError String :=
  match t.find current path with
  | .error e => .error e
  | .ok .directory => .error .isDirectory
  | .ok (.file none) => .error .notUtf8
  | .ok (.file (some text)) => .ok text

def isFile (t : FileTree) (current : List String) (path : String) : Bool :=
  match t.find current path with
  | .ok (.file _) => true
  | _ => false

def present (t : FileTree) (current : List String) (path : String) : Bool :=
  match t.find current path with
  | .ok _ => true
  | .error _ => false

/-- The files of the tree, seen from a directory. -/
def files (t : FileTree) (current : List String) : Files Id where
  read path := t.read current path
  isFile path := t.isFile current path
  present path := t.present current path

end FileTree

end ErlangFragment
