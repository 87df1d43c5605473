/-! Access to files by path, in any monad, and what keeps a file from being read. -/

namespace ErlangFragment

/-- Why a file cannot be read. -/
inductive FileError
  | missing | isDirectory | notDirectory | notUtf8 | nameTooLong | nulInName
deriving DecidableEq

/-- The cause in the words of the system. -/
def FileError.text : FileError → String
  | missing => "No such file or directory (os error 2)"
  | isDirectory => "Is a directory (os error 21)"
  | notDirectory => "Not a directory (os error 20)"
  | notUtf8 => "stream did not contain valid UTF-8"
  | nameTooLong => "File name too long (os error 36)"
  | nulInName => "file name contained an unexpected NUL byte"

/-- What is asked of a file system. -/
structure Files (m : Type → Type) where
  /-- The text of a file. -/
  read : String → m (Except FileError String)
  /-- Whether the path leads to a regular file. -/
  isFile : String → m Bool
  /-- Whether the path leads to anything. -/
  present : String → m Bool

end ErlangFragment
