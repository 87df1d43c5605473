import ErlangFragment.Files
import ErlangFragment.Files.Path
import ErlangFragment.Source

/-! Loading the forms of a unit from the directory that holds its source. -/

namespace ErlangFragment

/-- Why a unit has no forms. -/
inductive LoadError
  | unreadable (unit path : String) (cause : FileError)
  | malformed (error : SourceError)
deriving DecidableEq

def LoadError.diagnostic : LoadError → Diagnostic
  | unreadable unit path cause => .io ("could not read unit '" ++ unit ++ "': " ++ cause.text) path
  | malformed e => e.diagnostic

/-- The file of a unit. -/
def unitPath (directory unit : String) : String := Path.join directory (unit ++ ".erl")

/-- The forms of a unit, from the file that is named after it. -/
def loadUnit {m : Type → Type} [Monad m] (files : Files m) (directory unit : String) :
    m (Except LoadError (List (Located Form))) := do
  let path := unitPath directory unit
  match ← files.read path with
  | .error cause => return .error (.unreadable unit path cause)
  | .ok source => return (parseDeclarations source).mapError .malformed

end ErlangFragment
