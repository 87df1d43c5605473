import ErlangFragment.Diagnostic
import ErlangFragment.Files
import ErlangFragment.Files.Path
import ErlangFragment.Toml.Document

/-! Settings and the file that holds them. The nearest such file counts, from a directory upward to
the root of its repository. -/

namespace ErlangFragment

/-- How results are written. -/
inductive OutputFormat
  | text | json
deriving DecidableEq

/-- The format of a name, in lower case only. -/
def OutputFormat.ofName? (name : String) : Option OutputFormat :=
  if name = "text" then some .text else if name = "json" then some .json else none

/-- The settings of a run. -/
structure Settings where
  format : OutputFormat
  startLine : Nat
  /-- The directory that units are loaded from. -/
  loaderDir : String
deriving DecidableEq

/-- Why a file gives no settings. -/
inductive SettingsFault
  | unreadable (cause : FileError)
  | invalid
  | zeroStartLine
deriving DecidableEq

/-- A fault with the file it is in. -/
structure SettingsError where
  fault : SettingsFault
  path : String
deriving DecidableEq

namespace Settings

/-- The settings where there is no file, and of each key that a file leaves out. -/
def default : Settings := ⟨.text, 1, "."⟩

/-- The name of the file in its directory. -/
def fileName : String := "erlscope.toml"

end Settings

namespace SettingsError

def message (e : SettingsError) : String :=
  Settings.fileName ++
    match e.fault with
    | .unreadable cause => ": could not read file: " ++ cause.text
    | .invalid => ": invalid syntax"
    | .zeroStartLine => ": [lexer] start_line must be at least 1"

def diagnostic (e : SettingsError) : Diagnostic := .config e.message e.path

end SettingsError

namespace Settings

open Toml (Value)

/-- A format by its name, or as the only key of a table with nothing under it. -/
def formatOf? : Value → Option OutputFormat
  | .string name => OutputFormat.ofName? name
  | .table [(name, .table [])] => OutputFormat.ofName? name
  | .table [(name, .array [])] => OutputFormat.ofName? name
  | _ => none

/-- A line that fits 32 bits. Zero does, and is refused later with a message of its own. -/
def startLineOf? : Value → Option Nat
  | .integer n => if 0 ≤ n && n ≤ lastLine then some n.toNat else none
  | _ => none

def directoryOf? : Value → Option String
  | .string text => some text
  | _ => none

/-- The one setting of a section: a table that may have its key, or an array that begins with its
value. -/
def sectionValue {α : Type} (key : String) (read? : Value → Option α) :
    Option Value → Option (Option α)
  | none => some none
  | some (.table entries) =>
    if entries.all fun (k, _) => k = key then
      match entries.lookup key with
      | none => some none
      | some v => (read? v).map some
    else none
  | some (.array (v :: _)) => (read? v).map some
  | some _ => none

/-- What the text says, where it says it. -/
structure Written where
  format : Option OutputFormat
  startLine : Option Nat
  directory : Option String

/-- What a text of TOML says. Sections and keys that are unknown make it invalid. -/
def written? (text : String) : Option Written := do
  let root ← Toml.parse? text
  if root.all fun (k, _) => ["output", "lexer", "loader"].contains k then
    let format ← sectionValue "format" formatOf? (root.lookup "output")
    let startLine ← sectionValue "start_line" startLineOf? (root.lookup "lexer")
    let directory ← sectionValue "dir" directoryOf? (root.lookup "loader")
    some ⟨format, startLine, directory⟩
  else none

/-- The settings in a text from the given path. A relative directory is meant inside `baseDir`. -/
def ofText (text path baseDir : String) : Except SettingsError Settings :=
  match written? text with
  | none => .error ⟨.invalid, path⟩
  | some w =>
    let startLine := w.startLine.getD default.startLine
    if startLine = 0 then .error ⟨.zeroStartLine, path⟩
    else
      .ok ⟨w.format.getD default.format, startLine,
        (w.directory.map (Path.join baseDir)).getD default.loaderDir⟩

variable {m : Type → Type} [Monad m]

/-- The settings in a file. Its own directory is the base of relative ones. -/
def load (files : Files m) (path : String) : m (Except SettingsError Settings) := do
  match ← files.read path with
  | .error cause => return .error ⟨.unreadable cause, path⟩
  | .ok text => return ofText text path ((Path.parent? path).getD ".")

/-- The file of the first directory that has one, up to the first with an entry `.git`. -/
def nearest? (files : Files m) : List String → m (Option String)
  | [] => return none
  | directory :: others => do
    let candidate := Path.join directory fileName
    if ← files.isFile candidate then return some candidate
    else if ← files.present (Path.join directory ".git") then return none
    else nearest? files others

/-- The settings that hold in a directory. -/
def discover (files : Files m) (directory : String) : m (Except SettingsError Settings) := do
  match ← nearest? files (Path.ancestors directory) with
  | some path => load files path
  | none => return .ok default

end Settings

end ErlangFragment
