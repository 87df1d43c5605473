import ErlangFragment.Command.Arguments
import ErlangFragment.Command.Headline
import ErlangFragment.FreeVariables
import ErlangFragment.Loader
import ErlangFragment.Printer
import ErlangFragment.Split
import ErlangFragment.Tree.Encoding

/-! Running a command: what it prints, or the error that it ends with. Logging is left out. -/

namespace ErlangFragment

/-- The program seen from outside. -/
structure Outcome where
  exitCode : Nat
  output : String
  report : Option Report
deriving DecidableEq

/-- What a command can reach. -/
structure World (m : Type → Type) where
  files : Files m
  standardInput : m (Except FileError String)
  currentDirectory : String

namespace Command

def versionText : String := "erlscope 0.1.0\n"

def success (output : String) : Outcome := ⟨0, output, none⟩

def failure (report : Report) : Outcome := ⟨1, "", some report⟩

/-- The failure with an error in a source. -/
def failIn (source : String) (d : Diagnostic) : Outcome := failure (.ofDiagnostic source d)

def jsonOutput (j : Json) : String := j.text ++ "\n"

/-- The text after blanks that fill it up to `width` characters. -/
def padLeft (width : Nat) (text : String) : String :=
  String.ofList (List.replicate (width - text.length) ' ') ++ text

/-! ### Output of the commands -/

def freeVarsOutput (format : OutputFormat) (names : Names) : String :=
  match format with
  | .json => jsonOutput (.array (names.map .string))
  | .text => String.join (names.map (· ++ "\n"))

def snippetOutput (format : OutputFormat) (e : Located Expr) : String :=
  match format with
  | .json => jsonOutput (Encoding.expr e)
  | .text => prettyExpr e ++ "\n"

def formsOutput (format : OutputFormat) (fs : List (Located Form)) : String :=
  match format with
  | .json => jsonOutput (.array (fs.map Encoding.form))
  | .text => prettyForms fs

/-- A part of a split under a comment with its name and size. -/
def partText (label : String) (fs : List (Located Form)) : String :=
  "%% " ++ label ++ " (" ++ Nat.repr fs.length ++ " declarations)\n" ++ prettyForms fs

def splitOutput (format : OutputFormat) (s : Split) : String :=
  match format with
  | .json =>
    jsonOutput (Json.sorted (.object [("before", .array (s.before.map Encoding.form)),
      ("matched", Encoding.form s.matched), ("after", .array (s.after.map Encoding.form))]))
  | .text => partText "before" s.before ++ partText "matched" [s.matched] ++
      partText "after" s.after

def tokensOutput (format : OutputFormat) (tokens : List (Located Token)) (endLine : Nat) : String :=
  match format with
  | .json =>
    let row (t : Located Token) : Json :=
      .object [("line", .nat t.span.line), ("text", .string t.node.text)]
    jsonOutput (Json.sorted (.object
      [("tokens", .array (tokens.map row)), ("end_line", .nat endLine)]))
  | .text =>
    String.join (tokens.map fun t =>
      padLeft 5 (Nat.repr t.span.line) ++ "  " ++ t.node.text ++ "\n")

/-! ### The commands -/

def freeVarsOutcome (format : OutputFormat) (startLine : Nat) (source : String) : Outcome :=
  match parseSnippetAt source startLine with
  | .error e => failIn source e.diagnostic
  | .ok e =>
    match freeVariables e with
    | .error e => failIn source e.diagnostic
    | .ok names => success (freeVarsOutput format names)

def parseOutcome (format : OutputFormat) (startLine : Nat) (snippet : Bool) (source : String) :
    Outcome :=
  if snippet then
    match parseSnippetAt source startLine with
    | .error e => failIn source e.diagnostic
    | .ok e => success (snippetOutput format e)
  else
    match parseDeclarationsAt source startLine with
    | .error e => failIn source e.diagnostic
    | .ok fs => success (formsOutput format fs)

def tokensOutcome (format : OutputFormat) (startLine : Nat) (source : String) : Outcome :=
  match tokenize source startLine with
  | .error e => failIn source (SourceError.lexical e).diagnostic
  | .ok (ts, endLine) => success (tokensOutput format ts endLine)

def splitOutcome (format : OutputFormat) (unit name : String) (arity : Nat)
    (fs : List (Located Form)) : Outcome :=
  match splitAt fs name arity with
  | .error e => failure (.plain ("error: " ++ e.message ++ " in unit '" ++ unit ++ "'\n"))
  | .ok s => success (splitOutput format s)

section

variable {m : Type → Type} [Monad m] (world : World m)

/-- The text of a file, or of the standard input for a hyphen. -/
def readInput (file : String) : m (Except Diagnostic String) := do
  if file = "-" then
    return (← world.standardInput).mapError fun e => .io ("could not read stdin: " ++ e.text) "-"
  else
    return (← world.files.read file).mapError fun e => .io ("could not read file: " ++ e.text) file

/-- Runs on an input that can be read. -/
def onInput (file : String) (run : String → Outcome) : m Outcome := do
  match ← readInput world file with
  | .error d => return failIn "" d
  | .ok source => return run source

def loadAndSplit (format : OutputFormat) (directory unit name : String) (arity : Nat) :
    m Outcome := do
  match ← loadUnit world.files directory unit with
  | .ok fs => return splitOutcome format unit name arity fs
  | .error e =>
    match ← world.files.read (unitPath directory unit) with
    | .ok source => return failIn source e.diagnostic
    | .error _ => return failIn "" e.diagnostic

def runWith (settings : Settings) (format : OutputFormat) : Command → m Outcome
  | .freeVars file => onInput world file (freeVarsOutcome format settings.startLine)
  | .parse file snippet => onInput world file (parseOutcome format settings.startLine snippet)
  | .split unit name arity directory =>
    loadAndSplit world format (directory.getD settings.loaderDir) unit name arity
  | .tokens file startLine =>
      onInput world file (tokensOutcome format (startLine.getD settings.startLine))

/-- Runs the command that the arguments ask for. The settings are read first. -/
def run (args : List String) : m Outcome := do
  match Arguments.parse args with
  | .error .usage => return ⟨2, "", none⟩
  | .error .version => return success versionText
  | .ok invocation =>
    let settings ←
      match invocation.config with
      | some path => Settings.load world.files path
      | none => Settings.discover world.files world.currentDirectory
    match settings with
    | .error e => return failIn "" e.diagnostic
    | .ok settings =>
        runWith world settings (invocation.format.getD settings.format) invocation.command

end

end Command

end ErlangFragment
