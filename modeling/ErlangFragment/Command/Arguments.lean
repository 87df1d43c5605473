import ErlangFragment.Settings

/-! Arguments of the command line. -/

namespace ErlangFragment

/-- A command with its own arguments. The file `-` is the standard input. -/
inductive Command
  | freeVars (file : String)
  | parse (file : String) (snippet : Bool)
  | split (unit name : String) (arity : Nat) (directory : Option String)
  | tokens (file : String) (startLine : Option Nat)
deriving DecidableEq

/-- A command, and the options that every command has. -/
structure Invocation where
  format : Option OutputFormat
  config : Option String
  command : Command
deriving DecidableEq

/-- Arguments that do not ask for a command. -/
inductive Refusal
  | usage | version
deriving DecidableEq

namespace Arguments

/-- A decimal number with an optional plus sign, up to `greatest`. -/
def number? (greatest : Nat) (text : String) : Option Nat :=
  let digits :=
    match text.toList with
    | '+' :: cs => cs
    | cs => cs
  let n := Radix.value 10 digits
  if digits ≠ [] && digits.all Char.isDigit && n ≤ greatest then some n else none

/-- Options that take a value. -/
inductive Setting
  | format | config | directory | startLine
deriving DecidableEq

/-- Options that take none. -/
inductive Switch
  | verbose | snippet
deriving DecidableEq

/-- What is given at one level: before the command, or behind it. -/
structure Level where
  format : Option OutputFormat := none
  config : Option String := none
  directory : Option String := none
  startLine : Option Nat := none
  snippet : Bool := false
  /-- Arguments that are no options, the latest first. -/
  words : List String := []

/-- The options that a level knows, and whether it stands before the command. -/
structure Grammar where
  settings : List Setting
  switches : List Switch
  beforeCommand : Bool

def settingNamed? : String → Option Setting
  | "format" => some .format
  | "config" => some .config
  | "dir" => some .directory
  | "start-line" => some .startLine
  | _ => none

def switchNamed? : String → Option Switch
  | "verbose" => some .verbose
  | "expr" => some .snippet
  | _ => none

/-- A value that is given for the first time. -/
def once {α : Type} (old : Option α) (new : Option α) : Except Refusal (Option α) :=
  match old, new with
  | none, some a => .ok (some a)
  | _, _ => .error .usage

def nonempty? (text : String) : Option String := if text = "" then none else some text

/-- Sets an option that takes a value. None may be given twice at one level. -/
def set (l : Level) (s : Setting) (value : String) : Except Refusal Level :=
  match s with
  | .format => (once l.format (OutputFormat.ofName? value)).map fun v => { l with format := v }
  | .config => (once l.config (nonempty? value)).map fun v => { l with config := v }
  | .directory => (once l.directory (nonempty? value)).map fun v => { l with directory := v }
  | .startLine =>
    (once l.startLine ((number? lastLine value).filter (0 < ·))).map fun v =>
      { l with startLine := v }

/-- Counting switches may be repeated. -/
def turnOn (l : Level) : Switch → Except Refusal Level
  | .verbose => .ok l
  | .snippet => if l.snippet then .error .usage else .ok { l with snippet := true }

/-- Whether an argument is an option and no value. A lone hyphen is a value. -/
def isOption (a : String) : Bool := a.startsWith "-" && a ≠ "-"

/-- The name of a long option and the value behind its equals sign. -/
def longOption (a : String) : String × Option String :=
  let cs := a.toList.drop 2
  let name := String.ofList (cs.takeWhile (· ≠ '='))
  match cs.dropWhile (· ≠ '=') with
  | _ :: value => (name, some (String.ofList value))
  | [] => (name, none)

/-- Short options behind one hyphen. -/
def shortOptions (g : Grammar) (l : Level) : List Char → Except Refusal Level
  | [] => .ok l
  | c :: cs =>
    if c = 'v' then shortOptions g l cs
    else if c = 'V' && g.beforeCommand then .error .version
    else .error .usage

/-- Reads the arguments of one level, and gives those that are left when the command is reached. -/
def readLevel (g : Grammar) (l : Level) : List String → Except Refusal (Level × List String)
  | [] => .ok (l, [])
  | a :: as =>
    if a = "--" then
      if g.beforeCommand then .error .usage else .ok ({ l with words := as.reverse ++ l.words }, [])
    else if a.startsWith "--" then
      let (name, value?) := longOption a
      match settingNamed? name, switchNamed? name with
      | some s, _ =>
        if g.settings.contains s then
          match value?, as with
          | some value, as => do readLevel g (← set l s value) as
          | none, value :: as =>
            if isOption value then .error .usage else do readLevel g (← set l s value) as
          | none, [] => .error .usage
        else .error .usage
      | none, some s =>
        if g.switches.contains s && value?.isNone then do readLevel g (← turnOn l s) as
        else .error .usage
      | none, none =>
        if name = "version" && g.beforeCommand && value?.isNone then .error .version
        else .error .usage
    else if isOption a then do readLevel g (← shortOptions g l (a.toList.drop 1)) as
    else if g.beforeCommand then .ok (l, a :: as)
    else readLevel g { l with words := a :: l.words } as

/-- The options before the command. -/
def global : Grammar := ⟨[.format, .config], [.verbose], true⟩

/-- The options behind a command. -/
def grammarOf? : String → Option Grammar
  | "free-vars" => some ⟨[.format, .config], [.verbose], false⟩
  | "parse" => some ⟨[.format, .config], [.verbose, .snippet], false⟩
  | "split" => some ⟨[.format, .config, .directory], [.verbose], false⟩
  | "tokens" => some ⟨[.format, .config, .startLine], [.verbose], false⟩
  | _ => none

/-- The greatest arity that can be asked for. -/
def greatestArity : Nat := 18446744073709551615

def commandOf? (name : String) (l : Level) : Option Command :=
  match name, l.words.reverse with
  | "free-vars", [] => some (.freeVars "-")
  | "free-vars", [file] => some (.freeVars file)
  | "parse", [] => some (.parse "-" l.snippet)
  | "parse", [file] => some (.parse file l.snippet)
  | "split", [unit, name, arity] =>
    (number? greatestArity arity).map fun n => .split unit name n l.directory
  | "tokens", [] => some (.tokens "-" l.startLine)
  | "tokens", [file] => some (.tokens file l.startLine)
  | _, _ => none

/-- The command that the arguments ask for. Behind the command an option counts more than before
it. -/
def parse (args : List String) : Except Refusal Invocation := do
  let (before, rest) ← readLevel global {} args
  match rest with
  | [] => .error .usage
  | name :: rest =>
    match grammarOf? name with
    | none => .error .usage
    | some g =>
      let (behind, _) ← readLevel g {} rest
      match commandOf? name behind with
      | none => .error .usage
      | some command =>
        .ok ⟨behind.format <|> before.format, behind.config <|> before.config, command⟩

end Arguments

end ErlangFragment
