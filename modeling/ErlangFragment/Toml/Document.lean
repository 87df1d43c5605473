import ErlangFragment.Toml.Scalar

/-! Documents in TOML: keys, containers, and the lines that fill the tables. -/

namespace ErlangFragment.Toml

def isBareKeyChar (c : Char) : Bool := c.isAlphanum || c = '_' || c = '-'

/-- A comment, without the end of its line. -/
def skipComment : List Char → List Char
  | '#' :: cs => cs.dropWhile isPrintable
  | cs => cs

/-- The end of a line: blanks, a comment, and a line break or the end of the text. -/
def lineEnd (cs : List Char) : Option (List Char) :=
  match skipComment (skipBlanks cs) with
  | [] => some []
  | rest => newline? rest

/-- Skips blanks, comments and line breaks, at most `n` lines of them. -/
def skipLines : Nat → List Char → List Char
  | 0, cs => cs
  | n + 1, cs =>
    let rest := skipComment (skipBlanks cs)
    match newline? rest with
    | some more => skipLines n more
    | none => rest

def skipSpace (cs : List Char) : List Char := skipLines cs.length cs

/-! ### Keys -/

def simpleKey : Reader String := fun cs =>
  let bare := cs.takeWhile isBareKeyChar
  if bare = [] then lineString cs else some (String.ofList bare, cs.dropWhile isBareKeyChar)

/-- At most `n` keys with dots between them, and blanks around each. -/
def keys : Nat → Reader (List String)
  | 0, _ => none
  | n + 1, cs => do
    let (key, rest) ← simpleKey (skipBlanks cs)
    match skipBlanks rest with
    | '.' :: more =>
      let (path, rest) ← keys n more
      some (key :: path, rest)
    | rest => some ([key], rest)

/-- How deep arrays and inline tables may be nested, and how many keys may stand in a dotted key. -/
def nestingLimit : Nat := 79

/-- A dotted key, as the keys before the last one and the last. -/
def dottedKey : Reader (List String × String) := fun cs => do
  let (path, rest) ← keys nestingLimit cs
  let key ← path.getLast?
  some ((path.dropLast, key), rest)

/-! ### Containers -/

section

variable (value : Reader Value)

/-- At most `n` items of an array and its closing bracket. -/
def arrayItems : Nat → Reader (List Value)
  | 0, _ => none
  | n + 1, cs =>
    match skipSpace cs with
    | ']' :: rest => some ([], rest)
    | cs => do
      let (v, rest) ← value cs
      match skipSpace rest with
      | ',' :: rest =>
        let (vs, rest) ← arrayItems n rest
        some (v :: vs, rest)
      | ']' :: rest => some ([v], rest)
      | _ => none

/-- A key and its value. -/
def keyValue : Reader ((List String × String) × Value) := fun cs => do
  let (key, rest) ← dottedKey cs
  match rest with
  | '=' :: rest =>
    let (v, rest) ← value (skipBlanks rest)
    some ((key, v), rest)
  | _ => none

/-- At most `n` further pairs of an inline table, each added to the entries, and its closing
brace. -/
def tableItems : Nat → Entries → Reader Entries
  | 0, _, _ => none
  | n + 1, es, cs => do
    let (((path, key), v), rest) ← keyValue value cs
    let es ← Entries.insert v path key es
    match skipBlanks rest with
    | ',' :: rest => tableItems n es rest
    | '}' :: rest => some (es, rest)
    | _ => none

end

/-- A value whose arrays and inline tables are nested at most `n` deep. -/
def valueWithin : Nat → Reader Value
  | 0, cs => scalar cs
  | n + 1, cs =>
    match cs with
    | '[' :: rest =>
        (arrayItems (valueWithin n) (rest.length + 1) rest).map fun (vs, rest) => (.array vs, rest)
    | '{' :: rest =>
      match skipBlanks rest with
      | '}' :: rest => some (.table [], rest)
      | _ =>
        (tableItems (valueWithin n) (rest.length + 1) [] rest).map fun (es, rest) =>
          (.table (Entries.values es), rest)
    | _ => scalar cs

def value : Reader Value := valueWithin nestingLimit

/-! ### Documents -/

/-- A document that has been read in part: the whole table, and the header that the next keys belong
to. -/
structure Progress where
  root : Entries
  header : List String

/-- A header between brackets, and the end of its line. -/
def header (p : Progress) : List Char → Option (Progress × List Char)
  | '[' :: cs => do
    let ((path, key), rest) ← dottedKey cs
    match rest with
    | ']' :: ']' :: rest =>
        some (⟨← Entries.openTables path key p.root, path ++ [key]⟩, ← lineEnd rest)
    | _ => none
  | cs => do
    let ((path, key), rest) ← dottedKey cs
    match rest with
    | ']' :: rest => some (⟨← Entries.openTable path key p.root, path ++ [key]⟩, ← lineEnd rest)
    | _ => none

/-- A key with its value, and the end of its line. -/
def assignment (p : Progress) (cs : List Char) : Option (Progress × List Char) := do
  let (((path, key), v), rest) ← keyValue value cs
  let root ← Entries.modify (Entries.insert v path key) p.header p.root
  some (⟨root, p.header⟩, ← lineEnd rest)

/-- At most `n` lines and the end of the text. -/
def document : Nat → Progress → List Char → Option Entries
  | 0, _, _ => none
  | n + 1, p, cs =>
    match skipBlanks cs with
    | [] => some p.root
    | '[' :: rest => do
      let (p, rest) ← header p rest
      document n p rest
    | rest =>
      match lineEnd rest with
      | some more => document n p more
      | none => do
        let (p, rest) ← assignment p rest
        document n p rest

/-- The mark that may stand before the text. -/
def dropByteOrderMark : List Char → List Char
  | c :: cs => if c = '\ufeff' then cs else c :: cs
  | [] => []

/-- The table that a text defines, if it is well formed. -/
def parse? (text : String) : Option (List (String × Value)) :=
  let cs := dropByteOrderMark text.toList
  (document (cs.length + 1) ⟨[], []⟩ cs).map Entries.values

end ErlangFragment.Toml
