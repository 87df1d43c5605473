/-! Values of configuration text in TOML, and tables while they are being defined. What a key may
still be used for depends on how its table came about. -/

namespace ErlangFragment.Toml

/-- A value as it is read out of a finished text. -/
inductive Value where
  | string (text : String)
  | integer (value : Int)
  | boolean (value : Bool)
  /-- A number with a fraction or an exponent, or one that is no finite number. -/
  | float
  | dateTime
  | array (items : List Value)
  | table (entries : List (String × Value))

/-- How a table came about. -/
inductive Origin
  /-- It has a header of its own. -/
  | header
  /-- It is on the way to the table of a header. -/
  | implicit
  /-- It is on the way of a dotted key. -/
  | dotted
deriving DecidableEq

/-- What a key stands for while the text is being read. -/
inductive Item where
  | value (v : Value)
  | table (origin : Origin) (entries : List (String × Item))
  /-- The tables with the same double bracketed header, the latest first. -/
  | tables (latest : List (String × Item)) (earlier : List (List (String × Item)))

/-- The items of a table, in the order of their keys' first use. -/
abbrev Entries := List (String × Item)

namespace Entries

/-- Changes the item of a key. `none` stands for no item before, and for a refusal afterwards. -/
def alter (key : String) (f : Option Item → Option Item) : Entries → Option Entries
  | [] => (f none).map fun item => [(key, item)]
  | (k, item) :: es =>
    if k = key then (f (some item)).map fun item => (k, item) :: es
    else (alter key f es).map ((k, item) :: ·)

/-- Adds a value under a dotted key. The last table on its way must have come about by dotted
keys. -/
def insert (value : Value) : (path : List String) → (key : String) → Entries → Option Entries
  | [], key => alter key fun
    | none => some (.value value)
    | some _ => none
  | p :: path, key => alter p fun
    | none => (insert value path key []).map (.table .dotted)
    | some (.table .dotted es) => (insert value path key es).map (.table .dotted)
    | some (.table .implicit es) =>
      if path = [] then none else (insert value path key es).map (.table .implicit)
    | some (.tables es earlier) =>
      if path = [] then none else (insert value path key es).map (.tables · earlier)
    | some _ => none

/-- Changes the table that the keys of a header lead to. -/
def modify (f : Entries → Option Entries) : List String → Entries → Option Entries
  | [] => f
  | p :: path => alter p fun
    | none => (modify f path []).map (.table .implicit)
    | some (.table origin es) => (modify f path es).map (.table origin)
    | some (.tables es earlier) => (modify f path es).map (.tables · earlier)
    | some (.value _) => none

/-- Opens the table of a header. A table has one header, and none after dotted keys have made it. -/
def openTable (path : List String) (key : String) : Entries → Option Entries :=
  modify
    (alter key fun
      | none => some (.table .header [])
      | some (.table .implicit es) => some (.table .header es)
      | some _ => none)
    path

/-- Opens a further table of a double bracketed header. -/
def openTables (path : List String) (key : String) : Entries → Option Entries :=
  modify
    (alter key fun
      | none => some (.tables [] [])
      | some (.tables es earlier) => some (.tables [] (es :: earlier))
      | some _ => none)
    path

mutual

def itemValue : Item → Value
  | .value v => v
  | .table _ es => .table (values es)
  | .tables es earlier => .array ((.table (values es) :: tables earlier).reverse)

def values : List (String × Item) → List (String × Value)
  | [] => []
  | (k, item) :: es => (k, itemValue item) :: values es

def tables : List (List (String × Item)) → List Value
  | [] => []
  | es :: rest => .table (values es) :: tables rest

end

end Entries

end ErlangFragment.Toml
