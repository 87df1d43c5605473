import ErlangFragment.Tree

/-! Lists of forms cut around one function. -/

namespace ErlangFragment

/-- The forms before a function, the function, and the forms behind it. -/
structure Split where
  before : List (Located Form)
  matched : Located Form
  after : List (Located Form)

/-- The forms in their order. -/
def Split.forms (s : Split) : List (Located Form) := s.before ++ s.matched :: s.after

/-- No function has the name and arity asked for. -/
structure NotFound where
  name : String
  arity : Nat
deriving DecidableEq

def NotFound.message (e : NotFound) : String := "no function " ++ e.name ++ "/" ++ Nat.repr e.arity

/-- Cuts the forms around the first function with the name and arity. -/
def splitAt (forms : List (Located Form)) (name : String) (arity : Nat) : Except NotFound Split :=
  match forms with
  | [] => .error ⟨name, arity⟩
  | f :: fs =>
    if f.node.identity? = some (name, arity) then .ok ⟨[], f, fs⟩
    else (splitAt fs name arity).map fun s => { s with before := f :: s.before }

end ErlangFragment
