/-! Stacks of frames that bind names to values. A name means what the innermost frame that binds it
says. -/

namespace ErlangFragment

/-- The bindings of one frame, the latest first. -/
abbrev Frame (α : Type) := List (String × α)

/-- Frames, the innermost first. -/
structure Scope (α : Type) where
  frames : List (Frame α)

namespace Scope

variable {α : Type}

/-- One empty frame. -/
def initial : Scope α := ⟨[[]]⟩

/-- Opens an empty frame. -/
def push (s : Scope α) : Scope α := ⟨[] :: s.frames⟩

/-- Forgets the innermost frame, if there is one. -/
def pop (s : Scope α) : Scope α := ⟨s.frames.tail⟩

/-- Binds a name in the innermost frame, which is made if there is none. -/
def insert (s : Scope α) (name : String) (value : α) : Scope α :=
  match s.frames with
  | [] => ⟨[[(name, value)]]⟩
  | f :: fs => ⟨((name, value) :: f) :: fs⟩

/-- The value of the innermost binding of a name. -/
def lookup? (s : Scope α) (name : String) : Option α :=
  s.frames.findSome? fun f => f.lookup name

/-- Whether any frame binds the name. -/
def contains (s : Scope α) (name : String) : Bool := (s.lookup? name).isSome

def depth (s : Scope α) : Nat := s.frames.length

end Scope

end ErlangFragment
