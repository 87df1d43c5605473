/-! Paths as text, with `/` between their parts. Nothing is looked up: what a path leads to is a
matter of the files. -/

namespace ErlangFragment.Path

/-- A path inside a directory. An absolute path stands for itself. -/
def join (directory path : String) : String :=
  if path.startsWith "/" || directory = "" then path
  else if directory.endsWith "/" then directory ++ path
  else directory ++ "/" ++ path

/-- The parts between slashes. -/
def parts : List Char → List (List Char)
  | [] => [[]]
  | c :: cs =>
    if c = '/' then [] :: parts cs
    else
      match parts cs with
      | [] => [[c]]
      | p :: ps => (c :: p) :: ps

def ofParts : List (List Char) → List Char
  | [] => []
  | [p] => p
  | p :: ps => p ++ '/' :: ofParts ps

/-- Parts that change nothing: between two slashes, or `.`. -/
def isVoid (part : List Char) : Bool := part = [] || part = ['.']

/-- The root or the current directory, where a path begins with it, and what comes behind. -/
def start : List Char → List Char × List Char
  | '/' :: cs => (['/'], cs)
  | ['.'] => (['.'], [])
  | '.' :: '/' :: cs => (['.'], '/' :: cs)
  | cs => ([], cs)

/-- The path without its last part. The root and the empty path have none to lose. -/
def parentOf? (path : List Char) : Option (List Char) :=
  let (first, rest) := start path
  match (parts rest).reverse.dropWhile isVoid with
  | _ :: before => some (first ++ ofParts (before.dropWhile isVoid).reverse)
  | [] => if first = ['.'] then some [] else none

def parent? (path : String) : Option String := (parentOf? path.toList).map String.ofList

theorem ofParts_parts (cs : List Char) : ofParts (parts cs) = cs := by
  induction cs with
  | nil => rfl
  | cons c cs ih =>
    have hne : parts cs ≠ [] := by cases cs <;> simp only [parts] <;> grind
    cases hp : parts cs with
    | nil => exact absurd hp hne
    | cons p ps =>
      rw [hp] at ih
      by_cases hc : c = '/'
      · simp [parts, hc, hp, ofParts, ih]
      · cases ps <;> simp_all [parts, ofParts]

theorem ofParts_cons (p : List Char) (ps : List (List Char)) :
    ofParts (p :: ps) = p ++ ps.flatMap fun q => '/' :: q := by
  induction ps generalizing p with
  | nil => simp [ofParts]
  | cons q qs ih => simp [ofParts, ih]

theorem start_append (path : List Char) : (start path).1 ++ (start path).2 = path := by
  fun_cases start path <;> simp

theorem length_le_ofParts {p : List Char} {ps : List (List Char)} (h : p ∈ ps) :
    p.length ≤ (ofParts ps).length := by
  induction ps with
  | nil => simp at h
  | cons q qs ih =>
    cases qs with
    | nil => simp_all [ofParts]
    | cons r rs =>
      simp only [ofParts, List.length_append, List.length_cons]
      rcases List.mem_cons.1 h with rfl | h
      · omega
      · have := ih h
        omega

/-- Parts that are cut off the end take characters with them. -/
theorem length_ofParts_lt {p : List Char} (ps qs : List (List Char)) (h : p ∈ qs) (hp : p ≠ []) :
    (ofParts ps).length < (ofParts (ps ++ qs)).length := by
  have hpos := List.length_pos_iff.2 hp
  cases ps with
  | nil =>
    have := length_le_ofParts h
    simp only [List.nil_append, ofParts, List.length_nil]
    omega
  | cons q rest =>
    cases qs with
    | nil => simp at h
    | cons r rs =>
      simp only [List.cons_append, ofParts_cons, List.flatMap_append, List.flatMap_cons,
        List.length_append, List.length_cons]
      omega

theorem parentOf?_length {path parent : List Char} (h : parentOf? path = some parent) :
    parent.length < path.length := by
  have hs := congrArg List.length (start_append path)
  simp only [List.length_append] at hs
  unfold parentOf? at h
  simp only at h
  split at h
  · rename_i last before hd
    obtain rfl := Option.some.inj h
    have hlast : isVoid last = false := by
      have := List.head?_dropWhile_not isVoid (parts (start path).2).reverse
      simpa [hd] using this
    have hne : last ≠ [] := by rintro rfl; simp [isVoid] at hlast
    have hparts : parts (start path).2 = (before.dropWhile isVoid).reverse ++
        ((before.takeWhile isVoid).reverse ++ last ::
          ((parts (start path).2).reverse.takeWhile isVoid).reverse) := by
      have h1 := List.takeWhile_append_dropWhile (p := isVoid) (l := (parts (start path).2).reverse)
      have h2 := List.takeWhile_append_dropWhile (p := isVoid) (l := before)
      rw [hd, ← h2] at h1
      have h3 := congrArg List.reverse h1
      simp only [List.reverse_append, List.reverse_cons, List.reverse_reverse] at h3
      simpa only [List.append_assoc, List.singleton_append] using h3.symm
    have hlt := length_ofParts_lt (before.dropWhile isVoid).reverse
      ((before.takeWhile isVoid).reverse ++ last ::
        ((parts (start path).2).reverse.takeWhile isVoid).reverse) (by simp) hne
    rw [← hparts, ofParts_parts] at hlt
    simp only [List.length_append]
    omega
  · split at h
    · rename_i hf
      obtain rfl := Option.some.inj h
      simp only [hf, List.length_singleton] at hs
      simp
      omega
    · simp at h

theorem parent?_length {path parent : String} (h : parent? path = some parent) :
    parent.length < path.length := by
  obtain ⟨cs, hcs, rfl⟩ := Option.map_eq_some_iff.1 h
  simpa only [← String.length_toList, String.toList_ofList] using parentOf?_length hcs

/-- The path, its parent, the parent of that, and so on. -/
def ancestors (path : String) : List String :=
  path ::
    match _h : parent? path with
    | none => []
    | some parent => ancestors parent
termination_by path.length
decreasing_by exact parent?_length _h

end ErlangFragment.Path
