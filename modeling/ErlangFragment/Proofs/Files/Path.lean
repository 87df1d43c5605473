import Mathlib.Data.List.Infix
import ErlangFragment.Files.Path

/-! Paths by their components. The parent of a path has the same components without the last one,
and the ancestors of a path lose one after the other until only the root is left, or nothing. -/

namespace ErlangFragment.Path

/-- The root or the current directory, where the path begins with it, and the parts that are not
void. -/
def components (path : List Char) : List (List Char) :=
  let named := (parts path).filter (!isVoid ·)
  if path.head? = some '/' then ['/'] :: named
  else if (parts path).head? = some ['.'] then ['.'] :: named
  else named

variable {path parent rest x : List Char} {ps : List (List Char)}

/-! ### Parts -/

theorem parts_slash (cs : List Char) : parts ('/' :: cs) = [] :: parts cs := by simp [parts]

theorem parts_ne_nil (cs : List Char) : parts cs ≠ [] := by
  induction cs with
  | nil => simp [parts]
  | cons c cs ih =>
      by_cases hc : c = '/'
      · simp [parts, hc]
      · simp only [parts, hc, if_false]
        split <;> simp

theorem parts_cons {c : Char} (hc : c ≠ '/') (cs : List Char) :
    ∃ p ps, parts cs = p :: ps ∧ parts (c :: cs) = (c :: p) :: ps := by
  obtain ⟨p, ps, h⟩ := List.exists_cons_of_ne_nil (parts_ne_nil cs)
  exact ⟨p, ps, h, by simp [parts, hc, h]⟩

theorem slash_notMem_of_mem_parts {cs p : List Char} (h : p ∈ parts cs) : '/' ∉ p := by
  induction cs generalizing p with
  | nil =>
      obtain rfl := List.mem_singleton.mp h
      exact List.not_mem_nil
  | cons c cs ih =>
      by_cases hc : c = '/'
      · rw [hc, parts_slash, List.mem_cons] at h
        rcases h with rfl | h
        · exact List.not_mem_nil
        · exact ih h
      · obtain ⟨q, qs, hqs, hcons⟩ := parts_cons hc cs
        rw [hcons, List.mem_cons] at h
        rw [hqs] at ih
        rcases h with rfl | h
        · have hq : '/' ∉ q := ih List.mem_cons_self
          simpa [Ne.symm hc] using hq
        · exact ih (List.mem_cons_of_mem q h)

theorem parts_append_slash {p : List Char} (h : '/' ∉ p) (cs : List Char) :
    parts (p ++ '/' :: cs) = p :: parts cs := by
  induction p with
  | nil => exact parts_slash cs
  | cons c p ih =>
      simp only [List.mem_cons, not_or] at h
      obtain ⟨q, qs, hqs, hcons⟩ := parts_cons (Ne.symm h.1) (p ++ '/' :: cs)
      rw [ih h.2] at hqs
      obtain ⟨rfl, rfl⟩ := List.cons.inj hqs
      exact hcons

theorem parts_of_slash_notMem {p : List Char} (h : '/' ∉ p) : parts p = [p] := by
  induction p with
  | nil => rfl
  | cons c p ih =>
      simp only [List.mem_cons, not_or] at h
      obtain ⟨q, qs, hqs, hcons⟩ := parts_cons (Ne.symm h.1) p
      rw [ih h.2] at hqs
      obtain ⟨rfl, rfl⟩ := List.cons.inj hqs
      exact hcons

/-- A path is cut where its parts were joined. -/
theorem parts_ofParts (hne : ps ≠ []) (h : ∀ p ∈ ps, '/' ∉ p) : parts (ofParts ps) = ps := by
  induction ps with
  | nil => exact absurd rfl hne
  | cons p ps ih =>
      obtain ⟨hp, hps⟩ := List.forall_mem_cons.mp h
      cases ps with
      | nil => exact parts_of_slash_notMem hp
      | cons q qs =>
          have hq : ofParts (p :: q :: qs) = p ++ '/' :: ofParts (q :: qs) := rfl
          rw [hq, parts_append_slash hp, ih (by simp) hps]

theorem ofParts_prefix (ps qs : List (List Char)) : ofParts ps <+: ofParts (ps ++ qs) := by
  cases ps with
  | nil => exact List.nil_prefix
  | cons p ps =>
      rw [List.cons_append, ofParts_cons, ofParts_cons, List.flatMap_append, ← List.append_assoc]
      exact List.prefix_append _ _

/-! ### Where a path starts -/

theorem head?_parts_eq_dot (h : (parts path).head? = some ['.']) :
    path = ['.'] ∨ ∃ cs, path = '.' :: '/' :: cs := by
  have hpath := ofParts_parts path
  obtain ⟨p, ps, hps⟩ := List.exists_cons_of_ne_nil (parts_ne_nil path)
  rw [hps] at h hpath
  obtain rfl : p = ['.'] := by simpa using h
  cases ps with
  | nil => exact .inl hpath.symm
  | cons q qs => exact .inr ⟨ofParts (q :: qs), hpath.symm⟩

/-- The root or the current directory, where the path begins with it. -/
def leading (path : List Char) : List (List Char) :=
  if (start path).1 = [] then [] else [(start path).1]

/-- The components are the parts without the void ones, behind what leads the path. -/
theorem components_eq (path : List Char) :
    components path = leading path ++ (parts (start path).2).filter (!isVoid ·) := by
  unfold leading
  fun_cases start path with
  | case1 cs => simp [components, parts_slash, isVoid]
  | case2 => rfl
  | case3 cs =>
      have hparts : parts ('.' :: '/' :: cs) = ['.'] :: parts cs :=
        parts_append_slash (p := ['.']) (by decide) cs
      simp [components, hparts, parts_slash, isVoid]
  | case4 _ hslash hdot hdotSlash =>
      have hhead : path.head? ≠ some '/' := by
        intro h
        obtain ⟨cs, hcs⟩ := List.head?_eq_some_iff.mp h
        exact hslash cs hcs
      have hfirst : (parts path).head? ≠ some ['.'] := by
        intro h
        rcases head?_parts_eq_dot h with hd | ⟨cs, hcs⟩
        · exact hdot hd
        · exact hdotSlash cs hcs
      simp [components, hhead, hfirst]

theorem start_of_ne {cs : List Char} (hslash : ∀ ds, cs ≠ '/' :: ds) (hdot : cs ≠ ['.'])
    (hdotSlash : ∀ ds, cs ≠ '.' :: '/' :: ds) : start cs = ([], cs) := by
  fun_cases start cs with
  | case1 ds => exact absurd rfl (hslash ds)
  | case2 => exact absurd rfl hdot
  | case3 ds => exact absurd rfl (hdotSlash ds)
  | case4 => rfl

/-- A path that is cut behind its start still starts where it did, unless nothing but a dot is
left. -/
theorem start_append_prefix (hx : x <+: (start path).2) (hdot : x ≠ ['.']) :
    start ((start path).1 ++ x) = ((start path).1, x) := by
  fun_cases start path with
  | case1 cs => rfl
  | case2 =>
      obtain rfl : x = [] := List.prefix_nil.mp hx
      rfl
  | case3 cs =>
      rcases List.prefix_cons_iff.mp hx with rfl | ⟨y, rfl, -⟩
      · rfl
      · rfl
  | case4 _ hslash hsingle hdotSlash =>
      rw [start_of_ne hslash hsingle hdotSlash] at hx
      obtain ⟨more, hmore⟩ := hx
      refine start_of_ne ?_ hdot ?_
      · rintro ds rfl
        exact hslash _ hmore.symm
      · rintro ds rfl
        exact hdotSlash _ hmore.symm

/-! ### The parent -/

theorem filter_parts_ofParts (h : ∀ p ∈ ps, '/' ∉ p) :
    (parts (ofParts ps)).filter (!isVoid ·) = ps.filter (!isVoid ·) := by
  by_cases hne : ps = []
  · subst hne
    rfl
  · rw [parts_ofParts hne h]

/-- The parts of a path up to one that is not void, with the start of the path before them, are a
path with these components. -/
theorem components_append_ofParts {more : List (List Char)} (h : parts (start path).2 = ps ++ more)
    (hlast : ∀ p ∈ ps.getLast?, isVoid p = false) :
    components ((start path).1 ++ ofParts ps) = leading path ++ ps.filter (!isVoid ·) := by
  have hslash : ∀ p ∈ ps, '/' ∉ p := by
    intro p hp
    have hmem : p ∈ parts (start path).2 := h ▸ List.mem_append_left more hp
    exact slash_notMem_of_mem_parts hmem
  have hx : ofParts ps <+: (start path).2 := by
    have hpre := ofParts_prefix ps more
    rwa [← h, ofParts_parts] at hpre
  have hdot : ofParts ps ≠ ['.'] := by
    intro hd
    have hne : ps ≠ [] := by
      rintro rfl
      cases hd
    obtain rfl : ps = [['.']] := by
      rw [← parts_ofParts hne hslash, hd]
      rfl
    simpa [isVoid] using hlast ['.'] rfl
  rw [components_eq, leading, start_append_prefix hx hdot, filter_parts_ofParts hslash, leading]

/-- The parts of a path are void, or one that is not void stands before void ones. -/
theorem parts_cases (cs : List Char) :
    ((parts cs).reverse.dropWhile isVoid = [] ∧ (parts cs).filter (!isVoid ·) = []) ∨
      ∃ before last more, (parts cs).reverse.dropWhile isVoid = last :: before ∧
        parts cs = before.reverse ++ last :: more ∧ isVoid last = false ∧
        ∀ p ∈ more, isVoid p = true := by
  have hsplit := List.takeWhile_append_dropWhile (p := isVoid) (l := (parts cs).reverse)
  have hvoid : ∀ p ∈ (parts cs).reverse.takeWhile isVoid, isVoid p = true :=
    List.all_eq_true.mp List.all_takeWhile
  cases hd : (parts cs).reverse.dropWhile isVoid with
  | nil =>
      refine .inl ⟨rfl, ?_⟩
      rw [hd, List.append_nil] at hsplit
      rw [hsplit] at hvoid
      simpa [List.filter_eq_nil_iff] using hvoid
  | cons last before =>
      refine .inr ⟨before, last, ((parts cs).reverse.takeWhile isVoid).reverse, rfl, ?_, ?_, ?_⟩
      · rw [hd] at hsplit
        simpa using (congrArg List.reverse hsplit).symm
      · have hhead := List.head?_dropWhile_not isVoid (parts cs).reverse
        simpa [hd] using hhead
      · simpa using hvoid

theorem leading_cases (path : List Char) :
    (start path).1 = [] ∧ leading path = [] ∨ (start path).1 = ['.'] ∧ leading path = [['.']] ∨
      (start path).1 = ['/'] ∧ leading path = [['/']] := by
  unfold leading
  fun_cases start path with
  | case1 | case2 | case3 | case4 => simp

/-- A path with a part that is not void has a parent, with all its components but that part. -/
theorem parentOf?_of_parts {before more : List (List Char)} {last : List Char}
    (hd : (parts (start path).2).reverse.dropWhile isVoid = last :: before)
    (hparts : parts (start path).2 = before.reverse ++ last :: more) (hlast : isVoid last = false)
    (hmore : ∀ p ∈ more, isVoid p = true) :
    ∃ parent, parentOf? path = some parent ∧ components path = components parent ++ [last] := by
  have hsplit : before.reverse =
      (before.dropWhile isVoid).reverse ++ (before.takeWhile isVoid).reverse := by
    rw [← List.reverse_append, List.takeWhile_append_dropWhile]
  have hnamed : (parts (start path).2).filter (!isVoid ·) =
      (before.dropWhile isVoid).reverse.filter (!isVoid ·) ++ [last] := by
    have hbefore : (before.takeWhile isVoid).reverse.filter (!isVoid ·) = [] := by
      have hall := List.all_eq_true.mp (@List.all_takeWhile _ isVoid before)
      simpa [List.filter_eq_nil_iff] using hall
    have hbehind : more.filter (!isVoid ·) = [] := by simpa [List.filter_eq_nil_iff] using hmore
    rw [hparts, hsplit, List.filter_append, List.filter_append, hbefore, List.filter_cons, hbehind]
    simp [hlast]
  have hfront : parts (start path).2 =
      (before.dropWhile isVoid).reverse ++ ((before.takeWhile isVoid).reverse ++ last :: more) := by
    rw [hparts, hsplit, List.append_assoc]
  have hcomponents := components_append_ofParts hfront fun p hp => by
    have hhead := List.head?_dropWhile_not isVoid before
    rw [List.getLast?_reverse] at hp
    rw [Option.mem_def.mp hp] at hhead
    simpa using hhead
  refine ⟨(start path).1 ++ ofParts (before.dropWhile isVoid).reverse,
    by simp only [parentOf?, hd], ?_⟩
  rw [hcomponents, components_eq path, hnamed, List.append_assoc]

/-- The parent has the components of the path without the last. Where there is none, or only the
root, there is no parent. -/
theorem map_components_parentOf? (path : List Char) :
    (parentOf? path).map components =
      if components path = [] ∨ components path = [['/']] then none
      else some (components path).dropLast := by
  rcases parts_cases (start path).2 with
    ⟨hvoid, hnone⟩ | ⟨before, last, more, hd, hparts, hlast, hmore⟩
  · rw [components_eq, hnone]
    rcases leading_cases path with ⟨hfirst, h⟩ | ⟨hfirst, h⟩ | ⟨hfirst, h⟩ <;>
      simp [parentOf?, hvoid, hfirst, h, components, parts, isVoid]
  · obtain ⟨parent, hparent, hcomponents⟩ := parentOf?_of_parts hd hparts hlast hmore
    have hne : last ≠ ['/'] := by
      rintro rfl
      have hmem : ['/'] ∈ parts (start path).2 := by simp [hparts]
      exact slash_notMem_of_mem_parts hmem List.mem_cons_self
    rw [hparent, Option.map_some, hcomponents, List.dropLast_concat, if_neg]
    rintro (h | h)
    · simp at h
    · have hlast' := congrArg List.getLast? h
      rw [List.getLast?_concat] at hlast'
      exact hne (by simpa using hlast')

theorem components_of_parentOf?_eq_none (h : parentOf? path = none) :
    components path = [] ∨ components path = [['/']] := by
  have hmap := map_components_parentOf? path
  rw [h, Option.map_none] at hmap
  by_contra hne
  rw [if_neg hne] at hmap
  cases hmap

/-- A parent has all components but the last. -/
theorem components_of_parentOf? (h : parentOf? path = some parent) :
    components path ≠ [['/']] ∧ ∃ last, components path = components parent ++ [last] := by
  have hmap := map_components_parentOf? path
  rw [h, Option.map_some] at hmap
  split at hmap
  · cases hmap
  · next hne =>
    rw [not_or] at hne
    refine ⟨hne.2, (components path).getLast hne.1, ?_⟩
    rw [Option.some.inj hmap, List.dropLast_concat_getLast]

/-! ### The ancestors -/

/-- What is left of components that go one after the other. The root stays. -/
def levels (cs : List (List Char)) : List (List (List Char)) :=
  (cs.inits.drop (if cs.head? = some ['/'] then 1 else 0)).reverse

theorem levels_concat {cs : List (List Char)} (hne : cs ++ [x] ≠ [['/']]) :
    levels (cs ++ [x]) = (cs ++ [x]) :: levels cs := by
  have hinits : (cs ++ [x]).inits = cs.inits ++ [cs ++ [x]] := by simp [List.inits_append]
  cases cs with
  | nil =>
      have hx : x ≠ ['/'] := by simpa using hne
      simp [levels, hx]
  | cons c cs =>
      rw [levels, hinits, List.drop_append_of_le_length (by split <;> simp), List.reverse_append]
      rfl

/-- The ancestors of a path have the first of its components, from all of them down to the root or
to none. -/
theorem map_components_ancestors (path : String) :
    (ancestors path).map (components ·.toList) = levels (components path.toList) := by
  induction path using ancestors.induct with
  | case1 path ih =>
      rw [ancestors]
      cases hp : parent? path with
      | none =>
          have hnone : parentOf? path.toList = none := Option.map_eq_none_iff.mp hp
          rcases components_of_parentOf?_eq_none hnone with h | h <;> simp [h, levels]
      | some parent =>
          obtain ⟨cs, hcs, rfl⟩ := Option.map_eq_some_iff.mp hp
          obtain ⟨hne, last, hlast⟩ := components_of_parentOf? hcs
          have hparent := ih _ hp
          rw [String.toList_ofList] at hparent
          rw [hlast] at hne
          rw [List.map_cons, hparent, hlast, levels_concat hne]

end ErlangFragment.Path
