import ErlangFragment.Proofs.Files.Path
import ErlangFragment.Settings

/-! Which file of settings holds in a directory. The search goes from the directory to its parent
and on, and each level can end it: with a file of settings, with the root of a repository, or for
want of a parent. -/

namespace ErlangFragment.Settings

/-- The directory has a file of settings. -/
def HasSettings (files : Files Id) (directory : String) : Prop :=
  (files.isFile (Path.join directory fileName)).run = true

/-- The directory is the root of a repository. -/
def IsRepository (files : Files Id) (directory : String) : Prop :=
  (files.present (Path.join directory ".git")).run = true

instance (files : Files Id) (d : String) : Decidable (HasSettings files d) :=
  inferInstanceAs (Decidable (_ = true))

instance (files : Files Id) (d : String) : Decidable (IsRepository files d) :=
  inferInstanceAs (Decidable (_ = true))

/-- The search as a loop, with a value only where the loop ends within so many rounds. -/
def search (files : Files Id) : Nat → String → Option (Option String)
  | 0, _ => none
  | rounds + 1, directory =>
      if HasSettings files directory then some (some (Path.join directory fileName))
      else if IsRepository files directory then some none
      else
        match Path.parent? directory with
        | none => some none
        | some parent => search files rounds parent

/-- Of the directories this is the first that has a file of settings, and none before it is the root
of a repository. -/
def Governs (files : Files Id) (directories : List String) (d : String) : Prop :=
  ∃ closer farther, directories = closer ++ d :: farther ∧ HasSettings files d ∧
    ∀ e ∈ closer, ¬ HasSettings files e ∧ ¬ IsRepository files e

variable {files : Files Id} {d e : String} {ds : List String}

/-! ### One level -/

theorem governs_cons :
    Governs files (e :: ds) d ↔
      d = e ∧ HasSettings files e ∨
        ¬ HasSettings files e ∧ ¬ IsRepository files e ∧ Governs files ds d := by
  constructor
  · rintro ⟨closer, farther, hds, hd, hcloser⟩
    cases closer with
    | nil =>
        obtain ⟨rfl, -⟩ := List.cons.inj hds
        exact .inl ⟨rfl, hd⟩
    | cons f closer =>
        obtain ⟨rfl, rfl⟩ := List.cons.inj hds
        obtain ⟨he, hcloser⟩ := List.forall_mem_cons.mp hcloser
        exact .inr ⟨he.1, he.2, closer, farther, rfl, hd, hcloser⟩
  · rintro (⟨rfl, hd⟩ | ⟨hset, hrepo, closer, farther, rfl, hd, hcloser⟩)
    · exact ⟨[], ds, rfl, hd, nofun⟩
    · exact ⟨e :: closer, farther, rfl, hd, List.forall_mem_cons.mpr ⟨⟨hset, hrepo⟩, hcloser⟩⟩

theorem nearest?_cons (files : Files Id) (d : String) (ds : List String) :
    (nearest? files (d :: ds)).run =
      if HasSettings files d then some (Path.join d fileName)
      else if IsRepository files d then none
      else (nearest? files ds).run := rfl

/-! ### The whole chain -/

/-- The search finds the file of the directory that governs. -/
theorem nearest?_eq_some_iff {path : String} :
    (nearest? files ds).run = some path ↔
    ∃ d, Governs files ds d ∧ path = Path.join d fileName := by
  induction ds with
  | nil => simp [nearest?, Governs]
  | cons e ds ih =>
      simp only [nearest?_cons, governs_cons]
      by_cases hset : HasSettings files e
      · simp [hset, eq_comm]
      by_cases hrepo : IsRepository files e
      · simp [hset, hrepo]
      · simp [hset, hrepo, ih]

theorem search_succ (files : Files Id) (rounds : Nat) (d : String) :
    search files (rounds + 1) d =
      if HasSettings files d then some (some (Path.join d fileName))
      else if IsRepository files d then some none
      else (Path.parent? d).elim (some none) (search files rounds) := by
  rw [search]
  cases Path.parent? d <;> rfl

/-- A round for each ancestor is enough for the loop to end, and further ones do not change the
answer, which is that of the search through the ancestors. -/
theorem search_eq_some (files : Files Id) (start : String) (spare : Nat) :
    search files ((Path.ancestors start).length + spare) start =
      some (nearest? files (Path.ancestors start)).run := by
  induction start using Path.ancestors.induct with
  | case1 start ih =>
      rw [Path.ancestors, List.length_cons, Nat.add_right_comm, search_succ, nearest?_cons]
      by_cases hset : HasSettings files start
      · simp [hset]
      by_cases hrepo : IsRepository files start
      · simp [hset, hrepo]
      cases hp : Path.parent? start with
      | none => simp [hset, hrepo, nearest?]
      | some parent => simp [hset, hrepo, ih parent hp]

/-- From every directory the search ends, in no more rounds than there are ancestors. What it finds
is the file of settings of the nearest directory that has one, among the directory and its
ancestors, unless the root of a repository comes before. A repository at the very directory that has
the file does not hide it. The ancestors have the components of the directory without the last ones,
down to the root or to nothing. -/
theorem search_finds_governing (files : Files Id) (start : String) (spare : Nat) :
    (Path.ancestors start).map (Path.components ·.toList) =
      Path.levels (Path.components start.toList) ∧
      search files ((Path.ancestors start).length + spare) start =
        some (nearest? files (Path.ancestors start)).run ∧
      (∀ path, (nearest? files (Path.ancestors start)).run = some path ↔
        ∃ d, Governs files (Path.ancestors start) d ∧ path = Path.join d fileName) ∧
      ((nearest? files (Path.ancestors start)).run = none ↔
        ¬ ∃ d, Governs files (Path.ancestors start) d) := by
  refine ⟨Path.map_components_ancestors start, search_eq_some files start spare,
    fun path => nearest?_eq_some_iff, ?_⟩
  rw [Option.eq_none_iff_forall_ne_some]
  constructor
  · rintro h ⟨d, hd⟩
    exact h _ (nearest?_eq_some_iff.mpr ⟨d, hd, rfl⟩)
  · intro h path hpath
    obtain ⟨d, hd, -⟩ := nearest?_eq_some_iff.mp hpath
    exact h ⟨d, hd⟩

end ErlangFragment.Settings
