import Mathlib.Data.List.Induction
import Mathlib.Data.List.Infix
import ErlangFragment.Scope

/-! Scopes by their history. The operations alone tell what a name means: the value of the latest
insertion of the name whose frame has not been popped since. -/

namespace ErlangFragment.Scope

variable {α : Type}

/-- What can be done to a scope. A look-up changes nothing. -/
inductive Operation (α : Type)
  | push
  | pop
  | insert (name : String) (value : α)
  | lookup (name : String)

def Operation.apply (s : Scope α) : Operation α → Scope α
  | push => s.push
  | pop => s.pop
  | insert name value => s.insert name value
  | lookup _ => s

/-- The scope behind a history of operations. -/
def run (ops : List (Operation α)) : Scope α := ops.foldl Operation.apply Scope.initial

/-! ### Histories -/

/-- The number of frames behind an operation. -/
def Operation.height (before : Nat) : Operation α → Nat
  | push => before + 1
  | pop => before - 1
  | insert _ _ => max before 1
  | lookup _ => before

/-- The number of frames behind a history, which starts with one of them. -/
def height (ops : List (Operation α)) : Nat := ops.foldl Operation.height 1

/-- The number of frames behind the operation with number `i`. -/
def level (ops : List (Operation α)) (i : Nat) : Nat := height (ops.take (i + 1))

/-- The innermost frame behind the operation with number `i` has not been popped since. -/
def Stands (ops : List (Operation α)) (i : Nat) : Prop :=
  ∀ j, i < j → j ≤ ops.length → level ops i ≤ height (ops.take j)

/-- The operation with number `i` is the latest insertion of the name into a frame that stands. -/
structure Latest (ops : List (Operation α)) (name : String) (value : α) (i : Nat) : Prop where
  inserts : ops[i]? = some (.insert name value)
  stands : Stands ops i
  latest : ∀ j other, i < j → ops[j]? = some (.insert name other) → ¬ Stands ops j

section

variable {ops : List (Operation α)} {op : Operation α} {i : Nat}

theorem run_concat (ops : List (Operation α)) (op : Operation α) :
    run (ops ++ [op]) = op.apply (run ops) :=
  List.foldl_append

theorem height_concat (ops : List (Operation α)) (op : Operation α) :
    height (ops ++ [op]) = op.height (height ops) :=
  List.foldl_append

theorem depth_apply (s : Scope α) (op : Operation α) : (op.apply s).depth = op.height s.depth := by
  obtain ⟨_ | ⟨f, fs⟩⟩ := s <;> cases op <;>
    simp [Operation.apply, Operation.height, depth, push, pop, Scope.insert]

/-- There are as many frames as the history says. -/
theorem depth_run (ops : List (Operation α)) : (run ops).depth = height ops := by
  induction ops using List.reverseRecOn with
  | nil => rfl
  | append_singleton ops op ih => rw [run_concat, depth_apply, ih, height_concat]

theorem level_concat (hi : i < ops.length) : level (ops ++ [op]) i = level ops i := by
  rw [level, level, List.take_append_of_le_length hi]

theorem level_last (ops : List (Operation α)) (op : Operation α) :
    level (ops ++ [op]) ops.length = height (ops ++ [op]) := by
  rw [level, List.take_of_length_le (by simp)]

/-- One more operation leaves a frame standing if there are still enough frames behind it. -/
theorem stands_concat (hi : i < ops.length) :
    Stands (ops ++ [op]) i ↔ Stands ops i ∧ level ops i ≤ height (ops ++ [op]) := by
  simp only [Stands, level_concat hi, List.length_append, List.length_singleton]
  constructor
  · intro h
    refine ⟨fun j hj hle => ?_, ?_⟩
    · have := h j hj (by omega)
      rwa [List.take_append_of_le_length hle] at this
    · have := h (ops.length + 1) (by omega) (Nat.le_refl _)
      rwa [List.take_of_length_le (by simp)] at this
  · rintro ⟨h, hlast⟩ j hj hle
    rcases Nat.lt_or_ge ops.length j with hlt | hle
    · rwa [List.take_of_length_le (by simp; omega)]
    · rw [List.take_append_of_le_length hle]
      exact h j hj hle

theorem stands_last (ops : List (Operation α)) (op : Operation α) :
    Stands (ops ++ [op]) ops.length := by
  intro j hj hle
  refine Nat.le_of_eq ?_
  rw [level_last, List.take_of_length_le (by simp; omega)]

theorem Stands.level_le (h : Stands ops i) (hi : i < ops.length) : level ops i ≤ height ops := by
  have := h ops.length hi (Nat.le_refl _)
  rwa [List.take_length] at this

end

/-! ### The outermost frames -/

/-- The scope without its frames above the outermost `k`. -/
def outer (s : Scope α) (k : Nat) : Scope α := ⟨s.frames.drop (s.depth - k)⟩

theorem outer_depth (s : Scope α) : s.outer s.depth = s := by simp [outer]

/-- An operation changes no frame below the one that is innermost behind it. -/
theorem outer_apply {s : Scope α} {op : Operation α} {k : Nat} (hk : k ≤ s.depth)
    (hk' : k ≤ (op.apply s).depth)
    (hins : ∀ name value, op = .insert name value → k < (op.apply s).depth) :
    (op.apply s).outer k = s.outer k := by
  obtain ⟨fs⟩ := s
  cases op with
  | push =>
      change k ≤ fs.length at hk
      simp [outer, depth, Operation.apply, push, Nat.succ_sub hk]
  | pop =>
      cases fs with
      | nil => rfl
      | cons f fs =>
          change k ≤ fs.length at hk'
          simp [outer, depth, Operation.apply, pop, Nat.succ_sub hk']
  | insert name value =>
      have hlt := hins name value rfl
      cases fs with
      | nil =>
          obtain rfl : k = 0 := Nat.le_zero.mp hk
          simp [outer, depth, Operation.apply, Scope.insert]
      | cons f fs =>
          change k < fs.length + 1 at hlt
          simp [outer, depth, Operation.apply, Scope.insert, Nat.succ_sub (Nat.le_of_lt_succ hlt)]
  | lookup name => rfl

/-- An insertion hides older bindings of the same name and no others. -/
theorem lookup?_insert (s : Scope α) (name : String) (value : α) (x : String) :
    (s.insert name value).lookup? x = if x = name then some value else s.lookup? x := by
  obtain ⟨_ | ⟨f, fs⟩⟩ := s
  all_goals
    by_cases h : x = name
    · simp [Scope.insert, lookup?, h]
    · simp [Scope.insert, lookup?, h, List.findSome?_cons, List.lookup_cons,
        beq_eq_false_iff_ne.mpr h]

theorem lookup?_push (s : Scope α) (x : String) : s.push.lookup? x = s.lookup? x := rfl

/-- The operation with number `i` is the latest insertion of the name into one of the outermost `k`
frames. -/
structure LatestIn (k : Nat) (ops : List (Operation α)) (name : String) (value : α) (i : Nat) :
    Prop where
  inserts : ops[i]? = some (.insert name value)
  stands : Stands ops i
  level_le : level ops i ≤ k
  latest : ∀ j other, i < j → ops[j]? = some (.insert name other) → Stands ops j → k < level ops j

section

variable {ops : List (Operation α)} {op : Operation α} {name : String} {value : α} {i k : Nat}

theorem lt_length_of_getElem? (h : ops[i]? = some op) : i < ops.length :=
  (List.getElem?_eq_some_iff.mp h).1

theorem latestIn_iff (hk : height ops ≤ k) :
    LatestIn k ops name value i ↔ Latest ops name value i := by
  constructor
  · rintro ⟨hins, hstands, -, hlatest⟩
    refine ⟨hins, hstands, fun j other hij hj hs => ?_⟩
    have := hlatest j other hij hj hs
    have := hs.level_le (lt_length_of_getElem? hj)
    omega
  · rintro ⟨hins, hstands, hlatest⟩
    exact ⟨hins, hstands, Nat.le_trans (hstands.level_le (lt_length_of_getElem? hins)) hk,
      fun j other hij hj hs => absurd hs (hlatest j other hij hj)⟩

/-- An operation that inserts nothing into these frames leaves the latest insertions as they are. -/
theorem latestIn_concat (hk : k ≤ height (ops ++ [op]))
    (hop : ∀ other, op = .insert name other → k < height (ops ++ [op])) :
    LatestIn k (ops ++ [op]) name value i ↔ LatestIn k ops name value i := by
  have hnew (other : α) (h : op = .insert name other) (hl : height (ops ++ [op]) ≤ k) : False := by
    have := hop other h
    omega
  have hsplit {j : Nat} {other : α} (h : (ops ++ [op])[j]? = some (.insert name other)) :
      (j < ops.length ∧ ops[j]? = some (.insert name other)) ∨
      (j = ops.length ∧ op = .insert name other) := by
    rcases Nat.lt_or_ge j ops.length with hj | hj
    · rw [List.getElem?_append_left hj] at h
      exact .inl ⟨hj, h⟩
    · have hj' := lt_length_of_getElem? h
      obtain rfl : j = ops.length := by simp at hj'; omega
      exact .inr ⟨rfl, by simpa using h⟩
  constructor
  · rintro ⟨hins, hstands, hlevel, hlatest⟩
    rcases hsplit hins with ⟨hi, hins⟩ | ⟨rfl, hinsert⟩
    · rw [level_concat hi] at hlevel
      refine ⟨hins, ((stands_concat hi).mp hstands).1, hlevel, fun j other hij hj hs => ?_⟩
      have hlt := lt_length_of_getElem? hj
      by_contra hle
      have hj' : (ops ++ [op])[j]? = some (.insert name other) := by
        rwa [List.getElem?_append_left hlt]
      have := hlatest j other hij hj' ((stands_concat hlt).mpr ⟨hs, by omega⟩)
      rw [level_concat hlt] at this
      exact hle this
    · rw [level_last] at hlevel
      exact (hnew _ hinsert hlevel).elim
  · rintro ⟨hins, hstands, hlevel, hlatest⟩
    have hi := lt_length_of_getElem? hins
    refine ⟨by rwa [List.getElem?_append_left hi],
      (stands_concat hi).mpr ⟨hstands, by omega⟩, ?_, ?_⟩
    · rwa [level_concat hi]
    · intro j other hij hj hs
      rcases hsplit hj with ⟨hlt, hj⟩ | ⟨rfl, hinsert⟩
      · rw [level_concat hlt]
        exact hlatest j other hij hj ((stands_concat hlt).mp hs).1
      · rw [level_last]
        exact hop other hinsert

/-- The insertion that has just been made is the latest one. -/
theorem latest_insert {other : α} :
    Latest (ops ++ [.insert name other]) name value i ↔ i = ops.length ∧ value = other := by
  have hlast : (ops ++ [Operation.insert name other])[ops.length]? =
      some (.insert name other) := by simp
  constructor
  · rintro ⟨hins, -, hlatest⟩
    have hi := lt_length_of_getElem? hins
    rcases Nat.lt_or_ge i ops.length with hlt | hge
    · exact absurd (stands_last _ _) (hlatest _ other hlt hlast)
    · obtain rfl : i = ops.length := by simp at hi; omega
      rw [hlast] at hins
      cases hins
      exact ⟨rfl, rfl⟩
  · rintro ⟨rfl, rfl⟩
    refine ⟨hlast, stands_last _ _, fun j other' hij hj => ?_⟩
    have hj' := lt_length_of_getElem? hj
    simp at hj'
    omega

/-- All frames are among the outermost ones. -/
theorem outer_height (ops : List (Operation α)) : (run ops).outer (height ops) = run ops := by
  rw [← depth_run, outer_depth]

/-- In the outermost `k` frames the name means what its latest insertion into them says. -/
def Tells (k : Nat) (ops : List (Operation α)) (name : String) (value : α) : Prop :=
  ((run ops).outer k).lookup? name = some value ↔ ∃ i, LatestIn k ops name value i

/-- Below the innermost frame an operation changes nothing. -/
theorem Tells.below (h : Tells k ops name value) (hle : k ≤ height ops)
    (hk : k ≤ height (ops ++ [op])) (hop : ∀ n v, op = .insert n v → k < height (ops ++ [op])) :
    Tells k (ops ++ [op]) name value := by
  have hheight : height (ops ++ [op]) = (op.apply (run ops)).depth := by
    rw [← run_concat, depth_run]
  have houter : (run (ops ++ [op])).outer k = (run ops).outer k := by
    rw [run_concat]
    exact outer_apply (by rwa [depth_run]) (hheight ▸ hk) (hheight ▸ hop)
  rw [Tells] at h ⊢
  rw [houter, h]
  exact exists_congr fun i => (latestIn_concat hk fun v h => hop name v h).symm

/-- An operation that is no insertion of the name and pops nothing leaves it what it means. -/
theorem Tells.whole (h : Tells (height ops) ops name value)
    (hle : height ops ≤ height (ops ++ [op]))
    (hsame : (op.apply (run ops)).lookup? name = (run ops).lookup? name)
    (hop : ∀ v, op ≠ .insert name v) :
    Tells (height (ops ++ [op])) (ops ++ [op]) name value := by
  rw [Tells, outer_height] at h ⊢
  rw [run_concat, hsame, h]
  refine exists_congr fun i => ?_
  rw [latestIn_concat (Nat.le_refl _) fun v h => absurd h (hop v), latestIn_iff (Nat.le_refl _),
    latestIn_iff hle]

theorem tells_insert (v : α) :
    Tells (height (ops ++ [.insert name v])) (ops ++ [.insert name v]) name value := by
  rw [Tells, outer_height, run_concat, Operation.apply, lookup?_insert, if_pos rfl,
    Option.some.injEq]
  refine ⟨?_, fun ⟨i, h⟩ => ?_⟩
  · rintro rfl
    exact ⟨ops.length, (latestIn_iff (Nat.le_refl _)).mpr (latest_insert.mpr ⟨rfl, rfl⟩)⟩
  · exact (latest_insert.mp ((latestIn_iff (Nat.le_refl _)).mp h)).2.symm

theorem tells (hk : k ≤ height ops) : Tells k ops name value := by
  induction ops using List.reverseRecOn generalizing k with
  | nil =>
      have hnone : ((run ([] : List (Operation α))).outer k).lookup? name = none := by
        have : k = 0 ∨ k = 1 := by
          change k ≤ 1 at hk
          omega
        rcases this with rfl | rfl <;> rfl
      rw [Tells, hnone]
      exact ⟨nofun, fun ⟨i, h⟩ => absurd h.inserts (by simp)⟩
  | append_singleton ops op ih =>
      have hall := ih (Nat.le_refl _)
      cases op with
      | push =>
          have hheight : height (ops ++ [.push]) = height ops + 1 := height_concat _ _
          rcases Nat.lt_or_eq_of_le hk with hlt | rfl
          · have hle : k ≤ height ops := by omega
            exact (ih hle).below hle hk nofun
          · exact hall.whole (by omega) (lookup?_push _ _) nofun
      | pop =>
          have hheight : height (ops ++ [.pop]) = height ops - 1 := height_concat _ _
          have hle : k ≤ height ops := by omega
          exact (ih hle).below hle hk nofun
      | insert n v =>
          have hheight : height (ops ++ [.insert n v]) = max (height ops) 1 := height_concat _ _
          rcases Nat.lt_or_eq_of_le hk with hlt | rfl
          · have hle : k ≤ height ops := by omega
            exact (ih hle).below hle hk fun _ _ _ => hlt
          · by_cases hn : name = n
            · subst hn
              exact tells_insert v
            · refine hall.whole (by omega) ?_ ?_
              · rw [Operation.apply, lookup?_insert, if_neg hn]
              · rintro _ ⟨⟩
                exact hn rfl
      | lookup n =>
          have hheight : height (ops ++ [.lookup n]) = height ops := height_concat _ _
          have hle : k ≤ height ops := by omega
          exact (ih hle).below hle hk nofun

/-- What a name means is what its latest insertion says. -/
theorem lookup?_run (ops : List (Operation α)) :
    (run ops).lookup? name = some value ↔ ∃ i, Latest ops name value i := by
  have h : Tells (height ops) ops name value := tells (Nat.le_refl _)
  rw [Tells, outer_height] at h
  rw [h]
  exact exists_congr fun i => latestIn_iff (Nat.le_refl _)

/-- If any insertion of the name stands, one of them is the latest. -/
theorem exists_latest (hins : ops[i]? = some (.insert name value)) (hs : Stands ops i) :
    ∃ v j, Latest ops name v j := by
  induction hlen : ops.length - i using Nat.strongRecOn generalizing i value with
  | ind n ih =>
      by_cases h : ∃ j other, i < j ∧ ops[j]? = some (.insert name other) ∧ Stands ops j
      · obtain ⟨j, other, hij, hj, hs'⟩ := h
        have := lt_length_of_getElem? hj
        exact ih _ (by omega) hj hs' rfl
      · exact ⟨value, i, hins, hs, fun j other hij hj hs' => h ⟨j, other, hij, hj, hs'⟩⟩

/-! ### Frames come and go -/

/-- The frames below a pushed one stay as they are while it is there. -/
theorem frames_push {mid : List (Operation α)}
    (h : ∀ p, p <+: mid → height (ops ++ [.push]) ≤ height (ops ++ .push :: p)) :
    ∃ f fs, (run (ops ++ .push :: mid)).frames = f :: fs ++ (run ops).frames := by
  induction mid using List.reverseRecOn with
  | nil => exact ⟨[], [], by rw [run_concat]; rfl⟩
  | append_singleton mid op ih =>
      obtain ⟨f, fs, hframes⟩ := ih fun p hp => h p (hp.trans (List.prefix_append _ _))
      have hsplit : ops ++ .push :: (mid ++ [op]) = (ops ++ .push :: mid) ++ [op] := by simp
      have hdepth : (run ops).depth + 1 ≤ (run (ops ++ .push :: (mid ++ [op]))).depth := by
        rw [depth_run, depth_run]
        refine Nat.le_trans (Nat.le_of_eq ?_) (h _ List.prefix_rfl)
        rw [height_concat]
        rfl
      rw [hsplit, run_concat] at hdepth ⊢
      generalize run (ops ++ .push :: mid) = s at hframes hdepth
      obtain ⟨_⟩ := s
      subst hframes
      cases op with
      | push => exact ⟨[], f :: fs, rfl⟩
      | pop =>
          cases fs with
          | nil => exact absurd hdepth (Nat.not_succ_le_self _)
          | cons g gs => exact ⟨g, gs, rfl⟩
      | insert name value => exact ⟨(name, value) :: f, fs, rfl⟩
      | lookup name => exact ⟨f, fs, rfl⟩

/-- The pop of a frame gives back the scope in which it has been pushed. -/
theorem run_pop {mid : List (Operation α)}
    (h : ∀ p, p <+: mid → height (ops ++ [.push]) ≤ height (ops ++ .push :: p))
    (hmid : height (ops ++ .push :: mid) = height (ops ++ [.push])) :
    run (ops ++ .push :: (mid ++ [.pop])) = run ops := by
  obtain ⟨f, fs, hframes⟩ := frames_push h
  have hfs : fs = [] := by
    have hdepth : (run (ops ++ .push :: mid)).depth = (run (ops ++ [.push])).depth := by
      rw [depth_run, depth_run, hmid]
    rw [run_concat, depth, hframes] at hdepth
    simpa [Operation.apply, push, depth] using hdepth
  subst hfs
  have hsplit : ops ++ .push :: (mid ++ [Operation.pop]) =
      (ops ++ .push :: mid) ++ [.pop] := by simp
  rw [hsplit, run_concat, Operation.apply, pop, hframes]
  rfl

end

/-- Whatever has been done to a scope, a name means what its latest insertion into a frame that
still stands says, it means something exactly if there is one, and the depth is the number of
frames. Once a pushed frame is popped again, everything is as it was before the push. -/
theorem follows_history (ops : List (Operation α)) :
    (∀ name value, (run ops).lookup? name = some value ↔ ∃ i, Latest ops name value i) ∧
      (∀ name, (run ops).contains name = true ↔ ∃ i value,
        ops[i]? = some (.insert name value) ∧ Stands ops i) ∧
      (run ops).depth = height ops ∧
      ∀ mid : List (Operation α),
        (∀ p, p <+: mid → (run (ops ++ [.push])).depth ≤ (run (ops ++ .push :: p)).depth) →
        (run (ops ++ .push :: mid)).depth = (run (ops ++ [.push])).depth →
        (∀ name, (run (ops ++ .push :: (mid ++ [.pop]))).lookup? name = (run ops).lookup? name) ∧
          (run (ops ++ .push :: (mid ++ [.pop]))).depth = (run ops).depth := by
  refine ⟨fun name value => lookup?_run ops, fun name => ?_, depth_run ops,
    fun mid habove hmid => ?_⟩
  · rw [contains, Option.isSome_iff_exists]
    constructor
    · rintro ⟨value, h⟩
      obtain ⟨i, hi⟩ := (lookup?_run ops).mp h
      exact ⟨i, value, hi.inserts, hi.stands⟩
    · rintro ⟨i, value, hins, hs⟩
      obtain ⟨v, j, hj⟩ := exists_latest hins hs
      exact ⟨v, (lookup?_run ops).mpr ⟨j, hj⟩⟩
  · simp only [depth_run] at habove hmid
    rw [run_pop habove hmid]
    exact ⟨fun _ => rfl, rfl⟩

/-- A name is bound where no frame is left, and it is shadowed in a frame that comes and goes. -/
theorem follows_history_shadowed :
    (∀ p, p <+: [.insert "X" 2, .push, .pop] →
        (run ([.pop, .insert "X" 1] ++ [.push])).depth ≤
          (run ([.pop, .insert "X" 1] ++ .push :: p)).depth) ∧
      (run ([.pop, .insert "X" 1] ++ .push :: [.insert "X" 2, .push, .pop])).depth =
        (run ([.pop, .insert "X" 1] ++ [.push])).depth ∧
      (run ([.pop, .insert "X" 1] ++ .push :: ([.insert "X" 2, .push, .pop] ++ [.pop]))).lookup?
        "X" = some 1 := by
  have habove : ∀ p, p <+: [.insert "X" 2, .push, .pop] →
      (run ([.pop, .insert "X" 1] ++ [.push])).depth ≤
        (run ([.pop, .insert "X" 1] ++ .push :: p)).depth := by
    intro p hp
    rw [← List.mem_inits] at hp
    revert p
    decide
  refine ⟨habove, rfl, ?_⟩
  rw [((follows_history _).2.2.2 _ habove rfl).1]
  rfl

end ErlangFragment.Scope
