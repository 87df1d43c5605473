import ErlangFragment.Split

/-! Series of queries against one list of forms. Each query cuts the list around a function and
leaves the forms of the cut for the next one. Nothing is lost on the way: every query sees the list
that the first one saw. -/

namespace ErlangFragment

variable {forms : List (Located Form)} {name : String} {arity : Nat} {s : Split}

namespace Form

/-- A function with the name and arity. Attributes are none, whatever their name. -/
def IsFunction (name : String) (arity : Nat) : Form → Prop
  | .function n k _ => n.node = name ∧ k = arity
  | .attribute _ _ => False

instance (name : String) (arity : Nat) : (f : Form) → Decidable (f.IsFunction name arity)
  | .function n k _ => inferInstanceAs (Decidable (n.node = name ∧ k = arity))
  | .attribute _ _ => inferInstanceAs (Decidable False)

/-- The identity of a form is that of a function with the name and arity. -/
theorem identity?_eq_some_iff {f : Form} :
    f.identity? = some (name, arity) ↔ f.IsFunction name arity := by
  cases f <;> simp [identity?, IsFunction]

end Form

/-! ### One query -/

/-- The forms are cut around the first of their functions with the name and arity. -/
structure Split.CutsAround (s : Split) (forms : List (Located Form)) (name : String) (arity : Nat) :
    Prop where
  forms_eq : s.before ++ [s.matched] ++ s.after = forms
  isFunction_matched : s.matched.node.IsFunction name arity
  first : ∀ f ∈ s.before, ¬ f.node.IsFunction name arity

theorem splitAt_cons_of_isFunction {f : Located Form} (h : f.node.IsFunction name arity)
    (fs : List (Located Form)) : splitAt (f :: fs) name arity = .ok ⟨[], f, fs⟩ := by
  rw [splitAt, if_pos (Form.identity?_eq_some_iff.mpr h)]

theorem splitAt_cons_of_not {f : Located Form} (h : ¬ f.node.IsFunction name arity)
    (fs : List (Located Form)) : splitAt (f :: fs) name arity =
      (splitAt fs name arity).map fun s => { s with before := f :: s.before } := by
  rw [splitAt, if_neg fun hf => h (Form.identity?_eq_some_iff.mp hf)]

/-- Without such a function the forms cannot be cut. -/
theorem splitAt_eq_error (h : ∀ f ∈ forms, ¬ f.node.IsFunction name arity) :
    splitAt forms name arity = .error ⟨name, arity⟩ := by
  induction forms with
  | nil => rfl
  | cons f fs ih =>
      obtain ⟨hf, hfs⟩ := List.forall_mem_cons.mp h
      rw [splitAt_cons_of_not hf, ih hfs]
      rfl

theorem exists_cutsAround (h : ∃ f ∈ forms, f.node.IsFunction name arity) :
    ∃ s, splitAt forms name arity = .ok s ∧ s.CutsAround forms name arity := by
  induction forms with
  | nil => simp at h
  | cons f fs ih =>
      by_cases hf : f.node.IsFunction name arity
      · exact ⟨_, splitAt_cons_of_isFunction hf fs, rfl, hf, by simp⟩
      · have hfs : ∃ g ∈ fs, g.node.IsFunction name arity := by simpa [hf] using h
        obtain ⟨s, hs, hcut⟩ := ih hfs
        refine ⟨{ s with before := f :: s.before }, ?_, ?_, hcut.isFunction_matched, ?_⟩
        · rw [splitAt_cons_of_not hf, hs]
          rfl
        · rw [← hcut.forms_eq]
          rfl
        · exact List.forall_mem_cons.mpr ⟨hf, hcut.first⟩

/-- The other functions with this identity stand behind the first, in the order they had. -/
theorem Split.CutsAround.others (h : s.CutsAround forms name arity) :
    forms.filter (·.node.IsFunction name arity) =
      s.matched :: s.after.filter (·.node.IsFunction name arity) := by
  have hbefore : s.before.filter (·.node.IsFunction name arity) = [] := by
    simpa [List.filter_eq_nil_iff] using h.first
  rw [← h.forms_eq, List.filter_append, List.filter_append, hbefore]
  simp [h.isFunction_matched]

/-- The cut by a place in the list: what stands behind the place is split off, and then the last of
the forms that are left is taken away. -/
def takeApart (forms : List (Located Form)) (name : String) (arity : Nat) : Except NotFound Split :=
  match forms.findIdx? (·.node.IsFunction name arity) with
  | none => .error ⟨name, arity⟩
  | some i =>
    match (forms.take (i + 1)).getLast? with
    | none => .error ⟨name, arity⟩
    | some matched => .ok ⟨(forms.take (i + 1)).dropLast, matched, forms.drop (i + 1)⟩

/-- Where the first such function is known, so are the parts. -/
theorem takeApart_append {before : List (Located Form)} {f : Located Form}
    (hbefore : ∀ g ∈ before, ¬ g.node.IsFunction name arity) (hf : f.node.IsFunction name arity)
    (after : List (Located Form)) :
    takeApart (before ++ [f] ++ after) name arity = .ok ⟨before, f, after⟩ := by
  have hplace : (before ++ [f] ++ after).findIdx? (·.node.IsFunction name arity) =
      some before.length := by
    have hnone : before.findIdx? (·.node.IsFunction name arity) = none :=
      List.findIdx?_eq_none_iff.mpr (by simpa using hbefore)
    rw [List.append_assoc, List.findIdx?_append, hnone]
    simp [List.findIdx?_cons, hf]
  have htake : (before ++ [f] ++ after).take (before.length + 1) = before ++ [f] :=
    List.take_left' (by simp)
  have hdrop : (before ++ [f] ++ after).drop (before.length + 1) = after :=
    List.drop_left' (by simp)
  rw [takeApart, hplace]
  simp only [htake, hdrop, List.getLast?_concat, List.dropLast_concat]

/-- The place is never one where nothing is left to take away. -/
theorem splitAt_eq_takeApart (forms : List (Located Form)) (name : String) (arity : Nat) :
    splitAt forms name arity = takeApart forms name arity := by
  by_cases h : ∃ f ∈ forms, f.node.IsFunction name arity
  · obtain ⟨s, hs, hcut⟩ := exists_cutsAround h
    rw [hs, ← hcut.forms_eq, takeApart_append hcut.first hcut.isFunction_matched]
  · have hnone : ∀ f ∈ forms, ¬ f.node.IsFunction name arity := fun f hf hfun => h ⟨f, hf, hfun⟩
    have hplace : forms.findIdx? (·.node.IsFunction name arity) = none :=
      List.findIdx?_eq_none_iff.mpr (by simpa using hnone)
    rw [splitAt_eq_error hnone, takeApart, hplace]

/-! ### Series of queries -/

/-- A query for a function, with the forms it was put to and what came of it. -/
structure Answer where
  name : String
  arity : Nat
  seen : List (Located Form)
  outcome : Except NotFound Split

/-- The forms that a query leaves for the next one: those of its cut, or all as they were. -/
def Answer.left (a : Answer) : List (Located Form) :=
  match a.outcome with
  | .error _ => a.seen
  | .ok s => s.forms

/-- The answers to queries that are put one after the other. -/
def answers (forms : List (Located Form)) : List (String × Nat) → List Answer
  | [] => []
  | (name, arity) :: queries =>
    let a : Answer := ⟨name, arity, forms, splitAt forms name arity⟩
    a :: answers a.left queries

/-- A query leaves the forms that it has seen. -/
theorem left_answer (forms : List (Located Form)) (name : String) (arity : Nat) :
    Answer.left ⟨name, arity, forms, splitAt forms name arity⟩ = forms := by
  by_cases h : ∃ f ∈ forms, f.node.IsFunction name arity
  · obtain ⟨s, hs, hcut⟩ := exists_cutsAround h
    rw [Answer.left, hs]
    simpa [Split.forms] using hcut.forms_eq
  · rw [Answer.left, splitAt_eq_error fun f hf hfun => h ⟨f, hf, hfun⟩]

theorem answers_eq_map (forms : List (Located Form)) (queries : List (String × Nat)) :
    answers forms queries =
      queries.map fun (name, arity) => ⟨name, arity, forms, splitAt forms name arity⟩ := by
  induction queries with
  | nil => rfl
  | cons q queries ih => rw [answers, left_answer, ih, List.map_cons]

/-- Every query of a series sees the forms that the series began with. It fails, naming what it
asked for, if and only if no function among them has the name and arity. Otherwise it cuts them
around the first such function, and the others stand behind it in their order. -/
theorem answers_lossless (forms : List (Located Form)) (queries : List (String × Nat)) :
    (answers forms queries).map (fun a => (a.name, a.arity)) = queries ∧
      ∀ a ∈ answers forms queries,
        a.seen = forms ∧
        a.outcome = takeApart forms a.name a.arity ∧
        ((∃ e, a.outcome = .error e) ↔ ¬ ∃ f ∈ forms, f.node.IsFunction a.name a.arity) ∧
        (∀ e, a.outcome = .error e → e = ⟨a.name, a.arity⟩) ∧
        ∀ s, a.outcome = .ok s →
          s.before ++ [s.matched] ++ s.after = forms ∧
          s.matched.node.IsFunction a.name a.arity ∧
          (∀ f ∈ s.before, ¬ f.node.IsFunction a.name a.arity) ∧
          forms.filter (·.node.IsFunction a.name a.arity) =
            s.matched :: s.after.filter (·.node.IsFunction a.name a.arity) := by
  rw [answers_eq_map]
  refine ⟨?_, fun a ha => ?_⟩
  · rw [List.map_map]
    exact List.map_id queries
  obtain ⟨⟨name, arity⟩, -, rfl⟩ := List.mem_map.mp ha
  refine ⟨rfl, splitAt_eq_takeApart forms name arity, ?_⟩
  simp only
  by_cases h : ∃ f ∈ forms, f.node.IsFunction name arity
  · obtain ⟨s, hs, hcut⟩ := exists_cutsAround h
    rw [hs]
    refine ⟨⟨nofun, fun hnone => absurd h hnone⟩, nofun, ?_⟩
    rintro _ ⟨⟩
    exact ⟨hcut.forms_eq, hcut.isFunction_matched, hcut.first, hcut.others⟩
  · rw [splitAt_eq_error fun f hf hfun => h ⟨f, hf, hfun⟩]
    refine ⟨⟨fun _ => h, fun _ => ⟨_, rfl⟩⟩, ?_, nofun⟩
    rintro _ ⟨⟩
    rfl

/-- An attribute with the name of a function, and two functions with one identity. -/
def namesakes : List (Located Form) :=
  [⟨.attribute ⟨"f", .nowhere⟩ (.exprs []), ⟨0, 3, 1⟩⟩,
    ⟨.function ⟨"f", .nowhere⟩ 0 [], ⟨4, 8, 2⟩⟩,
    ⟨.function ⟨"f", .nowhere⟩ 0 [], ⟨9, 13, 3⟩⟩]

/-- A query that finds nothing, behind one that has cut the forms. -/
theorem answers_lossless_namesakes :
    (⟨"f", 1, namesakes, .error ⟨"f", 1⟩⟩ : Answer) ∈ answers namesakes [("f", 0), ("f", 1)] ∧
      ¬ ∃ f ∈ namesakes, f.node.IsFunction "f" 1 := by
  have h : (⟨"f", 1, namesakes, .error ⟨"f", 1⟩⟩ : Answer) ∈
      answers namesakes [("f", 0), ("f", 1)] :=
    List.mem_cons_of_mem _ List.mem_cons_self
  exact ⟨h, ((answers_lossless namesakes _).2 _ h).2.2.1.mp ⟨_, rfl⟩⟩

end ErlangFragment
