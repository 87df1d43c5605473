import ErlangFragment.Proofs.Text.Radix
import ErlangFragment.Token.Symbol

/-! The longest symbol in front of a text. It is the symbol written there unless the next character
goes on with a longer one. -/

namespace ErlangFragment.Symbol

/-- Whether some symbol starts with the text of this one and the character. -/
def extendedBy (s : Symbol) (c : Char) : Bool :=
  all.any fun t => (s.text.toList ++ [c]).isPrefixOf t.text.toList

theorem mem_all (s : Symbol) : s ∈ all := by cases s <;> decide

theorem text_injective : ∀ s ∈ all, ∀ t ∈ all, s.text.toList = t.text.toList → s = t := by decide

/-- One round of the search for the longest symbol. -/
def longer (best : Option Symbol) (s : Symbol) : Option Symbol :=
  match best with
  | some t => if t.text.length < s.text.length then some s else best
  | none => some s

theorem longest?_eq_foldl (cs : List Char) : longest? cs = (matching cs).foldl longer none := rfl

/-- The fold ends with the symbol that is longer than all others. -/
theorem foldl_longer {s : Symbol} {ts : List Symbol} {best : Option Symbol}
    (hlt : ∀ t ∈ ts, t ≠ s → t.text.length < s.text.length)
    (hbest : ∀ t ∈ best, t ≠ s → t.text.length < s.text.length) (hmem : s ∈ ts ∨ best = some s) :
    ts.foldl longer best = some s := by
  induction ts generalizing best with
  | nil => exact hmem.resolve_left List.not_mem_nil
  | cons t ts ih =>
      rw [List.foldl_cons]
      have htail : ∀ u ∈ ts, u ≠ s → u.text.length < s.text.length :=
        fun u hu => hlt u (List.mem_cons_of_mem t hu)
      by_cases hts : t = s
      · subst hts
        have hround : longer best t = some t := by
          cases best with
          | none => rfl
          | some u =>
              by_cases hu : u = t
              · simp [longer, hu]
              · simp [longer, hbest u rfl hu]
        exact ih htail (by simp [hround]) (.inr hround)
      · have hlength := hlt t List.mem_cons_self hts
        apply ih htail
        · intro u hu hne
          cases best with
          | none =>
              obtain rfl : t = u := by simpa [longer] using hu
              exact hlength
          | some v =>
              by_cases hv : v.text.length < t.text.length
              · obtain rfl : t = u := by simpa [longer, hv] using hu
                exact hlength
              · obtain rfl : v = u := by simpa [longer, hv] using hu
                exact hbest v rfl hne
        · rcases hmem with hmem | rfl
          · exact .inl ((List.mem_cons.mp hmem).resolve_left (Ne.symm hts))
          · exact .inr (by simp [longer, Nat.lt_asymm hlength])

/-- A symbol that the next character does not extend is the longest. -/
theorem longest?_append {s : Symbol} {rest : List Char} (h : Avoids s.extendedBy rest) :
    longest? (s.text.toList ++ rest) = some s := by
  rw [longest?_eq_foldl]
  refine foldl_longer ?_ (by simp) (.inl (List.mem_filter.mpr ⟨mem_all s, by simp⟩))
  intro t ht hne
  obtain ⟨hall, hmatch⟩ := List.mem_filter.mp ht
  have hpre : t.text.toList <+: s.text.toList ++ rest := by simpa using hmatch
  rw [← String.length_toList, ← String.length_toList]
  refine Nat.lt_of_not_le fun hle => ?_
  obtain ⟨more, hmore⟩ := List.prefix_of_prefix_length_le (List.prefix_append _ _) hpre hle
  cases more with
  | nil =>
      rw [List.append_nil] at hmore
      exact hne (text_injective t hall s (mem_all s) hmore.symm)
  | cons c more =>
      rw [← hmore, List.prefix_append_right_inj] at hpre
      obtain ⟨u, rfl⟩ := hpre
      have hext : s.extendedBy c = true := by
        refine List.any_eq_true.mpr ⟨t, hall, ?_⟩
        simp [← hmore]
      rw [List.cons_append, avoids_cons, hext] at h
      cases h

end ErlangFragment.Symbol
