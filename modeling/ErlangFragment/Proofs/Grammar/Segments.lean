import ErlangFragment.Proofs.Grammar.Cutting

/-! Where token sequences are cut. The depth of brackets is a word that closers without an opener
lower too, so a part can end although a bracket is open in it: at least as many closers have no
opener there as openers have no closer. Where no part leaves an opener open, and there are not more
tokens than the word can count, every part ends at the first terminator that stands outside of all
brackets. -/

namespace ErlangFragment.Grammar

/-! ### Segments -/

/-- A part ends at none of the terminators among the tokens. -/
def Unended (ends : List (Located Token) → Prop) (ts : List (Located Token)) : Prop :=
  ∀ us t vs, ts = us ++ t :: vs → t.node = .terminator → ¬ ends us

/-- The tokens as parts and a rest, where a part ends at the first terminator with such tokens
between it and the start of the part. -/
inductive Segments (ends : List (Located Token) → Prop) :
    List (Located Token) → List (List (Located Token)) → List (Located Token) → Prop
  | rest {ts} : Unended ends ts → Segments ends ts [] ts
  | part {us t ts parts rest} : t.node = .terminator → ends us → Unended ends us →
      Segments ends ts parts rest → Segments ends (us ++ t :: ts) ((us ++ [t]) :: parts) rest

/-- The cut is made where the parts end, and it fails if tokens are left behind the last of them. -/
def CutsWhere (ends : List (Located Token) → Prop) (ts : List (Located Token)) : Prop :=
  ∃ parts rest, Segments ends ts parts rest ∧ ((∃ e, cutForms ts = .error e) ↔ rest ≠ []) ∧
    (rest = [] → cutForms ts = .ok parts)

section

variable {ends ends' : List (Located Token) → Prop} {t : Located Token}
  {ts us : List (Located Token)}
  {parts parts' : List (List (Located Token))} {rest rest' : List (Located Token)}

theorem unended_nil : Unended ends [] := by
  intro us t vs h
  simp at h

theorem Unended.append_singleton (h : Unended ends us) (ht : t.node = .terminator → ¬ ends us) :
    Unended ends (us ++ [t]) := by
  intro ws u vs hsplit hu
  rcases List.eq_nil_or_concat vs with rfl | ⟨vs, v, rfl⟩
  · obtain ⟨rfl, hlast⟩ := List.append_inj' hsplit rfl
    obtain rfl : t = u := by simpa using hlast
    exact ht hu
  · rw [List.concat_eq_append, ← List.cons_append, ← List.append_assoc] at hsplit
    exact h ws u vs (List.append_inj' hsplit rfl).1 hu

theorem Unended.mono (h : Unended ends ts)
    (himp : ∀ us, us.length ≤ ts.length → ends' us → ends us) :
    Unended ends' ts := by
  intro us t vs hsplit ht hends
  refine h us t vs hsplit ht (himp us ?_ hends)
  rw [hsplit, List.length_append]
  exact Nat.le_add_right _ _

theorem Segments.flatten (h : Segments ends ts parts rest) : parts.flatten ++ rest = ts := by
  induction h with
  | rest => rfl
  | part _ _ _ _ ih =>
      rw [List.flatten_cons, List.append_assoc, ih, List.append_assoc, List.singleton_append]

theorem Segments.of_mem (h : Segments ends ts parts rest) :
    ∀ p ∈ parts, ∃ us t, p = us ++ [t] ∧ t.node = .terminator ∧ ends us := by
  induction h with
  | rest => exact List.forall_mem_nil _
  | part ht hends _ _ ih => exact List.forall_mem_cons.mpr ⟨⟨_, _, rfl, ht, hends⟩, ih⟩

theorem Segments.unended (h : Segments ends ts parts rest) : Unended ends rest := by
  induction h with
  | rest hno => exact hno
  | part _ _ _ _ ih => exact ih

/-- Every sequence can be cut. -/
theorem exists_segments (hus : Unended ends us) (ts : List (Located Token)) :
    ∃ parts rest, Segments ends (us ++ ts) parts rest := by
  induction ts generalizing us with
  | nil => exact ⟨[], us, by simpa using Segments.rest hus⟩
  | cons t ts ih =>
      by_cases hend : t.node = .terminator ∧ ends us
      · obtain ⟨parts, rest, h⟩ := ih unended_nil
        exact ⟨_, _, .part hend.1 hend.2 hus h⟩
      · obtain ⟨parts, rest, h⟩ := ih (hus.append_singleton fun ht hends => hend ⟨ht, hends⟩)
        rw [List.append_assoc] at h
        exact ⟨parts, rest, h⟩

/-- Where the parts end as well by a stricter rule, they are the parts by that rule. -/
theorem Segments.stricter (h : Segments ends ts parts rest)
    (himp : ∀ us, us.length ≤ ts.length → ends' us → ends us)
    (hparts : ∀ us t, us ++ [t] ∈ parts → ends' us) : Segments ends' ts parts rest := by
  induction h with
  | rest hno => exact .rest (hno.mono himp)
  | part ht _ hno _ ih =>
      refine .part ht (hparts _ _ (List.mem_cons_self ..)) (hno.mono fun us hle => himp us ?_)
        (ih (fun us hle => himp us ?_) fun us t hmem => hparts us t (List.mem_cons_of_mem _ hmem))
      · rw [List.length_append]
        exact Nat.le_add_right_of_le hle
      · rw [List.length_append, List.length_cons]
        exact Nat.le_add_left_of_le (Nat.le_succ_of_le hle)

theorem Segments.length_rest_le (h : Segments ends ts parts rest) : rest.length ≤ ts.length := by
  rw [← h.flatten, List.length_append]
  exact Nat.le_add_left _ _

theorem Segments.length_le (h : Segments ends ts parts rest) {p : List (Located Token)}
    (hp : p ∈ parts) :
    p.length ≤ ts.length := by
  rw [← h.flatten, List.length_append]
  exact Nat.le_add_right_of_le (List.sublist_flatten_of_mem hp).length_le

/-- Rules that agree on so many tokens make the same parts. -/
theorem CutsWhere.congr (h : CutsWhere ends ts)
    (hiff : ∀ us, us.length ≤ ts.length → (ends us ↔ ends' us)) :
    CutsWhere ends' ts := by
  obtain ⟨parts, rest, hsegments, hcut⟩ := h
  refine ⟨parts, rest, hsegments.stricter (fun us hle => (hiff us hle).mpr)
    (fun us t hmem => ?_), hcut⟩
  have hle : us.length ≤ ts.length := by
    have hlength := hsegments.length_le hmem
    rw [List.length_append] at hlength
    exact Nat.le_of_add_right_le hlength
  obtain ⟨vs, u, heq, -, hends⟩ := hsegments.of_mem _ hmem
  obtain ⟨rfl, -⟩ := List.append_inj' heq rfl
  exact (hiff us hle).mp hends

end

/-! ### The depth of brackets -/

theorem cutFrom_segments (depth : Int32) (started ts : List (Located Token))
    (hdepth : depth = openBrackets started.reverse)
    (hstarted : Unended (openBrackets · ≤ 0) started.reverse) :
    Segments (openBrackets · ≤ 0) (started.reverse ++ ts) (cutFrom depth started ts).1
      (cutFrom depth started ts).2 := by
  induction ts generalizing depth started with
  | nil => simpa [cutFrom] using Segments.rest hstarted
  | cons t ts ih =>
      rw [cutFrom]
      by_cases hcut : (t.node = .terminator && depth ≤ 0) = true
      · rw [if_pos hcut]
        obtain ⟨ht, hle⟩ : t.node = .terminator ∧ depth ≤ 0 := by simpa using hcut
        rw [List.reverse_cons]
        exact .part ht (hdepth ▸ hle) hstarted (ih 0 [] rfl unended_nil)
      · rw [if_neg hcut]
        have hnext : Unended (openBrackets · ≤ 0) (t :: started).reverse := by
          rw [List.reverse_cons]
          refine hstarted.append_singleton fun ht hle => hcut ?_
          simpa [ht, hdepth] using hle
        have h := ih (depth + bracketStep t.node) (t :: started) (by simp [hdepth]) hnext
        rwa [List.reverse_cons, List.append_assoc] at h

theorem cutForms_segments {ts : List (Located Token)} {parts : List (List (Located Token))}
    (h : cutForms ts = .ok parts) : Segments (openBrackets · ≤ 0) ts parts [] := by
  have hsegments := cutFrom_segments 0 [] ts rfl unended_nil
  rwa [cutForms_eq_ok.mp h] at hsegments

/-- No part leaves more brackets open than it closes too often. -/
theorem openBrackets_of_cutForms {ts : List (Located Token)} {parts : List (List (Located Token))}
    (h : cutForms ts = .ok parts) : ∀ p ∈ parts, openBrackets p ≤ 0 := by
  intro p hp
  obtain ⟨us, t, rfl, ht, hle⟩ := (cutForms_segments h).of_mem p hp
  simpa [ht, bracketStep] using hle

theorem cutForms_isError_iff (ts : List (Located Token)) :
    (∃ e, cutForms ts = .error e) ↔ (cutFrom 0 [] ts).2 ≠ [] := by
  rw [cutForms]
  rcases List.eq_nil_or_concat (cutFrom 0 [] ts).2 with h | ⟨rest, last, h⟩ <;> simp [h]

theorem cutsWhere_openBrackets (ts : List (Located Token)) : CutsWhere (openBrackets · ≤ 0) ts := by
  refine ⟨_, _, cutFrom_segments 0 [] ts rfl unended_nil, cutForms_isError_iff ts, fun hrest => ?_⟩
  exact cutForms_eq_ok.mpr (Prod.ext rfl hrest)

/-! ### Openers and closers -/

/-- The openers without a closer behind a token, the latest first, where `opened` are those in front
of it. A closer belongs to the latest of them. -/
def openedBehind (opened : List (Located Token)) (t : Located Token) : List (Located Token) :=
  if bracketStep t.node = 1 then t :: opened
  else if bracketStep t.node = -1 then opened.tail
  else opened

/-- The openers without a closer among the tokens. -/
def unmatched (ts : List (Located Token)) : List (Located Token) := ts.foldl openedBehind []

def strayCloser (opened : List (Located Token)) (t : Located Token) : Nat :=
  if bracketStep t.node = -1 ∧ opened = [] then 1 else 0

/-- How many closers have no opener. -/
def strayClosers (opened : List (Located Token)) : List (Located Token) → Nat
  | [] => 0
  | t :: ts => strayCloser opened t + strayClosers (openedBehind opened t) ts

/-- How many more openers without closer there are than closers without opener. -/
def excess (ts : List (Located Token)) : Int := (unmatched ts).length - strayClosers [] ts

theorem bracketStep_cases (t : Token) :
    bracketStep t = 1 ∨ bracketStep t = -1 ∨ bracketStep t = 0 := by
  unfold bracketStep
  split <;> simp

theorem length_openedBehind (opened : List (Located Token)) (t : Located Token) :
    ((openedBehind opened t).length : Int) =
      opened.length + (bracketStep t.node).toInt + strayCloser opened t := by
  rcases bracketStep_cases t.node with h | h | h
  · simp [openedBehind, strayCloser, h]
  · cases opened with
    | nil => simp [openedBehind, strayCloser, h]
    | cons u opened =>
        have hlength : (openedBehind (u :: opened) t).length = opened.length := by
          simp [openedBehind, h]
        have hstray : strayCloser (u :: opened) t = 0 := by simp [strayCloser]
        rw [hlength, hstray, h, List.length_cons, show (-1 : Int32).toInt = -1 from rfl]
        omega
  · simp [openedBehind, strayCloser, h]

/-- The word is what the tokens add to the openers without closer and to the closers without opener,
up to the numbers that it cannot hold. -/
theorem openBrackets_toInt_of_opened (opened ts : List (Located Token)) :
    (openBrackets ts).toInt =
      ((ts.foldl openedBehind opened).length - opened.length - strayClosers opened ts : Int).bmod
        Int32.size := by
  induction ts generalizing opened with
  | nil => simp [strayClosers]
  | cons t ts ih =>
      have hstep := length_openedBehind opened t
      rw [openBrackets_cons, Int32.toInt_add, ih (openedBehind opened t), Int.add_bmod_bmod,
        List.foldl_cons, strayClosers]
      congr 1
      omega

theorem openBrackets_toInt (ts : List (Located Token)) :
    (openBrackets ts).toInt = (excess ts).bmod Int32.size := by
  have h := openBrackets_toInt_of_opened [] ts
  rwa [List.length_nil, Int.natCast_zero, Int.sub_zero] at h

theorem openBrackets_le_zero_iff (ts : List (Located Token)) :
    openBrackets ts ≤ 0 ↔ (excess ts).bmod Int32.size ≤ 0 := by
  rw [Int32.le_iff_toInt_le, openBrackets_toInt, Int32.toInt_zero]

/-- Every bracket is matched, or opened, or closed too often. -/
theorem length_foldl_openedBehind_le (opened ts : List (Located Token)) :
    (ts.foldl openedBehind opened).length + strayClosers opened ts ≤ opened.length + ts.length := by
  induction ts generalizing opened with
  | nil => exact Nat.le_refl _
  | cons t ts ih =>
      have hstep : (openedBehind opened t).length + strayCloser opened t ≤ opened.length + 1 := by
        unfold openedBehind strayCloser
        split_ifs <;> simp_all; omega
      have hrest := ih (openedBehind opened t)
      rw [List.foldl_cons, strayClosers, List.length_cons]
      omega

/-- The word can count this many tokens. -/
theorem bmod_excess {ts : List (Located Token)} (h : ts.length ≤ Int32.maxValue.toInt) :
    (excess ts).bmod Int32.size = excess ts := by
  have hle : (unmatched ts).length + strayClosers [] ts ≤ 0 + ts.length :=
    length_foldl_openedBehind_le [] ts
  rw [show Int32.maxValue.toInt = 2147483647 from rfl] at h
  unfold excess
  apply Int.bmod_eq_of_le
  · change -((4294967296 : Nat) / 2 : Int) ≤ _
    omega
  · change _ < ((4294967296 : Nat) + 1 : Int) / 2
    omega

/-- The depth weighs openers without closer against closers without opener. -/
theorem openBrackets_le_zero_iff_of_le {ts : List (Located Token)}
    (h : ts.length ≤ Int32.maxValue.toInt) :
    openBrackets ts ≤ 0 ↔ (unmatched ts).length ≤ strayClosers [] ts := by
  rw [openBrackets_le_zero_iff, bmod_excess h]
  unfold excess
  omega

/-- What is open in front of the tokens changes nothing for the openers among them. -/
theorem foldl_openedBehind_append (as bs ts : List (Located Token)) :
    ∃ cs, ts.foldl openedBehind (as ++ bs) = ts.foldl openedBehind as ++ cs := by
  induction ts generalizing as bs with
  | nil => exact ⟨bs, rfl⟩
  | cons t ts ih =>
      have hstep : ∃ cs, openedBehind (as ++ bs) t = openedBehind as t ++ cs := by
        unfold openedBehind
        split_ifs
        · exact ⟨bs, rfl⟩
        · cases as with
          | nil => exact ⟨bs.tail, rfl⟩
          | cons a as => exact ⟨bs, rfl⟩
        · exact ⟨bs, rfl⟩
      obtain ⟨cs, hcs⟩ := hstep
      rw [List.foldl_cons, List.foldl_cons, hcs]
      exact ih (openedBehind as t) cs

/-- An opener stays without closer whatever stands in front of it. -/
theorem unmatched_eq_nil_of_append {ts us : List (Located Token)} (h : unmatched (ts ++ us) = []) :
    unmatched us = [] := by
  obtain ⟨cs, hcs⟩ := foldl_openedBehind_append [] (unmatched ts) us
  have hall : unmatched (ts ++ us) = unmatched us ++ cs := List.foldl_append.trans hcs
  exact (List.append_eq_nil_iff.mp (hall.symm.trans h)).1

theorem unmatched_append_terminator {ts : List (Located Token)} {t : Located Token}
    (ht : t.node = .terminator) :
    unmatched (ts ++ [t]) = unmatched ts := by
  simp [unmatched, openedBehind, ht, bracketStep]

theorem openBrackets_le_zero_of_unmatched {ts : List (Located Token)}
    (hmax : ts.length ≤ Int32.maxValue.toInt) (h : unmatched ts = []) : openBrackets ts ≤ 0 := by
  rw [openBrackets_le_zero_iff_of_le hmax, h]
  exact Nat.zero_le _

/-- If all tokens are cut up into parts without open brackets, so are those at their end, up to a
first part that has begun in front of them. -/
theorem Segments.not_unended {ts us ws rest : List (Located Token)}
    {parts : List (List (Located Token))} (h : Segments (unmatched · = []) ts parts rest)
    (hrest : rest = []) (hts : ts = us ++ ws) (hws : ws ≠ []) :
    ¬ Unended (unmatched · = []) ws := by
  induction h generalizing us with
  | rest _ =>
      obtain ⟨-, rfl⟩ := List.append_eq_nil_iff.mp (hts.symm.trans hrest)
      exact absurd rfl hws
  | @part vs t ts parts rest ht hends _ _ ih =>
      rcases List.append_eq_append_iff.mp hts with ⟨_ | ⟨x, xs⟩, hus, hbehind⟩ | ⟨xs, hvs, hbehind⟩
      case inl.nil => exact fun hno => hno [] t ts hbehind.symm ht rfl
      case inl.cons =>
        obtain ⟨-, hts⟩ := List.cons.inj hbehind
        exact ih hrest hts
      case inr => exact fun hno => hno xs t ts hbehind ht (unmatched_eq_nil_of_append (hvs ▸ hends))

/-- The cut is made outside of all brackets exactly if no part leaves an opener open. -/
theorem cutsWhere_unmatched_iff {ts : List (Located Token)}
    (hmax : ts.length ≤ Int32.maxValue.toInt) :
    CutsWhere (unmatched · = []) ts ↔
      ∀ parts, cutForms ts = .ok parts → ∀ p ∈ parts, unmatched p = [] := by
  have hsegments := cutFrom_segments 0 [] ts rfl unended_nil
  have himp (us : List (Located Token)) (hle : us.length ≤ ts.length) :=
    openBrackets_le_zero_of_unmatched (Int.le_trans (Int.ofNat_le.mpr hle) hmax)
  constructor
  · rintro ⟨parts', rest, h, herror, hok⟩ parts hcut p hp
    have hrest : rest = [] := by
      by_contra hrest
      obtain ⟨e, he⟩ := herror.mpr hrest
      rw [hcut] at he
      cases he
    obtain rfl : parts = parts' := Except.ok.inj (hcut.symm.trans (hok hrest))
    obtain ⟨us, t, rfl, ht, hends⟩ := h.of_mem p hp
    rw [unmatched_append_terminator ht]
    exact hends
  · intro h
    by_cases hrest : (cutFrom 0 [] ts).2 = []
    · have hcut : cutForms ts = .ok (cutFrom 0 [] ts).1 := cutForms_eq_ok.mpr (Prod.ext rfl hrest)
      refine ⟨_, _, hsegments.stricter himp ?_, cutForms_isError_iff ts, fun _ => hcut⟩
      intro us t hmem
      obtain ⟨vs, u, heq, hu, -⟩ := hsegments.of_mem _ hmem
      obtain ⟨rfl, hlast⟩ := List.append_inj' heq rfl
      obtain rfl : t = u := by simpa using hlast
      rw [← unmatched_append_terminator hu]
      exact h _ hcut _ hmem
    · have hnil : Unended (unmatched · = []) [] := unended_nil
      obtain ⟨parts, rest, hparts⟩ := exists_segments hnil ts
      have hrest' : rest ≠ [] := by
        intro hnil
        have hno : Unended (unmatched · = []) (cutFrom 0 [] ts).2 :=
          hsegments.unended.mono fun us hle => himp us (Nat.le_trans hle hsegments.length_rest_le)
        exact hparts.not_unended hnil hsegments.flatten.symm hrest hno
      refine ⟨parts, rest, hparts, ?_, fun hnil => absurd hnil hrest'⟩
      rw [cutForms_isError_iff]
      exact ⟨fun _ => hrest', fun _ => hrest⟩

/-- Where a sequence is cut. Nothing is lost, and every part ends in a terminator: the first one at
which the openers of the part without closer, less the closers without opener, are at most none as a
word. For fewer tokens than the word can count these are numbers, and that is where no bracket of
the part is open, unless a part leaves one open for which it closes another too often. -/
theorem cutForms_boundaries (ts : List (Located Token)) :
    (∀ parts, cutForms ts = .ok parts →
        parts.flatten = ts ∧ ∀ p ∈ parts, ∃ us t, p = us ++ [t] ∧ t.node = .terminator) ∧
      CutsWhere (fun us => (excess us).bmod Int32.size ≤ 0) ts ∧
      (ts.length ≤ Int32.maxValue.toInt →
        CutsWhere (fun us => (unmatched us).length ≤ strayClosers [] us) ts ∧
          (CutsWhere (unmatched · = []) ts ↔
            ∀ parts, cutForms ts = .ok parts → ∀ p ∈ parts, unmatched p = [])) := by
  refine ⟨fun parts hcut => ⟨cutForms_flatten hcut, ?_⟩, ?_, fun hmax =>
    ⟨?_, cutsWhere_unmatched_iff hmax⟩⟩
  · intro p hp
    obtain ⟨us, t, hsplit, ht, -⟩ := (cutForms_segments hcut).of_mem p hp
    exact ⟨us, t, hsplit, ht⟩
  · exact (cutsWhere_openBrackets ts).congr fun us _ => openBrackets_le_zero_iff us
  · exact (cutsWhere_openBrackets ts).congr fun us hle =>
      openBrackets_le_zero_iff_of_le (Int.le_trans (Int.ofNat_le.mpr hle) hmax)

/-- A terminator in parentheses does not cut, the one behind them does. -/
theorem cutForms_boundaries_parentheses :
    let ts : List (Located Token) :=
      [⟨.symbol .leftParen, ⟨0, 1, 1⟩⟩, ⟨.terminator, ⟨1, 2, 1⟩⟩,
        ⟨.symbol .rightParen, ⟨3, 4, 2⟩⟩, ⟨.terminator, ⟨4, 5, 2⟩⟩]
    ts.length ≤ Int32.maxValue.toInt ∧ cutForms ts = .ok [ts] ∧ CutsWhere (unmatched · = []) ts := by
  intro ts
  have hmax : ts.length ≤ Int32.maxValue.toInt := by decide
  have hcut : cutForms ts = .ok [ts] := rfl
  obtain ⟨-, -, hcounted⟩ := cutForms_boundaries ts
  refine ⟨hmax, hcut, (hcounted hmax).2.mpr fun parts hparts p hp => ?_⟩
  obtain rfl : [ts] = parts := Except.ok.inj (hcut.symm.trans hparts)
  rw [List.mem_singleton.mp hp]
  rfl

/-- A closer in front of an opener hides that the bracket is open. -/
theorem cutForms_inside_bracket :
    ¬ CutsWhere (unmatched · = [])
      [⟨.symbol .rightParen, ⟨0, 1, 1⟩⟩, ⟨.symbol .leftParen, ⟨2, 3, 1⟩⟩,
      ⟨.terminator, ⟨4, 5, 1⟩⟩] := by
  rw [cutsWhere_unmatched_iff (by decide)]
  intro h
  have hpart := h _ rfl _ (List.mem_singleton_self _)
  simp [unmatched, openedBehind, bracketStep] at hpart

end ErlangFragment.Grammar
