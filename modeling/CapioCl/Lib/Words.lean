import Mathlib.Data.List.Basic

/-!
# The words of a list

`words sep s`: the maximal pieces of `s` without the separator, the empty ones left out.

* `sep_induction`: a list has no separator, or ends its first piece at one; every fact about
  `words` goes this way.
* `words_append_cons`: words split at a separator.
* `le_length_words_iff`: there are `n` words when `n` elements stand in `s`, in order, with a
  separator between any two.
* `words_flatMap`: an encoding of the elements that keeps the separator apart keeps the words.
-/

namespace CapioCl.Lib.Words

variable {α β : Type} [DecidableEq α] [DecidableEq β] {sep : α}

/-- The pieces of `s` between separators that are not empty. -/
def words (sep : α) (s : List α) : List (List α) := (s.splitOn sep).filter fun word => word ≠ []

omit [DecidableEq α] in
theorem exists_cons_cons {s : List α} (h : 2 ≤ s.length) : ∃ a b t, s = a :: b :: t := by
  match s, h with
  | a :: b :: t, _ => exact ⟨a, b, t, rfl⟩

theorem sep_induction (sep : α) {P : List α → Prop} (free : ∀ w, sep ∉ w → P w)
    (step : ∀ w s, sep ∉ w → P s → P (w ++ sep :: s)) (s : List α) : P s := by
  -- `w` is what has been read of the piece at the front
  have hread : ∀ s w : List α, sep ∉ w → P (w ++ s) := by
    intro s
    induction s with
    | nil =>
      intro w hw
      rw [List.append_nil]
      exact free w hw
    | cons a s ih =>
      intro w hw
      by_cases ha : a = sep
      · subst ha
        exact step w s hw (ih [] List.not_mem_nil)
      · have hwa : sep ∉ w ++ [a] := by
          rw [List.mem_append, List.mem_singleton]
          rintro (h | h)
          · exact hw h
          · exact ha h.symm
        simpa using ih (w ++ [a]) hwa
  exact hread s [] List.not_mem_nil

@[simp] theorem words_nil : words sep [] = [] := by simp [words]

theorem words_append_cons (s t : List α) :
    words sep (s ++ sep :: t) = words sep s ++ words sep t := by
  unfold words
  rw [List.splitOn_append_cons_self, List.filter_append]

@[simp] theorem words_cons (s : List α) : words sep (sep :: s) = words sep s := by
  have h := @words_append_cons _ _ sep [] s
  rwa [List.nil_append, words_nil, List.nil_append] at h

theorem words_eq_singleton {w : List α} (hne : w ≠ []) (hw : sep ∉ w) : words sep w = [w] := by
  unfold words
  rw [List.splitOn_eq_singleton hw, List.filter_singleton]
  simp [hne]

/-- Words that are joined by separators are found again. -/
theorem words_intercalate {ws : List (List α)} (hws : ws ≠ [])
    (hwords : ∀ w ∈ ws, w ≠ [] ∧ sep ∉ w) : words sep ([sep].intercalate ws) = ws := by
  unfold words
  rw [List.splitOn_intercalate sep (fun w hw => (hwords w hw).2) hws]
  exact List.filter_eq_self.mpr fun w hw => decide_eq_true (hwords w hw).1

theorem mem_words_iff_of_not_mem {s w : List α} (hs : sep ∉ s) :
    w ∈ words sep s ↔ w = s ∧ s ≠ [] := by
  by_cases hne : s = []
  · subst hne
    simp
  · rw [words_eq_singleton hne hs, List.mem_singleton]
    exact ⟨fun h => ⟨h, hne⟩, fun h => h.1⟩

/-- A word is not empty and has no separator. -/
theorem mem_words {s w : List α} (h : w ∈ words sep s) : w ≠ [] ∧ sep ∉ w := by
  induction s using sep_induction sep with
  | free s hs =>
    obtain ⟨rfl, hne⟩ := (mem_words_iff_of_not_mem hs).mp h
    exact ⟨hne, hs⟩
  | step v s hv ih =>
    rw [words_append_cons, List.mem_append, mem_words_iff_of_not_mem hv] at h
    obtain ⟨rfl, hne⟩ | h := h
    · exact ⟨hne, hv⟩
    · exact ih h

theorem isInfix_of_mem_words {s w : List α} (h : w ∈ words sep s) : w <:+: s := by
  induction s using sep_induction sep with
  | free s hs =>
    obtain ⟨rfl, -⟩ := (mem_words_iff_of_not_mem hs).mp h
    exact List.infix_rfl
  | step v s hv ih =>
    rw [words_append_cons, List.mem_append, mem_words_iff_of_not_mem hv] at h
    obtain ⟨rfl, -⟩ | h := h
    · exact (List.prefix_append w _).isInfix
    · exact (ih h).trans ((List.suffix_cons sep s).trans (List.suffix_append v _)).isInfix

/-- The first word begins with the first element that is no separator. -/
theorem find?_eq_head?_words (s : List α) :
    s.find? (· ≠ sep) = (words sep s).head?.bind List.head? := by
  induction s using sep_induction sep with
  | free w hw =>
    cases w with
    | nil => simp
    | cons a w =>
      have ha : a ≠ sep := fun e => hw (by simp [e])
      rw [words_eq_singleton (List.cons_ne_nil a w) hw, List.find?_cons_of_pos (by simpa using ha)]
      rfl
  | step w s hw ih =>
    cases w with
    | nil => rw [List.nil_append, words_cons, ← ih, List.find?_cons_of_neg (by simp)]
    | cons a w =>
      have ha : a ≠ sep := fun e => hw (by simp [e])
      rw [words_append_cons, words_eq_singleton (List.cons_ne_nil a w) hw, List.cons_append,
        List.find?_cons_of_pos (by simpa using ha)]
      rfl

theorem words_eq_nil_iff {s : List α} : words sep s = [] ↔ ∀ a ∈ s, a = sep := by
  have hfind : words sep s = [] ↔ s.find? (· ≠ sep) = none := by
    rw [find?_eq_head?_words]
    cases hwords : words sep s with
    | nil => simp
    | cons w ws =>
      have hne : w ≠ [] := (mem_words (hwords ▸ List.mem_cons_self)).1
      simp [hne]
  rw [hfind, List.find?_eq_none]
  simp

section Sublist

omit [DecidableEq α]

/-- The elements after the first of a separated list lie behind the first separator. -/
theorem sublist_of_intersperse {w s : List α} {a : α} {l : List α} (hw : sep ∉ w) (ha : a ≠ sep)
    (h : ((a :: l).intersperse sep).Sublist (w ++ sep :: s)) : (l.intersperse sep).Sublist s := by
  cases l with
  | nil => exact List.nil_sublist s
  | cons b l =>
    rw [List.intersperse_cons_cons] at h
    obtain ⟨front, back, heq, hfront, hback⟩ := List.sublist_append_iff.mp h
    -- no separator lies in `w`, so at most `a` does
    cases front with
    | nil =>
      rw [List.nil_append] at heq
      subst heq
      cases hback with
      | cons _ hback => exact List.sublist_of_cons_sublist (List.sublist_of_cons_sublist hback)
      | cons_cons => exact absurd rfl ha
    | cons c front =>
      cases front with
      | nil =>
        obtain ⟨-, rfl⟩ := List.cons.inj heq
        exact List.cons_sublist_cons.mp hback
      | cons d front =>
        obtain ⟨-, heq⟩ := List.cons.inj heq
        obtain ⟨rfl, -⟩ := List.cons.inj heq
        exact absurd (hfront.subset (by simp)) hw

theorem intersperse_sublist {w s : List α} {a : α} {l : List α} (ha : a ∈ w)
    (h : (l.intersperse sep).Sublist s) : ((a :: l).intersperse sep).Sublist (w ++ sep :: s) := by
  have hfirst : [a].Sublist w := List.singleton_sublist.mpr ha
  cases l with
  | nil => exact hfirst.trans (List.sublist_append_left w _)
  | cons b l =>
    rw [List.intersperse_cons_cons]
    exact hfirst.append (List.Sublist.cons_cons sep h)

/-- A list without separators has no separated sublist of two elements. -/
theorem length_le_one {w l : List α} (hw : sep ∉ w) (h : (l.intersperse sep).Sublist w) :
    l.length ≤ 1 := by
  match l with
  | [] | [_] => simp
  | a :: b :: l =>
    rw [List.intersperse_cons_cons] at h
    exact absurd (h.subset (by simp)) hw

/-- A leading separator is of no use to a separated list. -/
theorem intersperse_sublist_cons_iff {s l : List α} (hl : sep ∉ l) :
    (l.intersperse sep).Sublist (sep :: s) ↔ (l.intersperse sep).Sublist s := by
  refine ⟨fun h => ?_, fun h => h.cons sep⟩
  cases l with
  | nil => exact List.nil_sublist s
  | cons a l =>
    have ha : a ≠ sep := fun e => hl (by simp [e])
    obtain ⟨rest, hrest⟩ : ∃ rest, (a :: l).intersperse sep = a :: rest := by
      cases l with
      | nil => exact ⟨[], rfl⟩
      | cons b l => exact ⟨_, List.intersperse_cons_cons⟩
    rw [hrest] at h ⊢
    cases h with
    | cons _ h => exact h
    | cons_cons => exact absurd rfl ha

end Sublist

/-- A single piece has no more than one word. -/
theorem le_length_words_iff_of_not_mem {n : Nat} {w : List α} (hw : sep ∉ w) :
    n ≤ (words sep w).length ↔
      ∃ l : List α, l.length = n ∧ sep ∉ l ∧ (l.intersperse sep).Sublist w := by
  constructor
  · intro hn
    match n, w with
    | 0, _ => exact ⟨[], rfl, List.not_mem_nil, List.nil_sublist _⟩
    | n + 1, [] => simp at hn
    | n + 1, a :: w =>
      rw [words_eq_singleton (List.cons_ne_nil a w) hw, List.length_singleton] at hn
      refine ⟨[a], by rw [List.length_singleton]; omega, ?_, by simp⟩
      rw [List.mem_singleton]
      exact fun e => hw (by simp [e])
  · rintro ⟨l, rfl, -, hl⟩
    have hone := length_le_one hw hl
    by_cases hne : w = []
    · subst hne
      match l with
      | [] => exact Nat.zero_le _
      | [_] => simp at hl
    · rw [words_eq_singleton hne hw]
      exact hone

/-- There are at least `n` words when `n` elements stand in the list, separated. -/
theorem le_length_words_iff {n : Nat} {s : List α} : n ≤ (words sep s).length ↔
    ∃ l : List α, l.length = n ∧ sep ∉ l ∧ (l.intersperse sep).Sublist s := by
  induction s using sep_induction sep generalizing n with
  | free w hw => exact le_length_words_iff_of_not_mem hw
  | step w s hw ih =>
    by_cases hne : w = []
    · subst hne
      rw [List.nil_append, words_cons, ih]
      refine exists_congr fun l => and_congr_right fun _ => and_congr_right fun hl => ?_
      exact (intersperse_sublist_cons_iff hl).symm
    · rw [words_append_cons, words_eq_singleton hne hw, List.length_append, List.length_singleton]
      constructor
      · intro hn
        match n with
        | 0 => exact ⟨[], rfl, List.not_mem_nil, List.nil_sublist _⟩
        | n + 1 =>
          obtain ⟨l, rfl, hl, hsub⟩ := ih.mp (by omega : n ≤ (words sep s).length)
          obtain ⟨a, ha⟩ := List.exists_mem_of_ne_nil w hne
          refine ⟨a :: l, rfl, ?_, intersperse_sublist ha hsub⟩
          rw [List.mem_cons]
          rintro (rfl | h)
          · exact hw ha
          · exact hl h
      · rintro ⟨l, rfl, hl, hsub⟩
        match l with
        | [] => exact Nat.zero_le _
        | a :: l =>
          have ha : a ≠ sep := fun e => hl (by simp [e])
          have hrest : l.length ≤ (words sep s).length := ih.mpr
            ⟨l, rfl, fun h => hl (List.mem_cons_of_mem a h), sublist_of_intersperse hw ha hsub⟩
          rw [List.length_cons]
          omega

/-- An encoding of the elements, no other than the separator with the separator's code in it,
encodes the words one by one. -/
theorem words_flatMap {sep' : β} {encode : α → List β} (hsep : encode sep = [sep'])
    (hother : ∀ a, a ≠ sep → encode a ≠ [] ∧ sep' ∉ encode a) (s : List α) :
    words sep' (s.flatMap encode) = (words sep s).map (List.flatMap encode) := by
  have hfree : ∀ w : List α, sep ∉ w → sep' ∉ w.flatMap encode := by
    intro w hw h
    obtain ⟨a, ha, h⟩ := List.mem_flatMap.mp h
    exact (hother a fun e => hw (e ▸ ha)).2 h
  have hpiece : ∀ w : List α, sep ∉ w →
      words sep' (w.flatMap encode) = (words sep w).map (List.flatMap encode) := by
    intro w hw
    cases w with
    | nil => simp
    | cons a w =>
      have hne : (a :: w).flatMap encode ≠ [] := by
        rw [List.flatMap_cons]
        exact List.append_ne_nil_of_left_ne_nil (hother a fun e => hw (by simp [e])).1 _
      rw [words_eq_singleton hne (hfree _ hw), words_eq_singleton (List.cons_ne_nil a w) hw,
        List.map_singleton]
  induction s using sep_induction sep with
  | free w hw => exact hpiece w hw
  | step w s hw ih =>
    rw [List.flatMap_append, List.flatMap_cons, hsep, List.singleton_append, words_append_cons,
      words_append_cons, List.map_append, hpiece w hw, ih]

end CapioCl.Lib.Words
