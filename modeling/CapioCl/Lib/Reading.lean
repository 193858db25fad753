import Mathlib.Data.List.Basic
import Mathlib.Data.List.Forall2

/-!
# Reading lists in the exception monad

A loop that reads the elements of a list stops at the first one that fails.

* `mapM_eq_ok_iff`, `exists_mapM_iff`, `mapM_eq_error`: when all are read, and which error is
  raised when one is not.
* `foldlM_read`: a loop that reads an element and then runs it on a state reads the whole list
  first and runs it afterwards, when running does not fail.
-/

namespace CapioCl.Lib.Reading

variable {ε α β σ : Type}

@[simp] theorem ok_bind (x : α) (f : α → Except ε β) : ((.ok x : Except ε α) >>= f) = f x := rfl

@[simp] theorem error_bind (e : ε) (f : α → Except ε β) :
    ((.error e : Except ε α) >>= f) = .error e := rfl

@[simp] theorem pure_eq_ok (x : α) : (pure x : Except ε α) = .ok x := rfl

@[simp] theorem map_ok (x : α) (f : α → β) : (.ok x : Except ε α).map f = .ok (f x) := rfl

@[simp] theorem map_error (e : ε) (f : α → β) : (.error e : Except ε α).map f = .error e := rfl

theorem bind_eq_ok_iff {x : Except ε α} {f : α → Except ε β} {b : β} :
    (x >>= f) = .ok b ↔ ∃ a, x = .ok a ∧ f a = .ok b := by
  cases x <;> simp

theorem bind_eq_error {x : Except ε α} {f : α → Except ε β} {e : ε} (h : (x >>= f) = .error e) :
    x = .error e ∨ ∃ a, x = .ok a ∧ f a = .error e := by
  cases x with
  | ok a => exact Or.inr ⟨a, rfl, h⟩
  | error e' =>
    rw [error_bind] at h
    exact Or.inl (congrArg Except.error (Except.error.inj h))

theorem map_eq_ok_iff {x : Except ε α} {f : α → β} {b : β} :
    x.map f = .ok b ↔ ∃ a, x = .ok a ∧ f a = b := by
  cases x <;> simp

theorem map_eq_error_iff {x : Except ε α} {f : α → β} {e : ε} :
    x.map f = .error e ↔ x = .error e := by
  cases x <;> simp

/-- All elements are read, in order. -/
theorem mapM_eq_ok_iff {f : α → Except ε β} {xs : List α} {ys : List β} :
    xs.mapM f = .ok ys ↔ List.Forall₂ (fun x y => f x = .ok y) xs ys := by
  induction xs generalizing ys with
  | nil =>
    rw [List.mapM_nil, pure_eq_ok, Except.ok.injEq, List.forall₂_nil_left_iff]
    exact eq_comm
  | cons x xs ih =>
    rw [List.mapM_cons, bind_eq_ok_iff]
    simp only [bind_eq_ok_iff, pure_eq_ok, Except.ok.injEq, ih]
    rw [List.forall₂_cons_left_iff]
    constructor
    · rintro ⟨y, hy, ys', hys, rfl⟩
      exact ⟨y, ys', hy, hys, rfl⟩
    · rintro ⟨y, ys', hy, hys, rfl⟩
      exact ⟨y, hy, ys', hys, rfl⟩

theorem exists_mapM_iff {f : α → Except ε β} {xs : List α} :
    (∃ ys, xs.mapM f = .ok ys) ↔ ∀ x ∈ xs, ∃ y, f x = .ok y := by
  induction xs with
  | nil => simp
  | cons x xs ih =>
    rw [List.forall_mem_cons, ← ih]
    simp only [mapM_eq_ok_iff, List.forall₂_cons_left_iff]
    constructor
    · rintro ⟨_, y, ys, hy, hys, rfl⟩
      exact ⟨⟨y, hy⟩, ys, hys⟩
    · rintro ⟨⟨y, hy⟩, ys, hys⟩
      exact ⟨_, y, ys, hy, hys, rfl⟩

theorem exists_of_mem_right {R : α → β → Prop} {y : β} {xs : List α} {ys : List β}
    (h : List.Forall₂ R xs ys) (hy : y ∈ ys) : ∃ x ∈ xs, R x y := by
  induction h with
  | nil => exact absurd hy List.not_mem_nil
  | @cons x y' xs ys hxy hrest ih =>
    rcases List.mem_cons.mp hy with rfl | hy
    · exact ⟨x, List.mem_cons_self, hxy⟩
    · obtain ⟨w, hw, hwy⟩ := ih hy
      exact ⟨w, List.mem_cons_of_mem x hw, hwy⟩

theorem mem_of_mapM {f : α → Except ε β} {y : β} {xs : List α} {ys : List β}
    (h : xs.mapM f = .ok ys) (hy : y ∈ ys) : ∃ x ∈ xs, f x = .ok y :=
  @exists_of_mem_right _ _ (fun x y => f x = .ok y) _ _ _ (mapM_eq_ok_iff.mp h) hy

theorem mem_mapM {f : α → Except ε β} {x : α} {xs : List α} {ys : List β}
    (h : xs.mapM f = .ok ys) (hx : x ∈ xs) : ∃ y ∈ ys, f x = .ok y :=
  @exists_of_mem_right _ _ (fun y x => f x = .ok y) _ _ _ (mapM_eq_ok_iff.mp h).flip hx

/-- The error of a list is the error of an element. -/
theorem mapM_eq_error {f : α → Except ε β} {e : ε} {xs : List α} (h : xs.mapM f = .error e) :
    ∃ x ∈ xs, f x = .error e := by
  induction xs with
  | nil => exact absurd h (by simp)
  | cons x xs ih =>
    rw [List.mapM_cons] at h
    rcases bind_eq_error h with h | ⟨y, -, h⟩
    · exact ⟨x, List.mem_cons_self, h⟩
    · rcases bind_eq_error h with h | ⟨ys, -, h⟩
      · obtain ⟨z, hz, he⟩ := ih h
        exact ⟨z, List.mem_cons_of_mem x hz, he⟩
      · exact absurd h (by simp)

/-- A place in a list that is read, and the same place in what is read from it. -/
theorem forall₂_split {R : α → β → Prop} {x : α} {xs after : List α} {ys : List β}
    (h : List.Forall₂ R (xs ++ x :: after) ys) : ∃ before y after', ys = before ++ y :: after' ∧
      List.Forall₂ R xs before ∧ R x y ∧ List.Forall₂ R after after' := by
  induction xs generalizing ys with
  | nil =>
    obtain ⟨y, ys, hy, hys, rfl⟩ := List.forall₂_cons_left_iff.mp h
    exact ⟨[], y, ys, rfl, List.Forall₂.nil, hy, hys⟩
  | cons x' xs ih =>
    obtain ⟨y', ys, hy', hys, rfl⟩ := List.forall₂_cons_left_iff.mp h
    obtain ⟨before, y, after', rfl, hbefore, hy, hafter⟩ := ih hys
    exact ⟨y' :: before, y, after', rfl, List.Forall₂.cons hy' hbefore, hy, hafter⟩

theorem mapM_congr {f g : α → Except ε β} {xs : List α} (h : ∀ x ∈ xs, f x = g x) :
    xs.mapM f = xs.mapM g := by
  induction xs with
  | nil => rfl
  | cons x xs ih =>
    rw [List.forall_mem_cons] at h
    rw [List.mapM_cons, List.mapM_cons, h.1, ih h.2]

/-- A list all of whose elements are read is read by `map`. -/
theorem mapM_ok {f : α → Except ε β} {h : α → β} {xs : List α}
    (hf : ∀ x ∈ xs, f x = .ok (h x)) : xs.mapM f = .ok (xs.map h) := by
  rw [mapM_eq_ok_iff, List.forall₂_map_right_iff]
  exact List.forall₂_same.mpr hf

/-- **Reading on the way is reading first.** -/
theorem foldlM_read {read : α → Except ε β} {step : σ → α → Except ε σ} {after : β → σ → σ}
    {xs : List α} (s : σ) (h : ∀ x ∈ xs, ∀ s, step s x = (read x).map fun y => after y s) :
    xs.foldlM step s = (xs.mapM read).map fun ys => ys.foldl (fun s y => after y s) s := by
  induction xs generalizing s with
  | nil => rfl
  | cons x xs ih =>
    rw [List.foldlM_cons, List.mapM_cons, h x List.mem_cons_self]
    cases hx : read x with
    | error e => rfl
    | ok y =>
      rw [map_ok, ok_bind, ok_bind,
        ih (after y s) fun z hz => h z (List.mem_cons_of_mem x hz)]
      cases xs.mapM read <;> rfl

end CapioCl.Lib.Reading
