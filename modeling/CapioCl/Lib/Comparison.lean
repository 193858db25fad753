import Mathlib.Data.List.Perm.Subperm

/-!
# Comparison by size and membership

Two lists are often compared by looking for each element of the first in the second, after a check
of the sizes (`OneWay`). That is a preorder, and coarser than equality up to order: it passes for
`[x, x]` and `[x, y]`, in one direction. It fails to be equality up to order exactly when some
element occurs more often in the first list than in the second (`perm_iff`).

`exact_and_symm_iff` is about any test `R` that holds whenever a symmetric relation `S` does: it is
`S`, and symmetric, at a pair if it implies `S` in both directions.
-/

namespace CapioCl.Lib.Comparison

section Lists

variable {α : Type} {a b c : List α}

/-- Equal sizes, and each element of the first list is in the second. -/
def OneWay (a b : List α) : Prop := a.length = b.length ∧ a ⊆ b

theorem OneWay.refl (a : List α) : OneWay a a := ⟨rfl, List.Subset.refl a⟩

theorem OneWay.trans (h : OneWay a b) (h' : OneWay b c) : OneWay a c :=
  ⟨h.1.trans h'.1, List.Subset.trans h.2 h'.2⟩

theorem OneWay.of_perm (h : a.Perm b) : OneWay a b := ⟨h.length_eq, h.subset⟩

/-- Without repetitions on the left the test is equality up to order. -/
theorem OneWay.perm_of_nodup (h : OneWay a b) (ha : a.Nodup) : a.Perm b :=
  (List.subperm_of_subset ha h.2).perm_of_length_le (Nat.le_of_eq h.1.symm)

/-- **Equality up to order** is the test, and no element more often on the left. -/
theorem perm_iff [BEq α] [LawfulBEq α] :
    a.Perm b ↔ OneWay a b ∧ ¬ ∃ x, b.count x < a.count x := by
  constructor
  · intro h
    refine ⟨OneWay.of_perm h, ?_⟩
    rintro ⟨x, hx⟩
    have hcount := h.count_eq x
    omega
  · rintro ⟨⟨hlen, -⟩, hcount⟩
    have hsub : List.Subperm a b :=
      List.subperm_ext_iff.mpr fun x _ => Nat.le_of_not_lt fun hlt => hcount ⟨x, hlt⟩
    exact hsub.perm_of_length_le (Nat.le_of_eq hlen.symm)

end Lists

section Relations

variable {α : Type}

/-- When a test is a symmetric relation it contains, at a pair. -/
theorem exact_and_symm_iff {R S : α → α → Prop} (hsub : ∀ {x y}, S x y → R x y)
    (hsymm : ∀ {x y}, S x y → S y x) (x y : α) :
    ((R x y ↔ S x y) ∧ (R x y ↔ R y x)) ↔ (R x y → S x y) ∧ (R y x → S y x) := by
  constructor
  · rintro ⟨hexact, hback⟩
    exact ⟨hexact.mp, fun h => hsymm (hexact.mp (hback.mpr h))⟩
  · rintro ⟨h1, h2⟩
    exact ⟨⟨h1, hsub⟩, fun h => hsub (hsymm (h1 h)), fun h => hsub (hsymm (h2 h))⟩

theorem optionRel_trans {R : α → α → Prop} (h : ∀ {x y z}, R x y → R y z → R x z) :
    ∀ {x y z : Option α}, Option.Rel R x y → Option.Rel R y z → Option.Rel R x z
  | _, _, _, .none, .none => .none
  | _, _, _, .some h1, .some h2 => .some (h h1 h2)

theorem optionRel_symm {R : α → α → Prop} (h : ∀ {x y}, R x y → R y x) :
    ∀ {x y : Option α}, Option.Rel R x y → Option.Rel R y x
  | _, _, .none => .none
  | _, _, .some hxy => .some (h hxy)

theorem optionRel_imp {R S : α → α → Prop} :
    ∀ {x y : Option α}, (∀ a b, x = some a → y = some b → R a b → S a b) →
      Option.Rel R x y → Option.Rel S x y
  | _, _, _, .none => .none
  | _, _, h, .some hxy => .some (h _ _ rfl rfl hxy)

theorem optionRel_map {β : Type} {R : α → α → Prop} {S : β → β → Prop} {f g : α → β}
    (h : ∀ x y, R x y → S (f x) (g y)) :
    ∀ {x y : Option α}, Option.Rel R x y → Option.Rel S (x.map f) (y.map g)
  | _, _, .none => .none
  | _, _, .some hxy => .some (h _ _ hxy)

theorem optionRel_getD {R : α → α → Prop} {a : α} (h : R a a) :
    ∀ {x y : Option α}, Option.Rel R x y → R (x.getD a) (y.getD a)
  | _, _, .none => h
  | _, _, .some hxy => hxy

theorem optionRel_isSome {R : α → α → Prop} :
    ∀ {x y : Option α}, Option.Rel R x y → x.isSome = y.isSome
  | _, _, .none => rfl
  | _, _, .some _ => rfl

end Relations

end CapioCl.Lib.Comparison
