import Mathlib.Data.List.Basic
import Mathlib.Logic.Basic

/-!
# Registers and grow-only sets under a list of writes

A field of a record that is only ever overwritten is a register: after a run of writes it holds
what the last write to it assigned, or its first value (`foldl_register`). A field that is only
ever extended is a set: after the run it holds its first elements and everything some write added
(`foldl_grow`). Neither fact looks at the writes that touch other fields.

`last val ws` is the last assignment in `ws`. When all assignments of a run agree it no longer
depends on their order (`last_of_agree`).
-/

namespace CapioCl.Lib.Registers

variable {ω σ α : Type}

/-- What the last assignment of a run assigns; `val w` is the value write `w` assigns, if any. -/
def last (val : ω → Option α) : List ω → Option α
  | [] => none
  | w :: ws => (last val ws).or (val w)

@[simp] theorem last_nil (val : ω → Option α) : last val [] = none := rfl

theorem last_cons (val : ω → Option α) (w : ω) (ws : List ω) :
    last val (w :: ws) = (last val ws).or (val w) := rfl

theorem last_append (val : ω → Option α) (xs ys : List ω) :
    last val (xs ++ ys) = (last val ys).or (last val xs) := by
  induction xs with
  | nil => simp
  | cons x xs ih => rw [List.cons_append, last_cons, ih, last_cons, Option.or_assoc]

theorem last_eq_none_iff (val : ω → Option α) (ws : List ω) :
    last val ws = none ↔ ∀ w ∈ ws, val w = none := by
  induction ws with
  | nil => simp
  | cons w ws ih =>
    rw [last_cons, Option.or_eq_none_iff, ih, List.forall_mem_cons]
    exact and_comm

theorem exists_of_last_eq_some {val : ω → Option α} {a : α} {ws : List ω}
    (h : last val ws = some a) : ∃ w ∈ ws, val w = some a := by
  induction ws with
  | nil => exact absurd h (by simp)
  | cons w ws ih =>
    rw [last_cons, Option.or_eq_some_iff] at h
    rcases h with h | ⟨-, h⟩
    · obtain ⟨v, hv, he⟩ := ih h
      exact ⟨v, List.mem_cons_of_mem w hv, he⟩
    · exact ⟨w, List.mem_cons_self, h⟩

/-- **Agreeing assignments need no order.** -/
theorem last_of_agree {val : ω → Option α} {ws : List ω} {a : α}
    (hex : ∃ w ∈ ws, val w ≠ none) (hag : ∀ w ∈ ws, ∀ b, val w = some b → b = a) :
    last val ws = some a := by
  cases h : last val ws with
  | none =>
    obtain ⟨w, hw, hne⟩ := hex
    exact absurd ((last_eq_none_iff val ws).mp h w hw) hne
  | some b =>
    obtain ⟨w, hw, hb⟩ := exists_of_last_eq_some h
    rw [hag w hw b hb]

/-- **A register holds its last assignment.** -/
theorem foldl_register {step : σ → ω → σ} {get : σ → α} {val : ω → Option α}
    (h : ∀ s w, get (step s w) = (val w).getD (get s))
    (ws : List ω) (s : σ) : get (ws.foldl step s) = (last val ws).getD (get s) := by
  induction ws generalizing s with
  | nil => rfl
  | cons w ws ih =>
    rw [List.foldl_cons, ih, h, last_cons]
    cases last val ws <;> rfl

/-- **A grow-only set holds what it had and what was added.** -/
theorem foldl_grow {step : σ → ω → σ} {In : σ → Prop} {adds : ω → Prop}
    (h : ∀ s w, In (step s w) ↔ In s ∨ adds w)
    (ws : List ω) (s : σ) : In (ws.foldl step s) ↔ In s ∨ ∃ w ∈ ws, adds w := by
  induction ws generalizing s with
  | nil => simp
  | cons w ws ih =>
    rw [List.foldl_cons, ih, h, or_assoc]
    simp only [List.mem_cons, exists_eq_or_imp]

/-- What every step keeps, a run keeps. -/
theorem foldl_invariant {step : σ → ω → σ} {Inv : σ → Prop} (ws : List ω) {s : σ}
    (h : ∀ s, ∀ w ∈ ws, Inv s → Inv (step s w)) (hs : Inv s) : Inv (ws.foldl step s) := by
  induction ws generalizing s with
  | nil => exact hs
  | cons w ws ih =>
    exact ih (fun s v hv => h s v (List.mem_cons_of_mem w hv)) (h s w List.mem_cons_self hs)

end CapioCl.Lib.Registers
