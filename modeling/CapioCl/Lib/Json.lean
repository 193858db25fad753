import Mathlib.Data.List.Basic
import Mathlib.Data.List.Forall2

/-!
# JSON values

A number is the decimal it is written as: `num m s` is `m / 10 ^ s`, an integer when `s = 0`. An
object is its list of members; a key is looked up by its first occurrence.
-/

namespace CapioCl.Lib

inductive Json where
  | null
  | bool (b : Bool)
  | num (mantissa : Int) (scale : Nat)
  | str (s : String)
  | arr (items : List Json)
  | obj (members : List (String × Json))

namespace Json

/-- What reading a value as something it is not raises. -/
inductive Error where
  | keyNotFound (key : String)
  | notAnArray
  | notAnInteger
  | notABool
  | notAnObject
  | syntaxError
  deriving Repr, DecidableEq

/-- The member `k`, of an object that has one. -/
def get? : Json → String → Option Json
  | .obj ms, k => ms.lookup k
  | _, _ => none

def contains (j : Json) (k : String) : Bool := (j.get? k).isSome

/-- `j[k]`. -/
def member (j : Json) (k : String) : Except Error Json :=
  match j.get? k with
  | some v => .ok v
  | none => .error (.keyNotFound k)

def arrayRange : Json → Except Error (List Json)
  | .arr xs => .ok xs
  | _ => .error .notAnArray

/-- The elements of the array `j[k]`; none if it is missing. -/
def elements (j : Json) (k : String) : List Json :=
  match j.get? k with
  | some (.arr xs) => xs
  | _ => []

/-- `get_value_or<T>(name, default)`, with the conversion of `T`; `null` has no members. -/
def getValueOr {α : Type} (as : Json → Except Error α) (name : String) (default : α) :
    Json → Except Error α
  | .null => .ok default
  | .obj ms =>
    match ms.lookup name with
    | some v => as v
    | none => .ok default
  | _ => .error .notAnObject

/-- The array of the given strings. -/
def strs (l : List String) : Json := .arr (l.map .str)

@[simp] theorem get?_obj (ms : List (String × Json)) (k : String) :
    (Json.obj ms).get? k = ms.lookup k := rfl

theorem member_of_get? {j v : Json} {k : String} (h : j.get? k = some v) :
    j.member k = .ok v := by
  unfold member
  rw [h]

theorem elements_of_get? {j : Json} {k : String} {xs : List Json} (h : j.get? k = some (.arr xs)) :
    j.elements k = xs := by
  unfold elements
  rw [h]

theorem elements_of_none {j : Json} {k : String} (h : j.get? k = none) : j.elements k = [] := by
  unfold elements
  rw [h]

theorem contains_iff {j : Json} {k : String} : j.contains k = true ↔ ∃ v, j.get? k = some v := by
  unfold contains
  rw [Option.isSome_iff_exists]

theorem contains_eq_false_iff {j : Json} {k : String} : j.contains k = false ↔ j.get? k = none := by
  unfold contains
  rw [Option.isSome_eq_false_iff, Option.isNone_iff_eq_none]

/-! ## Building and cutting objects -/

/-- `j[k] = v` on an object whose members are kept in the order of their keys. -/
def put (k : String) (v : Json) : List (String × Json) → List (String × Json)
  | [] => [(k, v)]
  | (k', v') :: ms =>
    if k = k' then (k, v) :: ms
    else if k < k' then (k, v) :: (k', v') :: ms
    else (k', v') :: put k v ms

theorem lookup_cons_if (k : String) (v : Json) (q : String) (ms : List (String × Json)) :
    ((k, v) :: ms).lookup q = if q = k then some v else ms.lookup q := by
  rw [List.lookup_cons]
  by_cases hq : q = k
  · rw [if_pos hq, beq_iff_eq.mpr hq]
  · rw [if_neg hq, beq_eq_false_iff_ne.mpr hq]

theorem lookup_put (k : String) (v : Json) (q : String) : ∀ ms : List (String × Json),
    (put k v ms).lookup q = if q = k then some v else ms.lookup q
  | [] => lookup_cons_if k v q []
  | (k', v') :: ms => by
    have ih := lookup_put k v q ms
    unfold put
    by_cases hk : k = k'
    · subst hk
      rw [if_pos rfl, lookup_cons_if, lookup_cons_if]
      by_cases hq : q = k
      · rw [if_pos hq, if_pos hq]
      · rw [if_neg hq, if_neg hq, if_neg hq]
    rw [if_neg hk]
    by_cases hlt : k < k'
    · rw [if_pos hlt, lookup_cons_if]
    · rw [if_neg hlt, lookup_cons_if, lookup_cons_if, ih]
      by_cases hq : q = k'
      · rw [if_pos hq, if_pos hq, if_neg fun h => hk (h.symm.trans hq)]
      · rw [if_neg hq, if_neg hq]

theorem mem_put {k : String} {v : Json} {m : String × Json} : ∀ {ms : List (String × Json)},
    m ∈ put k v ms → m = (k, v) ∨ m ∈ ms
  | [], h => Or.inl (List.mem_singleton.mp h)
  | (k', v') :: ms, h => by
    unfold put at h
    split at h
    · exact (List.mem_cons.mp h).imp_right (List.mem_cons_of_mem _)
    · split at h
      · exact List.mem_cons.mp h
      · rcases List.mem_cons.mp h with rfl | h
        · exact Or.inr List.mem_cons_self
        · exact (mem_put h).imp_right (List.mem_cons_of_mem _)

/-- The members whose keys are not deleted. -/
def without (deleted : List String) (ms : List (String × Json)) : List (String × Json) :=
  ms.filter fun m => m.1 ∉ deleted

theorem lookup_without (deleted : List String) (q : String) : ∀ ms : List (String × Json),
    (without deleted ms).lookup q = if q ∈ deleted then none else ms.lookup q
  | [] => by simp [without]
  | (k, v) :: ms => by
    have ih := lookup_without deleted q ms
    unfold without at ih ⊢
    by_cases hk : k ∈ deleted
    · rw [List.filter_cons_of_neg (by simpa using hk), ih, lookup_cons_if]
      by_cases hq : q = k
      · rw [if_pos (hq ▸ hk), if_pos (hq ▸ hk)]
      · rw [if_neg hq]
    · rw [List.filter_cons_of_pos (by simpa using hk), lookup_cons_if, lookup_cons_if, ih]
      by_cases hq : q = k
      · rw [if_pos hq, if_pos hq, if_neg (hq ▸ hk)]
      · rw [if_neg hq, if_neg hq]

/-! ## Objects with the same keys -/

/-- Objects with the same keys in the same places, their values related key by key. -/
def Members (R : String → Json → Json → Prop) (j j' : Json) : Prop :=
  ∃ ms ms', j = .obj ms ∧ j' = .obj ms' ∧
    List.Forall₂ (fun m m' => m.1 = m'.1 ∧ R m.1 m.2 m'.2) ms ms'

/-- The member `k` of one object is related to that of the other. -/
theorem Members.rel {R : String → Json → Json → Prop} {j j' : Json} (h : Members R j j')
    (k : String) : Option.Rel (R k) (j.get? k) (j'.get? k) := by
  obtain ⟨ms, ms', rfl, rfl, hms⟩ := h
  rw [get?_obj, get?_obj]
  induction hms with
  | nil => exact Option.Rel.none
  | @cons m m' ms ms' hm hms ih =>
    obtain ⟨key, v⟩ := m
    obtain ⟨key', v'⟩ := m'
    obtain ⟨rfl, hv⟩ := hm
    rw [List.lookup_cons, List.lookup_cons]
    by_cases hk : k = key
    · subst hk
      rw [BEq.rfl]
      exact Option.Rel.some hv
    · rw [beq_eq_false_iff_ne.mpr hk]
      exact ih

theorem Members.get?_eq_none_iff {R : String → Json → Json → Prop} {j j' : Json} {k : String}
    (h : Members R j j') : j'.get? k = none ↔ j.get? k = none := by
  have hrel := h.rel k
  generalize j.get? k = x, j'.get? k = y at hrel ⊢
  cases hrel <;> simp

theorem Members.of_get? {R : String → Json → Json → Prop} {j j' v : Json} {k : String}
    (h : Members R j j') (hv : j.get? k = some v) : ∃ v', j'.get? k = some v' ∧ R k v v' := by
  have hrel := h.rel k
  rw [hv] at hrel
  generalize j'.get? k = y at hrel ⊢
  cases hrel with
  | some hr => exact ⟨_, rfl, hr⟩

theorem Members.get?_of {R : String → Json → Json → Prop} {j j' v' : Json} {k : String}
    (h : Members R j j') (hv : j'.get? k = some v') : ∃ v, j.get? k = some v ∧ R k v v' := by
  have hrel := h.rel k
  rw [hv] at hrel
  generalize j.get? k = x at hrel ⊢
  cases hrel with
  | some hr => exact ⟨_, rfl, hr⟩

/-- A key whose values are not changed. -/
theorem Members.get?_eq {R : String → Json → Json → Prop} {j j' : Json} {k : String}
    (h : Members R j j') (hR : ∀ v v', R k v v' → v' = v) : j'.get? k = j.get? k := by
  have hrel := h.rel k
  generalize j.get? k = x, j'.get? k = y at hrel ⊢
  cases hrel with
  | none => rfl
  | some hr => rw [hR _ _ hr]

/-- The relation keeps what holds of the first value. -/
def Keeps (S : Json → Prop) (R : Json → Json → Prop) : Prop := ∀ v v', S v → R v v' → S v'

theorem keeps_of_eq {S : Json → Prop} {R : Json → Json → Prop} (h : ∀ v v', R v v' → v' = v) :
    Keeps S R := by
  intro v v' hv hR
  rwa [h v v' hR]

/-- A required member keeps its shape. -/
theorem Members.required {R : String → Json → Json → Prop} {S : Json → Prop} {j j' : Json}
    {k : String} (hm : Members R j j') (hR : Keeps S (R k))
    (h : ∃ v, j.get? k = some v ∧ S v) : ∃ v, j'.get? k = some v ∧ S v := by
  obtain ⟨v, hv, hs⟩ := h
  obtain ⟨v', hv', hr⟩ := hm.of_get? hv
  exact ⟨v', hv', hR v v' hs hr⟩

/-- An optional member keeps its shape. -/
theorem Members.optional {R : String → Json → Json → Prop} {S : Json → Prop} {j j' : Json}
    {k : String} (hm : Members R j j') (hR : Keeps S (R k))
    (h : ∀ v, j.get? k = some v → S v) : ∀ v, j'.get? k = some v → S v := by
  intro v' hv'
  obtain ⟨v, hv, hr⟩ := hm.get?_of hv'
  exact hR v v' (h v hv) hr

/-! ## Rewriting the values of an object -/

/-- The object with the value of each key rewritten. -/
def mapMembers (f : String → Json → Json) : Json → Json
  | .obj ms => .obj (ms.map fun m => (m.1, f m.1 m.2))
  | j => j

/-- The array with each element rewritten. -/
def mapItems (f : Json → Json) : Json → Json
  | .arr xs => .arr (xs.map f)
  | j => j

theorem members_mapMembers (f : String → Json → Json) (ms : List (String × Json)) :
    Members (fun k v v' => v' = f k v) (.obj ms) (mapMembers f (.obj ms)) := by
  refine ⟨ms, _, rfl, rfl, ?_⟩
  rw [List.forall₂_map_right_iff]
  exact List.forall₂_same.mpr fun m _ => ⟨rfl, rfl⟩

theorem get?_mapMembers (f : String → Json → Json) (j : Json) (k : String) :
    (mapMembers f j).get? k = (j.get? k).map (f k) := by
  cases j with
  | obj ms =>
    have hrel := (members_mapMembers f ms).rel k
    generalize (Json.obj ms).get? k = x, (mapMembers f (.obj ms)).get? k = y at hrel ⊢
    cases hrel with
    | none => rfl
    | some hr => rw [hr, Option.map_some]
  | _ => rfl

theorem contains_mapMembers (f : String → Json → Json) (j : Json) (k : String) :
    (mapMembers f j).contains k = j.contains k := by
  unfold contains
  rw [get?_mapMembers, Option.isSome_map]

/-- A key whose value is not rewritten. -/
theorem member_mapMembers {f : String → Json → Json} {k : String} (h : ∀ v, f k v = v) (j : Json) :
    (mapMembers f j).member k = j.member k := by
  unfold member
  rw [get?_mapMembers, show f k = id from funext h, Option.map_id_fun, id]

end Json

end CapioCl.Lib
