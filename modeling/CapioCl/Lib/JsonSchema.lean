import CapioCl.Lib.Json
import Mathlib.Algebra.Group.Int.Defs
import Mathlib.Computability.RegularExpressions

/-!
# JSON Schema (draft-07), the keywords

A schema is the predicate it puts on an instance. Each keyword of the draft is a combinator; a
keyword that speaks about one kind of value accepts every instance of another kind, as the draft
prescribes. A schema object is the conjunction of its keywords (`all`).

`pattern` searches: a `Pattern` is a regular expression anchored at the start of the string, and
at its end when `atEnd` is set.

For each keyword a lemma says what an accepted object or array looks like to a reader of its
members.
-/

namespace CapioCl.Lib

/-! ## Patterns -/

/-- `^re$` when `atEnd`, else `^re`. -/
structure Pattern where
  re : RegularExpression Char
  atEnd : Bool

namespace Pattern

open RegularExpression

/-- The expression that matches exactly `s`. -/
def lit (s : String) : RegularExpression Char :=
  s.toList.foldr (fun c r => char c * r) 1

/-- `r?` -/
def opt (r : RegularExpression Char) : RegularExpression Char := r + 1

/-- `[cs]` -/
def oneOfChars (cs : List Char) : RegularExpression Char :=
  cs.foldr (fun c r => char c + r) 0

/-- `r+` -/
def many (r : RegularExpression Char) : RegularExpression Char := r * r.star

def test (p : Pattern) (s : String) : Bool :=
  if p.atEnd then p.re.rmatch s.toList else s.toList.inits.any p.re.rmatch

theorem foldr_rmatch_iff (cs w : List Char) :
    (cs.foldr (fun c r => char c * r) 1).rmatch w = true ↔ w = cs := by
  induction cs generalizing w with
  | nil => exact one_rmatch_iff w
  | cons c cs ih =>
    rw [List.foldr_cons, mul_rmatch_iff]
    constructor
    · rintro ⟨t, u, rfl, ht, hu⟩
      rw [(char_rmatch_iff c t).mp ht, (ih u).mp hu]
      rfl
    · rintro rfl
      exact ⟨[c], cs, rfl, (char_rmatch_iff c [c]).mpr rfl, (ih cs).mpr rfl⟩

theorem lit_rmatch_iff (s : String) (w : List Char) : (lit s).rmatch w = true ↔ w = s.toList :=
  foldr_rmatch_iff s.toList w

theorem oneOfChars_rmatch_iff (cs w : List Char) :
    (oneOfChars cs).rmatch w = true ↔ ∃ c ∈ cs, w = [c] := by
  unfold oneOfChars
  induction cs with
  | nil => simp [zero_rmatch]
  | cons c cs ih =>
    rw [List.foldr_cons, add_rmatch_iff, char_rmatch_iff, ih]
    simp only [List.mem_cons, exists_eq_or_imp]

/-- A starred character class matches the words over the class. -/
theorem star_oneOfChars_rmatch_iff (cs w : List Char) :
    (oneOfChars cs).star.rmatch w = true ↔ ∀ c ∈ w, c ∈ cs := by
  rw [star_rmatch_iff]
  constructor
  · rintro ⟨S, rfl, hS⟩ c hc
    obtain ⟨t, ht, hct⟩ := List.mem_flatten.mp hc
    obtain ⟨d, hd, rfl⟩ := (oneOfChars_rmatch_iff cs t).mp (hS t ht).2
    rwa [List.mem_singleton.mp hct]
  · intro h
    refine ⟨w.map fun c => [c], ?_, fun t ht => ?_⟩
    · rw [← List.flatMap_def, List.flatMap_singleton']
    · obtain ⟨c, hc, rfl⟩ := List.mem_map.mp ht
      exact ⟨by simp, (oneOfChars_rmatch_iff cs [c]).mpr ⟨c, h c hc, rfl⟩⟩

theorem many_oneOfChars_rmatch_iff (cs w : List Char) :
    (many (oneOfChars cs)).rmatch w = true ↔ w ≠ [] ∧ ∀ c ∈ w, c ∈ cs := by
  unfold many
  rw [mul_rmatch_iff]
  constructor
  · rintro ⟨t, u, rfl, ht, hu⟩
    obtain ⟨d, hd, rfl⟩ := (oneOfChars_rmatch_iff cs t).mp ht
    have hu' := (star_oneOfChars_rmatch_iff cs u).mp hu
    refine ⟨by simp, fun c hc => ?_⟩
    rcases List.mem_append.mp hc with hc | hc
    · rwa [List.mem_singleton.mp hc]
    · exact hu' c hc
  · rintro ⟨hne, h⟩
    obtain ⟨c, u, rfl⟩ := List.exists_cons_of_ne_nil hne
    exact ⟨[c], u, rfl, (oneOfChars_rmatch_iff cs [c]).mpr ⟨c, h c List.mem_cons_self, rfl⟩,
      (star_oneOfChars_rmatch_iff cs u).mpr fun d hd => h d (List.mem_cons_of_mem c hd)⟩

/-- `^s` accepts the strings that begin with `s`. -/
theorem test_lit_prefix (s t : String) :
    test ⟨lit s, false⟩ t = true ↔ s.toList <+: t.toList := by
  simp only [test, Bool.false_eq_true, if_false, List.any_eq_true, List.mem_inits, lit_rmatch_iff]
  constructor
  · rintro ⟨w, hw, rfl⟩
    exact hw
  · intro h
    exact ⟨_, h, rfl⟩

end Pattern

/-! ## Keywords -/

/-- A schema, as the instances it accepts. -/
abbrev Schema := Json → Bool

namespace Schema

/-- A schema object: every keyword accepts. -/
def all (ks : List Schema) : Schema := fun j => ks.all fun s => s j

def typeObject : Schema
  | .obj _ => true
  | _ => false

def typeArray : Schema
  | .arr _ => true
  | _ => false

def typeString : Schema
  | .str _ => true
  | _ => false

def typeNumber : Schema
  | .num _ _ => true
  | _ => false

/-- An integer is a number without a fractional part, `1.0` included. -/
def typeInteger : Schema
  | .num m s => decide ((10 : Int) ^ s ∣ m)
  | _ => false

def properties (ps : List (String × Schema)) : Schema := fun j =>
  ps.all fun p => match j.get? p.1 with
    | some v => p.2 v
    | none => true

def required (ks : List String) : Schema
  | .obj ms => ks.all fun k => (ms.lookup k).isSome
  | _ => true

/-- `additionalProperties: false`, beside the `properties` named `ks`. -/
def noAdditionalProperties (ks : List String) : Schema
  | .obj ms => ms.all fun m => ks.contains m.1
  | _ => true

def items (s : Schema) : Schema
  | .arr xs => xs.all s
  | _ => true

def pattern (p : Pattern) : Schema
  | .str t => p.test t
  | _ => true

/-- `enum` of strings. -/
def enum (vs : List String) : Schema
  | .str t => vs.contains t
  | _ => false

def oneOf (ss : List Schema) : Schema := fun j => ss.countP (fun s => s j) == 1

def allOf (ss : List Schema) : Schema := all ss

def ifThen (c t : Schema) : Schema := fun j => !c j || t j

/-! ### Reading an accepted instance -/

theorem all_iff {ks : List Schema} {j : Json} : all ks j = true ↔ ∀ s ∈ ks, s j = true := by
  unfold all
  rw [List.all_eq_true]

theorem typeObject_iff {j : Json} : typeObject j = true ↔ ∃ ms, j = .obj ms := by
  cases j <;> simp [typeObject]

theorem typeString_iff {j : Json} : typeString j = true ↔ ∃ s, j = .str s := by
  cases j <;> simp [typeString]

/-- Every present property meets its schema. -/
theorem properties_iff {ps : List (String × Schema)} {j : Json} :
    properties ps j = true ↔ ∀ p ∈ ps, ∀ v, j.get? p.1 = some v → p.2 v = true := by
  unfold properties
  rw [List.all_eq_true]
  refine forall₂_congr fun p _ => ?_
  cases j.get? p.1 <;> simp

/-- In an object the required properties are present. -/
theorem required_iff {ks : List String} {j : Json} (ht : typeObject j = true) :
    required ks j = true ↔ ∀ k ∈ ks, ∃ v, j.get? k = some v := by
  obtain ⟨ms, rfl⟩ := typeObject_iff.mp ht
  unfold required
  rw [List.all_eq_true]
  exact forall₂_congr fun k _ => Option.isSome_iff_exists

/-- A property that is not among the known ones is absent. -/
theorem get?_of_noAdditionalProperties {ks : List String} {j : Json} {k : String}
    (h : noAdditionalProperties ks j = true) (hk : k ∉ ks) : j.get? k = none := by
  cases j with
  | obj ms =>
    rw [Json.get?_obj, List.lookup_eq_none_iff]
    intro m hm
    have hc : m.1 ∈ ks := by simpa using List.all_eq_true.mp h m hm
    have hne : k ≠ m.1 := fun e => hk (by rwa [e])
    simpa using hne
  | _ => rfl

/-! ### Objects with the same keys -/

theorem typeObject_of_members {R : String → Json → Json → Prop} {j j' : Json}
    (h : Json.Members R j j') : typeObject j' = true := by
  obtain ⟨_, ms', -, rfl, -⟩ := h
  rfl

theorem noAdditionalProperties_members {R : String → Json → Json → Prop} {j j' : Json}
    (h : Json.Members R j j') (ks : List String) :
    noAdditionalProperties ks j' = noAdditionalProperties ks j := by
  obtain ⟨ms, ms', rfl, rfl, hms⟩ := h
  change ms'.all (fun m => ks.contains m.1) = ms.all fun m => ks.contains m.1
  induction hms with
  | nil => rfl
  | cons hm _ ih => rw [List.all_cons, List.all_cons, ih, hm.1]

/-- `{type: array, items: s}`. -/
def arrayOf (s : Schema) : Schema := all [typeArray, items s]

theorem arrayOf_iff {s : Schema} {j : Json} :
    arrayOf s j = true ↔ ∃ xs, j = .arr xs ∧ ∀ x ∈ xs, s x = true := by
  cases j <;> simp [arrayOf, all, typeArray, items]

/-- An array of strings is `strs` of some list. -/
theorem arrayOf_string_iff {j : Json} :
    arrayOf typeString j = true ↔ ∃ l, j = Json.strs l := by
  rw [arrayOf_iff]
  constructor
  · rintro ⟨xs, rfl, h⟩
    induction xs with
    | nil => exact ⟨[], rfl⟩
    | cons x xs ih =>
      obtain ⟨s, rfl⟩ := typeString_iff.mp (h x List.mem_cons_self)
      obtain ⟨l, hl⟩ := ih fun y hy => h y (List.mem_cons_of_mem _ hy)
      refine ⟨s :: l, ?_⟩
      simp only [Json.strs, List.map_cons, Json.arr.injEq, List.cons.injEq, true_and] at hl ⊢
      exact hl
  · rintro ⟨l, rfl⟩
    exact ⟨_, rfl, by simp [typeString]⟩

theorem ifThen_iff {c t : Schema} {j : Json} :
    ifThen c t j = true ↔ (c j = true → t j = true) := by
  unfold ifThen
  cases c j <;> simp

end Schema

end CapioCl.Lib
