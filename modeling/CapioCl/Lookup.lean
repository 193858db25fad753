import CapioCl.Query

/-!
# Lookup by pattern

`contains`, `isProducer` and `isConsumer` look only at the patterns that match a path
(`Engine.cpp:222-227`, `642-712`), and compare names as they are given. The calls that add go to the
key itself and strip the name first. So what was added is found again when the path matches itself
as a pattern and the name has no spaces, or when another key has the name already.

* `added_found_iff`: exactly then.
-/

namespace CapioCl

open CapioCl.Lib

theorem eraseSpaces_eq_iff {s : String} : eraseSpaces s = s ↔ NoSpaces s := by
  constructor
  · intro h c hc
    rw [← h] at hc
    unfold eraseSpaces at hc
    rw [String.toList_ofList, List.mem_filter] at hc
    simpa using hc.2
  · exact eraseSpaces_of_noSpaces

namespace Engine

variable {P : Platform} {path : String} {e : Engine}

theorem contains_iff {file : String} :
    e.contains P file = true ↔ ∃ g, (e.find g).isSome ∧ P.fnmatch g file = true := by
  unfold contains
  rw [List.any_eq_true]
  constructor
  · rintro ⟨g, hg, hm⟩
    exact ⟨g, mem_getPaths.mp hg, hm⟩
  · rintro ⟨g, hg, hm⟩
    exact ⟨g, mem_getPaths.mpr hg, hm⟩

/-- A key that matches `path` lists the name. -/
def Listed (σ : Stream) (P : Platform) (path name : String) (e : Engine) : Prop :=
  ∃ g, P.fnmatch g path = true ∧ name ∈ e.apps σ g

/-- What is listed after a call that adds: what was, and the name if it is stored as given under a
path that matches itself. -/
theorem listed_addApp (σ : Stream) (P : Platform) (hp : path ≠ "") (name : String) (e : Engine) :
    (addApp σ P path name e).1.Listed σ P path name ↔
      e.Listed σ P path name ∨ (P.fnmatch path path = true ∧ NoSpaces name) := by
  unfold Listed
  simp only [addApp_eq, mem_apps_perform]
  constructor
  · rintro ⟨g, hm, hold | ⟨hadded, -⟩ | ⟨g', hcopy, hold⟩⟩
    · exact Or.inl ⟨g, hm, hold⟩
    · injection hadded with hpath hwrite
      injection hwrite with _ hname
      obtain rfl : path = g := hpath
      exact Or.inr ⟨hm, eraseSpaces_eq_iff.mp hname⟩
    -- a copied name is listed under the pattern it was copied from
    · obtain rfl : path = g := Option.some.inj hcopy.1
      exact Or.inl ⟨g', hcopy.fnmatch, hold⟩
  · rintro (⟨g, hm, hold⟩ | ⟨hself, hname⟩)
    · exact ⟨g, hm, Or.inl hold⟩
    · exact ⟨path, hself, Or.inr (Or.inl ⟨by rw [eraseSpaces_of_noSpaces hname], hp⟩)⟩

/-- What `isProducer` and `isConsumer` answer on a path that is not empty. -/
theorem isApp_iff_listed (σ : Stream) (P : Platform) (hp : path ≠ "") (name : String) (e : Engine) :
    (e.isApp σ P path name).1 = true ↔ e.Listed σ P path name := by
  rw [isApp_iff, or_iff_right hp]
  exact Iff.rfl

/-- After a call that adds, the lookups find the path and the name. -/
def Found (σ : Stream) (P : Platform) (path name : String) (e : Engine) : Prop :=
  (addApp σ P path name e).1.contains P path = true ∧
    ((addApp σ P path name e).1.isApp σ P path name).1 = true

theorem found_iff (σ : Stream) (P : Platform) (hp : path ≠ "") (name : String) (e : Engine) :
    Found σ P path name e ↔
      e.Listed σ P path name ∨ (P.fnmatch path path = true ∧ NoSpaces name) := by
  unfold Found
  rw [isApp_iff_listed σ P hp, ← listed_addApp σ P hp]
  refine and_iff_right_of_imp ?_
  rintro ⟨g, hm, hmem⟩
  exact contains_iff.mpr ⟨g, isSome_of_mem_apps hmem, hm⟩

/-- What was added is found, under the name the caller gave, and every key is contained. -/
def AddedFound (P : Platform) (path name : String) (e : Engine) : Prop :=
  ((e.addProducer P path name).1.contains P path = true ∧
      ((e.addProducer P path name).1.isProducer P path name).1 = true) ∧
    ((e.addConsumer P path name).1.contains P path = true ∧
      ((e.addConsumer P path name).1.isConsumer P path name).1 = true) ∧
    ∀ k, (e.find k).isSome → e.contains P k = true

/-- **When what was added is found.** Exactly if a key that matches the path lists the name already,
or the path matches itself and the name has no spaces, for producers and for consumers; and each key
that does not match itself is matched by another one. -/
theorem added_found_iff (P : Platform) (e : Engine) {path : String} (hp : path ≠ "")
    (name : String) :
    AddedFound P path name e ↔
      (e.Listed .output P path name ∨ (P.fnmatch path path = true ∧ NoSpaces name)) ∧
      (e.Listed .input P path name ∨ (P.fnmatch path path = true ∧ NoSpaces name)) ∧
      ∀ k, (e.find k).isSome → P.fnmatch k k = false →
        ∃ g, g ≠ k ∧ (e.find g).isSome ∧ P.fnmatch g k = true := by
  refine and_congr (found_iff .output P hp name e) (and_congr (found_iff .input P hp name e)
    (forall_congr' fun k => imp_congr_right fun hk => contains_iff.trans ?_))
  constructor
  · rintro ⟨g, hg, hm⟩ hself
    refine ⟨g, ?_, hg, hm⟩
    rintro rfl
    rw [hself] at hm
    cases hm
  · intro h
    by_cases hself : P.fnmatch k k = true
    · exact ⟨k, hk, hself⟩
    · obtain ⟨g, -, hg, hm⟩ := h (Bool.not_eq_true _ ▸ hself)
      exact ⟨g, hg, hm⟩

theorem emptyStore_addedFound : AddedFound posix "f*" "app" {} := by
  have hself : posix.fnmatch "f*" "f*" = true := by decide +kernel
  refine (added_found_iff posix {} (by decide) "app").mpr
    ⟨Or.inr ⟨hself, by decide +kernel⟩, Or.inr ⟨hself, by decide +kernel⟩, fun k hk => ?_⟩
  rw [find_of_empty rfl] at hk
  cases hk

/-- A path that is a bracket expression, and a name with a space. -/
theorem bracketPath_not_found :
    ("[ab]" ≠ "" ∧ ((({} : Engine).addProducer posix "[ab]" "app").1.find "[ab]").isSome ∧
      (({} : Engine).addProducer posix "[ab]" "app").1.contains posix "[ab]" = false ∧
      ¬ AddedFound posix "[ab]" "app" {}) ∧
    ("f" ≠ "" ∧ (({} : Engine).addProducer posix "f" "my app").1.apps .output "f" = ["myapp"] ∧
      ((({} : Engine).addProducer posix "f" "my app").1.isProducer posix "f" "my app").1 = false ∧
      ¬ AddedFound posix "f" "my app" {}) := by
  have hadd : ∀ path name, (({} : Engine).addProducer posix path name).1 =
      (Act.set path (.app .output (eraseSpaces name))).perform posix {} := fun path name =>
    addApp_eq .output posix path name {}
  have hunlisted : ∀ path name, ¬ ({} : Engine).Listed .output posix path name := by
    rintro path name ⟨g, -, hmem⟩
    have hkey := isSome_of_mem_apps hmem
    rw [find_of_empty rfl] at hkey
    cases hkey
  have hbracket : (({} : Engine).addProducer posix "[ab]" "app").1.contains posix "[ab]" = false := by
    rw [Bool.eq_false_iff, Ne, contains_iff]
    rintro ⟨g, hg, hm⟩
    rw [hadd, isSome_find_perform, find_of_empty rfl] at hg
    obtain ⟨hpath, -⟩ := hg.resolve_left (by simp)
    obtain rfl : "[ab]" = g := Option.some.inj hpath
    exact absurd hm (by decide +kernel)
  have hname : ((({} : Engine).addProducer posix "f" "my app").1.isProducer posix "f" "my app").1 =
      false := by
    rw [Bool.eq_false_iff]
    intro h
    have hlisted := (listed_addApp .output posix (by decide) "my app" {}).mp
      ((isApp_iff_listed .output posix (by decide) "my app" _).mp h)
    rcases hlisted with hold | ⟨-, hspaces⟩
    · exact hunlisted _ _ hold
    · exact absurd hspaces (by decide +kernel)
  refine ⟨⟨by decide, ?_, hbracket, fun h => ?_⟩, by decide, ?_, hname, fun h => ?_⟩
  · rw [hadd, isSome_find_perform]
    exact Or.inr ⟨rfl, by decide⟩
  · rw [h.1.1] at hbracket
    cases hbracket
  · rw [hadd]
    change (({} : Engine).setter posix "f" _).apps .output "f" = ["myapp"]
    rw [setter_eq posix (by decide)]
    decide +kernel
  · rw [h.1.2] at hname
    cases hname

end Engine

end CapioCl
