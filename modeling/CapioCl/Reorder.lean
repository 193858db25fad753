import CapioCl.ConcreteDocument
import CapioCl.Rewriting
import Mathlib.Data.List.Perm.Basic

/-!
# The order of a document

Two documents that differ in the order of `IO_Graph` and of the arrays of paths and items
(`DocReordered`) are read into documents that differ in the order of their lists
(`readDocument_reordered`). When all paths are concrete, and no two streaming items name one path,
what is built does not depend on that order: `order_irrelevant`.

The store still depends on it where it counts children and marks directories.
-/

namespace CapioCl

open CapioCl.Lib CapioCl.Lib.Json CapioCl.Lib.Reading CapioCl.Parser

/-! ## Reordered JSON -/

/-- Arrays with the same elements. -/
def Permuted (v v' : Json) : Prop := ∃ xs ys, v = .arr xs ∧ v' = .arr ys ∧ xs.Perm ys

/-- Values of `key`: permuted for the given keys, equal for the others. -/
def PermutedAt (keys : List String) (key : String) (v v' : Json) : Prop :=
  if key ∈ keys then Permuted v v' else v' = v

/-- Items of `IO_Graph` with their arrays permuted. -/
def AppReordered : Json → Json → Prop :=
  Members (PermutedAt ["input_stream", "output_stream", "streaming"])

/-- An `IO_Graph` with its items permuted, and the arrays in them. -/
def GraphReordered (v v' : Json) : Prop :=
  ∃ xs ys zs, v = .arr xs ∧ v' = .arr zs ∧ xs.Perm ys ∧ List.Forall₂ AppReordered ys zs

/-- Values of the key of a document. -/
def SectionReordered (key : String) (v v' : Json) : Prop :=
  if key = "IO_Graph" then GraphReordered v v'
  else if key = "storage" then Members (PermutedAt ["memory", "fs"]) v v'
  else PermutedAt ["permanent", "exclude"] key v v'

/-- Documents that differ in order only. -/
def DocReordered : Json → Json → Prop := Members SectionReordered

theorem permuted_of_mem {keys : List String} {key : String} (h : key ∈ keys) {v v' : Json}
    (hv : PermutedAt keys key v v') : Permuted v v' := by
  unfold PermutedAt at hv
  rwa [if_pos h] at hv

theorem eq_of_notMem {keys : List String} {key : String} (h : key ∉ keys) {v v' : Json}
    (hv : PermutedAt keys key v v') : v' = v := by
  unfold PermutedAt at hv
  rwa [if_neg h] at hv

theorem Permuted.isArrayOf {S : Json → Prop} {v v' : Json} (hv : IsArrayOf S v)
    (h : Permuted v v') : IsArrayOf S v' := by
  obtain ⟨xs, ys, rfl, rfl, hperm⟩ := h
  obtain ⟨xs', hxs, hS⟩ := hv
  obtain rfl := Json.arr.inj hxs
  exact ⟨ys, rfl, fun y hy => hS y (hperm.mem_iff.mpr hy)⟩

/-- A permuted array of strings is the array of the permuted strings. -/
theorem Permuted.strs {l : List String} {v' : Json} (h : Permuted (Json.strs l) v') :
    ∃ l', v' = Json.strs l' ∧ l.Perm l' := by
  obtain ⟨xs, ys, hxs, rfl, hperm⟩ := h
  obtain rfl := Json.arr.inj hxs
  obtain ⟨l', hl'⟩ : ∃ l', Json.arr ys = Json.strs l' := by
    rw [← Schema.arrayOf_string_iff, Schema.arrayOf_iff]
    refine ⟨ys, rfl, fun y hy => ?_⟩
    obtain ⟨s, -, rfl⟩ := List.mem_map.mp (hperm.mem_iff.mpr hy)
    rfl
  refine ⟨l', hl', ?_⟩
  rw [Json.arr.inj hl'] at hperm
  exact (List.map_perm_map_iff fun _ _ => Json.str.inj).mp hperm

theorem keeps_permuted_strs {keys : List String} {key : String} (h : key ∈ keys) :
    Keeps IsStrs (PermutedAt keys key) := by
  rintro _ v' ⟨l, rfl⟩ hv
  exact (permuted_of_mem h hv).strs.imp fun l' h => h.1

theorem AppShape.reordered {app app' : Json} (h : AppShape app) (hr : AppReordered app app') :
    AppShape app' := by
  refine h.of_members hr ?_ (keeps_permuted_strs (by decide)) (keeps_permuted_strs (by decide)) ?_
  · exact keeps_of_eq fun v v' => eq_of_notMem (by decide)
  · exact fun v v' hv hR => (permuted_of_mem (by decide) hR).isArrayOf hv

theorem GraphReordered.isArrayOf {v v' : Json} (hv : IsArrayOf AppShape v)
    (h : GraphReordered v v') : IsArrayOf AppShape v' := by
  obtain ⟨xs, ys, zs, rfl, rfl, hperm, hall⟩ := h
  obtain ⟨xs', hxs, hS⟩ := hv
  obtain rfl := Json.arr.inj hxs
  have hys : ∀ y ∈ ys, AppShape y := fun y hy => hS y (hperm.mem_iff.mpr hy)
  refine ⟨zs, rfl, ?_⟩
  clear hperm
  induction hall with
  | nil => exact fun z hz => absurd hz List.not_mem_nil
  | cons hr _ ih =>
    rw [List.forall_mem_cons] at hys ⊢
    exact ⟨hys.1.reordered hr, ih hys.2⟩

/-- A key whose values stay. -/
theorem section_eq {key : String} (h : key ∉ ["IO_Graph", "storage", "permanent", "exclude"])
    {v v' : Json} (hv : SectionReordered key v v') : v' = v := by
  simp only [List.mem_cons, List.not_mem_nil, or_false, not_or] at h
  unfold SectionReordered at hv
  rw [if_neg h.1, if_neg h.2.1] at hv
  exact eq_of_notMem (by simp [h.2.2]) hv

/-- A key whose values are arrays of paths. -/
theorem section_permuted {key : String} (h : key ∈ ["permanent", "exclude"]) {v v' : Json}
    (hv : SectionReordered key v v') : Permuted v v' := by
  have hne : ¬ key = "IO_Graph" ∧ ¬ key = "storage" := by
    constructor <;>
    · rintro rfl
      exact absurd h (by decide)
  unfold SectionReordered at hv
  rw [if_neg hne.1, if_neg hne.2] at hv
  exact permuted_of_mem h hv

theorem DocShape.reordered {doc doc' : Json} (h : DocShape doc) (hr : DocReordered doc doc') :
    DocShape doc' := by
  refine h.of_members hr (keeps_of_eq fun v v' => section_eq (by decide)) ?_
    (keeps_of_eq fun v v' => section_eq (by decide)) ?_ ?_
    (keeps_of_eq fun v v' => section_eq (by decide)) ?_
  · exact fun v v' hv hR => GraphReordered.isArrayOf hv hR
  · rintro _ v' ⟨l, rfl⟩ hR
    exact (section_permuted (by decide) hR).strs.imp fun l' h => h.1
  · rintro _ v' ⟨l, rfl⟩ hR
    exact (section_permuted (by decide) hR).strs.imp fun l' h => h.1
  · intro v v' hv hR
    exact hv.of_members hR (keeps_permuted_strs (by decide)) (keeps_permuted_strs (by decide))

/-! ## Reordered documents -/

/-- Applications that differ in the order of their lists. -/
structure AppSection.Reordered (a a' : AppSection) : Prop where
  name : a'.name = a.name
  inputs : a.inputs.Perm a'.inputs
  outputs : a.outputs.Perm a'.outputs
  items : a.items.Perm a'.items

/-- Documents that differ in the order of their lists. -/
structure Document.Reordered (d d' : Document) : Prop where
  apps : ∃ as, d.apps.Perm as ∧ List.Forall₂ AppSection.Reordered as d'.apps
  permanent : d.permanent.Perm d'.permanent
  exclude : d.exclude.Perm d'.exclude
  memory : d.memory.Perm d'.memory
  fs : d.fs.Perm d'.fs

theorem paths_permuted {J : Jsoncons} {pre key : String} {j j' v' : Json} {strs l : List String}
    (hj : j.get? key = some (Json.strs strs)) (hj' : j'.get? key = some v')
    (hp : Permuted (Json.strs strs) v') (h : paths J pre j key = .ok l) :
    ∃ l', paths J pre j' key = .ok l' ∧ l.Perm l' := by
  obtain ⟨strs', rfl, hperm⟩ := hp.strs
  rw [paths_strs J pre hj] at h
  obtain rfl := Except.ok.inj h
  exact ⟨_, paths_strs J pre hj', hperm.map _⟩

theorem optionalPaths_permuted {J : Jsoncons} {pre key : String} {j j' : Json}
    {R : String → Json → Json → Prop} {l : List String} (hm : Members R j j')
    (hR : ∀ v v', R key v v' → Permuted v v') (hj : OptionalStrs j key)
    (h : optionalPaths J pre j key = .ok l) :
    ∃ l', optionalPaths J pre j' key = .ok l' ∧ l.Perm l' := by
  cases hv : j.get? key with
  | none =>
    rw [optionalPaths_none J pre hv] at h
    obtain rfl := Except.ok.inj h
    exact ⟨[], optionalPaths_none J pre (hm.get?_eq_none_iff.mpr hv), List.Perm.refl []⟩
  | some v =>
    obtain ⟨strs, rfl⟩ := hj v hv
    obtain ⟨v', hv', hr⟩ := hm.of_get? hv
    obtain ⟨strs', rfl, hperm⟩ := (hR _ _ hr).strs
    rw [optionalPaths_strs J pre hv] at h
    obtain rfl := Except.ok.inj h
    exact ⟨_, optionalPaths_strs J pre hv', hperm.map _⟩

/-- Reading a permuted list. -/
theorem mapM_perm {α β : Type} {f : α → Except Exn β} {xs ys : List α} {as : List β}
    (hperm : xs.Perm ys) (h : xs.mapM f = .ok as) : ∃ bs, ys.mapM f = .ok bs ∧ as.Perm bs := by
  obtain ⟨bs, hbs, hp⟩ := List.perm_comp_forall₂ hperm.symm (mapM_eq_ok_iff.mp h)
  exact ⟨bs, mapM_eq_ok_iff.mpr hbs, hp.symm⟩

theorem readItems_reordered {J : Jsoncons} {pre : String} {app app' : Json}
    {items : List StreamItem} (hshape : AppShape app) (hr : AppReordered app app')
    (h : readItems J pre app = .ok items) :
    ∃ items', readItems J pre app' = .ok items' ∧ items.Perm items' := by
  unfold readItems at h ⊢
  cases hv : app.get? "streaming" with
  | none =>
    rw [Json.contains_eq_false_iff.mpr hv] at h
    obtain rfl := Except.ok.inj h
    rw [Json.contains_eq_false_iff.mpr (hr.get?_eq_none_iff.mpr hv)]
    exact ⟨[], rfl, List.Perm.refl []⟩
  | some v =>
    obtain ⟨xs, rfl, -⟩ := hshape.streaming v hv
    obtain ⟨v', hv', hR⟩ := hr.of_get? hv
    obtain ⟨xs', ys, hxs, rfl, hperm⟩ := permuted_of_mem (by decide) hR
    obtain rfl := Json.arr.inj hxs
    rw [if_pos (Json.contains_iff.mpr ⟨_, hv⟩), range_arr hv, ok_bind] at h
    rw [if_pos (Json.contains_iff.mpr ⟨_, hv'⟩), range_arr hv', ok_bind]
    exact mapM_perm hperm h

theorem readApp_reordered {J : Jsoncons} {pre : String} {app app' : Json} {a : AppSection}
    (hshape : AppShape app) (hr : AppReordered app app') (h : readApp J pre app = .ok a) :
    ∃ a', readApp J pre app' = .ok a' ∧ a.Reordered a' := by
  obtain ⟨hname, hstreams, hitems⟩ := readApp_inv h
  have hn : app'.get? "name" = app.get? "name" :=
    hr.get?_eq fun v v' => eq_of_notMem (by decide)
  have hstream : ∀ σ : Stream, ∃ l', paths J pre app' σ.key = .ok l' ∧ (a.stream σ).Perm l' := by
    intro σ
    obtain ⟨l, hl⟩ : ∃ l, app.get? σ.key = some (Json.strs l) := by
      cases σ with
      | input => exact hshape.inputs
      | output => exact hshape.outputs
    obtain ⟨v', hv', hR⟩ := hr.of_get? hl
    exact paths_permuted hl hv' (permuted_of_mem (by cases σ <;> decide) hR) (hstreams σ)
  obtain ⟨inputs, hi, hpi⟩ := hstream .input
  obtain ⟨outputs, ho, hpo⟩ := hstream .output
  obtain ⟨items, hs, hps⟩ := readItems_reordered hshape hr hitems
  refine ⟨⟨a.name, inputs, outputs, items⟩, ?_, rfl, hpi, hpo, hps⟩
  have hmember : app'.member "name" = app.member "name" := by
    unfold Json.member
    rw [hn]
  change paths J pre app' "input_stream" = .ok inputs at hi
  change paths J pre app' "output_stream" = .ok outputs at ho
  unfold readApp
  rw [hmember, hname, ok_bind, hi, ok_bind, ho, ok_bind, hs]
  rfl

theorem mapM_readApp_reordered {J : Jsoncons} {pre : String} {ys zs : List Json}
    (hr : List.Forall₂ AppReordered ys zs) : ∀ {as : List AppSection}, (∀ y ∈ ys, AppShape y) →
      ys.mapM (readApp J pre) = .ok as →
      ∃ as', zs.mapM (readApp J pre) = .ok as' ∧ List.Forall₂ AppSection.Reordered as as' := by
  simp only [mapM_eq_ok_iff]
  induction hr with
  | nil =>
    intro as _ h
    rw [List.forall₂_nil_left_iff] at h
    subst h
    exact ⟨[], List.Forall₂.nil, List.Forall₂.nil⟩
  | cons hyz _ ih =>
    intro as hys h
    rw [List.forall_mem_cons] at hys
    rw [List.forall₂_cons_left_iff] at h
    obtain ⟨a, as, ha, has, rfl⟩ := h
    obtain ⟨a', ha', hr⟩ := readApp_reordered hys.1 hyz ha
    obtain ⟨as', has', hrs⟩ := ih hys.2 has
    exact ⟨a' :: as', List.Forall₂.cons ha' has', List.Forall₂.cons hr hrs⟩

theorem readStorage_reordered {J : Jsoncons} {doc doc' : Json} {memory fs : List String}
    (hshape : DocShape doc) (hr : DocReordered doc doc')
    (h : readStorage J doc = .ok (memory, fs)) :
    ∃ memory' fs', readStorage J doc' = .ok (memory', fs') ∧ memory.Perm memory' ∧
      fs.Perm fs' := by
  unfold readStorage at h ⊢
  cases hv : doc.get? "storage" with
  | none =>
    rw [Json.contains_eq_false_iff.mpr hv] at h
    obtain ⟨rfl, rfl⟩ := Prod.mk.inj (Except.ok.inj h)
    rw [Json.contains_eq_false_iff.mpr (hr.get?_eq_none_iff.mpr hv)]
    exact ⟨[], [], rfl, List.Perm.refl [], List.Perm.refl []⟩
  | some v =>
    have hs := hshape.storage v hv
    obtain ⟨v', hv', hR⟩ := hr.of_get? hv
    have hm : Members (PermutedAt ["memory", "fs"]) v v' := hR
    rw [if_pos (Json.contains_iff.mpr ⟨_, hv⟩), Json.member_of_get? hv, liftJson_ok, ok_bind] at h
    obtain ⟨memory₀, hmem, h⟩ := bind_eq_ok_iff.mp h
    obtain ⟨fs₀, hfs, h⟩ := bind_eq_ok_iff.mp h
    obtain ⟨rfl, rfl⟩ := Prod.mk.inj (Except.ok.inj h)
    obtain ⟨memory', hmem', hpm⟩ :=
      optionalPaths_permuted hm (fun v v' => permuted_of_mem (by decide)) hs.memory hmem
    obtain ⟨fs', hfs', hpf⟩ :=
      optionalPaths_permuted hm (fun v v' => permuted_of_mem (by decide)) hs.fs hfs
    refine ⟨memory', fs', ?_, hpm, hpf⟩
    rw [if_pos (Json.contains_iff.mpr ⟨_, hv'⟩), Json.member_of_get? hv', liftJson_ok, ok_bind,
      hmem', ok_bind, hfs']
    rfl

/-- **A reordered document is read into a reordered document.** -/
theorem readDocument_reordered {J : Jsoncons} {pre : String} {doc doc' : Json} {d : Document}
    (hshape : DocShape doc) (hr : DocReordered doc doc') (h : readDocument J pre doc = .ok d) :
    ∃ d', readDocument J pre doc' = .ok d' ∧ d.Reordered d' := by
  obtain ⟨xs, hxs, has, hp, he, hs⟩ := readDocument_inv h
  obtain ⟨xs', hv, happs⟩ := hshape.ioGraph
  obtain rfl := Except.ok.inj ((range_arr hv).symm.trans hxs)
  obtain ⟨v', hv', hR⟩ := hr.of_get? hv
  obtain ⟨xs', ys, zs, hxs', rfl, hperm, hall⟩ : GraphReordered (.arr xs') v' := hR
  obtain rfl := Json.arr.inj hxs'
  obtain ⟨bs, hbs, hpermApps⟩ := mapM_perm hperm has
  obtain ⟨as', has', hrApps⟩ := mapM_readApp_reordered hall
    (fun y hy => happs y (hperm.mem_iff.mpr hy)) hbs
  obtain ⟨permanent, hp', hpp⟩ :=
    optionalPaths_permuted hr (fun v v' => section_permuted (by decide)) hshape.permanent hp
  obtain ⟨exclude, he', hpe⟩ :=
    optionalPaths_permuted hr (fun v v' => section_permuted (by decide)) hshape.exclude he
  obtain ⟨memory, fs, hs', hpm, hpf⟩ := readStorage_reordered hshape hr hs
  refine ⟨⟨as', permanent, exclude, memory, fs⟩, ?_, ⟨bs, hpermApps, hrApps⟩, hpp, hpe, hpm, hpf⟩
  unfold readDocument
  rw [range_arr hv', ok_bind, has', ok_bind, hp', ok_bind, he', ok_bind, hs', ok_bind]
  rfl

/-! ## What does not depend on the order -/

theorem AppSection.Reordered.acts {a a' : AppSection} (h : a.Reordered a') :
    a.acts.Perm a'.acts := by
  unfold AppSection.acts AppSection.streamActs
  rw [h.name]
  exact ((h.inputs.flatMap_right _).append (h.outputs.flatMap_right _)).append
    (h.items.flatMap_right _)

namespace Document.Reordered

variable {d d' : Document}

/-- Lists read off the applications. -/
theorem flatMap_apps (h : d.Reordered d') {α : Type} {f : AppSection → List α}
    (hf : ∀ a a' : AppSection, a.Reordered a' → (f a).Perm (f a')) :
    (d.apps.flatMap f).Perm (d'.apps.flatMap f) := by
  obtain ⟨as, hperm, hall⟩ := h.apps
  refine (hperm.flatMap_right f).trans ?_
  generalize d'.apps = as' at hall ⊢
  clear hperm
  induction hall with
  | nil => exact List.Perm.refl []
  | cons hr _ ih =>
    rw [List.flatMap_cons, List.flatMap_cons]
    exact (hf _ _ hr).append ih

/-- The same acts, in another order. -/
theorem acts (h : d.Reordered d') (storeOnlyInMemory : Bool) :
    (d.acts storeOnlyInMemory).Perm (d'.acts storeOnlyInMemory) := by
  unfold Document.acts Document.flagActs Document.storageActs
  have happs := h.flatMap_apps fun a a' hr => hr.acts
  have hflags := (h.permanent.flatMap_right (touch (.permanent true))).append
    (h.exclude.flatMap_right (touch (.excluded true)))
  exact ((happs.append hflags).append ((h.memory.map _).append (h.fs.map _))).append
    (List.Perm.refl _)

theorem paths (h : d.Reordered d') : d.paths.Perm d'.paths := by
  have happ : ∀ a a' : AppSection, a.Reordered a' → a.paths.Perm a'.paths := fun a a' hr =>
    (hr.inputs.append hr.outputs).append (hr.items.flatMap_right _)
  exact ((((h.flatMap_apps happ).append h.permanent).append h.exclude).append h.memory).append h.fs

theorem items (h : d.Reordered d') : d.items.Perm d'.items :=
  h.flatMap_apps fun _ _ hr => hr.items

theorem mem_stream_iff (h : d.Reordered d') (σ : Stream) (n k : String) :
    (∃ a ∈ d.apps, eraseSpaces a.name = n ∧ k ∈ a.stream σ) ↔
      ∃ a ∈ d'.apps, eraseSpaces a.name = n ∧ k ∈ a.stream σ := by
  -- the pairs of an application and a path of its stream
  have hpairs := h.flatMap_apps (f := fun a => (a.stream σ).map fun p => (eraseSpaces a.name, p))
    fun a a' hr => by
      rw [hr.name]
      cases σ with
      | input => exact hr.inputs.map _
      | output => exact hr.outputs.map _
  have hmem : ∀ as : List AppSection,
      (n, k) ∈ as.flatMap (fun a => (a.stream σ).map fun p => (eraseSpaces a.name, p)) ↔
        ∃ a ∈ as, eraseSpaces a.name = n ∧ k ∈ a.stream σ := by
    intro as
    simp only [List.mem_flatMap, List.mem_map, Prod.mk.injEq]
    refine exists_congr fun a => and_congr_right fun _ => ?_
    constructor
    · rintro ⟨p, hp, hn, rfl⟩
      exact ⟨hn, hp⟩
    · rintro ⟨hn, hp⟩
      exact ⟨k, hp, hn, rfl⟩
  rw [← hmem, ← hmem]
  exact hpairs.mem_iff

end Document.Reordered

/-- No two streaming items name one path. -/
def Document.NamedOnce (d : Document) : Prop :=
  d.items.Pairwise fun x y => ∀ p ∈ x.streamingNames, p ∉ y.streamingNames

theorem Document.NamedOnce.eq {d : Document} (h : d.NamedOnce) {x y : StreamItem} {p : String}
    (hx : x ∈ d.items) (hy : y ∈ d.items) (hpx : p ∈ x.streamingNames)
    (hpy : p ∈ y.streamingNames) : x = y := by
  have hsymm : Std.Symm fun x y : StreamItem => ∀ p ∈ x.streamingNames, p ∉ y.streamingNames :=
    ⟨fun _ _ hxy p hp hpx => hxy p hpx hp⟩
  by_contra hne
  exact h.forall hx hy hne p hpx hpy

/-- Entries that agree on everything but the count of children and the kind. The application
lists are compared as sets. -/
structure SameRules (x y : CapioCLEntry) : Prop where
  apps : ∀ σ c, c ∈ x.apps σ ↔ c ∈ y.apps σ
  commitRule : x.commitRule = y.commitRule
  fireRule : x.fireRule = y.fireRule
  commitOnCloseCount : x.commitOnCloseCount = y.commitOnCloseCount
  fileDependencies : x.fileDependencies = y.fileDependencies
  permanent : x.permanent = y.permanent
  excluded : x.excluded = y.excluded
  storeInMemory : x.storeInMemory = y.storeInMemory

/-- **Concrete documents that differ in order build the same rules.** -/
theorem Document.Reordered.sameRules {P : Platform} {d d' : Document} {storeOnlyInMemory : Bool}
    {n n' k : String} {base base' : Engine} {x y : CapioCLEntry} (h : d.Reordered d')
    (hf : Fresh n base) (hf' : Fresh n' base') (hc : ∀ p ∈ d.paths, Concrete p)
    (hnamed : d.NamedOnce) (hx : (run P (d.acts storeOnlyInMemory) base).find k = some x)
    (hy : (run P (d'.acts storeOnlyInMemory) base').find k = some y) : SameRules x y := by
  have hc' : ∀ p ∈ d'.paths, Concrete p := fun p hp => hc p (h.paths.mem_iff.mpr hp)
  have hrule : ∀ {α : Type} {get : CapioCLEntry → α} {val : Write → Option α}
      {ruleOf : StreamItem → α}, RuleField get val ruleOf → get x = get y := by
    intro α get val ruleOf hr
    refine hr.of_find hf hc hx (fun item hitem hk => Eq.symm ?_) fun hnone => ?_
    · refine hr.of_find hf' hc' hy (fun item' hitem' hk' => ?_) fun hnone => ?_
      · rw [hnamed.eq (h.items.mem_iff.mpr hitem') hitem hk' hk]
      · exact absurd hk (hnone item (h.items.mem_iff.mp hitem))
    · refine hr.of_find hf' hc' hy (fun item' hitem' hk' => ?_) fun _ => rfl
      exact absurd hk' (hnone item' (h.items.mem_iff.mpr hitem'))
  refine ⟨fun σ c => ?_, hrule ruleField_commitRule, hrule ruleField_fireRule,
    hrule ruleField_closeCount, hrule ruleField_fileDeps, ?_, ?_, ?_⟩
  · rw [mem_apps_iff hf hc hx, mem_apps_iff hf' hc' hy]
    exact h.mem_stream_iff σ c k
  · rw [Bool.eq_iff_iff, permanent_iff hf hc hx, permanent_iff hf' hc' hy]
    exact h.permanent.mem_iff
  · rw [Bool.eq_iff_iff, excluded_iff hf hc hx, excluded_iff hf' hc' hy]
    exact h.exclude.mem_iff
  · rw [Bool.eq_iff_iff, storeInMemory_iff hf hc hx, storeInMemory_iff hf' hc' hy,
      h.memory.mem_iff, h.fs.mem_iff]

/-- **The order of a concrete document does not matter**: the reordered document is parsed too,
into an engine with the same keys and, for each, the same rules. -/
theorem order_irrelevant {J : Jsoncons} {P : Platform} {doc doc' : Json} {pre : String}
    {storeOnlyInMemory : Bool} {e : Engine} {d : Document}
    (h : parseDoc J P doc pre storeOnlyInMemory = .ok e) (hr : DocReordered doc doc')
    (hread : readDocument J pre doc = .ok d) (hc : ∀ p ∈ d.paths, Concrete p)
    (hnamed : d.NamedOnce) :
    ∃ e', parseDoc J P doc' pre storeOnlyInMemory = .ok e' ∧
      ∀ k, Option.Rel SameRules (e.find k) (e'.find k) := by
  obtain ⟨hacc, hconf, n, base, d₀, -, hf, hd₀, rfl⟩ := exists_of_parseDoc_ok h
  obtain rfl := Except.ok.inj (hread.symm.trans hd₀)
  have hshape := docShape_of_accepted hacc
  obtain ⟨d', hd', hdd⟩ := readDocument_reordered hshape hr hread
  have hacc' : Accepted J doc' := hacc.of_members hr (fun hs => hs.reordered hr)
    (fun v v' => section_eq (by decide)) fun v v' => section_eq (by decide)
  obtain ⟨n', base', -, hf', hparse⟩ := exists_parseDoc_ok hacc'
    (hconf.of_members hr fun v v' => section_eq (by decide)) hd'
  refine ⟨_, hparse storeOnlyInMemory, fun k => ?_⟩
  have hkeys : ((run P (d.acts storeOnlyInMemory) base).find k).isSome ↔
      ((run P (d'.acts storeOnlyInMemory) base').find k).isSome := by
    rw [isSome_find_run, isSome_find_run, hf.find, hf'.find]
    simp only [(hdd.acts storeOnlyInMemory).mem_iff]
  cases hx : (run P (d.acts storeOnlyInMemory) base).find k with
  | none =>
    rw [hx] at hkeys
    cases hy : (run P (d'.acts storeOnlyInMemory) base').find k with
    | none => exact Option.Rel.none
    | some y =>
      rw [hy] at hkeys
      exact absurd hkeys (by simp)
  | some x =>
    rw [hx] at hkeys
    cases hy : (run P (d'.acts storeOnlyInMemory) base').find k with
    | none =>
      rw [hy] at hkeys
      exact absurd hkeys (by simp)
    | some y => exact Option.Rel.some (hdd.sameRules hf hf' hc hnamed hx hy)

/-- The writer of a file, and how the file is streamed. -/
def writerApp : Json :=
  .obj [("name", .str "writer"), ("input_stream", .arr []),
    ("output_stream", .arr [.str "f", .str "g"]),
    ("streaming", .arr [.obj [("name", .arr [.str "f"]), ("committed", .str "on_close:2")]])]

def readerApp : Json :=
  .obj [("name", .str "reader"), ("input_stream", .arr [.str "f"]), ("output_stream", .arr [])]

/-- Two applications, and a file in both lists of `storage`. -/
def storedDocument (apps : List Json) : Json :=
  .obj [("name", .str "wf"), ("IO_Graph", .arr apps),
    ("storage", .obj [("memory", .arr [.str "f", .str "g"]), ("fs", .arr [.str "f"])])]

theorem storedDocument_order_irrelevant :
    ∃ e e', parseDoc jsoncons posix (storedDocument [writerApp, readerApp]) "" false = .ok e ∧
      parseDoc jsoncons posix (storedDocument [readerApp, writerApp]) "" false = .ok e' ∧
      ∀ k, Option.Rel SameRules (e.find k) (e'.find k) := by
  obtain ⟨e, he⟩ : ∃ e, parseDoc jsoncons posix (storedDocument [writerApp, readerApp]) "" false =
      .ok e := exists_ok_of_thrown (by decide +kernel)
  obtain ⟨d, hd, hc, hnamed⟩ : ∃ d,
      readDocument jsoncons "" (storedDocument [writerApp, readerApp]) = .ok d ∧
        (∀ p ∈ d.paths, Concrete p) ∧ d.NamedOnce :=
    ⟨_, rfl, List.forall_iff_forall_mem.mp (by decide +kernel), List.pairwise_singleton _ _⟩
  have hwriter : AppReordered writerApp writerApp :=
    ⟨_, _, rfl, rfl, by simp [PermutedAt, Permuted]⟩
  have hreader : AppReordered readerApp readerApp :=
    ⟨_, _, rfl, rfl, by simp [PermutedAt, Permuted]⟩
  have hgraph : GraphReordered (.arr [writerApp, readerApp]) (.arr [readerApp, writerApp]) :=
    ⟨_, [readerApp, writerApp], _, rfl, rfl, List.Perm.swap _ _ [], by simp [hwriter, hreader]⟩
  have hstorage : Members (PermutedAt ["memory", "fs"])
      (.obj [("memory", .arr [.str "f", .str "g"]), ("fs", .arr [.str "f"])])
      (.obj [("memory", .arr [.str "f", .str "g"]), ("fs", .arr [.str "f"])]) :=
    ⟨_, _, rfl, rfl, by simp [PermutedAt, Permuted]⟩
  have hr : DocReordered (storedDocument [writerApp, readerApp])
      (storedDocument [readerApp, writerApp]) :=
    ⟨_, _, rfl, rfl, by simp [SectionReordered, PermutedAt, hgraph, hstorage]⟩
  obtain ⟨e', he', hsame⟩ := order_irrelevant he hr hd hc hnamed
  exact ⟨e, e', he, he', hsame⟩

end CapioCl
