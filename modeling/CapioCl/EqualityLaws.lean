import CapioCl.Equality
import CapioCl.Lib.Comparison
import CapioCl.StoreInvariants

/-!
# The laws of `operator==`

`CapioCLEntry::operator==` compares the nine scalar fields, and each of the three lists by its size
and by looking for the elements of the left list in the right one (`Engine.cpp:1032-1080`).
`Engine::operator==` compares the entries key by key with it (`Engine.cpp:883-900`). Both are
reflexive and transitive. They are symmetric, and equality of rules up to the order of the lists,
except for pairs that pass the tests although an element occurs more often on one side.

* `equality_upToOrder_iff`: exactly there.
* `equals_iff_of_listSets`, `Engine.equals_iff_of_listSets`: never, when no list has a repetition.
-/

namespace CapioCl

open CapioCl.Lib CapioCl.Lib.Comparison

/-- What `operator==` of two paths compares. -/
def pathKey (path : String) : Bool × List (List Char) := (isAbsolute path, pathElements path)

theorem samePath_iff_pathKey {path path' : String} :
    samePath path path' = true ↔ pathKey path = pathKey path' := by
  unfold pathKey
  rw [samePath_iff, Prod.mk.injEq]

theorem sameElements_iff_oneWay {a b : List String} : sameElements a b = true ↔ OneWay a b :=
  sameElements_iff

theorem samePaths_iff_oneWay {a b : List String} :
    samePaths a b = true ↔ OneWay (a.map pathKey) (b.map pathKey) := by
  unfold samePaths OneWay
  rw [Bool.and_eq_true, beq_iff_eq, List.length_map, List.length_map, List.all_eq_true]
  refine and_congr_right fun _ => ?_
  constructor
  · intro h key hkey
    obtain ⟨x, hx, rfl⟩ := List.mem_map.mp hkey
    obtain ⟨y, hy, hxy⟩ := List.any_eq_true.mp (h x hx)
    rw [samePath_iff_pathKey.mp hxy]
    exact List.mem_map_of_mem hy
  · intro h x hx
    obtain ⟨y, hy, hxy⟩ := List.mem_map.mp (h (List.mem_map_of_mem hx))
    exact List.any_eq_true.mpr ⟨y, hy, samePath_iff_pathKey.mpr hxy.symm⟩

namespace CapioCLEntry

/-- The nine scalar fields agree. -/
structure SameScalars (x y : CapioCLEntry) : Prop where
  commitRule : x.commitRule = y.commitRule
  fireRule : x.fireRule = y.fireRule
  permanent : x.permanent = y.permanent
  excluded : x.excluded = y.excluded
  isFile : x.isFile = y.isFile
  commitOnCloseCount : x.commitOnCloseCount = y.commitOnCloseCount
  directoryChildrenCount : x.directoryChildrenCount = y.directoryChildrenCount
  storeInMemory : x.storeInMemory = y.storeInMemory
  enableDirectoryCountUpdate : x.enableDirectoryCountUpdate = y.enableDirectoryCountUpdate

/-- The same rules up to the order of the lists; dependencies are compared as paths. -/
structure SameUpToOrder (x y : CapioCLEntry) : Prop where
  scalars : x.SameScalars y
  producers : x.producers.Perm y.producers
  consumers : x.consumers.Perm y.consumers
  fileDependencies : (x.fileDependencies.map pathKey).Perm (y.fileDependencies.map pathKey)

/-- The scalars agree, the lists have equal sizes and each element on the left occurs on the right,
but one of them more often on the left. -/
structure Overcounted (x y : CapioCLEntry) : Prop where
  scalars : x.SameScalars y
  producers : OneWay x.producers y.producers
  consumers : OneWay x.consumers y.consumers
  fileDependencies : OneWay (x.fileDependencies.map pathKey) (y.fileDependencies.map pathKey)
  more : (∃ name, y.producers.count name < x.producers.count name) ∨
    (∃ name, y.consumers.count name < x.consumers.count name) ∨
    ∃ key, (y.fileDependencies.map pathKey).count key < (x.fileDependencies.map pathKey).count key

theorem SameScalars.symm {x y : CapioCLEntry} (h : x.SameScalars y) : y.SameScalars x := by
  obtain ⟨h1, h2, h3, h4, h5, h6, h7, h8, h9⟩ := h
  exact ⟨h1.symm, h2.symm, h3.symm, h4.symm, h5.symm, h6.symm, h7.symm, h8.symm, h9.symm⟩

theorem SameScalars.trans {x y z : CapioCLEntry} (h : x.SameScalars y) (h' : y.SameScalars z) :
    x.SameScalars z := by
  obtain ⟨h1, h2, h3, h4, h5, h6, h7, h8, h9⟩ := h
  obtain ⟨k1, k2, k3, k4, k5, k6, k7, k8, k9⟩ := h'
  exact ⟨h1.trans k1, h2.trans k2, h3.trans k3, h4.trans k4, h5.trans k5, h6.trans k6,
    h7.trans k7, h8.trans k8, h9.trans k9⟩

theorem SameUpToOrder.symm {x y : CapioCLEntry} (h : x.SameUpToOrder y) : y.SameUpToOrder x :=
  ⟨h.scalars.symm, h.producers.symm, h.consumers.symm, h.fileDependencies.symm⟩

/-- The tests of `operator==`. -/
theorem equals_iff_oneWay {x y : CapioCLEntry} : x.equals y = true ↔ x.SameScalars y ∧
    OneWay x.producers y.producers ∧ OneWay x.consumers y.consumers ∧
    OneWay (x.fileDependencies.map pathKey) (y.fileDependencies.map pathKey) := by
  rw [equals_iff, sameElements_iff_oneWay, sameElements_iff_oneWay, samePaths_iff_oneWay]
  constructor
  · rintro ⟨h1, h2, h3, h4, h5, h6, h7, h8, h9, h⟩
    exact ⟨⟨h1, h2, h3, h4, h5, h6, h7, h8, h9⟩, h⟩
  · rintro ⟨⟨h1, h2, h3, h4, h5, h6, h7, h8, h9⟩, h⟩
    exact ⟨h1, h2, h3, h4, h5, h6, h7, h8, h9, h⟩

theorem equals_trans {x y z : CapioCLEntry} (h : x.equals y = true) (h' : y.equals z = true) :
    x.equals z = true := by
  rw [equals_iff_oneWay] at h h' ⊢
  obtain ⟨h1, h2, h3, h4⟩ := h
  obtain ⟨k1, k2, k3, k4⟩ := h'
  exact ⟨h1.trans k1, h2.trans k2, h3.trans k3, h4.trans k4⟩

theorem equals_of_sameUpToOrder {x y : CapioCLEntry} (h : x.SameUpToOrder y) :
    x.equals y = true :=
  equals_iff_oneWay.mpr ⟨h.scalars, OneWay.of_perm h.producers, OneWay.of_perm h.consumers,
    OneWay.of_perm h.fileDependencies⟩

theorem nodup_pathKey_iff {paths : List String} : (paths.map pathKey).Nodup ↔ PathSet paths := by
  unfold PathSet List.Nodup
  rw [List.pairwise_map]
  refine List.Pairwise.iff fun p q => ?_
  rw [← Bool.not_eq_true, samePath_iff_pathKey]

theorem sameUpToOrder_of_listSets {x y : CapioCLEntry} (hx : x.ListSets) (h : x.equals y = true) :
    x.SameUpToOrder y := by
  obtain ⟨h1, h2, h3, h4⟩ := equals_iff_oneWay.mp h
  exact ⟨h1, h2.perm_of_nodup hx.producers, h3.perm_of_nodup hx.consumers,
    h4.perm_of_nodup (nodup_pathKey_iff.mpr hx.fileDependencies)⟩

/-- **Without repetitions** `operator==` is equality of rules up to order, and symmetric. -/
theorem equals_iff_of_listSets {x y : CapioCLEntry} (hx : x.ListSets) (hy : y.ListSets) :
    (x.equals y = true ↔ x.SameUpToOrder y) ∧ (x.equals y = true ↔ y.equals x = true) :=
  (@exact_and_symm_iff CapioCLEntry (fun x y => x.equals y = true) _ equals_of_sameUpToOrder
    SameUpToOrder.symm x y).mpr ⟨sameUpToOrder_of_listSets hx, sameUpToOrder_of_listSets hy⟩

/-- The test passes and the rules differ exactly for the pairs that are overcounted. -/
theorem overcounted_iff {x y : CapioCLEntry} :
    ¬ x.Overcounted y ↔ (x.equals y = true → x.SameUpToOrder y) := by
  rw [equals_iff_oneWay]
  constructor
  · rintro h ⟨h1, h2, h3, h4⟩
    have hmore := fun hm => h ⟨h1, h2, h3, h4, hm⟩
    exact ⟨h1, perm_iff.mpr ⟨h2, fun hx => hmore (Or.inl hx)⟩,
      perm_iff.mpr ⟨h3, fun hx => hmore (Or.inr (Or.inl hx))⟩,
      perm_iff.mpr ⟨h4, fun hx => hmore (Or.inr (Or.inr hx))⟩⟩
  · rintro h ⟨h1, h2, h3, h4, hmore⟩
    obtain ⟨-, k2, k3, k4⟩ := h ⟨h1, h2, h3, h4⟩
    rcases hmore with hx | hx | hx
    · exact (perm_iff.mp k2).2 hx
    · exact (perm_iff.mp k3).2 hx
    · exact (perm_iff.mp k4).2 hx

end CapioCLEntry

namespace Engine

/-- The same keys, with the same rules up to the order of the lists. -/
def SameUpToOrder (e e' : Engine) : Prop :=
  ∀ k, Option.Rel CapioCLEntry.SameUpToOrder (e.find k) (e'.find k)

/-- The same keys, whose entries pass the tests on the scalars and the lists, and one of the pairs
is overcounted. -/
structure Overcounted (e e' : Engine) : Prop where
  passes : ∀ k, Option.Rel (fun x y => x.SameScalars y ∧ OneWay x.producers y.producers ∧
    OneWay x.consumers y.consumers ∧
    OneWay (x.fileDependencies.map pathKey) (y.fileDependencies.map pathKey)) (e.find k) (e'.find k)
  more : ∃ k x y, e.find k = some x ∧ e'.find k = some y ∧ x.Overcounted y

theorem equals_refl (e : Engine) : e.equals e = true := equals_of_entries rfl

theorem equals_trans {e e' e'' : Engine} (h : e.equals e' = true) (h' : e'.equals e'' = true) :
    e.equals e'' = true := by
  rw [equals_iff] at h h' ⊢
  exact fun k => @optionRel_trans CapioCLEntry (fun x y => x.equals y = true)
    CapioCLEntry.equals_trans _ _ _ (h k) (h' k)

theorem SameUpToOrder.symm {e e' : Engine} (h : e.SameUpToOrder e') : e'.SameUpToOrder e :=
  fun k => optionRel_symm CapioCLEntry.SameUpToOrder.symm (h k)

theorem equals_of_sameUpToOrder {e e' : Engine} (h : e.SameUpToOrder e') : e.equals e' = true :=
  equals_iff.mpr fun k =>
    optionRel_imp (fun _ _ _ _ => CapioCLEntry.equals_of_sameUpToOrder) (h k)

theorem sameUpToOrder_of_listSets {e e' : Engine} (h : e.All CapioCLEntry.ListSets)
    (hequal : e.equals e' = true) : e.SameUpToOrder e' := fun k =>
  optionRel_imp (fun x _ hx _ hxy => CapioCLEntry.sameUpToOrder_of_listSets (h k x hx) hxy)
    (equals_iff.mp hequal k)

/-- **Without repetitions** in any entry, the same of engines. -/
theorem equals_iff_of_listSets {e e' : Engine} (h : e.All CapioCLEntry.ListSets)
    (h' : e'.All CapioCLEntry.ListSets) :
    (e.equals e' = true ↔ e.SameUpToOrder e') ∧ (e.equals e' = true ↔ e'.equals e = true) :=
  (@exact_and_symm_iff Engine (fun e e' => e.equals e' = true) _ equals_of_sameUpToOrder
    SameUpToOrder.symm e e').mpr ⟨sameUpToOrder_of_listSets h, sameUpToOrder_of_listSets h'⟩

theorem overcounted_iff {e e' : Engine} :
    ¬ e.Overcounted e' ↔ (e.equals e' = true → e.SameUpToOrder e') := by
  rw [equals_iff]
  constructor
  · intro h hpass k
    refine optionRel_imp (fun x y hx hy hxy => CapioCLEntry.overcounted_iff.mp ?_ hxy) (hpass k)
    intro hover
    exact h ⟨fun q => optionRel_imp (fun _ _ _ _ => CapioCLEntry.equals_iff_oneWay.mp) (hpass q),
      k, x, y, hx, hy, hover⟩
  · rintro h ⟨hpass, k, x, y, hx, hy, hover⟩
    have hrel := h (fun q =>
      optionRel_imp (fun _ _ _ _ => CapioCLEntry.equals_iff_oneWay.mpr) (hpass q)) k
    rw [hx, hy] at hrel
    cases hrel with
    | some hxy => exact CapioCLEntry.overcounted_iff.mpr (fun _ => hxy) hover

end Engine

/-- **When `operator==` is equality of rules up to order, and symmetric.** At a pair of entries, or
of engines, exactly if the pair is not overcounted, either way round. Reflexivity and transitivity
hold without a condition. -/
theorem equality_upToOrder_iff (x y : CapioCLEntry) (e e' : Engine) :
    (((x.equals y = true ↔ x.SameUpToOrder y) ∧ (x.equals y = true ↔ y.equals x = true)) ↔
        ¬ x.Overcounted y ∧ ¬ y.Overcounted x) ∧
    (((e.equals e' = true ↔ e.SameUpToOrder e') ∧ (e.equals e' = true ↔ e'.equals e = true)) ↔
        ¬ e.Overcounted e' ∧ ¬ e'.Overcounted e) ∧
    x.equals x = true ∧
    (∀ z, x.equals y = true → y.equals z = true → x.equals z = true) ∧
    e.equals e = true ∧
    ∀ e'', e.equals e' = true → e'.equals e'' = true → e.equals e'' = true := by
  refine ⟨?_, ?_, x.equals_refl, fun _ => CapioCLEntry.equals_trans, e.equals_refl,
    fun _ => Engine.equals_trans⟩
  · rw [CapioCLEntry.overcounted_iff, CapioCLEntry.overcounted_iff]
    exact @exact_and_symm_iff CapioCLEntry (fun x y => x.equals y = true) _
      CapioCLEntry.equals_of_sameUpToOrder CapioCLEntry.SameUpToOrder.symm x y
  · rw [Engine.overcounted_iff, Engine.overcounted_iff]
    exact @exact_and_symm_iff Engine (fun e e' => e.equals e' = true) _
      Engine.equals_of_sameUpToOrder Engine.SameUpToOrder.symm e e'

/-- A producer listed twice, and two producers. -/
def twiceListed : CapioCLEntry := { producers := ["a", "a"] }

def twoListed : CapioCLEntry := { producers := ["a", "b"] }

/-- A store with the one key `f`. -/
def oneFile (entry : CapioCLEntry) : Engine :=
  { capioClEntries := (∅ : UnorderedMap String CapioCLEntry).insert "f" entry }

/-- The first equals the second, and the second does not equal the first. -/
theorem twiceListed_not_symm :
    twiceListed.equals twoListed = true ∧ twoListed.equals twiceListed = false ∧
      ¬ twiceListed.SameUpToOrder twoListed ∧
      (oneFile twiceListed).equals (oneFile twoListed) = true ∧
      (oneFile twoListed).equals (oneFile twiceListed) = false := by
  refine ⟨by decide +kernel, by decide +kernel, fun h => ?_, by decide +kernel, by decide +kernel⟩
  exact absurd h.producers (by decide)

end CapioCl
