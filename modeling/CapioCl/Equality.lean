import CapioCl.Engine

/-!
# `operator==`

Two engines are equal when they have the same keys and equal entries (`Engine.equals_iff`). Lists
are compared by size and membership, which on lists without duplicates is equality as sets;
dependencies are paths, and `a//b` is the path `a/b`.
-/

namespace CapioCl

open CapioCl.Lib

theorem sameElements_iff {a b : List String} :
    sameElements a b = true ↔ a.length = b.length ∧ a ⊆ b := by
  unfold sameElements
  rw [Bool.and_eq_true, beq_iff_eq, List.all_eq_true]
  simp only [List.contains_iff_mem]
  exact Iff.rfl

theorem sameElements_refl (a : List String) : sameElements a a = true :=
  sameElements_iff.mpr ⟨rfl, List.Subset.refl a⟩

/-- Lists without duplicates and with the same elements. -/
theorem sameElements_of_nodup {a b : List String} (ha : a.Nodup) (hb : b.Nodup)
    (h : ∀ x, x ∈ a ↔ x ∈ b) : sameElements a b = true := by
  have hperm : a.Perm b := (List.perm_ext_iff_of_nodup ha hb).mpr h
  exact sameElements_iff.mpr ⟨hperm.length_eq, hperm.subset⟩

theorem samePaths_refl (a : List String) : samePaths a a = true := by
  unfold samePaths
  rw [Bool.and_eq_true, List.all_eq_true]
  exact ⟨beq_self_eq_true _, fun x hx => List.any_eq_true.mpr ⟨x, hx, samePath_refl x⟩⟩

theorem CapioCLEntry.equals_iff {x y : CapioCLEntry} : x.equals y = true ↔
    x.commitRule = y.commitRule ∧ x.fireRule = y.fireRule ∧ x.permanent = y.permanent ∧
      x.excluded = y.excluded ∧ x.isFile = y.isFile ∧
      x.commitOnCloseCount = y.commitOnCloseCount ∧
      x.directoryChildrenCount = y.directoryChildrenCount ∧
      x.storeInMemory = y.storeInMemory ∧
      x.enableDirectoryCountUpdate = y.enableDirectoryCountUpdate ∧
      sameElements x.producers y.producers = true ∧ sameElements x.consumers y.consumers = true ∧
      samePaths x.fileDependencies y.fileDependencies = true := by
  unfold CapioCLEntry.equals
  simp only [Bool.and_eq_true, beq_iff_eq, and_assoc]

theorem CapioCLEntry.equals_refl (x : CapioCLEntry) : x.equals x = true := by
  rw [CapioCLEntry.equals_iff]
  simp only [sameElements_refl, samePaths_refl, and_self]

namespace Engine

/-- **Equal engines** have the same keys and equal entries. -/
theorem equals_iff {e e' : Engine} : e.equals e' = true ↔
    ∀ k, Option.Rel (fun x y => x.equals y = true) (e.find k) (e'.find k) := by
  unfold equals
  rw [Bool.and_eq_true, beq_iff_eq, List.all_eq_true]
  constructor
  · rintro ⟨hlen, hall⟩ k
    have hentry : ∀ q ∈ e.capioClEntries.keys,
        Option.Rel (fun x y => x.equals y = true) (e.find q) (e'.find q) := by
      intro q hq
      have heq := hall q hq
      obtain ⟨x, hx⟩ := Option.isSome_iff_exists.mp (mem_keys_iff.mp hq)
      rw [hx] at heq ⊢
      cases hy : e'.find q with
      | none =>
        rw [hy] at heq
        cases heq
      | some y =>
        rw [hy] at heq
        exact Option.Rel.some heq
    have hsub : e.capioClEntries.keys ⊆ e'.capioClEntries.keys := by
      intro q hq
      have hrel := hentry q hq
      rw [mem_keys_iff] at hq ⊢
      generalize e.find q = x, e'.find q = y at hq hrel
      cases hrel with
      | none => exact hq
      | some _ => rfl
    by_cases hk : k ∈ e.capioClEntries.keys
    · exact hentry k hk
    · have hperm := (List.subperm_of_subset e.capioClEntries.keys_nodup hsub).perm_of_length_le hlen.ge
      have hk' : k ∉ e'.capioClEntries.keys := fun h => hk (hperm.mem_iff.mpr h)
      rw [mem_keys_iff, Option.not_isSome_iff_eq_none] at hk hk'
      rw [hk, hk']
      exact Option.Rel.none
  · intro h
    have hkeys : ∀ k, k ∈ e.capioClEntries.keys ↔ k ∈ e'.capioClEntries.keys := by
      intro k
      have hrel := h k
      rw [mem_keys_iff, mem_keys_iff]
      generalize e.find k = x, e'.find k = y at hrel
      cases hrel <;> simp
    refine ⟨((List.perm_ext_iff_of_nodup e.capioClEntries.keys_nodup
      e'.capioClEntries.keys_nodup).mpr hkeys).length_eq, fun k hk => ?_⟩
    have hrel := h k
    rw [mem_keys_iff] at hk
    generalize e.find k = x, e'.find k = y at hk hrel
    cases hrel with
    | none => exact hk
    | some hxy => exact hxy

theorem equals_of_entries {e e' : Engine} (h : e.capioClEntries = e'.capioClEntries) :
    e.equals e' = true := by
  rw [equals_iff]
  intro k
  have hfind : e.find k = e'.find k := congrArg (AList.lookup k) h
  rw [hfind]
  cases e'.find k with
  | none => exact Option.Rel.none
  | some x => exact Option.Rel.some (CapioCLEntry.equals_refl x)

end Engine

end CapioCl
