import CapioCl.DumpDocument

/-!
# The dumped graph is the transposed store

The store lists applications under paths, a document lists paths under applications. The loop over
`files` turns the one into the other (`v1.cpp:26-43`), and what comes after it adds no path and no
application: the loop over `app_outputs` inserts the names it misses in `app_inputs` without paths,
and the loop over `app_inputs` skips the names that are in the graph.

* `count_appPaths`: how often a path is in a stream of an application.
* `nodup_dumpNames`, `mem_dumpNames`: every application once.
* `dump_transposes`: the document of either version.
-/

namespace CapioCl

open CapioCl.Lib CapioCl.Lib.Reading

namespace Serializer

/-! ## What the document says -/

/-- The item of a path states the kind of its entry, its rules and its dependencies. -/
structure ItemOf (path : String) (entry : CapioCLEntry) (item : Json) : Prop where
  kind : item.get? (if entry.isFile then "name" else "dirname") = some (Json.strs [path])
  other : item.get? (if entry.isFile then "dirname" else "name") = none
  mode : item.get? "mode" = some (.str entry.fireRule)
  fileDeps : item.get? "file_deps" = some (Json.strs entry.fileDependencies)
  /-- A positive close count is `on_close`, whatever the rule. -/
  committed : item.get? "committed" = some (.str (if 0 < entry.commitOnCloseCount then
    commitRules.onClose ++ (":" ++ toString entry.commitOnCloseCount) else entry.commitRule))

/-- The streams of an application hold each path as often as the path holds the application, and
every output has its item. -/
structure AppOf (e : Engine) (n : String) (app : Json) : Prop where
  name : app.get? "name" = some (.str n)
  streams : ∀ σ : Stream, ∃ paths, app.get? σ.key = some (Json.strs paths) ∧
    ∀ p, paths.count p = (e.apps σ p).count n
  streaming : ∃ outputs, app.get? "output_stream" = some (Json.strs outputs) ∧
    List.Forall₂ (fun path item => ∃ entry, e.find path = some entry ∧ ItemOf path entry item)
      outputs (app.elements "streaming")

/-- `j[key]` lists the keys that meet a condition, each once. -/
def ListsOnce (e : Engine) (j : Json) (key : String) (c : CapioCLEntry → Bool) : Prop :=
  ∃ l, j.get? key = some (Json.strs l) ∧ ∀ k, l.count k = if (e.find k).any c then 1 else 0

/-- Every key is stored in one of the two places. -/
structure StorageOf (e : Engine) (storage : Json) : Prop where
  memory : ListsOnce e storage "memory" fun entry => entry.storeInMemory
  fs : ListsOnce e storage "fs" fun entry => !entry.storeInMemory
  one : ∀ k, (e.find k).isSome → (Lists storage "memory" k ↔ ¬ Lists storage "fs" k)

/-- **The document is the store, by application.** -/
structure Transposed (e : Engine) (doc : Json) : Prop where
  graph : ∃ names apps, doc.get? "IO_Graph" = some (.arr apps) ∧ names.Nodup ∧
    (∀ n, n ∈ names ↔ ∃ (σ : Stream) (p : String), n ∈ e.apps σ p) ∧
    List.Forall₂ (AppOf e) names apps
  permanent : ListsOnce e doc "permanent" fun entry => entry.permanent
  exclude : ListsOnce e doc "exclude" fun entry => entry.excluded
  storage : ∃ storage, doc.get? "storage" = some storage ∧ StorageOf e storage

/-! ## The loop over the entries -/

section
variable (O : DumpOrders) (e : Engine)

/-- The loop visits each path once. -/
theorem nodup_fileList : ((fileList O e).map Prod.fst).Nodup := by
  have hsub : ((fileList O e).map Prod.fst).Sublist (O.files.order e.capioClEntries.keys) := by
    unfold fileList
    induction O.files.order e.capioClEntries.keys with
    | nil => exact List.Sublist.refl []
    | cons p ps ih =>
      cases hp : e.find p with
      | none =>
        rw [List.filterMap_cons_none (by rw [hp]; rfl)]
        exact ih.cons p
      | some entry =>
        rw [List.filterMap_cons_some (b := (p, entry)) (by rw [hp]; rfl), List.map_cons]
        exact ih.cons_cons p
  exact hsub.nodup (O.files.nodup_order e.capioClEntries.keys_nodup)

/-- **How often a path is in a stream.** -/
theorem count_appPaths (σ : Stream) (name path : String) :
    (appPaths σ O e name).count path = (e.apps σ path).count name := by
  have hpairs : appPushes σ O e = UnorderedMap.pairs (CapioCLEntry.apps σ) (fileList O e) := rfl
  unfold appPaths appMap Engine.apps
  rw [hpairs]
  cases hp : e.find path with
  | some entry =>
    rw [UnorderedMap.count_transpose (nodup_fileList O e) (mem_fileList.mpr hp)]
    rfl
  | none =>
    rw [UnorderedMap.count_pushAll, UnorderedMap.count_pairs_of_not_mem]
    · rfl
    · intro hmem
      obtain ⟨⟨q, entry⟩, hentry, rfl⟩ := List.mem_map.mp hmem
      rw [mem_fileList.mp hentry] at hp
      cases hp

theorem count_pathsWhere (c : CapioCLEntry → Bool) (k : String) :
    (pathsWhere c O e).count k = if (e.find k).any c then 1 else 0 := by
  have hnodup : (pathsWhere c O e).Nodup :=
    ((List.filter_sublist (l := fileList O e)).map Prod.fst).nodup (nodup_fileList O e)
  by_cases hk : k ∈ pathsWhere c O e
  · obtain ⟨entry, hentry, hc⟩ := mem_pathsWhere.mp hk
    rw [List.count_eq_one_of_mem hnodup hk, hentry, Option.any_some, if_pos hc]
  · rw [List.count_eq_zero.mpr hk, if_neg]
    intro hany
    obtain ⟨entry, hentry, hc⟩ := (Option.any_eq_true _ _).mp hany
    exact hk (mem_pathsWhere.mpr ⟨entry, hentry, hc⟩)

/-! ## The applications -/

/-- The applications of the graph, in its order. -/
def dumpNames : List String := producerNames O e ++ consumerNames O e

theorem nodup_dumpNames : (dumpNames O e).Nodup := by
  refine List.nodup_append'.mpr ⟨O.outputs.nodup_order (appMap .output O e).keys_nodup, ?_, ?_⟩
  · exact (O.inputs.nodup_order (inputsAfter O e).keys_nodup).filter _
  · intro n hp hc
    exact (mem_consumerNames.mp hc).2 hp

theorem mem_dumpNames (n : String) :
    n ∈ dumpNames O e ↔ ∃ (σ : Stream) (p : String), n ∈ e.apps σ p := by
  unfold dumpNames
  rw [List.mem_append, mem_consumerNames]
  constructor
  · rintro (h | ⟨⟨p, h⟩, -⟩)
    · obtain ⟨p, h⟩ := mem_producerNames.mp h
      exact ⟨.output, p, h⟩
    · exact ⟨.input, p, h⟩
  · rintro ⟨σ, p, h⟩
    by_cases hn : n ∈ producerNames O e
    · exact Or.inl hn
    · cases σ with
      | input => exact Or.inr ⟨⟨p, h⟩, hn⟩
      | output => exact absurd (mem_producerNames.mpr ⟨p, h⟩) hn

theorem itemOf_streamingItemOf (path : String) (entry : CapioCLEntry) :
    ItemOf path entry (streamingItemOf path entry) where
  kind := get?_kind path entry
  other := by
    unfold streamingItemOf
    cases entry.isFile <;> rfl
  mode := get?_mode path entry
  fileDeps := get?_file_deps path entry
  committed := by
    rw [get?_committed]
    unfold committedText
    split
    · split
      · rename_i hrule
        rw [hrule]
      · rfl
    · rfl

theorem appOf_producerAt (name : String) : AppOf e name (producerAt O e name) where
  name := rfl
  streams σ := by
    refine ⟨appPaths σ O e name, ?_, count_appPaths O e σ name⟩
    cases σ <;> rfl
  streaming := by
    refine ⟨appPaths .output O e name, rfl, ?_⟩
    have helements : (producerAt O e name).elements "streaming" =
        (appPaths .output O e name).map (itemAt e) := rfl
    rw [helements, List.forall₂_map_right_iff, List.forall₂_same]
    intro path hpath
    obtain ⟨entry, hentry⟩ :=
      Option.isSome_iff_exists.mp (Engine.isSome_of_mem_apps (mem_appPaths.mp hpath))
    refine ⟨entry, hentry, ?_⟩
    unfold itemAt
    rw [hentry]
    exact itemOf_streamingItemOf path entry

/-- An application that produces nothing has no output and no item. -/
theorem appOf_consumerAt {name : String} (h : name ∉ producerNames O e) :
    AppOf e name (consumerAt O e name) where
  name := rfl
  streams σ := by
    cases σ with
    | input => exact ⟨appPaths .input O e name, rfl, count_appPaths O e .input name⟩
    | output =>
      refine ⟨[], rfl, fun p => ?_⟩
      have hnot : name ∉ e.apps .output p := fun hmem => h (mem_producerNames.mpr ⟨p, hmem⟩)
      rw [List.count_eq_zero.mpr hnot]
      rfl
  streaming := ⟨[], rfl, List.Forall₂.nil⟩

theorem forall₂_appOf : List.Forall₂ (AppOf e) (dumpNames O e)
    ((producerNames O e).map (producerAt O e) ++ (consumerNames O e).map (consumerAt O e)) := by
  refine List.rel_append ?_ ?_
  · rw [List.forall₂_map_right_iff, List.forall₂_same]
    exact fun name _ => appOf_producerAt O e name
  · rw [List.forall₂_map_right_iff, List.forall₂_same]
    exact fun name hname => appOf_consumerAt O e (mem_consumerNames.mp hname).2

theorem storageOf_dump : StorageOf e
    (.obj [("memory", Json.strs (pathsWhere (·.storeInMemory) O e)),
      ("fs", Json.strs (pathsWhere (fun entry => !entry.storeInMemory) O e))]) where
  memory := ⟨_, rfl, count_pathsWhere O e _⟩
  fs := ⟨_, rfl, count_pathsWhere O e _⟩
  one k hk := by
    obtain ⟨entry, hentry⟩ := Option.isSome_iff_exists.mp hk
    have hlists : ∀ {key : String} {l : List String} {j : Json}, j.get? key = some (Json.strs l) →
        (Lists j key k ↔ k ∈ l) := by
      intro key l j hl
      constructor
      · rintro ⟨l', hl', hmem⟩
        rw [hl] at hl'
        rwa [strs_inj (Option.some.inj hl')]
      · exact fun hmem => ⟨l, hl, hmem⟩
    rw [hlists rfl, hlists rfl, mem_pathsWhere, mem_pathsWhere, hentry]
    cases hs : entry.storeInMemory <;> simp [hs]

/-- The document after its first members. -/
theorem document_transposed {header : List (String × Json)}
    (hh : ∀ key ∈ ["IO_Graph", "permanent", "exclude", "storage"], header.lookup key = none) :
    ∃ doc, document O e header = .ok doc ∧ Transposed e doc := by
  unfold document
  rw [ioGraphOf_eq, ok_bind]
  refine ⟨_, rfl, ?_⟩
  have hget : ∀ (key : String) (ms : List (String × Json)),
      key ∈ ["IO_Graph", "permanent", "exclude", "storage"] →
      (Json.obj (header ++ ms)).get? key = ms.lookup key := by
    intro key ms hkey
    rw [Json.get?_obj, List.lookup_append, hh key hkey, Option.none_or]
  refine ⟨⟨dumpNames O e, _, ?_, nodup_dumpNames O e, mem_dumpNames O e, forall₂_appOf O e⟩,
    ⟨pathsWhere (·.permanent) O e, ?_, count_pathsWhere O e _⟩,
    ⟨pathsWhere (·.excluded) O e, ?_, count_pathsWhere O e _⟩, _, ?_, storageOf_dump O e⟩
  · rw [hget _ _ (by decide)]
    rfl
  · rw [hget _ _ (by decide)]
    rfl
  · rw [hget _ _ (by decide)]
    rfl
  · rw [hget _ _ (by decide)]
    rfl

end

/-- **The dumped IO graph is the exact transpose of the store**, in both versions and for every
iteration order of the maps. -/
theorem dump_transposes (P : Platform) (O : DumpOrders) (e : Engine) (filename : String)
    (files : Files) :
    (∃ doc, Transposed e doc ∧ dump P O e filename versionV1 files = write P filename doc files) ∧
      ∃ doc, Transposed e doc ∧
        dump P O e filename versionV1_1 files = write P filename doc files := by
  constructor
  · obtain ⟨doc, hdoc, htrans⟩ := @document_transposed O e [] fun _ _ => rfl
    refine ⟨doc, htrans, ?_⟩
    unfold dump serializeV1
    rw [if_pos rfl, hdoc]
    rfl
  · obtain ⟨doc, hdoc, htrans⟩ := @document_transposed O e [("version", .num 11 1)] (by decide)
    refine ⟨doc, htrans, ?_⟩
    have hne : versionV1_1 ≠ versionV1 := by decide
    unfold dump serializeV1_1
    rw [if_neg hne, if_pos rfl, hdoc]
    rfl

end Serializer

end CapioCl
