import CapioCl.Declaration
import CapioCl.Versions

/-!
# The dumped document

What `Serializer::dump` writes, without its maps, and what the parser reads back.

* `ioGraphOf_eq`: one item of `IO_Graph` for each producer, in the order of the loop, then one for
  each consumer that produces nothing.
* `declares_dump_iff`: the document declares the applications of the entries and no other.
* `streamingItem_dump_iff`: when the schemas accept the streaming item of an entry.
* `readStreamItem_dump`: what an accepted item is read as.
-/

namespace CapioCl

open CapioCl.Lib CapioCl.Lib.Reading CapioCl.Parser

namespace Serializer

/-! ## The maps -/

theorem mem_fileList {O : DumpOrders} {e : Engine} {path : String} {entry : CapioCLEntry} :
    (path, entry) ∈ fileList O e ↔ e.find path = some entry := by
  unfold fileList
  rw [List.mem_filterMap]
  simp only [O.files.mem_order, Option.map_eq_some_iff, Prod.mk.injEq]
  constructor
  · rintro ⟨p, -, x, hx, rfl, rfl⟩
    exact hx
  · intro h
    refine ⟨path, ?_, entry, h, rfl, rfl⟩
    rw [← AList.mem_keys, ← AList.lookup_isSome]
    exact Option.isSome_of_mem h

/-- A list of flagged paths holds the keys that have the flag. -/
theorem mem_pathsWhere {c : CapioCLEntry → Bool} {O : DumpOrders} {e : Engine} {p : String} :
    p ∈ pathsWhere c O e ↔ ∃ entry, e.find p = some entry ∧ c entry = true := by
  unfold pathsWhere
  simp only [List.mem_map, List.mem_filter, Prod.exists, mem_fileList]
  constructor
  · rintro ⟨q, entry, ⟨hq, hc⟩, rfl⟩
    exact ⟨entry, hq, hc⟩
  · rintro ⟨entry, hp, hc⟩
    exact ⟨p, entry, ⟨hp, hc⟩, rfl⟩

/-- The paths of an application, as the loop over the entries pushes them. -/
def appPaths (σ : Stream) (O : DumpOrders) (e : Engine) (name : String) : List String :=
  ((appMap σ O e).lookup name).getD []

theorem mem_appPushes {σ : Stream} {O : DumpOrders} {e : Engine} {n p : String} :
    (n, p) ∈ appPushes σ O e ↔ n ∈ e.apps σ p := by
  unfold appPushes Engine.apps
  simp only [List.mem_flatMap, List.mem_map, Prod.mk.injEq, Prod.exists, mem_fileList]
  constructor
  · rintro ⟨q, entry, hq, c, hc, rfl, rfl⟩
    rw [hq]
    exact hc
  · intro h
    cases hp : e.find p with
    | none =>
      rw [hp] at h
      exact absurd h (by simp)
    | some entry =>
      rw [hp] at h
      exact ⟨p, entry, hp, n, h, rfl, rfl⟩

theorem mem_appPaths {σ : Stream} {O : DumpOrders} {e : Engine} {n p : String} :
    p ∈ appPaths σ O e n ↔ n ∈ e.apps σ p := by
  unfold appPaths appMap
  rw [UnorderedMap.lookup_pushAll, ← mem_appPushes]
  simp only [AList.lookup_empty, Option.getD_none, List.nil_append, List.mem_map, List.mem_filter,
    decide_eq_true_eq, Prod.exists]
  constructor
  · rintro ⟨m, q, ⟨h, rfl⟩, rfl⟩
    exact h
  · intro h
    exact ⟨n, p, ⟨h, rfl⟩, rfl⟩

theorem mem_appMap {σ : Stream} {O : DumpOrders} {e : Engine} {n : String} :
    n ∈ appMap σ O e ↔ ∃ p, n ∈ e.apps σ p := by
  unfold appMap
  rw [UnorderedMap.mem_pushAll, or_iff_left (AList.notMem_empty n)]
  simp only [List.mem_map, Prod.exists, mem_appPushes]
  constructor
  · rintro ⟨m, p, h, rfl⟩
    exact ⟨p, h⟩
  · rintro ⟨p, h⟩
    exact ⟨n, p, h, rfl⟩

/-! ## The graph -/

/-- The streaming item of a key. -/
def itemAt (e : Engine) (path : String) : Json :=
  streamingItemOf path ((e.find path).getD {})

theorem streamingItemAt_eq {e : Engine} {path : String} (h : (e.find path).isSome) :
    streamingItemAt e path = .ok (itemAt e path) := by
  obtain ⟨entry, hentry⟩ := Option.isSome_iff_exists.mp h
  unfold streamingItemAt itemAt
  rw [hentry]
  rfl

/-- The item of `IO_Graph` for a producer. -/
def producerAt (O : DumpOrders) (e : Engine) (name : String) : Json :=
  producerApp name (appPaths .input O e name) (appPaths .output O e name)
    ((appPaths .output O e name).map (itemAt e))

/-- The item of `IO_Graph` for an application that only consumes. -/
def consumerAt (O : DumpOrders) (e : Engine) (name : String) : Json :=
  consumerApp name (appPaths .input O e name)

/-- `app_inputs[n]` inserts `n` without paths when it is missing. -/
theorem lookup_insert_appPaths {O : DumpOrders} {e : Engine}
    {m : UnorderedMap String (List String)} (n : String)
    (hm : ∀ q, (m.lookup q).getD [] = appPaths .input O e q) :
    ∀ q, ((m.insert n (appPaths .input O e n)).lookup q).getD [] = appPaths .input O e q := by
  intro q
  by_cases hq : q = n
  · subst hq
    rw [AList.lookup_insert, Option.getD_some]
  · rw [AList.lookup_insert_ne hq, hm]

/-- The applications of `app_outputs`, as the loop visits them. -/
def producerNames (O : DumpOrders) (e : Engine) : List String :=
  O.outputs.order (appMap .output O e).keys

theorem mem_producerNames {O : DumpOrders} {e : Engine} {n : String} :
    n ∈ producerNames O e ↔ ∃ p, n ∈ e.apps .output p := by
  unfold producerNames
  rw [O.outputs.mem_order, ← AList.mem_keys]
  exact mem_appMap

/-- `app_inputs` after the loop over `app_outputs`. -/
def inputsAfter (O : DumpOrders) (e : Engine) : UnorderedMap String (List String) :=
  (producerNames O e).foldl (fun m n => m.insert n (appPaths .input O e n)) (appMap .input O e)

theorem inputsAfter_spec (O : DumpOrders) (e : Engine) :
    (∀ q, ((inputsAfter O e).lookup q).getD [] = appPaths .input O e q) ∧
      ∀ q, q ∈ inputsAfter O e ↔ (∃ p, q ∈ e.apps .input p) ∨ q ∈ producerNames O e := by
  have hfold : ∀ (names : List String) (m : UnorderedMap String (List String)),
      (∀ q, (m.lookup q).getD [] = appPaths .input O e q) →
      (∀ q, ((names.foldl (fun m n => m.insert n (appPaths .input O e n)) m).lookup q).getD [] =
        appPaths .input O e q) ∧
      ∀ q, q ∈ names.foldl (fun m n => m.insert n (appPaths .input O e n)) m ↔
        q ∈ m ∨ q ∈ names := by
    intro names
    induction names with
    | nil => exact fun m hm => ⟨hm, fun q => by simp⟩
    | cons n names ih =>
      intro m hm
      obtain ⟨hlookup, hmem⟩ := ih _ (lookup_insert_appPaths n hm)
      refine ⟨hlookup, fun q => (hmem q).trans ?_⟩
      rw [AList.mem_insert, List.mem_cons, or_comm (a := q = n), or_assoc]
  obtain ⟨hlookup, hmem⟩ := hfold (producerNames O e) (appMap .input O e) fun _ => rfl
  refine ⟨hlookup, fun q => (hmem q).trans (or_congr_left ?_)⟩
  exact mem_appMap

/-- The applications that the loop over `app_inputs` adds. -/
def consumerNames (O : DumpOrders) (e : Engine) : List String :=
  (O.inputs.order (inputsAfter O e).keys).filter fun n => n ∉ producerNames O e

theorem mem_consumerNames {O : DumpOrders} {e : Engine} {n : String} :
    n ∈ consumerNames O e ↔ (∃ p, n ∈ e.apps .input p) ∧ n ∉ producerNames O e := by
  unfold consumerNames
  rw [List.mem_filter, O.inputs.mem_order, ← AList.mem_keys, (inputsAfter_spec O e).2,
    decide_eq_true_eq, or_and_right, or_iff_left fun h => h.2 h.1]

/-- The loop over `app_outputs`: it inserts names into `app_inputs` without paths. -/
theorem foldlM_addProducerApp (O : DumpOrders) (e : Engine) (names : List String)
    (m : UnorderedMap String (List String)) (graph : List Json)
    (hm : ∀ q, (m.lookup q).getD [] = appPaths .input O e q) :
    names.foldlM (addProducerApp e (appMap .output O e)) (m, graph) =
      .ok (names.foldl (fun m n => m.insert n (appPaths .input O e n)) m,
        graph ++ names.map (producerAt O e)) := by
  induction names generalizing m graph with
  | nil => simp
  | cons n names ih =>
    have hitems : (appPaths .output O e n).mapM (streamingItemAt e) =
        .ok ((appPaths .output O e n).map (itemAt e)) :=
      mapM_ok fun p hp => streamingItemAt_eq (Engine.isSome_of_mem_apps (mem_appPaths.mp hp))
    have hstep : addProducerApp e (appMap .output O e) (m, graph) n =
        .ok (m.insert n (appPaths .input O e n), graph ++ [producerAt O e n]) := by
      unfold addProducerApp
      dsimp only
      rw [show ((appMap .output O e).lookup n).getD [] = appPaths .output O e n from rfl, hitems,
        ok_bind, hm]
      rfl
    have hfold := ih _ (graph ++ [producerAt O e n])
      (lookup_insert_appPaths n hm)
    rw [List.foldlM_cons, hstep, ok_bind, hfold, List.map_cons, List.append_assoc]
    rfl

theorem contained_append (graph graph' : List Json) (n : String) :
    contained (graph ++ graph') n = (contained graph n || contained graph' n) := by
  unfold contained
  rw [List.any_append]

theorem contained_producers {O : DumpOrders} {e : Engine} {names : List String} {n : String} :
    contained (names.map (producerAt O e)) n = true ↔ n ∈ names := by
  unfold contained
  rw [List.any_map, List.any_eq_true]
  constructor
  · rintro ⟨m, hm, h⟩
    have hmn : m = n := of_decide_eq_true h
    rwa [← hmn]
  · intro h
    exact ⟨n, h, decide_eq_true rfl⟩

/-- The loop over `app_inputs` adds the names that are not in the graph. -/
theorem foldl_addConsumerApp {O : DumpOrders} {e : Engine} {m : UnorderedMap String (List String)}
    (hm : ∀ q, (m.lookup q).getD [] = appPaths .input O e q) {names : List String}
    (graph : List Json) (hn : names.Nodup) : names.foldl (addConsumerApp m) graph =
      graph ++ (names.filter fun n => !contained graph n).map (consumerAt O e) := by
  induction names generalizing graph with
  | nil => simp
  | cons n names ih =>
    rw [List.nodup_cons] at hn
    have hstep : addConsumerApp m graph n =
        if contained graph n then graph else graph ++ [consumerAt O e n] := by
      unfold addConsumerApp consumerAt
      rw [hm]
    rw [List.foldl_cons, hstep]
    by_cases hc : contained graph n = true
    · rw [if_pos hc, ih graph hn.2, List.filter_cons_of_neg (by simp [hc])]
    · rw [if_neg hc, ih _ hn.2, List.filter_cons_of_pos (by simpa using hc),
        List.map_cons, List.append_assoc]
      refine congrArg (graph ++ ·) (congrArg (consumerAt O e n :: ·) ?_)
      refine congrArg (List.map _) (List.filter_congr fun q hq => ?_)
      have hne : n ≠ q := fun h => hn.1 (h ▸ hq)
      have hnot : contained [consumerAt O e n] q = false := by
        unfold contained
        rw [List.any_cons, List.any_nil, Bool.or_false]
        exact decide_eq_false hne
      rw [contained_append, hnot, Bool.or_false]

/-- **The graph without the maps.** -/
theorem ioGraphOf_eq (O : DumpOrders) (e : Engine) : ioGraphOf O e =
    .ok ((producerNames O e).map (producerAt O e) ++
      (consumerNames O e).map (consumerAt O e)) := by
  have hfold := foldlM_addProducerApp O e (producerNames O e) (appMap .input O e) [] fun _ => rfl
  rw [List.nil_append] at hfold
  have hloop : (O.outputs.order (appMap .output O e).keys).foldlM
      (addProducerApp e (appMap .output O e)) (appMap .input O e, []) =
      .ok (inputsAfter O e, (producerNames O e).map (producerAt O e)) := hfold
  unfold ioGraphOf
  dsimp only
  rw [hloop, ok_bind]
  dsimp only
  rw [foldl_addConsumerApp (inputsAfter_spec O e).1 _
    (O.inputs.nodup_order (inputsAfter O e).keys_nodup)]
  refine congrArg Except.ok (congrArg (_ ++ ·) (congrArg (List.map _) ?_))
  refine List.filter_congr fun n _ => ?_
  rw [Bool.eq_iff_iff, Bool.not_eq_true', ← Bool.not_eq_true, contained_producers,
    decide_eq_true_eq]

/-- What `IO_Graph` holds. -/
def DumpGraph (O : DumpOrders) (e : Engine) (apps : List Json) : Prop :=
  ∀ app, app ∈ apps ↔
    (∃ n, (∃ p, n ∈ e.apps .output p) ∧ app = producerAt O e n) ∨
      ∃ n, (∃ p, n ∈ e.apps .input p) ∧ (∀ p, n ∉ e.apps .output p) ∧ app = consumerAt O e n

theorem exists_dumpGraph (O : DumpOrders) (e : Engine) :
    ∃ apps, ioGraphOf O e = .ok apps ∧ DumpGraph O e apps := by
  refine ⟨_, ioGraphOf_eq O e, fun app => ?_⟩
  rw [List.mem_append, List.mem_map, List.mem_map]
  refine or_congr (exists_congr fun n => ?_) (exists_congr fun n => ?_)
  · rw [mem_producerNames, eq_comm]
  · rw [mem_consumerNames, mem_producerNames, not_exists, and_assoc, eq_comm]

/-- The document around a graph. -/
def dumpDoc (O : DumpOrders) (e : Engine) (apps : List Json) : Json :=
  .obj [("name", .str e.workflowName), ("IO_Graph", .arr apps),
    ("permanent", Json.strs (pathsWhere (·.permanent) O e)),
    ("exclude", Json.strs (pathsWhere (·.excluded) O e)),
    ("storage", .obj [("memory", Json.strs (pathsWhere (·.storeInMemory) O e)),
      ("fs", Json.strs (pathsWhere (fun entry => !entry.storeInMemory) O e))])]

theorem document_eq {O : DumpOrders} {e : Engine} {apps : List Json}
    (h : ioGraphOf O e = .ok apps) : document O e [] = .ok (dumpDoc O e apps) := by
  unfold document
  rw [h]
  rfl

/-! ## Acceptance -/

theorem keysV1_dumpDoc (O : DumpOrders) (e : Engine) (apps : List Json) :
    Schema.noAdditionalProperties keysV1 (dumpDoc O e apps) = true := rfl

theorem appShape_consumerAt (O : DumpOrders) (e : Engine) (n : String) :
    AppShape (consumerAt O e n) where
  object := rfl
  known := rfl
  name := ⟨n, rfl⟩
  inputs := ⟨_, rfl⟩
  outputs := ⟨[], rfl⟩
  streaming v hv := by
    have hnone : (consumerAt O e n).get? "streaming" = none := rfl
    rw [hnone] at hv
    exact absurd hv (by simp)

theorem appShape_producerAt_iff (O : DumpOrders) (e : Engine) (n : String) :
    AppShape (producerAt O e n) ↔
      ∀ p, n ∈ e.apps .output p → streamingItem (itemAt e p) = true := by
  have hstreaming : (producerAt O e n).get? "streaming" =
      some (.arr ((appPaths .output O e n).map (itemAt e))) := rfl
  constructor
  · intro h p hp
    obtain ⟨xs, hxs, hall⟩ := h.streaming _ hstreaming
    rw [← Json.arr.inj hxs] at hall
    exact hall _ (List.mem_map_of_mem (mem_appPaths.mpr hp))
  · intro h
    refine ⟨rfl, rfl, ⟨n, rfl⟩, ⟨_, rfl⟩, ⟨_, rfl⟩, fun v hv => ?_⟩
    rw [hstreaming] at hv
    refine ⟨_, (Option.some.inj hv).symm, fun x hx => ?_⟩
    obtain ⟨p, hp, rfl⟩ := List.mem_map.mp hx
    exact h p (mem_appPaths.mp hp)

/-- `path` has the entry, and the entry has a producer. -/
def Produced (e : Engine) (path : String) (entry : CapioCLEntry) : Prop :=
  e.find path = some entry ∧ entry.producers ≠ []

theorem exists_produced {e : Engine} {n p : String} (h : n ∈ e.apps .output p) :
    ∃ entry, Produced e p entry := by
  obtain ⟨entry, hentry, hmem⟩ := Engine.exists_of_mem_apps h
  exact ⟨entry, hentry, List.ne_nil_of_mem hmem⟩

theorem exists_producer_iff {e : Engine} {p : String} {S : Json → Prop} :
    (∀ n, n ∈ e.apps .output p → S (itemAt e p)) ↔
      ∀ entry, Produced e p entry → S (streamingItemOf p entry) := by
  unfold Engine.apps itemAt Produced
  cases e.find p with
  | none => simp
  | some entry =>
    simp only [Option.map_some, Option.getD_some, Option.some.injEq, and_imp, forall_eq']
    constructor
    · intro h hne
      obtain ⟨n, hn⟩ := List.exists_mem_of_ne_nil _ hne
      exact h n hn
    · intro h n hn
      exact h (List.ne_nil_of_mem hn)

/-- **When a dumped document is accepted**: when the streaming items of the produced entries are. -/
theorem schemaV1_dumpDoc_iff {O : DumpOrders} {e : Engine} {apps : List Json}
    (hg : DumpGraph O e apps) : schemaV1 (dumpDoc O e apps) = true ↔
      ∀ p entry, Produced e p entry → streamingItem (streamingItemOf p entry) = true := by
  have hitems : (∀ p entry, Produced e p entry → streamingItem (streamingItemOf p entry) = true) ↔
      ∀ n, AppShape (producerAt O e n) := by
    simp only [appShape_producerAt_iff]
    rw [forall_comm (α := String) (β := String)]
    exact forall_congr' fun p =>
      (exists_producer_iff (S := fun x => streamingItem x = true)).symm
  rw [schemaV1_iff, and_iff_left (keysV1_dumpDoc O e apps), hitems]
  constructor
  · intro h n
    by_cases hn : ∃ p, n ∈ e.apps .output p
    · obtain ⟨apps', happs, hall⟩ := h.ioGraph
      obtain rfl : apps = apps' := Json.arr.inj (Option.some.inj happs)
      exact hall _ ((hg _).mpr (Or.inl ⟨n, hn, rfl⟩))
    · exact (appShape_producerAt_iff O e n).mpr fun p hp => absurd ⟨p, hp⟩ hn
  · intro h
    have hnone : ∀ key ∈ ["aliases", "home_node_policies"],
        (dumpDoc O e apps).get? key = none := by
      simp only [List.forall_mem_cons, List.not_mem_nil, false_imp_iff, implies_true, and_true]
      exact ⟨rfl, rfl⟩
    have hlist : ∀ {key : String} {l : List String},
        (dumpDoc O e apps).get? key = some (Json.strs l) → OptionalStrs (dumpDoc O e apps) key :=
      fun hl v hv => ⟨_, Option.some.inj (hv.symm.trans hl)⟩
    refine ⟨rfl, ⟨_, rfl⟩, ⟨apps, rfl, fun app happ => ?_⟩, fun v hv => ?_, hlist rfl, hlist rfl,
      fun v hv => ?_, fun v hv => ?_⟩
    · rcases (hg app).mp happ with ⟨n, -, rfl⟩ | ⟨n, -, -, rfl⟩
      · exact h n
      · exact appShape_consumerAt O e n
    · rw [hnone _ (by decide)] at hv
      exact absurd hv (by simp)
    · rw [hnone _ (by decide)] at hv
      exact absurd hv (by simp)
    · obtain rfl := Option.some.inj hv
      exact ⟨rfl, rfl, fun v hv => ⟨_, (Option.some.inj hv).symm⟩,
        fun v hv => ⟨_, (Option.some.inj hv).symm⟩⟩

/-! ## The streaming item of an entry -/

section
variable (path : String) (entry : CapioCLEntry)

theorem get?_committed : (streamingItemOf path entry).get? "committed" =
    some (.str (committedText entry)) := by
  unfold streamingItemOf
  cases entry.isFile <;> rfl

theorem get?_mode : (streamingItemOf path entry).get? "mode" = some (.str entry.fireRule) := by
  unfold streamingItemOf
  cases entry.isFile <;> rfl

theorem get?_file_deps : (streamingItemOf path entry).get? "file_deps" =
    some (Json.strs entry.fileDependencies) := by
  unfold streamingItemOf
  cases entry.isFile <;> rfl

theorem get?_n_files : (streamingItemOf path entry).get? "n_files" =
    if entry.isFile then none else some (.num entry.directoryChildrenCount 0) := by
  unfold streamingItemOf
  cases entry.isFile <;> rfl

theorem get?_kind : (streamingItemOf path entry).get?
    (if entry.isFile then "name" else "dirname") = some (Json.strs [path]) := by
  unfold streamingItemOf
  cases entry.isFile <;> rfl

theorem contains_name : (streamingItemOf path entry).contains "name" = entry.isFile := by
  unfold streamingItemOf
  cases entry.isFile <;> rfl

/-- The rules of the kind of an entry. -/
def kindRules (entry : CapioCLEntry) : List String :=
  if entry.isFile then nameRules else dirnameRules

/-- **When the schemas accept the item of an entry.** -/
theorem streamingItem_dump_iff : streamingItem (streamingItemOf path entry) = true ↔
    Committed (kindRules entry) (committedText entry) ∧ fireRules.Valid entry.fireRule := by
  have hshape : ∀ {kind : String} {rules : List String},
      ItemShape kind rules (streamingItemOf path entry) →
      Committed rules (committedText entry) ∧ fireRules.Valid entry.fireRule := by
    intro kind rules hs
    obtain ⟨t, ht, hc⟩ := hs.committed _ (get?_committed path entry)
    obtain ⟨r, hr, hv⟩ := hs.mode _ (get?_mode path entry)
    rw [Json.str.inj ht, Json.str.inj hr]
    exact ⟨hc, hv⟩
  constructor
  · intro h
    unfold kindRules
    rcases (streamingItem_iff _).mp h with hs | hs
    · obtain ⟨l, hl⟩ := hs.paths
      have hfile : entry.isFile = true := by
        rw [← contains_name path entry, Json.contains_iff]
        exact ⟨_, hl⟩
      rw [if_pos hfile]
      exact hshape hs
    · have hfile : entry.isFile = false := by
        rw [← contains_name path entry, Json.contains_eq_false_iff]
        exact Schema.get?_of_noAdditionalProperties hs.known (by decide)
      rw [hfile, if_neg Bool.false_ne_true]
      exact hshape hs
  · rintro ⟨hc, hfire⟩
    have hdump : ∀ kind : String, kind = (if entry.isFile then "name" else "dirname") →
        ItemShape kind (kindRules entry) (streamingItemOf path entry) := by
      rintro kind rfl
      refine ⟨?_, ?_, ⟨_, get?_kind path entry⟩, fun v hv => ?_, fun v hv => ?_, fun v hv => ?_,
        fun v hv => ?_, fun _ => ⟨_, get?_file_deps path entry⟩, fun hn => ?_⟩
      · unfold streamingItemOf
        rfl
      · unfold streamingItemOf
        cases entry.isFile <;> rfl
      · rw [get?_committed] at hv
        exact ⟨_, (Option.some.inj hv).symm, hc⟩
      · rw [get?_mode] at hv
        exact ⟨_, (Option.some.inj hv).symm, hfire⟩
      · rw [get?_file_deps] at hv
        exact ⟨_, (Option.some.inj hv).symm⟩
      · rw [get?_n_files] at hv
        split at hv
        · exact absurd hv (by simp)
        · rw [← Option.some.inj hv]
          exact decide_eq_true (by simp)
      · rw [get?_n_files]
        by_cases hfile : entry.isFile = true
        · unfold kindRules at hc
          rw [get?_committed] at hn
          rw [if_pos hfile, Json.str.inj (Option.some.inj hn)] at hc
          exact absurd hc onNFiles_not_committed
        · rw [if_neg hfile]
          exact ⟨_, rfl⟩
    rw [streamingItem_iff]
    unfold kindRules at hdump
    cases hfile : entry.isFile with
    | true => exact Or.inl (by simpa [hfile] using hdump "name" (by simp [hfile]))
    | false => exact Or.inr (by simpa [hfile] using hdump "dirname" (by simp [hfile]))

end

theorem committedText_of_pos {entry : CapioCLEntry} (h : 0 < entry.commitOnCloseCount) :
    committedText entry =
      commitRules.onClose ++ (":" ++ toString entry.commitOnCloseCount.toNat) := by
  obtain ⟨n, hn⟩ := Int.eq_ofNat_of_zero_le h.le
  unfold committedText
  rw [if_pos h, hn]
  split
  · rename_i hrule
    rw [hrule]
    rfl
  · rfl

theorem committedText_of_nonpos {entry : CapioCLEntry} (h : ¬ 0 < entry.commitOnCloseCount) :
    committedText entry = entry.commitRule := if_neg h

/-- The text a dump writes is in the grammar exactly when there is a count or the rule is. -/
theorem committed_dump_iff {rules : List String} {entry : CapioCLEntry} :
    Committed rules (committedText entry) ↔
      0 < entry.commitOnCloseCount ∨ Committed rules entry.commitRule := by
  by_cases h : 0 < entry.commitOnCloseCount
  · refine iff_of_true (Or.inr ⟨_, digits_toString _, committedText_of_pos h⟩) (Or.inl h)
  · rw [committedText_of_nonpos h, or_iff_right h]

/-- The streaming item the parser reads back. -/
def itemOf (path : String) (entry : CapioCLEntry) : StreamItem where
  isFile := entry.isFile
  streamingNames := [path]
  fileDeps :=
    if 0 < entry.commitOnCloseCount then []
    else if entry.commitRule = commitRules.onFile then entry.fileDependencies else []
  commitRule := if 0 < entry.commitOnCloseCount then commitRules.onClose else entry.commitRule
  fireRule := entry.fireRule
  nClose := if 0 < entry.commitOnCloseCount then entry.commitOnCloseCount else 0
  nFiles := if entry.isFile then 0 else entry.directoryChildrenCount

/-- The lists of an item, read without prefix. -/
theorem paths_kind (J : Jsoncons) (path : String) (entry : CapioCLEntry) :
    paths J "" (streamingItemOf path entry) (if entry.isFile then "name" else "dirname") =
      .ok [path] := by
  rw [paths_strs J "" (get?_kind path entry)]
  simp only [resolve_empty, List.map_id']

theorem paths_file_deps (J : Jsoncons) (path : String) (entry : CapioCLEntry) :
    paths J "" (streamingItemOf path entry) "file_deps" = .ok entry.fileDependencies := by
  rw [paths_strs J "" (get?_file_deps path entry)]
  simp only [resolve_empty, List.map_id']

theorem readCommitted_dump (J : Jsoncons) (path : String) {entry : CapioCLEntry}
    (hrule : commitRules.Valid entry.commitRule) (hcount : entry.commitOnCloseCount ≤ intMax) :
    readCommitted J "" (streamingItemOf path entry) =
      .ok ((itemOf path entry).commitRule, (itemOf path entry).nClose,
        (itemOf path entry).fileDeps) := by
  unfold readCommitted itemOf
  rw [if_pos (Json.contains_iff.mpr ⟨_, get?_committed path entry⟩),
    Json.member_of_get? (get?_committed path entry), liftJson_ok, ok_bind, J.asString_str]
  dsimp only
  by_cases h : 0 < entry.commitOnCloseCount
  · have hnat : (entry.commitOnCloseCount.toNat : Int) = entry.commitOnCloseCount :=
      Int.toNat_of_nonneg h.le
    rw [committedText_of_pos h, readRule_count, stoi_digits (digits_toString _),
      digitsValue_toString, hnat, if_pos hcount, map_ok, ok_bind, if_pos h, if_pos h, if_pos h]
    rfl
  · have hmem : entry.commitRule ∈ dirnameRules := by
      unfold dirnameRules
      rcases hrule with hr | hr | hr | hr <;> rw [hr] <;> decide
    rw [committedText_of_nonpos h, readRule_rule hmem, ok_bind, if_neg h, if_neg h, if_neg h]
    unfold readFileDeps
    by_cases hfile : entry.commitRule = commitRules.onFile
    · rw [if_pos hfile, if_pos hfile, paths_file_deps]
      rfl
    · rw [if_neg hfile, if_neg hfile]
      rfl

theorem readNFiles_dump (J : Jsoncons) (path : String) {entry : CapioCLEntry}
    (hfiles : InLong entry.directoryChildrenCount) :
    readNFiles J (streamingItemOf path entry) entry.isFile = .ok (itemOf path entry).nFiles := by
  unfold readNFiles itemOf
  have hget := get?_n_files path entry
  cases hfile : entry.isFile with
  | true => simp
  | false =>
    rw [hfile, if_neg Bool.false_ne_true] at hget
    rw [Json.contains_iff.mpr ⟨_, hget⟩, Json.member_of_get? hget]
    simp [J.asInt64_num _ hfiles]

/-- **The item of an entry is read back**, when its counts fit. -/
theorem readStreamItem_dump (J : Jsoncons) (path : String) {entry : CapioCLEntry}
    (hrule : commitRules.Valid entry.commitRule) (hcount : entry.commitOnCloseCount ≤ intMax)
    (hfiles : InLong entry.directoryChildrenCount) :
    readStreamItem J "" (streamingItemOf path entry) = .ok (itemOf path entry) := by
  have hmode : readMode J (streamingItemOf path entry) = .ok entry.fireRule := by
    unfold readMode
    rw [if_pos (Json.contains_iff.mpr ⟨_, get?_mode path entry⟩),
      Json.member_of_get? (get?_mode path entry), liftJson_ok, map_ok, J.asString_str]
  unfold readStreamItem
  dsimp only
  rw [contains_name, paths_kind, ok_bind, readCommitted_dump J path hrule hcount, ok_bind]
  dsimp only
  rw [hmode, ok_bind, readNFiles_dump J path hfiles]
  rfl

theorem onClose_count_not_valid (ds : String) :
    ¬ commitRules.Valid (commitRules.onClose ++ (":" ++ ds)) := by
  intro h
  have h8 : (commitRules.onClose ++ (":" ++ ds)).toList[8]? = some ':' := by
    rw [String.toList_append, String.toList_append]
    rfl
  rcases h with h | h | h | h <;> rw [h] at h8 <;> exact absurd h8 (by decide)

/-- What is read of an entry, whatever its rule and its counts. -/
theorem readStreamItem_dump_inv {J : Jsoncons} {path : String} {entry : CapioCLEntry}
    {item : StreamItem} (h : readStreamItem J "" (streamingItemOf path entry) = .ok item) :
    item.streamingNames = [path] ∧ item.isFile = entry.isFile ∧
      ∀ dep ∈ item.fileDeps, dep ∈ entry.fileDependencies := by
  obtain ⟨hfile, hnames, -⟩ := readStreamItem_inv h
  rw [contains_name] at hfile hnames
  refine ⟨(Except.ok.inj (hnames.symm.trans (paths_kind J path entry))), hfile, fun dep hdep => ?_⟩
  have hdeps := mem_fileDeps_of_read h hdep
  rw [paths_file_deps] at hdeps
  rwa [Except.ok.inj hdeps]

/-- **When the counts of an entry can be read back.** -/
theorem itemReadable_dump_iff (J : Jsoncons) (path : String) {entry : CapioCLEntry}
    (hrule : commitRules.Valid entry.commitRule) (hfiles : InLong entry.directoryChildrenCount) :
    ItemReadable J (streamingItemOf path entry) ↔ entry.commitOnCloseCount ≤ intMax := by
  have hn : (streamingItemOf path entry).get? "name" = none → ∀ v,
      (streamingItemOf path entry).get? "n_files" = some v → ∃ n, J.asInt64 v = some n := by
    intro _ v hv
    rw [get?_n_files] at hv
    split at hv
    · exact absurd hv (by simp)
    · rw [← Option.some.inj hv]
      exact ⟨_, J.asInt64_num _ hfiles⟩
  have htext : ∀ t, (streamingItemOf path entry).get? "committed" = some (.str t) →
      committedText entry = t := by
    intro t ht
    rw [get?_committed] at ht
    exact Json.str.inj (Option.some.inj ht)
  constructor
  · intro h
    by_cases hpos : 0 < entry.commitOnCloseCount
    · have hle := h.closeCount _ (digits_toString entry.commitOnCloseCount.toNat) (by
        rw [get?_committed, committedText_of_pos hpos])
      rwa [digitsValue_toString, Int.toNat_of_nonneg hpos.le] at hle
    · have hmax : (0 : Int) ≤ intMax := by decide
      omega
  · intro hle
    refine ⟨fun ds hds hc => ?_, hn⟩
    have ht := htext _ hc
    by_cases hpos : 0 < entry.commitOnCloseCount
    · rw [committedText_of_pos hpos] at ht
      have hlist := congrArg String.toList ht
      simp only [String.toList_append, List.append_cancel_left_eq] at hlist
      rw [← String.toList_inj.mp hlist, digitsValue_toString, Int.toNat_of_nonneg hpos.le]
      exact hle
    · rw [committedText_of_nonpos hpos] at ht
      rw [ht] at hrule
      exact absurd hrule (onClose_count_not_valid ds)

/-- A dumped document is read when the items of the produced entries are. -/
theorem docReadable_dump_iff {J : Jsoncons} {O : DumpOrders} {e : Engine} {apps : List Json}
    (hg : DumpGraph O e apps) : DocReadable J (dumpDoc O e apps) ↔
      ∀ p entry, Produced e p entry → ItemReadable J (streamingItemOf p entry) := by
  have hstreaming : ∀ n, (producerAt O e n).get? "streaming" =
      some (.arr ((appPaths .output O e n).map (itemAt e))) := fun _ => rfl
  have hpaths : (∀ p entry, Produced e p entry → ItemReadable J (streamingItemOf p entry)) ↔
      ∀ p n, n ∈ e.apps .output p → ItemReadable J (itemAt e p) :=
    forall_congr' fun p => (exists_producer_iff (S := ItemReadable J)).symm
  rw [hpaths]
  constructor
  · intro h p n hn
    refine h apps rfl _ ((hg _).mpr (Or.inl ⟨n, ⟨p, hn⟩, rfl⟩)) _ (hstreaming n) _ ?_
    exact List.mem_map_of_mem (mem_appPaths.mpr hn)
  · intro h apps' happs app happ items hitems item hitem
    obtain rfl : apps = apps' := Json.arr.inj (Option.some.inj happs)
    rcases (hg app).mp happ with ⟨n, -, rfl⟩ | ⟨n, -, -, rfl⟩
    · rw [← Json.arr.inj (Option.some.inj ((hstreaming n).symm.trans hitems))] at hitem
      obtain ⟨p, hp, rfl⟩ := List.mem_map.mp hitem
      exact h p n (mem_appPaths.mp hp)
    · have hnone : (consumerAt O e n).get? "streaming" = none := rfl
      rw [hnone] at hitems
      exact absurd hitems (by simp)

/-! ## The document read back -/

section
variable {J : Jsoncons} {O : DumpOrders} {e : Engine} {apps : List Json} {d : Document}

/-- **The document declares the applications of the entries**, and no other. -/
theorem declares_dump_iff (hg : DumpGraph O e apps) (σ : Stream) (n p : String) :
    Declares (dumpDoc O e apps) σ n p ↔ n ∈ e.apps σ p := by
  have happs : ∀ {apps' : List Json}, (dumpDoc O e apps).get? "IO_Graph" = some (.arr apps') →
      apps' = apps := fun h => (Json.arr.inj (Option.some.inj h)).symm
  have hname : ∀ {app : Json} {m : String}, app.get? "name" = some (.str m) →
      app.get? "name" = some (.str n) → m = n := fun h h' =>
    Json.str.inj (Option.some.inj (h.symm.trans h'))
  have hlist : ∀ {app : Json} {l : List String}, app.get? σ.key = some (Json.strs l) →
      (Lists app σ.key p ↔ p ∈ l) := by
    intro app l hl
    constructor
    · rintro ⟨l', hl', hp⟩
      rwa [strs_inj (Option.some.inj (hl.symm.trans hl'))]
    · exact fun hp => ⟨l, hl, hp⟩
  constructor
  · rintro ⟨apps', hget, app, happ, hn, hl⟩
    rw [happs hget] at happ
    rcases (hg app).mp happ with ⟨m, -, rfl⟩ | ⟨m, -, hnot, rfl⟩
    · obtain rfl := hname (m := m) rfl hn
      cases σ with
      | input => exact mem_appPaths.mp ((hlist (l := appPaths .input O e m) rfl).mp hl)
      | output => exact mem_appPaths.mp ((hlist (l := appPaths .output O e m) rfl).mp hl)
    · obtain rfl := hname (m := m) rfl hn
      cases σ with
      | input => exact mem_appPaths.mp ((hlist (l := appPaths .input O e m) rfl).mp hl)
      | output => exact absurd ((hlist (l := []) rfl).mp hl) List.not_mem_nil
  · intro h
    by_cases hout : ∃ q, n ∈ e.apps .output q
    · refine ⟨apps, rfl, producerAt O e n, (hg _).mpr (Or.inl ⟨n, hout, rfl⟩), rfl, ?_⟩
      cases σ with
      | input => exact (hlist rfl).mpr (mem_appPaths.mpr h)
      | output => exact (hlist rfl).mpr (mem_appPaths.mpr h)
    · cases σ with
      | input =>
        refine ⟨apps, rfl, consumerAt O e n, (hg _).mpr (Or.inr ⟨n, ⟨p, h⟩, ?_, rfl⟩), rfl,
          (hlist rfl).mpr (mem_appPaths.mpr h)⟩
        exact fun q hq => hout ⟨q, hq⟩
      | output => exact absurd ⟨p, h⟩ hout

/-- What the document of an engine is read as. -/
structure ReadDump (J : Jsoncons) (O : DumpOrders) (e : Engine) (d : Document) : Prop where
  streams : ∀ σ n p, (∃ a ∈ d.apps, a.name = n ∧ p ∈ a.stream σ) ↔ n ∈ e.apps σ p
  items : ∀ item ∈ d.items, ∃ p entry, Produced e p entry ∧
    readStreamItem J "" (streamingItemOf p entry) = .ok item
  produced : ∀ p entry, Produced e p entry → ∃ item ∈ d.items,
    readStreamItem J "" (streamingItemOf p entry) = .ok item
  permanent : d.permanent = pathsWhere (·.permanent) O e
  exclude : d.exclude = pathsWhere (·.excluded) O e
  memory : d.memory = pathsWhere (·.storeInMemory) O e
  fs : d.fs = pathsWhere (fun entry => !entry.storeInMemory) O e

theorem optionalPaths_strs_empty {j : Json} {key : String} {l : List String}
    (h : j.get? key = some (Json.strs l)) : optionalPaths J "" j key = .ok l := by
  rw [optionalPaths_strs J "" h]
  simp only [resolve_empty, List.map_id']

theorem readStorage_dumpDoc (O : DumpOrders) (e : Engine) (apps : List Json) :
    readStorage J (dumpDoc O e apps) = .ok (pathsWhere (·.storeInMemory) O e,
      pathsWhere (fun entry => !entry.storeInMemory) O e) := by
  have hstorage : (dumpDoc O e apps).get? "storage" =
      some (.obj [("memory", Json.strs (pathsWhere (·.storeInMemory) O e)),
        ("fs", Json.strs (pathsWhere (fun entry => !entry.storeInMemory) O e))]) := rfl
  unfold readStorage
  rw [if_pos (Json.contains_iff.mpr ⟨_, hstorage⟩), Json.member_of_get? hstorage, liftJson_ok,
    ok_bind, optionalPaths_strs_empty (l := pathsWhere (·.storeInMemory) O e) rfl, ok_bind,
    optionalPaths_strs_empty (l := pathsWhere (fun entry => !entry.storeInMemory) O e) rfl]
  rfl

theorem readItems_producerAt_iff {n : String} {items : List StreamItem} :
    readItems J "" (producerAt O e n) = .ok items ↔
      ((appPaths .output O e n).map (itemAt e)).mapM (readStreamItem J "") = .ok items := by
  have hstreaming : (producerAt O e n).get? "streaming" =
      some (.arr ((appPaths .output O e n).map (itemAt e))) := rfl
  unfold readItems
  rw [if_pos (Json.contains_iff.mpr ⟨_, hstreaming⟩), range_arr hstreaming, ok_bind]

theorem readDump_of_ok (hg : DumpGraph O e apps) (hd : DocShape (dumpDoc O e apps))
    (h : readDocument J "" (dumpDoc O e apps) = .ok d) : ReadDump J O e d := by
  obtain ⟨apps', happs', has, hp, he, hs⟩ := readDocument_inv h
  have hgraph : (dumpDoc O e apps).get? "IO_Graph" = some (.arr apps) := rfl
  obtain rfl := Except.ok.inj ((range_arr hgraph).symm.trans happs')
  have hitem : ∀ {p : String} {entry : CapioCLEntry}, Produced e p entry →
      itemAt e p = streamingItemOf p entry := by
    intro p entry hpe
    unfold itemAt
    rw [hpe.1]
    rfl
  refine ⟨fun σ n p => ?_, fun item hitem' => ?_, fun p entry hpe => ?_, ?_, ?_, ?_, ?_⟩
  · rw [mem_stream_iff hd h σ n p]
    simp only [resolve_empty, exists_eq_right]
    exact declares_dump_iff hg σ n p
  · obtain ⟨a, ha, hai⟩ := List.mem_flatMap.mp hitem'
    obtain ⟨app, happ, hread⟩ := mem_of_mapM has ha
    obtain ⟨-, -, hitems⟩ := readApp_inv hread
    rcases (hg app).mp happ with ⟨n, -, rfl⟩ | ⟨n, -, -, rfl⟩
    · obtain ⟨x, hx, hxi⟩ := mem_of_mapM (readItems_producerAt_iff.mp hitems) hai
      obtain ⟨p, hp, rfl⟩ := List.mem_map.mp hx
      obtain ⟨entry, hpe⟩ := exists_produced (mem_appPaths.mp hp)
      refine ⟨p, entry, hpe, ?_⟩
      rwa [← hitem hpe]
    · have hnil : [] = a.items := Except.ok.inj hitems
      rw [← hnil] at hai
      exact absurd hai List.not_mem_nil
  · obtain ⟨n, hn⟩ := List.exists_mem_of_ne_nil _ hpe.2
    have hout : n ∈ e.apps .output p := by
      rw [Engine.apps_of_find hpe.1]
      exact hn
    obtain ⟨a, ha, hread⟩ := mem_mapM has ((hg _).mpr (Or.inl ⟨n, ⟨p, hout⟩, rfl⟩))
    obtain ⟨-, -, hitems⟩ := readApp_inv hread
    obtain ⟨item, hi, hri⟩ := mem_mapM (readItems_producerAt_iff.mp hitems)
      (List.mem_map_of_mem (mem_appPaths.mpr hout))
    rw [hitem hpe] at hri
    exact ⟨item, List.mem_flatMap.mpr ⟨a, ha, hi⟩, hri⟩
  · exact (Except.ok.inj ((optionalPaths_strs_empty rfl).symm.trans hp)).symm
  · exact (Except.ok.inj ((optionalPaths_strs_empty rfl).symm.trans he)).symm
  · exact (congrArg Prod.fst (Except.ok.inj ((readStorage_dumpDoc O e apps).symm.trans hs))).symm
  · exact (congrArg Prod.snd (Except.ok.inj ((readStorage_dumpDoc O e apps).symm.trans hs))).symm

end

/-- A path the document of an engine may name: a key, or a dependency. -/
def Named (e : Engine) (p : String) : Prop :=
  (e.find p).isSome ∨ ∃ q entry, Produced e q entry ∧ p ∈ entry.fileDependencies

theorem ReadDump.named {J : Jsoncons} {O : DumpOrders} {e : Engine} {d : Document}
    (hd : ReadDump J O e d) {p : String} (hp : p ∈ d.paths) : Named e p := by
  have hwhere : ∀ {c : CapioCLEntry → Bool}, p ∈ pathsWhere c O e → Named e p := by
    intro c hc
    obtain ⟨entry, hentry, -⟩ := mem_pathsWhere.mp hc
    exact Or.inl (by rw [hentry]; rfl)
  unfold Document.paths at hp
  simp only [List.mem_append, List.mem_flatMap, hd.permanent, hd.exclude, hd.memory, hd.fs] at hp
  rcases hp with (((⟨a, ha, hp⟩ | hp) | hp) | hp) | hp
  · unfold AppSection.paths at hp
    simp only [List.mem_append, List.mem_flatMap] at hp
    rcases hp with (hp | hp) | ⟨item, hi, hp⟩
    · exact Or.inl (Engine.isSome_of_mem_apps ((hd.streams .input a.name p).mp ⟨a, ha, rfl, hp⟩))
    · exact Or.inl (Engine.isSome_of_mem_apps ((hd.streams .output a.name p).mp ⟨a, ha, rfl, hp⟩))
    · obtain ⟨q, entry, hq, hread⟩ := hd.items item (List.mem_flatMap.mpr ⟨a, ha, hi⟩)
      obtain ⟨hnames, -, hdeps⟩ := readStreamItem_dump_inv hread
      rcases hp with hp | hp
      · rw [hnames] at hp
        rw [List.mem_singleton.mp hp]
        exact Or.inl (by rw [hq.1]; rfl)
      · exact Or.inr ⟨q, entry, hq, hdeps p hp⟩
  all_goals exact hwhere hp

/-! ## The dump -/

/-- `doc` is `base`, or `base` with the version added. -/
structure Versioned (J : Jsoncons) (P : Platform) (base doc : Json) : Prop where
  accepted : Accepted J doc ↔ schemaV1 base = true
  configuration : ConfigurationLoads P doc
  name : doc.get? "name" = base.get? "name"
  read : ∀ pre, readDocument J pre doc = readDocument J pre base

theorem versioned_self (J : Jsoncons) (P : Platform) {base : Json}
    (hv : base.get? "version" = none) (hc : base.get? "configuration" = none) :
    Versioned J P base base := by
  have hrelease : release J base = versionV1 := by
    unfold release
    rw [hv]
  refine ⟨?_, fun path hpath => absurd (hc.symm.trans hpath) (by simp), rfl, fun _ => rfl⟩
  unfold Accepted
  rw [hrelease]
  constructor
  · rintro (⟨-, h⟩ | ⟨h, -⟩)
    · exact h
    · exact absurd h (by decide)
  · exact fun h => Or.inl ⟨rfl, h⟩

theorem versioned_withVersion (J : Jsoncons) (P : Platform) {base : Json}
    (hv : base.get? "version" = none) (hc : base.get? "configuration" = none)
    (hobj : Schema.typeObject base = true) : Versioned J P base (withVersion base) := by
  have hrelease : release J (withVersion base) = versionV1_1 := by
    obtain ⟨ms, rfl⟩ := Schema.typeObject_iff.mp hobj
    exact J.asString_version
  refine ⟨?_, fun path hpath => ?_, get?_withVersion (by decide), fun pre => ?_⟩
  · unfold Accepted
    rw [hrelease, schemaV1_1_withVersion hv hc]
    constructor
    · rintro (⟨h, -⟩ | ⟨-, h⟩)
      · exact absurd h (by decide)
      · exact h
    · exact fun h => Or.inr ⟨rfl, h⟩
  · rw [get?_withVersion (by decide), hc] at hpath
    exact absurd hpath (by simp)
  · exact readDocument_congr J pre fun k hk => get?_withVersion fun h => absurd (h ▸ hk) (by decide)

/-- **A dump writes the document of its version**, and the parser reads that. -/
theorem exists_dump (J : Jsoncons) {P : Platform} (O : DumpOrders) (e : Engine)
    {filename version : String} (files : Files) (hne : filename ≠ "")
    (hw : P.writable filename = true) (hv : version = versionV1 ∨ version = versionV1_1) :
    ∃ apps doc files', ioGraphOf O e = .ok apps ∧ DumpGraph O e apps ∧
      Versioned J P (dumpDoc O e apps) doc ∧
      dump P O e filename version files = .ok files' ∧ files' filename = some (.json doc) ∧
      ∀ pre storeOnlyInMemory,
        parse J P files' filename pre storeOnlyInMemory = parseDoc J P doc pre storeOnlyInMemory := by
  obtain ⟨apps, happs, hg⟩ := exists_dumpGraph O e
  have hwrite : ∀ doc, write P filename doc files =
      .ok (Function.update files filename (some (.json doc))) := fun doc => if_pos hw
  have hget : ∀ doc, Function.update files filename (some (FileContent.json doc)) filename =
      some (.json doc) := fun doc => Function.update_self _ _ _
  rcases hv with rfl | rfl
  · refine ⟨apps, dumpDoc O e apps, _, happs, hg, versioned_self J P rfl rfl, ?_, hget _, fun _ _ =>
      parse_json hne (hget _) _ _⟩
    unfold dump serializeV1
    rw [if_pos rfl, document_eq happs]
    exact hwrite _
  · refine ⟨apps, withVersion (dumpDoc O e apps), _, happs, hg, versioned_withVersion J P rfl rfl rfl, ?_,
      hget _, fun _ _ => parse_json hne (hget _) _ _⟩
    unfold dump serializeV1_1
    rw [if_neg (by decide), if_pos rfl, document_version, document_eq happs]
    exact hwrite _

/-- **What parsing a dump is**: reading its document and running it on a fresh engine. -/
theorem parse_dump_inv {J : Jsoncons} {P : Platform} {O : DumpOrders} {e e' : Engine}
    {filename version pre : String} {files files' : Files}
    (hdump : dump P O e filename version files = .ok files') {storeOnlyInMemory : Bool}
    (hparse : parse J P files' filename pre storeOnlyInMemory = .ok e') :
    ∃ apps n base d, ioGraphOf O e = .ok apps ∧ DumpGraph O e apps ∧
      schemaV1 (dumpDoc O e apps) = true ∧ Fresh n base ∧
      readDocument J pre (dumpDoc O e apps) = .ok d ∧ e' = run P (d.acts storeOnlyInMemory) base := by
  have hne : filename ≠ "" := by
    rintro rfl
    exact absurd hparse (by simp [parse])
  have hwrite : ∀ {doc : Json}, write P filename doc files = .ok files' →
      P.writable filename = true := by
    intro doc h
    unfold write at h
    split at h
    · assumption
    · exact absurd h (by simp)
  obtain ⟨hv, hw⟩ : (version = versionV1 ∨ version = versionV1_1) ∧
      P.writable filename = true := by
    unfold dump serializeV1 serializeV1_1 at hdump
    split at hdump
    · obtain ⟨doc, -, h⟩ := bind_eq_ok_iff.mp hdump
      exact ⟨Or.inl (by assumption), hwrite h⟩
    · split at hdump
      · obtain ⟨doc, -, h⟩ := bind_eq_ok_iff.mp hdump
        exact ⟨Or.inr (by assumption), hwrite h⟩
      · exact absurd hdump (by simp)
  obtain ⟨apps, doc, files'', happs, hg, hdoc, hdump', -, heq⟩ := exists_dump J O e files hne hw hv
  obtain rfl := Except.ok.inj (hdump'.symm.trans hdump)
  rw [heq] at hparse
  obtain ⟨hacc, -, n, base, d, -, hf, hd, rfl⟩ := exists_of_parseDoc_ok hparse
  rw [hdoc.read] at hd
  exact ⟨apps, n, base, d, happs, hg, hdoc.accepted.mp hacc, hf, hd, rfl⟩

/-- A dump parsed back, as two runs that succeed. -/
theorem exists_parse (P : Platform) (O : DumpOrders) (e : Engine) (filename version : String)
    (files : Files) (h : thrown ((dump P O e filename version files).bind fun files' =>
      parse jsoncons P files' filename "" false) = none) :
    ∃ files' e', dump P O e filename version files = .ok files' ∧
      parse jsoncons P files' filename "" false = .ok e' := by
  obtain ⟨e', he'⟩ := exists_ok_of_thrown h
  obtain ⟨files', hdump, hparse⟩ := bind_eq_ok_iff.mp he'
  exact ⟨files', e', hdump, hparse⟩

/-- What a computation says of the parsed engine. -/
theorem map_roundTrip {α : Type} {P : Platform} {O : DumpOrders} {e e' : Engine}
    {filename version : String} {files files' : Files} {f : Engine → α} {v : α}
    (hdump : dump P O e filename version files = .ok files')
    (hparse : parse jsoncons P files' filename "" false = .ok e')
    (h : ((dump P O e filename version files).bind fun files' =>
      (parse jsoncons P files' filename "" false).map f) = .ok v) : f e' = v := by
  rw [hdump] at h
  change (parse jsoncons P files' filename "" false).map f = .ok v at h
  rw [hparse] at h
  exact Except.ok.inj h

end Serializer

end CapioCl
