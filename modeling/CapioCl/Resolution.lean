import CapioCl.ConcreteDocument
import CapioCl.Equality
import CapioCl.Rewriting

/-!
# A prefix and the document resolved by hand

`resolveDoc pre doc` is the document with each of its paths resolved against `pre`. Parsing it
without a prefix should be parsing `doc` with the prefix. It is, but for `storage`: the parser
resolves the paths of eight of the nine places that hold them and takes those of `storage.memory`
and `storage.fs` as they stand (`readDocument_resolveDoc`).

* `prefix_uniform_iff`: with an absolute prefix the two agree exactly when `storage` lists absolute
  paths only.
-/

namespace CapioCl

open CapioCl.Lib CapioCl.Lib.Json CapioCl.Lib.Reading CapioCl.Parser

/-! ## The resolved document -/

def resolveStr (pre : String) : Json → Json
  | .str path => .str (resolve path pre)
  | j => j

def resolveStrs (pre : String) : Json → Json := mapItems (resolveStr pre)

/-- The values of the given keys resolved. -/
def resolveAt (pre : String) (keys : List String) (key : String) (v : Json) : Json :=
  if key ∈ keys then resolveStrs pre v else v

def resolveItem (pre : String) : Json → Json :=
  mapMembers (resolveAt pre ["name", "dirname", "file_deps"])

def resolveApp (pre : String) : Json → Json :=
  mapMembers fun key v =>
    if key = "streaming" then mapItems (resolveItem pre) v
    else resolveAt pre ["input_stream", "output_stream"] key v

/-- The document with every path resolved. -/
def resolveDoc (pre : String) : Json → Json :=
  mapMembers fun key v =>
    if key = "IO_Graph" then mapItems (resolveApp pre) v
    else if key = "storage" then mapMembers (resolveAt pre ["memory", "fs"]) v
    else resolveAt pre ["permanent", "exclude"] key v

theorem resolveStrs_strs (pre : String) (l : List String) :
    resolveStrs pre (Json.strs l) = Json.strs (l.map fun path => resolve path pre) := by
  unfold resolveStrs mapItems Json.strs
  simp only [List.map_map]
  rfl

theorem resolveAt_of_mem (pre : String) {keys : List String} {key : String} (h : key ∈ keys)
    (v : Json) : resolveAt pre keys key v = resolveStrs pre v := if_pos h

theorem resolveAt_of_notMem (pre : String) {keys : List String} {key : String} (h : key ∉ keys)
    (v : Json) : resolveAt pre keys key v = v := if_neg h

theorem keeps_resolveStrs {pre : String} {R : Json → Json → Prop}
    (hR : ∀ v v', R v v' → v' = resolveStrs pre v) : Keeps IsStrs R := by
  rintro _ v' ⟨l, rfl⟩ hv
  exact ⟨_, (hR _ _ hv).trans (resolveStrs_strs pre l)⟩

/-! ## Reading it -/

theorem paths_resolved (J : Jsoncons) {pre key : String} {j j' : Json} (hj : OptionalStrs j key)
    (hj' : j'.get? key = (j.get? key).map (resolveStrs pre)) :
    paths J "" j' key = paths J pre j key := by
  cases hv : j.get? key with
  | none =>
    rw [hv, Option.map_none] at hj'
    unfold paths range Json.member
    rw [hv, hj']
    rfl
  | some v =>
    obtain ⟨l, rfl⟩ := hj v hv
    rw [hv, Option.map_some, resolveStrs_strs] at hj'
    rw [paths_strs J pre hv, paths_strs J "" hj', List.map_map]
    refine congrArg Except.ok (List.map_congr_left fun path _ => ?_)
    exact resolve_empty _

theorem optionalPaths_resolved (J : Jsoncons) {pre key : String} {j j' : Json}
    (hj : OptionalStrs j key) (hj' : j'.get? key = (j.get? key).map (resolveStrs pre)) :
    optionalPaths J "" j' key = optionalPaths J pre j key := by
  have hc : j'.contains key = j.contains key := by
    unfold Json.contains
    rw [hj', Option.isSome_map]
  unfold optionalPaths
  rw [hc, paths_resolved J hj hj']

/-- The paths of an accepted item are strings. -/
theorem optionalStrs_item {item : Json} (h : streamingItem item = true) :
    ∀ key ∈ ["name", "dirname", "file_deps"], OptionalStrs item key := by
  have hkind : ∀ {kind other : String} {rules : List String}, ItemShape kind rules item →
      other ∉ [kind, "committed", "mode", "file_deps", "n_files"] →
      OptionalStrs item kind ∧ OptionalStrs item other ∧ OptionalStrs item "file_deps" := by
    intro kind other rules hs hother
    obtain ⟨l, hl⟩ := hs.paths
    refine ⟨fun v hv => ⟨l, Option.some.inj (hv.symm.trans hl)⟩, fun v hv => ?_, hs.fileDeps⟩
    rw [Schema.get?_of_noAdditionalProperties hs.known hother] at hv
    exact absurd hv (by simp)
  simp only [List.forall_mem_cons, List.not_mem_nil, false_imp_iff, implies_true, and_true]
  rcases (streamingItem_iff item).mp h with hs | hs
  · exact hkind hs (by decide)
  · obtain ⟨hd, hn, hf⟩ := @hkind "dirname" "name" _ hs (by decide)
    exact ⟨hn, hd, hf⟩

theorem readStreamItem_resolveItem (J : Jsoncons) (pre : String) {item : Json}
    (h : streamingItem item = true) :
    readStreamItem J "" (resolveItem pre item) = readStreamItem J pre item := by
  have hpaths : ∀ key ∈ ["name", "dirname", "file_deps"],
      paths J "" (resolveItem pre item) key = paths J pre item key := by
    intro key hkey
    refine paths_resolved J (optionalStrs_item h key hkey) ?_
    unfold resolveItem
    rw [get?_mapMembers]
    exact congrArg (Option.map · (item.get? key)) (funext fun v => resolveAt_of_mem pre hkey v)
  have hsame : ∀ key ∉ ["name", "dirname", "file_deps"],
      (resolveItem pre item).member key = item.member key := fun key hkey =>
    member_mapMembers (resolveAt_of_notMem pre hkey) item
  have hcontains : ∀ key, (resolveItem pre item).contains key = item.contains key :=
    contains_mapMembers _ item
  unfold readStreamItem readCommitted readMode readNFiles readFileDeps
  simp only [hcontains, hsame "committed" (by decide), hsame "mode" (by decide),
    hsame "n_files" (by decide), hpaths "file_deps" (by decide)]
  cases item.contains "name" with
  | true => simp only [if_true, hpaths "name" (by decide)]
  | false => simp only [Bool.false_eq_true, if_false, hpaths "dirname" (by decide)]

theorem readItems_resolveApp (J : Jsoncons) (pre : String) {app : Json} (h : AppShape app) :
    readItems J "" (resolveApp pre app) = readItems J pre app := by
  unfold readItems
  rw [show (resolveApp pre app).contains "streaming" = app.contains "streaming" from
    contains_mapMembers _ app _]
  cases hv : app.get? "streaming" with
  | none => rw [Json.contains_eq_false_iff.mpr hv, if_neg Bool.false_ne_true,
      if_neg Bool.false_ne_true]
  | some v =>
    obtain ⟨xs, rfl, hxs⟩ := h.streaming v hv
    have hv' : (resolveApp pre app).get? "streaming" = some (.arr (xs.map (resolveItem pre))) := by
      unfold resolveApp
      rw [get?_mapMembers, hv, Option.map_some, if_pos rfl]
      rfl
    have hread : xs.mapM (readStreamItem J "" ∘ resolveItem pre) = xs.mapM (readStreamItem J pre) :=
      mapM_congr fun x hx => readStreamItem_resolveItem J pre (hxs x hx)
    rw [range_arr hv, range_arr hv', ok_bind, ok_bind, List.mapM_map, hread]

theorem readApp_resolveApp (J : Jsoncons) (pre : String) {app : Json} (h : AppShape app) :
    readApp J "" (resolveApp pre app) = readApp J pre app := by
  have hname : (resolveApp pre app).member "name" = app.member "name" :=
    member_mapMembers (fun v => by
      rw [if_neg (by decide), resolveAt_of_notMem pre (by decide)]) app
  have hpaths : ∀ key ∈ ["input_stream", "output_stream"], OptionalStrs app key →
      paths J "" (resolveApp pre app) key = paths J pre app key := by
    intro key hkey hstrs
    refine paths_resolved J hstrs ?_
    have hne : key ≠ "streaming" := fun he => absurd (he ▸ hkey) (by decide)
    unfold resolveApp
    rw [get?_mapMembers]
    refine congrArg (Option.map · (app.get? key)) (funext fun v => ?_)
    rw [if_neg hne, resolveAt_of_mem pre hkey]
  obtain ⟨i, hi⟩ := h.inputs
  obtain ⟨o, ho⟩ := h.outputs
  unfold readApp
  rw [hname, readItems_resolveApp J pre h,
    hpaths "input_stream" (by decide) fun v hv => ⟨i, Option.some.inj (hv.symm.trans hi)⟩,
    hpaths "output_stream" (by decide) fun v hv => ⟨o, Option.some.inj (hv.symm.trans ho)⟩]

/-- The document with the paths of `storage` resolved, which the parser does not do. -/
def Document.resolveStorage (pre : String) (d : Document) : Document :=
  { d with
    memory := d.memory.map fun path => resolve path pre
    fs := d.fs.map fun path => resolve path pre }

/-- A path of `storage`. -/
def Stores (doc : Json) (f : String) : Prop :=
  ∃ storage, doc.get? "storage" = some storage ∧ (Lists storage "memory" f ∨ Lists storage "fs" f)

theorem readStorage_resolveDoc (J : Jsoncons) (pre : String) {doc : Json} (h : DocShape doc) :
    readStorage J (resolveDoc pre doc) = (readStorage J doc).map fun s =>
      (s.1.map fun path => resolve path pre, s.2.map fun path => resolve path pre) := by
  have hlist : ∀ {storage : Json} {key : String}, key ∈ ["memory", "fs"] →
      OptionalStrs storage key →
      optionalPaths J "" (mapMembers (resolveAt pre ["memory", "fs"]) storage) key =
        (optionalPaths J "" storage key).map fun l => l.map fun path => resolve path pre := by
    intro storage key hkey hstrs
    rw [optionalPaths_resolved J hstrs]
    · cases hv : storage.get? key with
      | none =>
        rw [optionalPaths_none J pre hv, optionalPaths_none J "" hv]
        rfl
      | some v =>
        obtain ⟨l, rfl⟩ := hstrs v hv
        rw [optionalPaths_strs J pre hv, optionalPaths_strs J "" hv, map_ok]
        simp only [resolve_empty, List.map_id']
    · rw [get?_mapMembers]
      exact congrArg (Option.map · (storage.get? key))
        (funext fun v => resolveAt_of_mem pre hkey v)
  unfold readStorage
  rw [show (resolveDoc pre doc).contains "storage" = doc.contains "storage" from
    contains_mapMembers _ doc _]
  cases hv : doc.get? "storage" with
  | none =>
    rw [Json.contains_eq_false_iff.mpr hv]
    rfl
  | some storage =>
    have hs := h.storage storage hv
    have hv' : (resolveDoc pre doc).get? "storage" =
        some (mapMembers (resolveAt pre ["memory", "fs"]) storage) := by
      unfold resolveDoc
      rw [get?_mapMembers, hv, Option.map_some, if_neg (by decide), if_pos rfl]
    rw [if_pos (Json.contains_iff.mpr ⟨_, hv⟩), if_pos (Json.contains_iff.mpr ⟨_, hv⟩),
      Json.member_of_get? hv, Json.member_of_get? hv', liftJson_ok, liftJson_ok, ok_bind, ok_bind,
      hlist (by decide) hs.memory, hlist (by decide) hs.fs]
    obtain ⟨memory, hm⟩ := exists_optionalPaths J "" hs.memory
    obtain ⟨fs, hf⟩ := exists_optionalPaths J "" hs.fs
    rw [hm, hf]
    rfl

/-- **Reading the resolved document** is reading the document with the prefix and resolving its
storage. -/
theorem readDocument_resolveDoc (J : Jsoncons) (pre : String) {doc : Json} (h : DocShape doc) :
    readDocument J "" (resolveDoc pre doc) =
      (readDocument J pre doc).map (Document.resolveStorage pre) := by
  obtain ⟨apps, happs, hshape⟩ := h.ioGraph
  have happs' : (resolveDoc pre doc).get? "IO_Graph" = some (.arr (apps.map (resolveApp pre))) := by
    unfold resolveDoc
    rw [get?_mapMembers, happs, Option.map_some, if_pos rfl]
    rfl
  have hflag : ∀ key ∈ ["permanent", "exclude"], OptionalStrs doc key →
      optionalPaths J "" (resolveDoc pre doc) key = optionalPaths J pre doc key := by
    intro key hkey hstrs
    refine optionalPaths_resolved J hstrs ?_
    have hne : key ≠ "IO_Graph" ∧ key ≠ "storage" := by
      constructor <;>
      · rintro rfl
        exact absurd hkey (by decide)
    unfold resolveDoc
    rw [get?_mapMembers]
    refine congrArg (Option.map · (doc.get? key)) (funext fun v => ?_)
    rw [if_neg hne.1, if_neg hne.2, resolveAt_of_mem pre hkey]
  have hread : apps.mapM (readApp J "" ∘ resolveApp pre) = apps.mapM (readApp J pre) :=
    mapM_congr fun app happ => readApp_resolveApp J pre (hshape app happ)
  unfold readDocument
  rw [range_arr happs, range_arr happs', ok_bind, ok_bind, List.mapM_map, hread,
    hflag "permanent" (by decide) h.permanent, hflag "exclude" (by decide) h.exclude,
    readStorage_resolveDoc J pre h]
  cases apps.mapM (readApp J pre) with
  | error ex => rfl
  | ok as =>
    obtain ⟨p, hp⟩ := exists_optionalPaths J pre h.permanent
    obtain ⟨x, hx⟩ := exists_optionalPaths J pre h.exclude
    obtain ⟨s, hs⟩ := exists_readStorage J h
    rw [hp, hx, hs]
    rfl

/-! ## The schemas accept it -/

theorem keeps_isArrayOf {S : Json → Prop} {f : Json → Json} {R : Json → Json → Prop}
    (hR : ∀ v v', R v v' → v' = mapItems f v) (hf : ∀ x, S x → S (f x)) :
    Keeps (IsArrayOf S) R := by
  rintro _ v' ⟨xs, rfl, hxs⟩ hv
  refine ⟨xs.map f, hR _ _ hv, fun y hy => ?_⟩
  obtain ⟨x, hx, rfl⟩ := List.mem_map.mp hy
  exact hf x (hxs x hx)

theorem ItemShape.of_members {kind : String} {rules : List String} {j j' : Json}
    {R : String → Json → Json → Prop} (h : ItemShape kind rules j) (hm : Members R j j')
    (hkind : Keeps IsStrs (R kind)) (hdeps : Keeps IsStrs (R "file_deps"))
    (hcommitted : ∀ v v', R "committed" v v' → v' = v) (hmode : ∀ v v', R "mode" v v' → v' = v)
    (hfiles : ∀ v v', R "n_files" v v' → v' = v) : ItemShape kind rules j' where
  object := Schema.typeObject_of_members hm
  known := (Schema.noAdditionalProperties_members hm _).trans h.known
  paths := exists_isStrs.mp (hm.required hkind (exists_isStrs.mpr h.paths))
  committed := by
    rw [hm.get?_eq hcommitted]
    exact h.committed
  mode := by
    rw [hm.get?_eq hmode]
    exact h.mode
  fileDeps := hm.optional hdeps h.fileDeps
  nFiles := by
    rw [hm.get?_eq hfiles]
    exact h.nFiles
  onFile hc := by
    rw [hm.get?_eq hcommitted] at hc
    obtain ⟨v, hv⟩ := h.onFile hc
    obtain ⟨v', hv', -⟩ := hm.of_get? hv
    exact ⟨v', hv'⟩
  onNFiles hc := by
    rw [hm.get?_eq hcommitted] at hc
    rw [hm.get?_eq hfiles]
    exact h.onNFiles hc

theorem streamingItem_resolveItem (pre : String) {item : Json} (h : streamingItem item = true) :
    streamingItem (resolveItem pre item) = true := by
  rw [streamingItem_iff] at h ⊢
  have hshape : ∀ {kind : String} {rules : List String},
      kind ∈ ["name", "dirname", "file_deps"] → ItemShape kind rules item →
      ItemShape kind rules (resolveItem pre item) := by
    intro kind rules hkind hs
    obtain ⟨ms, rfl⟩ := Schema.typeObject_iff.mp hs.object
    refine hs.of_members (members_mapMembers _ ms) ?_ ?_ ?_ ?_ ?_
    · exact keeps_resolveStrs fun v v' hv => hv.trans (resolveAt_of_mem pre hkind v)
    · exact keeps_resolveStrs fun v v' hv => hv.trans (resolveAt_of_mem pre (by decide) v)
    all_goals exact fun v v' hv => hv.trans (resolveAt_of_notMem pre (by decide) v)
  exact h.imp (hshape (by decide)) (hshape (by decide))

theorem AppShape.resolveApp {app : Json} (h : AppShape app) (pre : String) :
    AppShape (CapioCl.resolveApp pre app) := by
  obtain ⟨ms, rfl⟩ := Schema.typeObject_iff.mp h.object
  refine h.of_members (members_mapMembers _ ms) (keeps_of_eq ?_) ?_ ?_ ?_
  · exact fun v v' hv => by rw [hv, if_neg (by decide), resolveAt_of_notMem pre (by decide)]
  · exact keeps_resolveStrs fun v v' hv => by
      rw [hv, if_neg (by decide), resolveAt_of_mem pre (by decide)]
  · exact keeps_resolveStrs fun v v' hv => by
      rw [hv, if_neg (by decide), resolveAt_of_mem pre (by decide)]
  · exact keeps_isArrayOf (fun v v' hv => hv.trans (if_pos rfl)) fun x hx =>
      streamingItem_resolveItem pre hx

/-- A key that holds no path. -/
theorem section_resolved_eq (pre : String) {key : String}
    (h : key ∉ ["IO_Graph", "storage", "permanent", "exclude"]) (v : Json) :
    (if key = "IO_Graph" then mapItems (resolveApp pre) v
      else if key = "storage" then mapMembers (resolveAt pre ["memory", "fs"]) v
      else resolveAt pre ["permanent", "exclude"] key v) = v := by
  simp only [List.mem_cons, List.not_mem_nil, or_false, not_or] at h
  rw [if_neg h.1, if_neg h.2.1, resolveAt_of_notMem pre (by simp [h.2.2])]

theorem StorageShape.resolved {storage : Json} (h : StorageShape storage) (pre : String) :
    StorageShape (mapMembers (resolveAt pre ["memory", "fs"]) storage) := by
  obtain ⟨ms, rfl⟩ := Schema.typeObject_iff.mp h.object
  refine h.of_members (members_mapMembers _ ms) ?_ ?_ <;>
  · exact keeps_resolveStrs fun v v' hv => hv.trans (resolveAt_of_mem pre (by decide) v)

theorem DocShape.resolveDoc {doc : Json} (h : DocShape doc) (pre : String) :
    DocShape (CapioCl.resolveDoc pre doc) := by
  obtain ⟨ms, rfl⟩ := Schema.typeObject_iff.mp h.object
  refine h.of_members (members_mapMembers _ ms) ?_ ?_ ?_ ?_ ?_ ?_ ?_
  · exact keeps_of_eq fun v v' hv => hv.trans (section_resolved_eq pre (by decide) v)
  · exact keeps_isArrayOf (fun v v' hv => hv.trans (if_pos rfl)) fun x hx => hx.resolveApp pre
  · exact keeps_of_eq fun v v' hv => hv.trans (section_resolved_eq pre (by decide) v)
  · exact keeps_resolveStrs fun v v' hv => by
      rw [hv, if_neg (by decide), if_neg (by decide), resolveAt_of_mem pre (by decide)]
  · exact keeps_resolveStrs fun v v' hv => by
      rw [hv, if_neg (by decide), if_neg (by decide), resolveAt_of_mem pre (by decide)]
  · exact keeps_of_eq fun v v' hv => hv.trans (section_resolved_eq pre (by decide) v)
  · intro v v' hs hv
    rw [hv, if_neg (by decide), if_pos rfl]
    exact hs.resolved pre

/-- **The resolved document parses** when the document does, to the run of its own acts. -/
theorem exists_parseDoc_resolveDoc {J : Jsoncons} {P : Platform} {doc : Json} {pre : String}
    {d : Document} (hacc : Accepted J doc) (hconf : ConfigurationLoads P doc)
    (hread : readDocument J pre doc = .ok d) (storeOnlyInMemory : Bool) :
    ∃ n base, Fresh n base ∧ parseDoc J P (resolveDoc pre doc) "" storeOnlyInMemory =
      .ok (run P ((d.resolveStorage pre).acts storeOnlyInMemory) base) := by
  have hshape := docShape_of_accepted hacc
  obtain ⟨ms, rfl⟩ := Schema.typeObject_iff.mp hshape.object
  have hm := members_mapMembers (fun key v =>
    if key = "IO_Graph" then mapItems (resolveApp pre) v
    else if key = "storage" then mapMembers (resolveAt pre ["memory", "fs"]) v
    else resolveAt pre ["permanent", "exclude"] key v) ms
  have hacc' : Accepted J (resolveDoc pre (.obj ms)) := hacc.of_members hm
    (fun hs => hs.resolveDoc pre)
    (fun v v' hv => hv.trans (section_resolved_eq pre (by decide) v))
    fun v v' hv => hv.trans (section_resolved_eq pre (by decide) v)
  have hread' : readDocument J "" (resolveDoc pre (.obj ms)) = .ok (d.resolveStorage pre) := by
    rw [readDocument_resolveDoc J pre hshape, hread]
    rfl
  obtain ⟨n, base, -, hf, hparse⟩ := exists_parseDoc_ok hacc'
    (hconf.of_members hm fun v v' hv => hv.trans (section_resolved_eq pre (by decide) v)) hread'
  exact ⟨n, base, hf, hparse storeOnlyInMemory⟩

/-! ## What is resolved -/

theorem isAbsolute_resolve {pre : String} (h : isAbsolute pre = true) (path : String) :
    isAbsolute (resolve path pre) = true := by
  have happend : ∀ s : String, isAbsolute (pre ++ s) = true := by
    intro s
    unfold isAbsolute at h ⊢
    rw [decide_eq_true_eq] at h ⊢
    rw [String.toList_append]
    cases hp : pre.toList with
    | nil =>
      rw [hp] at h
      exact absurd h (by simp)
    | cons c cs =>
      rw [hp] at h
      exact h
  have hne : pre ≠ "" := by
    rintro rfl
    exact absurd h (by decide)
  unfold resolve join
  rw [if_neg hne]
  by_cases hp : isAbsolute path = true
  · rw [if_pos hp, hp]
  · rw [if_neg hp, if_neg hp]
    split
    · exact happend path
    · rw [String.append_assoc]
      exact happend _

theorem resolve_of_isAbsolute {path : String} (h : isAbsolute path = true) (pre : String) :
    resolve path pre = path := by
  unfold resolve
  rw [if_pos h, ite_self]

/-- A read path is resolved. -/
theorem exists_resolve_of_paths {J : Jsoncons} {pre key p : String} {j : Json} {l : List String}
    (h : paths J pre j key = .ok l) (hp : p ∈ l) : ∃ g, resolve g pre = p := by
  unfold paths at h
  obtain ⟨items, -, rfl⟩ := map_eq_ok_iff.mp h
  obtain ⟨itm, -, rfl⟩ := List.mem_map.mp hp
  exact ⟨_, rfl⟩

theorem exists_resolve_of_optionalPaths {J : Jsoncons} {pre key p : String} {j : Json}
    {l : List String} (h : optionalPaths J pre j key = .ok l) (hp : p ∈ l) :
    ∃ g, resolve g pre = p := by
  unfold optionalPaths at h
  split at h
  · exact exists_resolve_of_paths h hp
  · rw [← Except.ok.inj h] at hp
    exact absurd hp List.not_mem_nil

theorem exists_resolve_of_item {J : Jsoncons} {pre p : String} {j : Json} {item : StreamItem}
    (h : readStreamItem J pre j = .ok item) (hp : p ∈ item.streamingNames ++ item.fileDeps) :
    ∃ g, resolve g pre = p := by
  rcases List.mem_append.mp hp with hp | hp
  · obtain ⟨-, hnames, -⟩ := readStreamItem_inv h
    exact exists_resolve_of_paths hnames hp
  · exact exists_resolve_of_paths (mem_fileDeps_of_read h hp) hp

/-- **Every path outside `storage` is resolved.** -/
theorem exists_resolve_of_readDocument {J : Jsoncons} {pre p : String} {doc : Json} {d : Document}
    (h : readDocument J pre doc = .ok d) (hp : p ∈ Document.paths { d with memory := [], fs := [] }) :
    ∃ g, resolve g pre = p := by
  obtain ⟨apps, -, happs, hperm, hexcl, -⟩ := readDocument_inv h
  unfold Document.paths at hp
  simp only [List.append_nil, List.mem_append, List.mem_flatMap] at hp
  rcases hp with (⟨a, ha, hp⟩ | hp) | hp
  · obtain ⟨app, -, hread⟩ := mem_of_mapM happs ha
    obtain ⟨-, hstreams, hitems⟩ := readApp_inv hread
    unfold AppSection.paths at hp
    simp only [List.mem_append, List.mem_flatMap] at hp
    rcases hp with (hp | hp) | ⟨item, hitem, hp⟩
    · exact exists_resolve_of_paths (hstreams .input) hp
    · exact exists_resolve_of_paths (hstreams .output) hp
    · obtain ⟨j, hj⟩ := mem_of_readItems hitems hitem
      exact exists_resolve_of_item hj (List.mem_append.mpr hp)
  · exact exists_resolve_of_optionalPaths hperm hp
  · exact exists_resolve_of_optionalPaths hexcl hp

/-- The lists of `storage` are read as they stand. -/
theorem mem_storage_iff {J : Jsoncons} {pre : String} {doc : Json} {d : Document}
    (hd : DocShape doc) (h : readDocument J pre doc = .ok d) (f : String) :
    f ∈ d.memory ∨ f ∈ d.fs ↔ Stores doc f := by
  obtain ⟨-, -, -, -, -, hs⟩ := readDocument_inv h
  unfold readStorage at hs
  unfold Stores
  cases hv : doc.get? "storage" with
  | none =>
    rw [Json.contains_eq_false_iff.mpr hv] at hs
    obtain ⟨hm, hf⟩ := Prod.mk.inj (Except.ok.inj hs)
    rw [← hm, ← hf]
    simp
  | some storage =>
    have hshape := hd.storage storage hv
    rw [if_pos (Json.contains_iff.mpr ⟨_, hv⟩), Json.member_of_get? hv, liftJson_ok, ok_bind] at hs
    obtain ⟨memory, hm, hs⟩ := bind_eq_ok_iff.mp hs
    obtain ⟨fs, hf, hs⟩ := bind_eq_ok_iff.mp hs
    obtain ⟨rfl, rfl⟩ := Prod.mk.inj (Except.ok.inj hs)
    rw [mem_optionalPaths_iff hshape.memory hm, mem_optionalPaths_iff hshape.fs hf]
    simp [resolve_empty]

theorem Document.resolveStorage_eq {pre : String} {d : Document}
    (h : ∀ f, f ∈ d.memory ∨ f ∈ d.fs → resolve f pre = f) : d.resolveStorage pre = d := by
  have hmap : ∀ l : List String, (∀ f ∈ l, resolve f pre = f) →
      (l.map fun path => resolve path pre) = l := fun l hl =>
    (List.map_congr_left hl).trans (List.map_id l)
  unfold Document.resolveStorage
  rw [hmap d.memory fun f hf => h f (Or.inl hf), hmap d.fs fun f hf => h f (Or.inr hf)]

/-! ## The prefix -/

/-- The prefix acts on the whole document: parsing with it is parsing the resolved document. -/
def UniformPrefix (J : Jsoncons) (P : Platform) (doc : Json) (pre : String)
    (storeOnlyInMemory : Bool) : Prop :=
  ∃ e e', parseDoc J P doc pre storeOnlyInMemory = .ok e ∧
    parseDoc J P (resolveDoc pre doc) "" storeOnlyInMemory = .ok e' ∧ e.equals e' = true

/-- A nonempty path of `storage` that nothing resolves to is a key of the one engine only. -/
theorem exists_resolve_of_uniform {J : Jsoncons} {P : Platform} {doc : Json} {pre : String}
    {storeOnlyInMemory : Bool} (h : UniformPrefix J P doc pre storeOnlyInMemory) {f : String}
    (hf : Stores doc f) (hne : f ≠ "") : ∃ g, resolve g pre = f := by
  obtain ⟨e, e', he, he', heq⟩ := h
  obtain ⟨hacc, hconf, n, base, d, -, hbase, hd, rfl⟩ := exists_of_parseDoc_ok he
  obtain ⟨n', base', hbase', hparse⟩ := exists_parseDoc_resolveDoc hacc hconf hd storeOnlyInMemory
  obtain rfl := Except.ok.inj (he'.symm.trans hparse)
  have hstored := (mem_storage_iff (docShape_of_accepted hacc) hd f).mpr hf
  -- the path is a key of the first engine
  have hkey : ((run P (d.acts storeOnlyInMemory) base).find f).isSome := by
    rw [isSome_find_run]
    refine Or.inr ⟨?_, hne⟩
    obtain ⟨b, hact⟩ : ∃ b, Act.set f (.storeInMemory b) ∈ d.acts storeOnlyInMemory := by
      rcases hstored with hs | hs
      · exact ⟨true, (set_mem_acts_iff hne).mpr (Or.inr (Or.inr (Or.inr (Or.inl ⟨hs, rfl⟩))))⟩
      · exact ⟨false, (set_mem_acts_iff hne).mpr (Or.inr (Or.inr (Or.inr (Or.inr ⟨hs, rfl⟩))))⟩
    exact ⟨_, hact, rfl⟩
  -- and so of the second, all of whose paths are resolved
  have hkey' : ((run P ((d.resolveStorage pre).acts storeOnlyInMemory) base').find f).isSome := by
    have hrel := Engine.equals_iff.mp heq f
    generalize (run P (d.acts storeOnlyInMemory) base).find f = x,
      (run P ((d.resolveStorage pre).acts storeOnlyInMemory) base').find f = y at hkey hrel ⊢
    cases hrel with
    | none => exact hkey
    | some _ => rfl
  have hmem := mem_paths_of_run hbase' hkey'
  unfold Document.paths Document.resolveStorage at hmem
  simp only [List.mem_append, List.mem_map] at hmem
  rcases hmem with (hmem | ⟨g, -, hg⟩) | ⟨g, -, hg⟩
  · refine exists_resolve_of_readDocument hd ?_
    unfold Document.paths
    simp only [List.append_nil, List.mem_append]
    exact hmem
  · exact ⟨g, hg⟩
  · exact ⟨g, hg⟩

/-- **When a prefix acts uniformly.** It does when every path of `storage` resolves to itself, and
an absolute prefix does in no other case. -/
theorem prefix_uniform_iff {J : Jsoncons} {P : Platform} {doc : Json} {pre : String}
    {storeOnlyInMemory : Bool} {e : Engine}
    (h : parseDoc J P doc pre storeOnlyInMemory = .ok e) :
    ((∀ f, Stores doc f → resolve f pre = f) → UniformPrefix J P doc pre storeOnlyInMemory) ∧
      (isAbsolute pre = true → (∀ f, Stores doc f → f ≠ "") →
        (UniformPrefix J P doc pre storeOnlyInMemory ↔
          ∀ f, Stores doc f → resolve f pre = f)) := by
  obtain ⟨hacc, hconf, n, base, d, -, hbase, hd, rfl⟩ := exists_of_parseDoc_ok h
  have hsufficient : (∀ f, Stores doc f → resolve f pre = f) →
      UniformPrefix J P doc pre storeOnlyInMemory := by
    intro hstores
    obtain ⟨n', base', hbase', hparse⟩ := exists_parseDoc_resolveDoc hacc hconf hd storeOnlyInMemory
    refine ⟨_, _, h, hparse, Engine.equals_of_entries ?_⟩
    rw [Document.resolveStorage_eq fun f hf =>
      hstores f ((mem_storage_iff (docShape_of_accepted hacc) hd f).mp hf)]
    have hsame : SameStore base base' :=
      ⟨hbase.storeAll.trans hbase'.storeAll.symm, hbase.entries.trans hbase'.entries.symm⟩
    exact (hsame.run P _).entries
  refine ⟨hsufficient, fun hpre hne => ⟨fun hu f hf => ?_, hsufficient⟩⟩
  obtain ⟨g, rfl⟩ := exists_resolve_of_uniform hu hf (hne f hf)
  exact resolve_of_isAbsolute (isAbsolute_resolve hpre g) pre

/-- A relative file in a stream and in memory. -/
def relativeStorageDocument : Json :=
  .obj [("name", .str "wf"), ("IO_Graph", .arr [.obj [("name", .str "app"),
    ("input_stream", .arr []), ("output_stream", .arr [.str "f"])]]),
    ("storage", .obj [("memory", .arr [.str "f"])])]

/-- The prefix reaches the stream only: the stored file is another key. -/
theorem relativeStorageDocument_not_uniform :
    (∃ e, parseDoc jsoncons posix relativeStorageDocument "/data" false = .ok e ∧
      (e.find "/data/f").map CapioCLEntry.storeInMemory = some false ∧
      (e.find "f").map CapioCLEntry.storeInMemory = some true) ∧
    ¬ UniformPrefix jsoncons posix relativeStorageDocument "/data" false := by
  constructor
  · obtain ⟨e, he⟩ : ∃ e, parseDoc jsoncons posix relativeStorageDocument "/data" false = .ok e :=
      exists_ok_of_thrown (by decide +kernel)
    have hfind : ((parseDoc jsoncons posix relativeStorageDocument "/data" false).map fun e =>
        ((e.find "/data/f").map CapioCLEntry.storeInMemory,
          (e.find "f").map CapioCLEntry.storeInMemory)).toOption = some (some false, some true) := by
      decide +kernel
    rw [he] at hfind
    exact ⟨e, he, Prod.mk.inj (Option.some.inj hfind)⟩
  · rintro ⟨e, e', he, he', heq⟩
    have hne : ((parseDoc jsoncons posix relativeStorageDocument "/data" false).bind fun e =>
        (parseDoc jsoncons posix (resolveDoc "/data" relativeStorageDocument) "" false).map
          fun e' => e.equals e').toOption = some false := by
      decide +kernel
    rw [he, he'] at hne
    exact absurd (heq.symm.trans (Option.some.inj hne)) (by decide)

/-- A relative file in a stream, stored under its absolute path. -/
def absoluteStorageDocument : Json :=
  .obj [("name", .str "wf"), ("IO_Graph", .arr [.obj [("name", .str "app"),
    ("input_stream", .arr []), ("output_stream", .arr [.str "f"])]]),
    ("storage", .obj [("memory", .arr [.str "/data/f"])])]

theorem absoluteStorageDocument_uniform :
    UniformPrefix jsoncons posix absoluteStorageDocument "/data" false := by
  obtain ⟨e, he⟩ : ∃ e, parseDoc jsoncons posix absoluteStorageDocument "/data" false = .ok e :=
    exists_ok_of_thrown (by decide +kernel)
  have hstores : ∀ f, Stores absoluteStorageDocument f → f = "/data/f" := by
    rintro f ⟨storage, hs, hl⟩
    obtain rfl := Option.some.inj hs
    rcases hl with ⟨l, hl, hf⟩ | ⟨l, hl, -⟩
    · obtain rfl : ["/data/f"] = l := strs_inj (Option.some.inj hl)
      exact List.mem_singleton.mp hf
    · have hnone : (Json.obj [("memory", .arr [.str "/data/f"])]).get? "fs" = none := rfl
      exact absurd (hl.symm.trans hnone) (by simp)
  refine ((prefix_uniform_iff he).2 (by decide) fun f hf => ?_).mpr fun f hf => ?_
  · rw [hstores f hf]
    decide
  · rw [hstores f hf]
    decide +kernel

end CapioCl
