import CapioCl.Equality
import CapioCl.Rewriting
import CapioCl.StreamingRules
import CapioCl.Versions

/-!
# A streaming item without options

The defaults of the rules live in two places. An entry the store creates has the fire rule `update`
(`engine.h:28`), which `doxygen/syntax_v1.md` documents as the default of `mode`; for an item without
`mode` the version parsers write `no_update` (`v1.cpp:110`). So naming a declared file in an item that
says nothing else changes its fire rule.

* `RuleField.find_run_default`: a key that nothing describes or matches has the rules of a new entry.
* `readDocument_appended`: the document with the item is read like the document, with the item last
  in its application.
* `bareItem_neutral_iff`: the item changes nothing only for the empty path, which the engine ignores.
-/

namespace CapioCl

open CapioCl.Lib CapioCl.Lib.Reading CapioCl.Parser

/-! ## The document with the item -/

/-- An item that names one path and states nothing. -/
def bareItem (f : String) : Json := .obj [("name", Json.strs [f])]

/-- The application with an item at the end of its `streaming` array. -/
def appendItem (item : Json) : Json → Json
  | .obj ms => .obj (Json.put "streaming" (.arr ((Json.obj ms).elements "streaming" ++ [item])) ms)
  | app => app

/-- The document with another `IO_Graph`. -/
def withGraph (apps : List Json) (doc : Json) : Json :=
  Json.mapMembers (fun k v => if k = "IO_Graph" then .arr apps else v) doc

/-- The bare item, as it is read. -/
def readBareItem (path : String) : StreamItem where
  isFile := true
  streamingNames := [path]
  fileDeps := []
  commitRule := commitRules.onTermination
  fireRule := fireRules.noUpdate
  nClose := 0
  nFiles := 0

theorem streamingItem_bareItem (f : String) : streamingItem (bareItem f) = true := by
  have hnone : ∀ {k : String}, k ≠ "name" → (bareItem f).get? k = none := by
    intro k hk
    unfold bareItem
    rw [Json.get?_obj, Json.lookup_cons_if, if_neg hk]
    rfl
  have habsent : ∀ {k : String} {C : Json → Prop}, k ≠ "name" →
      ∀ v, (bareItem f).get? k = some v → C v := by
    intro k C hk v hv
    rw [hnone hk] at hv
    cases hv
  rw [streamingItem_iff]
  refine Or.inl ⟨rfl, rfl, ⟨[f], rfl⟩, habsent (by decide), habsent (by decide),
    habsent (by decide), habsent (by decide), fun h => ?_, fun h => ?_⟩
  · rw [hnone (by decide)] at h
    cases h
  · rw [hnone (by decide)] at h
    cases h

section
variable {J : Jsoncons} {pre : String}

theorem readStreamItem_bareItem (J : Jsoncons) (pre f : String) :
    readStreamItem J pre (bareItem f) = .ok (readBareItem (resolve f pre)) := by
  have hnames : paths J pre (bareItem f) "name" = .ok [resolve f pre] :=
    @paths_strs J pre (bareItem f) "name" [f] rfl
  have hname : (bareItem f).contains "name" = true := rfl
  unfold readStreamItem
  dsimp only
  rw [hname, if_pos rfl, hnames]
  rfl

theorem get?_appendItem {item app : Json} (h : AppShape app) (k : String) :
    (appendItem item app).get? k =
      if k = "streaming" then some (.arr (app.elements "streaming" ++ [item])) else app.get? k := by
  obtain ⟨ms, rfl⟩ := Schema.typeObject_iff.mp h.object
  exact Json.lookup_put _ _ k ms

theorem appShape_appendItem {item app : Json} (h : AppShape app) (hitem : streamingItem item = true) :
    AppShape (appendItem item app) := by
  have hget := @get?_appendItem item app h
  refine ⟨?_, ?_, ?_, ?_, ?_, fun v hv => ?_⟩
  · obtain ⟨ms, rfl⟩ := Schema.typeObject_iff.mp h.object
    rfl
  · have hknown := h.known
    obtain ⟨ms, rfl⟩ := Schema.typeObject_iff.mp h.object
    refine List.all_eq_true.mpr fun m hm => ?_
    rcases Json.mem_put hm with rfl | hm
    · rfl
    · exact List.all_eq_true.mp hknown m hm
  · rw [hget, if_neg (by decide)]
    exact h.name
  · rw [hget, if_neg (by decide)]
    exact h.inputs
  · rw [hget, if_neg (by decide)]
    exact h.outputs
  · rw [hget, if_pos rfl] at hv
    refine ⟨_, (Option.some.inj hv).symm, fun x hx => ?_⟩
    rcases List.mem_append.mp hx with hx | hx
    · unfold Json.elements at hx
      cases hs : app.get? "streaming" with
      | none =>
        rw [hs] at hx
        cases hx
      | some w =>
        obtain ⟨xs, rfl, hxs⟩ := h.streaming w hs
        rw [hs] at hx
        exact hxs x hx
    · rwa [List.mem_singleton.mp hx]

/-- The application is read as before, with the item last. -/
theorem readApp_appendItem {item app : Json} (h : AppShape app) {a : AppSection} {i : StreamItem}
    (hread : readApp J pre app = .ok a) (hitem : readStreamItem J pre item = .ok i) :
    readApp J pre (appendItem item app) = .ok { a with items := a.items ++ [i] } := by
  have hget := @get?_appendItem item app h
  obtain ⟨hname, hstreams, -⟩ := readApp_inv hread
  have hitems : ((app.elements "streaming") ++ [item]).mapM (readStreamItem J pre) =
      .ok (a.items ++ [i]) := by
    rw [mapM_eq_ok_iff]
    refine List.rel_append ?_ (List.Forall₂.cons hitem List.Forall₂.nil)
    exact (forall₂_items_of_readApp h hread).imp fun _ _ hpair => hpair.2
  have hmember : ∀ {k : String}, k ≠ "streaming" →
      (appendItem item app).member k = app.member k := by
    intro k hk
    unfold Json.member
    rw [hget, if_neg hk]
  have hpaths : ∀ σ : Stream, paths J pre (appendItem item app) σ.key = .ok (a.stream σ) := by
    intro σ
    have hne : σ.key ≠ "streaming" := by cases σ <;> decide
    rw [← hstreams σ]
    unfold paths range
    rw [hmember hne]
  have hstreaming : (appendItem item app).get? "streaming" =
      some (.arr (app.elements "streaming" ++ [item])) := by rw [hget, if_pos rfl]
  have hread' : readItems J pre (appendItem item app) = .ok (a.items ++ [i]) := by
    unfold readItems
    rw [if_pos (Json.contains_iff.mpr ⟨_, hstreaming⟩), range_arr hstreaming, ok_bind, hitems]
  have hin := hpaths .input
  have hout := hpaths .output
  unfold readApp
  rw [hmember (by decide), hname, ok_bind]
  change (paths J pre (appendItem item app) Stream.input.key >>= fun inputs =>
    paths J pre (appendItem item app) Stream.output.key >>= fun outputs =>
    readItems J pre (appendItem item app) >>= fun items => pure _) = _
  rw [hin, ok_bind, hout, ok_bind, hread', ok_bind]
  rfl

/-! ## Another graph -/

theorem get?_withGraph (apps : List Json) (doc : Json) {k : String} (hk : k ≠ "IO_Graph") :
    (withGraph apps doc).get? k = doc.get? k := by
  unfold withGraph
  rw [Json.get?_mapMembers]
  simp [hk]

theorem accepted_withGraph {doc : Json} (h : Accepted J doc) {apps : List Json}
    (happs : ∀ app ∈ apps, AppShape app) : Accepted J (withGraph apps doc) := by
  obtain ⟨ms, rfl⟩ := Schema.typeObject_iff.mp (docShape_of_accepted h).object
  have hm := Json.members_mapMembers (fun k v => if k = "IO_Graph" then .arr apps else v) ms
  have hsame : ∀ {k : String}, k ≠ "IO_Graph" → ∀ v v' : Json,
      v' = (if k = "IO_Graph" then .arr apps else v) → v' = v := by
    intro k hk v v' hv
    rwa [if_neg hk] at hv
  refine h.of_members hm (fun hd => ?_) (hsame (by decide)) (hsame (by decide))
  refine hd.of_members hm (Json.keeps_of_eq (hsame (by decide))) ?_
    (Json.keeps_of_eq (hsame (by decide))) (Json.keeps_of_eq (hsame (by decide)))
    (Json.keeps_of_eq (hsame (by decide))) (Json.keeps_of_eq (hsame (by decide)))
    (Json.keeps_of_eq (hsame (by decide)))
  intro v v' _ hv
  exact ⟨apps, hv, happs⟩

/-- The other sections are read as before. -/
theorem readDocument_withGraph {doc : Json} {d : Document} {apps graph : List Json}
    {as : List AppSection} (hgraph : doc.get? "IO_Graph" = some (.arr graph))
    (hread : readDocument J pre doc = .ok d) (happs : apps.mapM (readApp J pre) = .ok as) :
    readDocument J pre (withGraph apps doc) = .ok { d with apps := as } := by
  obtain ⟨-, -, -, hp, he, hs⟩ := readDocument_inv hread
  have hmember : ∀ {k : String}, k ≠ "IO_Graph" → (withGraph apps doc).member k = doc.member k := by
    intro k hk
    unfold Json.member
    rw [get?_withGraph apps doc hk]
  have hcontains : ∀ {k : String}, k ≠ "IO_Graph" →
      (withGraph apps doc).contains k = doc.contains k := by
    intro k hk
    unfold Json.contains
    rw [get?_withGraph apps doc hk]
  have hoptional : ∀ {k : String}, k ≠ "IO_Graph" →
      optionalPaths J pre (withGraph apps doc) k = optionalPaths J pre doc k := by
    intro k hk
    unfold optionalPaths paths range
    rw [hcontains hk, hmember hk]
  have hstorage : readStorage J (withGraph apps doc) = readStorage J doc := by
    unfold readStorage
    rw [hcontains (by decide), hmember (by decide)]
  have hnew : (withGraph apps doc).get? "IO_Graph" = some (.arr apps) := by
    unfold withGraph
    rw [Json.get?_mapMembers, hgraph]
    rfl
  unfold readDocument
  rw [range_arr hnew, ok_bind, happs, ok_bind, hoptional (by decide), hp, ok_bind,
    hoptional (by decide), he, ok_bind, hstorage, hs]
  rfl

end

/-! ## The rules of a key that nothing describes -/

section
variable {P : Platform} {α : Type} {get : CapioCLEntry → α} {val : Write → Option α}
  {ruleOf : StreamItem → α} {path : String} {e : Engine}

/-- A new entry for a path that matches no key has the default rule. -/
theorem RuleField.newFile_default (hr : RuleField get val ruleOf) (hnone : e.find path = none)
    (hmatch : ∀ k, (e.find k).isSome → P.fnmatch k path = false) {entry : CapioCLEntry}
    (h : (e._newFile P path).find path = some entry) : get entry = get {} := by
  have hsource : e.source P path = none := by
    rw [Engine.source_eq_none]
    intro k hk hm
    rw [hmatch k hk] at hm
    cases hm
  have hstore : get ({ storeInMemory := e.storeAllInMemory } : CapioCLEntry) = get {} := by
    change get ((Write.storeInMemory e.storeAllInMemory).apply {}) = _
    rw [hr.apply, hr.storeInMemory]
    rfl
  have hmap := Engine.map_find_newFile core_counted P path e path
  by_cases hp : path = ""
  · rw [hp, Engine.newFile_empty, ← hp, hnone] at h
    cases h
  · rw [h, if_pos ⟨rfl, hp, hnone⟩, Engine.newEntry_of_none hsource] at hmap
    rw [← hr.core entry, Option.some.inj hmap, hr.core, hstore]

/-- So it has when an act creates it that assigns no rule. -/
theorem RuleField.perform_default (hr : RuleField get val ruleOf) (hnone : e.find path = none)
    (hmatch : ∀ k, (e.find k).isSome → P.fnmatch k path = false) {act : Act}
    (hact : act.assigns val path = none) {entry : CapioCLEntry}
    (h : (act.perform P e).find path = some entry) : get entry = get {} := by
  have hpath : act.path? = some path := by
    rcases (isSome_find_perform P act e path).mp (by rw [h]; rfl) with hsome | ⟨hpath, -⟩
    · rw [hnone] at hsome
      cases hsome
    · exact hpath
  cases act with
  | create p =>
    obtain rfl := Option.some.inj hpath
    exact hr.newFile_default hnone hmatch h
  | set p w =>
    obtain rfl := Option.some.inj hpath
    have hw : val w = none := by
      unfold Act.assigns at hact
      rwa [on_set, if_pos rfl] at hact
    change (e.setter P p w.apply).find p = some entry at h
    rw [Engine.find_setter] at h
    split at h
    · obtain ⟨x, hx, rfl⟩ := Option.map_eq_some_iff.mp h
      rw [hr.apply, hw]
      exact hr.newFile_default hnone hmatch hx
    · exact hr.newFile_default hnone hmatch h
  | directories => cases hpath
  | storeAll => cases hpath

/-- **A key that nothing assigns a rule of, and that matches no other key, has the default rule.** -/
theorem RuleField.find_run_default (hr : RuleField get val ruleOf) (he : e.find path = none)
    {acts : List Act} (hsilent : ∀ act ∈ acts, act.assigns val path = none)
    (hmatch : ∀ k, ((run P acts e).find k).isSome → k ≠ path → P.fnmatch k path = false)
    {entry : CapioCLEntry} (h : (run P acts e).find path = some entry) : get entry = get {} := by
  induction acts using List.reverseRecOn generalizing entry with
  | nil =>
    rw [run_nil, he] at h
    cases h
  | append_singleton acts act ih =>
    rw [run_concat] at h hmatch
    have hact := hsilent act (List.mem_append_right _ (List.mem_singleton_self _))
    have hkeys : ∀ k, ((run P acts e).find k).isSome → k ≠ path → P.fnmatch k path = false :=
      fun k hk => hmatch k ((isSome_find_perform P act _ k).mpr (Or.inl hk))
    cases hfind : (run P acts e).find path with
    | some x =>
      have hkept := @RuleField.find_of_silent P _ _ _ _ _ path hr (by rw [hfind]; rfl) act hact
      rw [h, hfind] at hkept
      rw [Option.some.inj hkept]
      exact ih (fun act hmem => hsilent act (List.mem_append_left _ hmem)) hkeys hfind
    | none =>
      refine hr.perform_default hfind (fun k hk => hkeys k hk ?_) hact h
      rintro rfl
      rw [hfind] at hk
      cases hk

end

/-! ## The item -/

/-- What the item adds to a document that is read. -/
theorem readDocument_appended {J : Jsoncons} {pre f : String} {doc app : Json}
    {before after : List Json} {d : Document} (hd : DocShape doc)
    (hgraph : doc.get? "IO_Graph" = some (.arr (before ++ app :: after)))
    (hread : readDocument J pre doc = .ok d) :
    (∀ app' ∈ before ++ appendItem (bareItem f) app :: after, AppShape app') ∧
      ∃ earlier a later, d.apps = earlier ++ a :: later ∧
        readDocument J pre (withGraph (before ++ appendItem (bareItem f) app :: after) doc) =
          .ok { d with apps := earlier ++
            { a with items := a.items ++ [readBareItem (resolve f pre)] } :: later } := by
  obtain ⟨apps, happs, hshape⟩ := hd.ioGraph
  rw [hgraph] at happs
  obtain rfl := Json.arr.inj (Option.some.inj happs)
  obtain ⟨apps', happs', has, -⟩ := readDocument_inv hread
  obtain rfl := Except.ok.inj ((range_arr hgraph).symm.trans happs')
  obtain ⟨earlier, a, later, hsplit, hearlier, ha, hlater⟩ := forall₂_split (mapM_eq_ok_iff.mp has)
  have happ : AppShape app := hshape app (List.mem_append_right _ List.mem_cons_self)
  refine ⟨fun app' happ' => ?_, earlier, a, later, hsplit, ?_⟩
  · rcases List.mem_append.mp happ' with h | h
    · exact hshape app' (List.mem_append_left _ h)
    · rcases List.mem_cons.mp h with rfl | h
      · exact appShape_appendItem happ (streamingItem_bareItem f)
      · exact hshape app' (List.mem_append_right _ (List.mem_cons_of_mem _ h))
  · refine readDocument_withGraph hgraph hread (mapM_eq_ok_iff.mpr ?_)
    exact List.rel_append hearlier
      (List.Forall₂.cons (readApp_appendItem happ ha (readStreamItem_bareItem J pre f)) hlater)

/-- On the empty path the item does nothing. -/
theorem run_bareItem_empty (P : Platform) (e : Engine) : run P (readBareItem "").acts e = e := by
  have hset : ∀ (w : Write) (e : Engine), (Act.set "" w).perform P e = e := fun w e =>
    Engine.setter_empty P w.apply e
  have hacts : (readBareItem "").acts = [.set "" (.isFile true),
      .set "" (.commitRule commitRules.onTermination), .set "" (.fireRule fireRules.noUpdate),
      .set "" (.closeCount 0)] := rfl
  rw [hacts]
  simp only [run_cons, run_nil, hset]

/-- The item comes last among those of its application, and names its path. -/
theorem lastItem_appended {d : Document} {earlier later : List AppSection} {a : AppSection}
    {path : String} (happs : d.apps = earlier ++ a :: later)
    (hitems : ∀ i ∈ d.items, path ∉ i.streamingNames) :
    LastItem { d with apps := earlier ++
      { a with items := a.items ++ [readBareItem path] } :: later } path (readBareItem path)
      (later.flatMap AppSection.items) where
  items := by
    refine ⟨earlier.flatMap AppSection.items ++ a.items, ?_⟩
    change (earlier ++ { a with items := a.items ++ [readBareItem path] } :: later).flatMap
      AppSection.items = _
    rw [List.flatMap_append, List.flatMap_cons]
    simp
  names := List.mem_singleton_self path
  last i hi := by
    refine hitems i ?_
    change i ∈ d.apps.flatMap AppSection.items
    rw [happs, List.flatMap_append, List.flatMap_cons]
    exact List.mem_append_right _ (List.mem_append_right _ hi)

/-- The acts of the item are added at one place. -/
theorem run_appended_empty {P : Platform} {d : Document} {earlier later : List AppSection}
    {a : AppSection} (happs : d.apps = earlier ++ a :: later) (storeOnlyInMemory : Bool)
    (e : Engine) : run P (Document.acts { d with apps := earlier ++
      { a with items := a.items ++ [readBareItem ""] } :: later } storeOnlyInMemory) e =
        run P (d.acts storeOnlyInMemory) e := by
  have hacts : AppSection.acts { a with items := a.items ++ [readBareItem ""] } =
      a.acts ++ (readBareItem "").acts := by
    change a.streamActs ++ (a.items ++ [readBareItem ""]).flatMap StreamItem.acts = _
    rw [List.flatMap_append, List.flatMap_singleton, ← List.append_assoc]
    rfl
  unfold Document.acts
  simp only [run_append]
  rw [happs]
  simp only [List.flatMap_append, List.flatMap_cons, run_append, hacts, run_bareItem_empty]
  rfl

/-- A path in a stream is a key. -/
theorem isSome_find_of_declares {J : Jsoncons} (P : Platform) {pre f name : String} {doc : Json}
    {d : Document} {σ : Stream} (hd : DocShape doc) (hread : readDocument J pre doc = .ok d)
    (h : Declares doc σ name f) (hp : resolve f pre ≠ "") (storeOnlyInMemory : Bool) (e : Engine) :
    ((run P (d.acts storeOnlyInMemory) e).find (resolve f pre)).isSome := by
  obtain ⟨a, ha, -, hmem⟩ := (mem_stream_iff hd hread σ name _).mpr ⟨f, h, rfl⟩
  have hact : Act.set (resolve f pre) (.app σ (eraseSpaces a.name)) ∈ d.acts storeOnlyInMemory :=
    (set_mem_acts_iff hp).mpr (Or.inl ⟨a, ha, Or.inl ⟨σ, hmem, rfl⟩⟩)
  exact (isSome_find_run P _ _ _).mpr (Or.inr ⟨⟨_, hact, rfl⟩, hp⟩)

/-- **When a streaming item without options is neutral**: for the empty path. For any other path that
no item names and no other key matches, the item makes the fire rule `no_update`, where the entry
without it has `update`. -/
theorem bareItem_neutral_iff (J : Jsoncons) (P : Platform) (doc : Json) (pre : String)
    (storeOnlyInMemory : Bool) (e : Engine) (before after : List Json) (app : Json) (f : String)
    (h : parseDoc J P doc pre storeOnlyInMemory = .ok e)
    (hgraph : doc.get? "IO_Graph" = some (.arr (before ++ app :: after)))
    (hf : Lists app "output_stream" f)
    (hitem : ∀ item ∈ streamingItems doc, ¬ ItemNames pre (resolve f pre) item)
    (hmatch : ∀ k, (e.find k).isSome → k ≠ resolve f pre →
      P.fnmatch k (resolve f pre) = false) :
    ∃ e', parseDoc J P (withGraph (before ++ appendItem (bareItem f) app :: after) doc) pre
        storeOnlyInMemory = .ok e' ∧ (e'.equals e = true ↔ resolve f pre = "") := by
  obtain ⟨hacc, hconf, n, base, d, -, hfresh, hread, rfl⟩ := exists_of_parseDoc_ok h
  have hd := docShape_of_accepted hacc
  obtain ⟨hshape, earlier, a, later, happs, hread'⟩ := @readDocument_appended J pre f _ _ _ _ _ hd hgraph hread
  have hconf' : ConfigurationLoads P
      (withGraph (before ++ appendItem (bareItem f) app :: after) doc) := by
    intro path hpath
    rw [get?_withGraph _ _ (by decide)] at hpath
    exact hconf path hpath
  obtain ⟨n', base', -, hfresh', hparse⟩ :=
    exists_parseDoc_ok (accepted_withGraph hacc hshape) hconf' hread'
  refine ⟨_, hparse storeOnlyInMemory, ?_⟩
  by_cases hp : resolve f pre = ""
  · refine iff_of_true (Engine.equals_of_entries ?_) hp
    have hbase : SameStore base' base :=
      ⟨hfresh'.storeAll.trans hfresh.storeAll.symm, hfresh'.entries.trans hfresh.entries.symm⟩
    rw [hp, run_appended_empty happs]
    exact (hbase.run P _).entries
  refine iff_of_false (fun hequal => ?_) hp
  have hnames : ∀ i ∈ d.items, resolve f pre ∉ i.streamingNames := by
    intro i hi hmem
    obtain ⟨item, hitem', hok, hreadi⟩ :=
      exists_of_mem_right (forall₂_items_of_readDocument hd hread) hi
    exact hitem item hitem' ((mem_streamingNames_iff hok hreadi _).mp hmem)
  have hafter := ruleField_fireRule.of_lastItem hp (lastItem_appended happs hnames)
    ⟨_, mem_writes_iff.mpr (Or.inr (Or.inr (Or.inl rfl))), by simp [Write.fireRule?]⟩ P
    storeOnlyInMemory base'
  have happ : app ∈ before ++ app :: after := List.mem_append_right _ List.mem_cons_self
  obtain ⟨name, hname⟩ : ∃ name, app.get? "name" = some (.str name) := by
    obtain ⟨apps, happs, hall⟩ := hd.ioGraph
    rw [hgraph] at happs
    exact (hall app (Json.arr.inj (Option.some.inj happs) ▸ happ)).name
  obtain ⟨entry, hentry⟩ := Option.isSome_iff_exists.mp (isSome_find_of_declares P hd hread
    (σ := .output) ⟨_, hgraph, app, happ, hname, hf⟩ hp storeOnlyInMemory base)
  have hbefore := ruleField_fireRule.find_run_default (hfresh.find _)
    (fun act => ruleField_fireRule.silent_acts hp hnames) hmatch hentry
  have hrel := Engine.equals_iff.mp hequal (resolve f pre)
  obtain ⟨entry', hentry', hrule⟩ := Option.map_eq_some_iff.mp hafter
  rw [hentry, hentry'] at hrel
  cases hrel with
  | some hentries =>
    have hfire : entry'.fireRule = entry.fireRule := (CapioCLEntry.equals_iff.mp hentries).2.1
    rw [hrule, hbefore] at hfire
    have hne : fireRules.noUpdate ≠ fireRules.update := by decide
    exact hne hfire

/-- The application of `oneFileDocument`. -/
def oneFileApp : Json := .obj [("name", .str "app"), ("input_stream", .arr []),
  ("output_stream", .arr [.str "f"])]

theorem oneFileDocument_keys {e : Engine}
    (he : parseDoc jsoncons posix oneFileDocument "" false = .ok e) :
    ∀ k, (e.find k).isSome → k = "f" := by
  have hread : readDocument jsoncons "" oneFileDocument =
      .ok { apps := [⟨"app", [], ["f"], []⟩], permanent := [], exclude := [], memory := [],
            fs := [] } := by decide +kernel
  intro k hk
  have hmem := mem_paths_of_parseDoc he hread hk
  exact List.mem_singleton.mp hmem

/-- An application with a file and the empty path. -/
def emptyPathApp : Json := .obj [("name", .str "app"), ("input_stream", .arr []),
  ("output_stream", Json.strs ["f", ""])]

def emptyPathDocument : Json := .obj [("name", .str "wf"), ("IO_Graph", .arr [emptyPathApp])]

/-- The item of the empty path changes nothing. -/
theorem emptyPath_bareItem : ∃ e e', parseDoc jsoncons posix emptyPathDocument "" false = .ok e ∧
    parseDoc jsoncons posix (withGraph [appendItem (bareItem "") emptyPathApp] emptyPathDocument) ""
      false = .ok e' ∧ e'.equals e = true := by
  obtain ⟨e, he⟩ : ∃ e, parseDoc jsoncons posix emptyPathDocument "" false = .ok e :=
    exists_ok_of_thrown (by decide +kernel)
  have hread : readDocument jsoncons "" emptyPathDocument =
      .ok { apps := [⟨"app", [], ["f", ""], []⟩], permanent := [], exclude := [], memory := [],
            fs := [] } := by decide +kernel
  have hmatch : ∀ k, (e.find k).isSome → k ≠ resolve "" "" →
      posix.fnmatch k (resolve "" "") = false := by
    intro k hk hne
    have hmem : k ∈ ["f", ""] := mem_paths_of_parseDoc he hread hk
    rcases List.mem_cons.mp hmem with rfl | hmem
    · decide +kernel
    · exact absurd (List.mem_singleton.mp hmem) hne
  obtain ⟨e', he', hequal⟩ := bareItem_neutral_iff jsoncons posix emptyPathDocument "" false e [] []
    emptyPathApp "" he rfl ⟨["f", ""], rfl, List.mem_cons_of_mem _ (List.mem_singleton_self _)⟩ (by
      intro item hitem
      cases hitem) hmatch
  exact ⟨e, e', he, he', hequal.mpr (by decide +kernel)⟩

/-- An item that says nothing of `f` makes another engine. -/
theorem oneFile_bareItem_differs : ∃ e, parseDoc jsoncons posix oneFileDocument "" false = .ok e ∧
    Concrete "f" ∧ Lists oneFileApp "output_stream" "f" ∧ streamingItems oneFileDocument = [] ∧
    (∀ k, (e.find k).isSome → k = "f") ∧
    ∃ e', parseDoc jsoncons posix (withGraph [appendItem (bareItem "f") oneFileApp] oneFileDocument)
      "" false = .ok e' ∧ e'.equals e = false := by
  obtain ⟨e, he⟩ := exists_parse_oneFileDocument
  obtain ⟨e', he'⟩ : ∃ e', parseDoc jsoncons posix
      (withGraph [appendItem (bareItem "f") oneFileApp] oneFileDocument) "" false = .ok e' :=
    exists_ok_of_thrown (by decide +kernel)
  have hequal : (do
      let e ← parseDoc jsoncons posix oneFileDocument "" false
      let e' ← parseDoc jsoncons posix
        (withGraph [appendItem (bareItem "f") oneFileApp] oneFileDocument) "" false
      return e'.equals e).toOption = some false := by decide +kernel
  rw [he, he'] at hequal
  exact ⟨e, he, by decide, ⟨["f"], rfl, List.mem_singleton_self _⟩, rfl, oneFileDocument_keys he, e',
    he', Option.some.inj hequal⟩

end CapioCl
