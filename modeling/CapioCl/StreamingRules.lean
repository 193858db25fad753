import CapioCl.ConcreteDocument
import CapioCl.FileCount

/-!
# The rules of a path

Several streaming items may name one path, in one application or in many. Each writes the commit
rule, the fire rule and the close count of the entry, and nothing else in a document does: the
streams, the flags and the storage write other fields, a creation copies to keys that are not there
yet, and counting a child changes the kind of a directory only. So the last item in document order
decides.

* `RuleField.find_run`: a rule after a run of acts is the last one assigned.
* `RuleField.of_lastItem`: for the acts of a document, that of the last item naming the path.
* `lastItem_rules`: read off the JSON.

Items that agree need no order; for documents of concrete paths this is `RuleField.of_find`.
-/

namespace CapioCl

open CapioCl.Lib CapioCl.Lib.Reading CapioCl.Parser

/-! ## Runs -/

section
variable {P : Platform} {α : Type} {get : CapioCLEntry → α} {val : Write → Option α}
  {ruleOf : StreamItem → α} {e : Engine} {path : String}

/-- What an act assigns to a rule of a path is there after the act. -/
theorem RuleField.find_of_assigns (hr : RuleField get val ruleOf) (hp : path ≠ "") {act : Act}
    {a : α} (h : act.assigns val path = some a) (e : Engine) :
    ((act.perform P e).find path).map get = some a := by
  rcases assigns_eq_some_iff.mp h with ⟨w, rfl, hw⟩ | ⟨-, hw⟩
  · obtain ⟨entry, hentry⟩ := Option.isSome_iff_exists.mp (Engine.find_newFile_isSome P hp e)
    change ((e.setter P path w.apply).find path).map get = some a
    rw [Engine.find_setter, if_pos ⟨rfl, hp⟩, hentry, Option.map_some, Option.map_some, hr.apply, hw]
    rfl
  · rw [hr.storeInMemory] at hw
    cases hw

/-- A creation leaves the rules of the keys. -/
theorem RuleField.find_newFile (hr : RuleField get val ruleOf) (hkey : (e.find path).isSome)
    (p : String) : ((e._newFile P p).find path).map get = (e.find path).map get := by
  have hcore : ∀ x : Option CapioCLEntry, x.map get = (x.map CapioCLEntry.core).map get := by
    intro x
    rw [Option.map_map]
    exact congrArg (Option.map · x) (funext fun entry => (hr.core entry).symm)
  rw [hcore, Engine.map_find_newFile core_counted, if_neg, ← hcore]
  rintro ⟨hpath, -, hnone⟩
  rw [hpath, hnone] at hkey
  cases hkey

/-- What an act does not assign it leaves alone, for a path that is a key. -/
theorem RuleField.find_of_silent (hr : RuleField get val ruleOf) (hkey : (e.find path).isSome)
    {act : Act} (h : act.assigns val path = none) :
    ((act.perform P e).find path).map get = (e.find path).map get := by
  have hkeep : ∀ w x, val w = none → get (w.apply x) = get x := by
    intro w x hw
    rw [hr.apply, hw]
    rfl
  cases act with
  | create p => exact hr.find_newFile hkey p
  | set p w =>
    change ((e.setter P p w.apply).find path).map get = _
    rw [Engine.find_setter, ← @RuleField.find_newFile P _ _ _ _ e path hr hkey p]
    split
    · rename_i hc
      have hw : val w = none := by
        unfold Act.assigns at h
        rwa [on_set, if_pos hc.1] at h
      rw [Option.map_map]
      exact congrArg (Option.map · _) (funext fun x => hkeep w x hw)
    · rfl
  | directories =>
    change ((e.setAllDirectories P).find path).map get = _
    rw [Engine.find_setAllDirectories, Option.map_map]
    refine congrArg (Option.map · _) (funext fun x => ?_)
    by_cases h0 : path = ""
    · simp [h0]
    · rw [Function.comp_apply, if_neg h0, ← hr.core, ← hr.core x]
      rfl
  | storeAll =>
    change ((e.setAllStoreInMemory P).find path).map get = _
    rw [Engine.find_setAllStoreInMemory, Option.map_map]
    refine congrArg (Option.map · _) (funext fun x => ?_)
    by_cases h0 : path = ""
    · simp [h0]
    · rw [Function.comp_apply, if_neg h0]
      exact hkeep (.storeInMemory true) x (hr.storeInMemory true)

/-- **A rule after a run is the last one assigned.** -/
theorem RuleField.find_run (hr : RuleField get val ruleOf) (hp : path ≠ "") {acts : List Act} {a : α}
    (h : Registers.last (Act.assigns val path) acts = some a) (e : Engine) :
    ((run P acts e).find path).map get = some a := by
  induction acts using List.reverseRecOn with
  | nil => cases h
  | append_singleton acts act ih =>
    rw [run_concat]
    rw [Registers.last_append, Registers.last_cons, Registers.last_nil, Option.none_or] at h
    cases hact : act.assigns val path with
    | some b =>
      rw [hact, Option.some_or] at h
      rw [← h]
      exact hr.find_of_assigns hp hact _
    | none =>
      rw [hact, Option.none_or] at h
      have hbefore := ih h
      have hkey : ((run P acts e).find path).isSome := by
        rw [← Option.isSome_map, hbefore]
        rfl
      rw [hr.find_of_silent hkey hact, hbefore]

end

/-! ## The acts of a document -/

section
variable {α : Type} {get : CapioCLEntry → α} {val : Write → Option α} {ruleOf : StreamItem → α}
  {d : Document} {path : String} {item : StreamItem} {after : List StreamItem}

/-- The sections after `IO_Graph` assign no rule. -/
theorem RuleField.silent_sections (hr : RuleField get val ruleOf) (hp : path ≠ "") {act : Act}
    {storeOnlyInMemory : Bool}
    (h : act ∈ d.flagActs ++ d.storageActs ++ if storeOnlyInMemory then [Act.storeAll] else []) :
    act.assigns val path = none := by
  have hacts : d.flagActs ++ d.storageActs ++ (if storeOnlyInMemory then [Act.storeAll] else []) =
      Document.acts { d with apps := [] } storeOnlyInMemory := rfl
  rw [hacts] at h
  rw [Option.eq_none_iff_forall_ne_some]
  intro a ha
  rcases assigns_eq_some_iff.mp ha with ⟨w, rfl, hw⟩ | ⟨-, hw⟩
  · rcases (set_mem_acts_iff hp).mp h with ⟨app, happ, -⟩ | ⟨-, rfl⟩ | ⟨-, rfl⟩ | ⟨-, rfl⟩ | ⟨-, rfl⟩
    · exact absurd happ List.not_mem_nil
    · rw [hr.permanent] at hw
      cases hw
    · rw [hr.excluded] at hw
      cases hw
    · rw [hr.storeInMemory] at hw
      cases hw
    · rw [hr.storeInMemory] at hw
      cases hw
  · rw [hr.storeInMemory] at hw
    cases hw

/-- Neither the streams nor an item of other paths assigns a rule. -/
theorem RuleField.silent_apps (hr : RuleField get val ruleOf) (hp : path ≠ "") {act : Act}
    (h : (∃ i : StreamItem, path ∉ i.streamingNames ∧ act ∈ i.acts) ∨
      ∃ a : AppSection, act ∈ a.streamActs) : act.assigns val path = none := by
  rw [Option.eq_none_iff_forall_ne_some]
  intro a ha
  rcases assigns_eq_some_iff.mp ha with ⟨w, rfl, hw⟩ | ⟨-, hw⟩
  · rcases h with ⟨i, hi, h⟩ | ⟨app, h⟩
    · exact hi ((set_mem_item_iff hp).mp h).1
    · obtain ⟨σ, -, rfl⟩ := set_mem_streamActs_iff.mp h
      rw [hr.app] at hw
      cases hw
  · rw [hr.storeInMemory] at hw
    cases hw

/-- A document none of whose items names a path assigns none of its rules. -/
theorem RuleField.silent_acts (hr : RuleField get val ruleOf) (hp : path ≠ "")
    (h : ∀ i ∈ d.items, path ∉ i.streamingNames) {storeOnlyInMemory : Bool} {act : Act}
    (hact : act ∈ d.acts storeOnlyInMemory) : act.assigns val path = none := by
  unfold Document.acts at hact
  rw [List.append_assoc, List.append_assoc, List.mem_append, ← List.append_assoc] at hact
  rcases hact with hact | hact
  · obtain ⟨a, ha, hact⟩ := List.mem_flatMap.mp hact
    rcases List.mem_append.mp hact with hact | hact
    · exact hr.silent_apps hp (Or.inr ⟨a, hact⟩)
    · obtain ⟨i, hi, hact⟩ := List.mem_flatMap.mp hact
      exact hr.silent_apps hp (Or.inl ⟨i, h i (List.mem_flatMap.mpr ⟨a, ha, hi⟩), hact⟩)
  · exact hr.silent_sections hp hact

/-- The acts of an item assign its rule. -/
theorem RuleField.last_item (hr : RuleField get val ruleOf) (hp : path ≠ "")
    (hname : path ∈ item.streamingNames) (hw : ∃ w ∈ item.writes, val w ≠ none) :
    Registers.last (Act.assigns val path) item.acts = some (ruleOf item) := by
  obtain ⟨w, hw, hne⟩ := hw
  refine Registers.last_of_agree ⟨.set path w, (set_mem_item_iff hp).mpr ⟨hname, hw⟩, ?_⟩
    fun act hact a ha => ?_
  · unfold Act.assigns
    rwa [on_set, if_pos rfl]
  · rcases assigns_eq_some_iff.mp ha with ⟨v, rfl, hv⟩ | ⟨-, hv⟩
    · exact hr.writes item v ((set_mem_item_iff hp).mp hact).2 a hv
    · rw [hr.storeInMemory] at hv
      cases hv

/-- **The last item naming a path assigns its rule last.** -/
theorem RuleField.last_acts (hr : RuleField get val ruleOf) (hp : path ≠ "")
    (hlast : LastItem d path item after) (hw : ∃ w ∈ item.writes, val w ≠ none)
    (storeOnlyInMemory : Bool) :
    Registers.last (Act.assigns val path) (d.acts storeOnlyInMemory) = some (ruleOf item) := by
  obtain ⟨before, hitems⟩ := hlast.items
  obtain ⟨s, t, hacts, ht, -⟩ := apps_split hitems
  have hrest : Registers.last (Act.assigns val path) (t ++ (d.flagActs ++ d.storageActs ++
      if storeOnlyInMemory then [Act.storeAll] else [])) = none := by
    rw [Registers.last_eq_none_iff]
    intro act hact
    rcases List.mem_append.mp hact with hact | hact
    · refine hr.silent_apps hp ((ht act hact).imp_left ?_)
      rintro ⟨i, hi, h⟩
      exact ⟨i, hlast.last i hi, h⟩
    · exact hr.silent_sections hp hact
  have hsplit : d.acts storeOnlyInMemory = s ++ item.acts ++ (t ++ (d.flagActs ++ d.storageActs ++
      if storeOnlyInMemory then [Act.storeAll] else [])) := by
    unfold Document.acts
    rw [hacts]
    simp
  rw [hsplit, Registers.last_append _ (s ++ item.acts), hrest, Option.none_or,
    Registers.last_append, hr.last_item hp hlast.names hw]
  rfl

/-- **The last item decides the rules** of a path. -/
theorem RuleField.of_lastItem (hr : RuleField get val ruleOf) (hp : path ≠ "")
    (hlast : LastItem d path item after) (hw : ∃ w ∈ item.writes, val w ≠ none) (P : Platform)
    (storeOnlyInMemory : Bool) (e : Engine) :
    ((run P (d.acts storeOnlyInMemory) e).find path).map get = some (ruleOf item) :=
  hr.find_run hp (hr.last_acts hp hlast hw storeOnlyInMemory) e

end

/-! ## Read off the JSON -/

/-- The streaming items of a document, in document order. -/
def streamingItems (doc : Json) : List Json :=
  (doc.elements "IO_Graph").flatMap fun app => app.elements "streaming"

/-- `path` is the resolved name or dirname of an item. -/
def ItemNames (pre path : String) (item : Json) : Prop :=
  ∃ f, (Lists item "name" f ∨ Lists item "dirname" f) ∧ resolve f pre = path

/-- The text of `committed`, with and without a count. -/
inductive CommittedText (rule : String) : String → Int → Prop where
  | plain : ':' ∉ rule.toList → CommittedText rule rule 0
  | count {ds : String} : ':' ∉ rule.toList → Digits ds →
      CommittedText rule (rule ++ (":" ++ ds)) (digitsValue ds)

/-- The rules an item states, by default `on_termination`, `no_update` and no count. -/
structure StatesRules (item : Json) (commitRule fireRule : String) (closeCount : Int) : Prop where
  committed : (item.get? "committed" = none ∧ commitRule = commitRules.onTermination ∧
      closeCount = 0) ∨
    ∃ text, item.get? "committed" = some (.str text) ∧ CommittedText commitRule text closeCount
  mode : (item.get? "mode" = none ∧ fireRule = fireRules.noUpdate) ∨
    item.get? "mode" = some (.str fireRule)

section
variable {J : Jsoncons} {pre : String}

/-- The paths of an item that is read. -/
theorem mem_streamingNames_iff {item : Json} (h : streamingItem item = true) {i : StreamItem}
    (hread : readStreamItem J pre item = .ok i) (path : String) :
    path ∈ i.streamingNames ↔ ItemNames pre path item := by
  obtain ⟨kind, hkind, hshape, hname⟩ := itemShape_of_streamingItem h
  obtain ⟨-, hpaths, -⟩ := readStreamItem_inv hread
  rw [hkind] at hpaths
  obtain ⟨l, hl⟩ := hshape.paths
  rw [mem_paths_iff hl hpaths]
  constructor
  · rintro ⟨f, hf, hres⟩
    refine ⟨f, ?_, hres⟩
    have hlists : Lists item kind f := ⟨l, hl, hf⟩
    rcases hname with rfl | hnone
    · exact Or.inl hlists
    · rw [← hkind, Json.contains_eq_false_iff.mpr hnone] at hlists
      exact Or.inr hlists
  · rintro ⟨f, hlists, hres⟩
    obtain ⟨l', hl', hf⟩ : Lists item kind f := by
      rcases hlists with hlists | hlists
      · obtain ⟨l', hl', hf⟩ := hlists
        rw [← hkind, if_pos (Json.contains_iff.mpr ⟨_, hl'⟩)]
        exact ⟨l', hl', hf⟩
      · rcases hname with rfl | hnone
        · obtain ⟨l', hl', -⟩ := hlists
          exact absurd (hl'.symm.trans (Schema.get?_of_noAdditionalProperties hshape.known
            (by decide))) (by simp)
        · rwa [← hkind, Json.contains_eq_false_iff.mpr hnone]
    rw [hl] at hl'
    exact ⟨f, strs_inj (Option.some.inj hl') ▸ hf, hres⟩

/-- The rules of an item that is read. -/
theorem statesRules_of_read {item : Json} (h : streamingItem item = true) {i : StreamItem}
    (hread : readStreamItem J pre item = .ok i) :
    StatesRules item i.commitRule i.fireRule i.nClose := by
  obtain ⟨kind, -, hshape, -⟩ := itemShape_of_streamingItem h
  obtain ⟨-, -, hcommitted, hmode, -⟩ := readStreamItem_inv hread
  constructor
  · rcases readCommitted_inv hcommitted with ⟨v, hv, hrule, -⟩ | ⟨hnone, hrule, hcount, -⟩
    · refine Or.inr ?_
      cases hget : item.get? "committed" with
      | none =>
        unfold Json.member at hv
        rw [hget] at hv
        cases hv
      | some w =>
        obtain ⟨text, rfl, htext⟩ := hshape.committed w hget
        rw [Json.member_of_get? hget, liftJson_ok] at hv
        obtain rfl := Except.ok.inj hv
        refine ⟨text, rfl, ?_⟩
        rw [J.asString_str] at hrule
        rcases htext with htext | ⟨ds, hds, rfl⟩
        · have hcolon : ∀ t ∈ dirnameRules, ':' ∉ t.toList := by decide
          rw [readRule_rule htext] at hrule
          obtain ⟨rfl, hzero⟩ := Prod.mk.inj (Except.ok.inj hrule)
          rw [← hzero]
          exact .plain (hcolon _ htext)
        · rw [readRule_count] at hrule
          obtain ⟨n, hn, hpair⟩ := map_eq_ok_iff.mp hrule
          obtain ⟨hr, rfl⟩ := Prod.mk.inj hpair
          rw [stoi_digits hds] at hn
          split at hn
          · rw [← hr, ← Except.ok.inj hn]
            exact .count (by decide) hds
          · cases hn
    · exact Or.inl ⟨Json.contains_eq_false_iff.mp hnone, hrule, hcount⟩
  · unfold readMode at hmode
    cases hget : item.get? "mode" with
    | none =>
      rw [Json.contains_eq_false_iff.mpr hget] at hmode
      exact Or.inl ⟨rfl, (Except.ok.inj hmode).symm⟩
    | some w =>
      obtain ⟨r, rfl, -⟩ := hshape.mode w hget
      rw [if_pos (Json.contains_iff.mpr ⟨_, hget⟩), Json.member_of_get? hget, liftJson_ok, map_ok,
        J.asString_str] at hmode
      exact Or.inr (by rw [Except.ok.inj hmode])

/-- The items of an application that is read. -/
theorem forall₂_items_of_readApp {app : Json} (h : AppShape app) {a : AppSection}
    (hread : readApp J pre app = .ok a) :
    List.Forall₂ (fun item i => streamingItem item = true ∧ readStreamItem J pre item = .ok i)
      (app.elements "streaming") a.items := by
  obtain ⟨-, -, hitems⟩ := readApp_inv hread
  unfold readItems at hitems
  cases hget : app.get? "streaming" with
  | none =>
    rw [Json.contains_eq_false_iff.mpr hget] at hitems
    rw [Json.elements_of_none hget, ← Except.ok.inj hitems]
    exact List.Forall₂.nil
  | some v =>
    obtain ⟨xs, rfl, hxs⟩ := h.streaming v hget
    rw [if_pos (Json.contains_iff.mpr ⟨_, hget⟩), range_arr hget, ok_bind, mapM_eq_ok_iff] at hitems
    rw [Json.elements_of_get? hget]
    exact (List.forall₂_and_left _ _).mpr ⟨hxs, hitems⟩

/-- **The streaming items of a document are read in document order.** -/
theorem forall₂_items_of_readDocument {doc : Json} (h : DocShape doc) {d : Document}
    (hread : readDocument J pre doc = .ok d) :
    List.Forall₂ (fun item i => streamingItem item = true ∧ readStreamItem J pre item = .ok i)
      (streamingItems doc) d.items := by
  obtain ⟨apps, happs, hshape⟩ := h.ioGraph
  obtain ⟨apps', happs', has, -⟩ := readDocument_inv hread
  obtain rfl := Except.ok.inj ((range_arr happs).symm.trans happs')
  have hpairs : List.Forall₂ (fun app a => AppShape app ∧ readApp J pre app = .ok a) apps d.apps :=
    (List.forall₂_and_left _ _).mpr ⟨hshape, mapM_eq_ok_iff.mp has⟩
  unfold streamingItems
  rw [Json.elements_of_get? happs]
  exact List.rel_flatMap hpairs fun app a hread => forall₂_items_of_readApp hread.1 hread.2

end

/-- **The last streaming item wins.** The rules of a path that some item names are those the last
such item states, whatever else the document says. -/
theorem lastItem_rules (J : Jsoncons) (P : Platform) (doc : Json) (pre : String)
    (storeOnlyInMemory : Bool) (e : Engine) (path : String) (before : List Json) (item : Json)
    (after : List Json) (h : parseDoc J P doc pre storeOnlyInMemory = .ok e) (hp : path ≠ "")
    (hitems : streamingItems doc = before ++ item :: after) (hnames : ItemNames pre path item)
    (hlast : ∀ item' ∈ after, ¬ ItemNames pre path item') :
    ∃ entry, e.find path = some entry ∧
      StatesRules item entry.commitRule entry.fireRule entry.commitOnCloseCount := by
  obtain ⟨hacc, -, n, base, d, -, -, hread, rfl⟩ := exists_of_parseDoc_ok h
  have hpairs := forall₂_items_of_readDocument (docShape_of_accepted hacc) hread
  rw [hitems] at hpairs
  obtain ⟨before', i, after', hd, -, ⟨hitem, hi⟩, hafter⟩ := forall₂_split hpairs
  have hlast' : LastItem d path i after' := by
    refine ⟨⟨before', hd⟩, (mem_streamingNames_iff hitem hi path).mpr hnames, fun j hj hmem => ?_⟩
    obtain ⟨item', hitem', hok, hread'⟩ := exists_of_mem_right hafter hj
    exact hlast item' hitem' ((mem_streamingNames_iff hok hread' path).mp hmem)
  have hwrites : ∀ w, w = .commitRule i.commitRule ∨ w = .fireRule i.fireRule ∨
      w = .closeCount i.nClose → w ∈ i.writes := by
    rintro w (rfl | rfl | rfl) <;> exact mem_writes_iff.mpr (by simp)
  have hcommit := ruleField_commitRule.of_lastItem hp hlast' ⟨_, hwrites _ (Or.inl rfl), by
    simp [Write.commitRule?]⟩ P storeOnlyInMemory base
  have hfire := ruleField_fireRule.of_lastItem hp hlast' ⟨_, hwrites _ (Or.inr (Or.inl rfl)), by
    simp [Write.fireRule?]⟩ P storeOnlyInMemory base
  have hcount := ruleField_closeCount.of_lastItem hp hlast' ⟨_, hwrites _ (Or.inr (Or.inr rfl)), by
    simp [Write.closeCount?]⟩ P storeOnlyInMemory base
  obtain ⟨entry, hentry, hrule⟩ := Option.map_eq_some_iff.mp hcommit
  rw [hentry] at hfire hcount
  refine ⟨entry, hentry, ?_⟩
  rw [hrule, Option.some.inj hfire, Option.some.inj hcount]
  exact statesRules_of_read hitem hi

/-- A name item with a close count. -/
def closeItem : Json := .obj [("name", .arr [.str "f"]), ("committed", .str "on_close:2")]

/-- Two items name `f`. The second one counts its closes. -/
theorem closeItem_rules :
    ∃ e, parseDoc jsoncons posix (streamingDocument [fileItem, closeItem]) "" false = .ok e ∧
      ∃ entry, e.find "f" = some entry ∧
        StatesRules closeItem entry.commitRule entry.fireRule entry.commitOnCloseCount := by
  obtain ⟨e, he⟩ : ∃ e, parseDoc jsoncons posix (streamingDocument [fileItem, closeItem]) "" false =
      .ok e := exists_ok_of_thrown (by decide +kernel)
  exact ⟨e, he, lastItem_rules _ _ _ _ _ e "f" [fileItem] closeItem [] he (by decide) rfl
    ⟨"f", Or.inl ⟨["f"], rfl, List.mem_singleton_self _⟩, rfl⟩ (by simp)⟩

end CapioCl
