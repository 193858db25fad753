import CapioCl.Lib.Reading
import CapioCl.Parser

/-!
# A document and what it does

The parser reads and acts in turns. For a document its schema accepts the two come apart: the
document is read into a `Document` (`readDocument`), and the sections are the run of its acts
(`parseSections_eq`). The acts of a document are a list; what the parser does to the store is what
the list does.

* `readDocument_outcome`: what an accepted document must not contain to be readable.
* `parseSections_eq`, `parseV1_eq`, `parseV1_1_eq`: parsing is reading, then running.
-/

namespace CapioCl

open CapioCl.Lib CapioCl.Lib.Reading CapioCl.Parser

/-- An item of `IO_Graph`, its paths resolved. -/
structure AppSection where
  name : String
  inputs : List String
  outputs : List String
  items : List StreamItem
  deriving Repr, DecidableEq

/-- A document, its paths resolved. -/
structure Document where
  apps : List AppSection
  permanent : List String
  exclude : List String
  memory : List String
  fs : List String
  deriving Repr, DecidableEq

/-! ## Reading -/

/-- `paths` of a section that may be missing. -/
def optionalPaths (J : Jsoncons) (pre : String) (j : Json) (key : String) :
    Except Exn (List String) :=
  if j.contains key then paths J pre j key else .ok []

def readItems (J : Jsoncons) (pre : String) (app : Json) : Except Exn (List StreamItem) :=
  if app.contains "streaming" then do (← range app "streaming").mapM (readStreamItem J pre)
  else .ok []

def readApp (J : Jsoncons) (pre : String) (app : Json) : Except Exn AppSection := do
  let name ← (liftJson (app.member "name")).map J.asString
  let inputs ← paths J pre app "input_stream"
  let outputs ← paths J pre app "output_stream"
  let items ← readItems J pre app
  return { name, inputs, outputs, items }

/-- The two lists of `storage`, as they stand. -/
def readStorage (J : Jsoncons) (doc : Json) : Except Exn (List String × List String) :=
  if doc.contains "storage" then do
    let storage ← liftJson (doc.member "storage")
    let memory ← optionalPaths J "" storage "memory"
    let fs ← optionalPaths J "" storage "fs"
    return (memory, fs)
  else .ok ([], [])

def readDocument (J : Jsoncons) (pre : String) (doc : Json) : Except Exn Document := do
  let apps ← (← range doc "IO_Graph").mapM (readApp J pre)
  let permanent ← optionalPaths J pre doc "permanent"
  let exclude ← optionalPaths J pre doc "exclude"
  let (memory, fs) ← readStorage J doc
  return { apps, permanent, exclude, memory, fs }

/-! ## The acts -/

namespace Parser.StreamItem

/-- The acts for one of the paths of an item. -/
def pathActs (item : StreamItem) (path : String) : List Act :=
  (if item.nFiles ≠ 0 then Engine.fileCountActs path item.nFiles else []) ++
    [.set path (.isFile item.isFile), .set path (.commitRule item.commitRule),
      .set path (.fireRule item.fireRule), .set path (.closeCount item.nClose)] ++
    Engine.fileDepsActs path item.fileDeps

def acts (item : StreamItem) : List Act := item.streamingNames.flatMap item.pathActs

/-- The rules are rules of the language. -/
def Valid (item : StreamItem) : Prop :=
  commitRules.Valid item.commitRule ∧ fireRules.Valid item.fireRule

end Parser.StreamItem

/-- `newFile`, then a write. -/
def touch (write : Write) (path : String) : List Act := [.create path, .set path write]

namespace AppSection

/-- The acts of the two streams. -/
def streamActs (app : AppSection) : List Act :=
  app.inputs.flatMap (touch (.app .input (eraseSpaces app.name))) ++
    app.outputs.flatMap (touch (.app .output (eraseSpaces app.name)))

def acts (app : AppSection) : List Act := app.streamActs ++ app.items.flatMap StreamItem.acts

end AppSection

namespace Document

/-- The sections `permanent` and `exclude`. -/
def flagActs (d : Document) : List Act :=
  d.permanent.flatMap (touch (.permanent true)) ++ d.exclude.flatMap (touch (.excluded true))

/-- The section `storage`: memory, then fs. -/
def storageActs (d : Document) : List Act :=
  d.memory.map (fun path => Act.set path (.storeInMemory true)) ++
    d.fs.map (fun path => Act.set path (.storeInMemory false))

def acts (d : Document) (storeOnlyInMemory : Bool) : List Act :=
  d.apps.flatMap AppSection.acts ++ d.flagActs ++ d.storageActs ++
    if storeOnlyInMemory then [.storeAll] else []

end Document

/-! ## Acting after reading -/

theorem run_flatMap (P : Platform) {α : Type} (f : α → List Act) (xs : List α) (e : Engine) :
    xs.foldl (fun e x => run P (f x) e) e = run P (xs.flatMap f) e := by
  induction xs generalizing e with
  | nil => rfl
  | cons x xs ih => rw [List.foldl_cons, ih, List.flatMap_cons, run_append]

theorem applyStreamItem_eq (P : Platform) {item : StreamItem} (h : item.Valid) (e : Engine)
    (path : String) : applyStreamItem P item e path = .ok (run P (item.pathActs path) e) := by
  unfold applyStreamItem StreamItem.pathActs
  rw [run_append, run_append, ← Engine.setFileDeps_eq_run]
  have hcount : (if item.nFiles ≠ 0 then e.setDirectoryFileCount P path item.nFiles else e) =
      run P (if item.nFiles ≠ 0 then Engine.fileCountActs path item.nFiles else []) e := by
    split
    · exact Engine.setDirectoryFileCount_eq_run P path item.nFiles e
    · rfl
  have hkind : ∀ e : Engine, (if item.isFile = true then e.setFile P path
      else e.setDirectory P path) = (Act.set path (.isFile item.isFile)).perform P e := by
    intro e
    cases item.isFile <;> rfl
  dsimp only
  rw [hcount, hkind, Engine.setCommitRule_eq P path h.1, ok_bind, Engine.setFireRule_eq P path h.2,
    ok_bind]
  rfl

theorem foldlM_applyStreamItem (P : Platform) {item : StreamItem} (h : item.Valid)
    (names : List String) (e : Engine) :
    names.foldlM (applyStreamItem P item) e = .ok (run P (names.flatMap item.pathActs) e) := by
  induction names generalizing e with
  | nil => rfl
  | cons path names ih =>
    rw [List.foldlM_cons, applyStreamItem_eq P h, ok_bind, ih, List.flatMap_cons, run_append]

/-! ## Reading an accepted document -/

theorem range_arr {j : Json} {key : String} {xs : List Json} (h : j.get? key = some (.arr xs)) :
    range j key = .ok xs := by
  unfold range
  rw [Json.member_of_get? h]
  rfl

theorem paths_strs (J : Jsoncons) (pre : String) {j : Json} {key : String} {l : List String}
    (h : j.get? key = some (Json.strs l)) :
    paths J pre j key = .ok (l.map fun path => resolve path pre) := by
  unfold paths
  rw [range_arr h, map_ok, List.map_map]
  exact congrArg _ (List.map_congr_left fun path _ => by
    rw [Function.comp_apply, J.asString_str])

theorem optionalPaths_none (J : Jsoncons) (pre : String) {j : Json} {key : String}
    (h : j.get? key = none) : optionalPaths J pre j key = .ok [] := by
  unfold optionalPaths
  rw [Json.contains_eq_false_iff.mpr h]
  rfl

theorem optionalPaths_strs (J : Jsoncons) (pre : String) {j : Json} {key : String}
    {l : List String} (h : j.get? key = some (Json.strs l)) :
    optionalPaths J pre j key = .ok (l.map fun path => resolve path pre) := by
  unfold optionalPaths
  rw [if_pos (Json.contains_iff.mpr ⟨_, h⟩), paths_strs J pre h]

theorem exists_optionalPaths (J : Jsoncons) (pre : String) {j : Json} {key : String}
    (h : OptionalStrs j key) : ∃ l, optionalPaths J pre j key = .ok l := by
  cases hv : j.get? key with
  | none => exact ⟨_, optionalPaths_none J pre hv⟩
  | some v =>
    obtain ⟨l, rfl⟩ := h v hv
    exact ⟨_, optionalPaths_strs J pre hv⟩

/-! ### Streaming items -/

theorem splitColon_rule {t : String} (h : t ∈ dirnameRules) : splitColon t = none := by
  have hall : ∀ t ∈ dirnameRules, splitColon t = none := by decide
  exact hall t h

theorem splitColon_count (ds : String) :
    splitColon (commitRules.onClose ++ (":" ++ ds)) = some (commitRules.onClose, ds) := by
  have hlist : (commitRules.onClose ++ (":" ++ ds)).toList =
      commitRules.onClose.toList ++ ':' :: ds.toList := by
    simp only [String.toList_append]
    rfl
  have hall : ∀ c ∈ commitRules.onClose.toList, (c != ':') = true :=
    List.all_eq_true.mp (by decide)
  unfold splitColon
  rw [hlist, List.dropWhile_append_of_pos hall, List.takeWhile_append_of_pos hall,
    List.dropWhile_cons_of_neg (by simp), List.takeWhile_cons_of_neg (by simp), List.append_nil,
    String.ofList_toList]
  exact congrArg (fun count => some (commitRules.onClose, count)) String.ofList_toList

theorem readRule_rule {t : String} (h : t ∈ dirnameRules) : readRule t = .ok (t, 0) := by
  unfold readRule
  rw [splitColon_rule h]

theorem readRule_count (ds : String) : readRule (commitRules.onClose ++ (":" ++ ds)) =
    (stoi ds).map fun nClose => (commitRules.onClose, nClose) := by
  unfold readRule
  rw [splitColon_count]

theorem valid_of_mem_dirnameRules {t : String} (h : t ∈ dirnameRules) : commitRules.Valid t := by
  have hall : ∀ t ∈ dirnameRules, commitRules.Valid t := by decide
  exact hall t h

/-- When an accepted item can be read: its close count is an `int`, and the `n_files` of a
directory converts. -/
structure ItemReadable (J : Jsoncons) (item : Json) : Prop where
  closeCount : ∀ ds, Digits ds →
    item.get? "committed" = some (.str (commitRules.onClose ++ (":" ++ ds))) →
    digitsValue ds ≤ intMax
  nFiles : item.get? "name" = none → ∀ v, item.get? "n_files" = some v → ∃ n, J.asInt64 v = some n

/-- What `committed` says, when the count is an `int`. -/
theorem readCommitted_ok (J : Jsoncons) (pre : String) {kind : String} {item : Json}
    (h : ItemShape kind dirnameRules item)
    (hcount : ∀ ds, Digits ds →
      item.get? "committed" = some (.str (commitRules.onClose ++ (":" ++ ds))) →
      digitsValue ds ≤ intMax) :
    ∃ rule n deps, readCommitted J pre item = .ok (rule, n, deps) ∧ commitRules.Valid rule := by
  unfold readCommitted
  cases hv : item.get? "committed" with
  | none =>
    rw [Json.contains_eq_false_iff.mpr hv]
    exact ⟨_, _, _, rfl, by decide⟩
  | some v =>
    obtain ⟨t, rfl, ht⟩ := h.committed v hv
    rw [if_pos (Json.contains_iff.mpr ⟨_, hv⟩), Json.member_of_get? hv, liftJson_ok, ok_bind,
      J.asString_str]
    rcases ht with ht | ⟨ds, hds, rfl⟩
    · dsimp only
      rw [readRule_rule ht, ok_bind]
      unfold readFileDeps
      by_cases hfile : t = commitRules.onFile
      · subst hfile
        obtain ⟨deps, hdeps⟩ := h.onFile hv
        obtain ⟨l, rfl⟩ := h.fileDeps deps hdeps
        rw [if_pos rfl, paths_strs J pre hdeps]
        exact ⟨_, _, _, rfl, valid_of_mem_dirnameRules ht⟩
      · rw [if_neg hfile]
        exact ⟨_, _, _, rfl, valid_of_mem_dirnameRules ht⟩
    · dsimp only
      rw [readRule_count, stoi_digits hds, if_pos (hcount ds hds hv), map_ok, ok_bind]
      exact ⟨_, _, _, rfl, Or.inl rfl⟩

/-- A count beyond `INT_MAX` is the only thing that can be wrong. -/
theorem readCommitted_error (J : Jsoncons) (pre : String) {item : Json} {ds : String}
    (hds : Digits ds)
    (hv : item.get? "committed" = some (.str (commitRules.onClose ++ (":" ++ ds))))
    (hlarge : ¬ digitsValue ds ≤ intMax) :
    readCommitted J pre item = .error (.outOfRange "stoi") := by
  unfold readCommitted
  rw [if_pos (Json.contains_iff.mpr ⟨_, hv⟩), Json.member_of_get? hv, liftJson_ok, ok_bind,
    J.asString_str]
  dsimp only
  rw [readRule_count, stoi_digits hds, if_neg hlarge, map_error, error_bind]

theorem readMode_ok (J : Jsoncons) {kind : String} {rules : List String} {item : Json}
    (h : ItemShape kind rules item) : ∃ r, readMode J item = .ok r ∧ fireRules.Valid r := by
  unfold readMode
  cases hv : item.get? "mode" with
  | none =>
    rw [Json.contains_eq_false_iff.mpr hv]
    exact ⟨_, rfl, by decide⟩
  | some v =>
    obtain ⟨r, rfl, hr⟩ := h.mode v hv
    rw [if_pos (Json.contains_iff.mpr ⟨_, hv⟩), Json.member_of_get? hv, liftJson_ok, map_ok,
      J.asString_str]
    exact ⟨r, rfl, hr⟩

theorem readNFiles_ok_iff (J : Jsoncons) (item : Json) :
    (∃ n, readNFiles J item (item.contains "name") = .ok n) ↔
      (item.get? "name" = none → ∀ v, item.get? "n_files" = some v →
        ∃ n, J.asInt64 v = some n) := by
  unfold readNFiles
  cases hname : item.get? "name" with
  | some w =>
    rw [Json.contains_iff.mpr ⟨w, hname⟩]
    simp
  | none =>
    rw [Json.contains_eq_false_iff.mpr hname]
    cases hv : item.get? "n_files" with
    | none =>
      rw [Json.contains_eq_false_iff.mpr hv]
      simp
    | some v =>
      rw [Json.contains_iff.mpr ⟨v, hv⟩, Json.member_of_get? hv]
      cases hn : J.asInt64 v <;> simp [hn]

/-- The errors that reading an accepted document can raise. -/
def ReadError (ex : Exn) : Prop := ex = .outOfRange "stoi" ∨ ex = .jsonError .notAnInteger

theorem readNFiles_error (J : Jsoncons) {item : Json} {ex : Exn}
    (h : readNFiles J item (item.contains "name") = .error ex) :
    ex = .jsonError .notAnInteger := by
  unfold readNFiles at h
  split at h
  · rename_i hc
    rw [Bool.and_eq_true] at hc
    obtain ⟨v, hv⟩ := Json.contains_iff.mp hc.1
    rw [Json.member_of_get? hv, liftJson_ok, ok_bind] at h
    split at h
    · exact absurd h (by simp)
    · exact (Except.error.inj h).symm
  · exact absurd h (by simp)

/-- The two kinds of accepted items, both read under the rules of a directory. -/
theorem itemShape_of_streamingItem {item : Json} (h : streamingItem item = true) :
    ∃ kind, (if item.contains "name" = true then "name" else "dirname") = kind ∧
      ItemShape kind dirnameRules item ∧ (kind = "name" ∨ item.get? "name" = none) := by
  rcases (streamingItem_iff item).mp h with hs | hs
  · obtain ⟨l, hl⟩ := hs.paths
    refine ⟨"name", if_pos (Json.contains_iff.mpr ⟨_, hl⟩), { hs with committed := ?_ }, Or.inl rfl⟩
    exact fun v hv => (hs.committed v hv).imp fun t ht => ⟨ht.1, ht.2.mono (by decide)⟩
  · have hnone : item.get? "name" = none :=
      Schema.get?_of_noAdditionalProperties hs.known (by decide)
    refine ⟨"dirname", if_neg ?_, hs, Or.inr hnone⟩
    rw [Json.contains_eq_false_iff.mpr hnone]
    exact Bool.false_ne_true

theorem readStreamItem_outcome (J : Jsoncons) (pre : String) {item : Json}
    (h : streamingItem item = true) :
    (ItemReadable J item ∧ ∃ it, readStreamItem J pre item = .ok it ∧ it.Valid) ∨
      (¬ ItemReadable J item ∧ ∃ ex, readStreamItem J pre item = .error ex ∧ ReadError ex) := by
  obtain ⟨kind, hkind, hshape, -⟩ := itemShape_of_streamingItem h
  obtain ⟨l, hl⟩ := hshape.paths
  obtain ⟨fire, hfire, hfv⟩ := readMode_ok J hshape
  unfold readStreamItem
  dsimp only
  rw [hkind, paths_strs J pre hl, ok_bind, hfire]
  by_cases hcount : ∀ ds, Digits ds →
      item.get? "committed" = some (.str (commitRules.onClose ++ (":" ++ ds))) →
      digitsValue ds ≤ intMax
  · obtain ⟨rule, n, deps, hc, hrv⟩ := readCommitted_ok J pre hshape hcount
    rw [hc]
    simp only [ok_bind]
    cases hn : readNFiles J item (item.contains "name") with
    | ok m =>
      exact Or.inl ⟨⟨hcount, (readNFiles_ok_iff J item).mp ⟨m, hn⟩⟩, _, rfl, hrv, hfv⟩
    | error ex =>
      refine Or.inr ⟨fun hr => ?_, ex, rfl, Or.inr (readNFiles_error J hn)⟩
      obtain ⟨m, hm⟩ := (readNFiles_ok_iff J item).mpr hr.nFiles
      rw [hn] at hm
      exact absurd hm (by simp)
  · refine Or.inr ⟨fun hr => hcount hr.closeCount, .outOfRange "stoi", ?_, Or.inl rfl⟩
    push Not at hcount
    obtain ⟨ds, hds, hv, hlarge⟩ := hcount
    rw [readCommitted_error J pre hds hv (not_le.mpr hlarge)]
    rfl

/-! ### Applications and documents -/

/-- When the items of an application can be read. -/
def AppReadable (J : Jsoncons) (app : Json) : Prop :=
  ∀ items, app.get? "streaming" = some (.arr items) → ∀ item ∈ items, ItemReadable J item

/-- When a document can be read. -/
def DocReadable (J : Jsoncons) (doc : Json) : Prop :=
  ∀ apps, doc.get? "IO_Graph" = some (.arr apps) → ∀ app ∈ apps, AppReadable J app

/-- A list is read when its elements are. -/
theorem mapM_outcome {α β : Type} {f : α → Except Exn β} {Good : α → Prop} {Valid : β → Prop}
    {xs : List α}
    (h : ∀ x ∈ xs, (Good x ∧ ∃ y, f x = .ok y ∧ Valid y) ∨
      (¬ Good x ∧ ∃ ex, f x = .error ex ∧ ReadError ex)) :
    ((∀ x ∈ xs, Good x) ∧ ∃ ys, xs.mapM f = .ok ys ∧ ∀ y ∈ ys, Valid y) ∨
      (¬ (∀ x ∈ xs, Good x) ∧ ∃ ex, xs.mapM f = .error ex ∧ ReadError ex) := by
  cases hxs : xs.mapM f with
  | ok ys =>
    have hgood : ∀ x ∈ xs, Good x ∧ ∃ y, f x = .ok y ∧ Valid y := by
      intro x hx
      obtain ⟨y, hy⟩ := exists_mapM_iff.mp ⟨ys, hxs⟩ x hx
      rcases h x hx with hg | ⟨-, ex, he, -⟩
      · exact hg
      · rw [hy] at he
        exact absurd he (by simp)
    refine Or.inl ⟨fun x hx => (hgood x hx).1, ys, rfl, fun y hy => ?_⟩
    obtain ⟨x, hx, hxy⟩ := mem_of_mapM hxs hy
    obtain ⟨-, y', hy', hv⟩ := hgood x hx
    rwa [Except.ok.inj (hxy.symm.trans hy')]
  | error ex =>
    obtain ⟨x, hx, he⟩ := mapM_eq_error hxs
    rcases h x hx with ⟨-, y, hy, -⟩ | ⟨hbad, ex', he', hread⟩
    · rw [he] at hy
      exact absurd hy (by simp)
    · refine Or.inr ⟨fun hall => hbad (hall x hx), ex, rfl, ?_⟩
      rwa [Except.error.inj (he.symm.trans he')]

/-- The items of an application are rules of the language. -/
def AppSection.Valid (app : AppSection) : Prop := ∀ item ∈ app.items, item.Valid

theorem readApp_outcome (J : Jsoncons) (pre : String) {app : Json} (h : AppShape app) :
    (AppReadable J app ∧ ∃ a, readApp J pre app = .ok a ∧ a.Valid) ∨
      (¬ AppReadable J app ∧ ∃ ex, readApp J pre app = .error ex ∧ ReadError ex) := by
  obtain ⟨n, hn⟩ := h.name
  obtain ⟨i, hi⟩ := h.inputs
  obtain ⟨o, ho⟩ := h.outputs
  unfold readApp
  rw [Json.member_of_get? hn, liftJson_ok, map_ok, ok_bind, paths_strs J pre hi, ok_bind,
    paths_strs J pre ho, ok_bind]
  unfold readItems
  cases hs : app.get? "streaming" with
  | none =>
    rw [Json.contains_eq_false_iff.mpr hs]
    exact Or.inl ⟨fun items hitems => absurd (hs.symm.trans hitems) (by simp), _, rfl,
      fun _ hitem => absurd hitem (by simp)⟩
  | some v =>
    obtain ⟨xs, rfl, hxs⟩ := h.streaming v hs
    rw [if_pos (Json.contains_iff.mpr ⟨_, hs⟩), range_arr hs, ok_bind]
    rcases mapM_outcome fun x hx => readStreamItem_outcome J pre (hxs x hx) with
      ⟨hgood, ys, hys, hv⟩ | ⟨hbad, ex, hex, hread⟩
    · refine Or.inl ⟨fun items hitems => ?_, ⟨J.asString (.str n), _, _, ys⟩,
        by rw [hys]; rfl, hv⟩
      rwa [← Json.arr.inj (Option.some.inj (hs.symm.trans hitems))]
    · exact Or.inr ⟨fun hall => hbad (hall xs hs), ex, by rw [hex]; rfl, hread⟩

theorem exists_readStorage (J : Jsoncons) {doc : Json} (h : DocShape doc) :
    ∃ s, readStorage J doc = .ok s := by
  unfold readStorage
  cases hs : doc.get? "storage" with
  | none =>
    rw [Json.contains_eq_false_iff.mpr hs]
    exact ⟨_, rfl⟩
  | some v =>
    obtain ⟨m, hm⟩ := exists_optionalPaths J "" (h.storage v hs).memory
    obtain ⟨f, hf⟩ := exists_optionalPaths J "" (h.storage v hs).fs
    rw [if_pos (Json.contains_iff.mpr ⟨_, hs⟩), Json.member_of_get? hs, liftJson_ok, ok_bind, hm,
      ok_bind, hf]
    exact ⟨_, rfl⟩

/-- **When an accepted document is read**, and which errors are raised when it is not. -/
theorem readDocument_outcome (J : Jsoncons) (pre : String) {doc : Json} (h : DocShape doc) :
    (DocReadable J doc ∧ ∃ d, readDocument J pre doc = .ok d ∧ ∀ app ∈ d.apps, app.Valid) ∨
      (¬ DocReadable J doc ∧ ∃ ex, readDocument J pre doc = .error ex ∧ ReadError ex) := by
  obtain ⟨apps, happs, hshape⟩ := h.ioGraph
  obtain ⟨p, hp⟩ := exists_optionalPaths J pre h.permanent
  obtain ⟨x, hx⟩ := exists_optionalPaths J pre h.exclude
  obtain ⟨s, hs⟩ := exists_readStorage J h
  unfold readDocument
  rw [range_arr happs, ok_bind]
  rcases mapM_outcome fun app happ => readApp_outcome J pre (hshape app happ) with
    ⟨hgood, ys, hys, hv⟩ | ⟨hbad, ex, hex, hread⟩
  · rw [hys, ok_bind, hp, ok_bind, hx, ok_bind, hs]
    refine Or.inl ⟨fun apps' happs' => ?_, _, rfl, hv⟩
    rwa [← Json.arr.inj (Option.some.inj (happs.symm.trans happs'))]
  · exact Or.inr ⟨fun hall => hbad (hall apps happs), ex, by rw [hex]; rfl, hread⟩

/-! ## Parsing is reading, then running -/

theorem parseStreamItem_eq (J : Jsoncons) (P : Platform) (pre : String) {item : Json}
    (h : streamingItem item = true) (e : Engine) :
    parseStreamItem J P pre e item =
      (readStreamItem J pre item).map fun it => run P it.acts e := by
  unfold parseStreamItem
  rcases readStreamItem_outcome J pre h with ⟨-, it, hit, hv⟩ | ⟨-, ex, hex, -⟩
  · rw [hit, ok_bind, foldlM_applyStreamItem P hv]
    rfl
  · rw [hex]
    rfl

/-- The loop over a stream. The name is stripped by the first call that has a path. -/
theorem foldl_parseStream (J : Jsoncons) (P : Platform) (pre : String) (σ : Stream)
    (l : List String) (e : Engine) (name : String) :
    let s := (l.map Json.str).foldl (parseStream J P pre (Engine.addApp σ)) (e, name)
    s.1 = run P ((l.map fun path => resolve path pre).flatMap
        (touch (.app σ (eraseSpaces name)))) e ∧ eraseSpaces s.2 = eraseSpaces name := by
  induction l generalizing e name with
  | nil => exact ⟨rfl, rfl⟩
  | cons path l ih =>
    have hstep : (parseStream J P pre (Engine.addApp σ) (e, name) (.str path)).1 =
        run P (touch (.app σ (eraseSpaces name)) (resolve path pre)) e := by
      unfold parseStream
      rw [J.asString_str, Engine.addApp_eq]
      rfl
    have hname : eraseSpaces (parseStream J P pre (Engine.addApp σ) (e, name) (.str path)).2 =
        eraseSpaces name := Engine.eraseSpaces_addApp σ P _ name _
    obtain ⟨h1, h2⟩ := ih
      (parseStream J P pre (Engine.addApp σ) (e, name) (.str path)).1
      (parseStream J P pre (Engine.addApp σ) (e, name) (.str path)).2
    dsimp only
    rw [List.map_cons, List.foldl_cons, List.map_cons, List.flatMap_cons, run_append, ← hstep,
      ← hname]
    exact ⟨h1, h2⟩

theorem parseApp_eq (J : Jsoncons) (P : Platform) (pre : String) {app : Json} (h : AppShape app)
    (e : Engine) : parseApp J P pre e app = (readApp J pre app).map fun a => run P a.acts e := by
  obtain ⟨n, hn⟩ := h.name
  obtain ⟨i, hi⟩ := h.inputs
  obtain ⟨o, ho⟩ := h.outputs
  unfold parseApp readApp
  rw [Json.member_of_get? hn, liftJson_ok, ok_bind, range_arr hi, ok_bind, range_arr ho, map_ok,
    ok_bind, paths_strs J pre hi, ok_bind, paths_strs J pre ho, ok_bind, J.asString_str]
  obtain ⟨hin, hname⟩ := foldl_parseStream J P pre .input i e n
  obtain ⟨hout, -⟩ := foldl_parseStream J P pre .output o
    ((i.map Json.str).foldl (parseStream J P pre (Engine.addApp .input)) (e, n)).1
    ((i.map Json.str).foldl (parseStream J P pre (Engine.addApp .input)) (e, n)).2
  rw [hname] at hout
  have hstreams : ((o.map Json.str).foldl (parseStream J P pre Engine.addProducer)
      ((i.map Json.str).foldl (parseStream J P pre Engine.addConsumer) (e, n))).1 =
      run P (AppSection.streamActs ⟨n, i.map fun path => resolve path pre,
        o.map fun path => resolve path pre, []⟩) e := by
    unfold AppSection.streamActs
    rw [run_append, ← hin]
    exact hout
  dsimp only [Json.strs]
  unfold readItems
  cases hs : app.get? "streaming" with
  | none =>
    rw [Json.contains_eq_false_iff.mpr hs]
    simp only [Bool.false_eq_true, if_false, ok_bind, pure_eq_ok, map_ok]
    rw [hstreams]
    unfold AppSection.acts
    rw [List.flatMap_nil, List.append_nil]
  | some v =>
    obtain ⟨xs, rfl, hxs⟩ := h.streaming v hs
    rw [Json.contains_iff.mpr ⟨_, hs⟩, range_arr hs]
    simp only [if_true, ok_bind]
    rw [hstreams, foldlM_read _ fun x hx s => parseStreamItem_eq J P pre (hxs x hx) s]
    cases xs.mapM (readStreamItem J pre) with
    | error ex => rfl
    | ok items =>
      simp only [map_ok, ok_bind, pure_eq_ok]
      rw [run_flatMap]
      unfold AppSection.acts
      rw [run_append]
      rfl

theorem foldl_touch (P : Platform) (write : Write) (f : String → Engine → Engine)
    (hf : ∀ path e, f path e = run P (touch write path) e) (l : List String) (e : Engine) :
    l.foldl (fun e path => f path e) e = run P (l.flatMap (touch write)) e := by
  rw [← run_flatMap]
  exact congrArg (fun g => l.foldl g e) (funext fun e => funext fun path => hf path e)

theorem parseFlags_eq (J : Jsoncons) (P : Platform) (pre : String) (doc : Json) (key : String)
    (write : Write) (mark : String → Engine → Engine)
    (hmark : ∀ path e, mark path e = run P (touch write path) e) (e : Engine) :
    parseFlags J pre doc key mark e =
      (optionalPaths J pre doc key).map fun l => run P (l.flatMap (touch write)) e := by
  unfold parseFlags optionalPaths
  split
  · cases paths J pre doc key with
    | error ex => rfl
    | ok l => exact congrArg Except.ok (foldl_touch P write mark hmark l e)
  · rfl

theorem parsePermanent_eq (J : Jsoncons) (P : Platform) (pre : String) (doc : Json) (e : Engine) :
    parsePermanent J P pre doc e = (optionalPaths J pre doc "permanent").map fun l =>
      run P (l.flatMap (touch (.permanent true))) e :=
  parseFlags_eq J P pre doc "permanent" (.permanent true)
    (fun path e => (e.newFile P path).setPermanent P path true) (fun _ _ => rfl) e

theorem parseExclude_eq (J : Jsoncons) (P : Platform) (pre : String) (doc : Json) (e : Engine) :
    parseExclude J P pre doc e = (optionalPaths J pre doc "exclude").map fun l =>
      run P (l.flatMap (touch (.excluded true))) e :=
  parseFlags_eq J P pre doc "exclude" (.excluded true)
    (fun path e => (e.newFile P path).setExclude P path true) (fun _ _ => rfl) e

theorem resolve_empty (path : String) : resolve path "" = path := by
  unfold resolve
  rw [if_pos rfl]

theorem parseStorageList_eq (J : Jsoncons) (P : Platform) (storage : Json) (key : String)
    (value : Bool) (mark : String → Engine → Engine)
    (hmark : ∀ path e, mark path e = (Act.set path (.storeInMemory value)).perform P e)
    (e : Engine) : parseStorageList J storage key mark e =
      (optionalPaths J "" storage key).map fun l =>
        run P (l.map fun path => Act.set path (.storeInMemory value)) e := by
  unfold parseStorageList optionalPaths paths
  split
  · cases range storage key with
    | error ex => rfl
    | ok l =>
      refine congrArg Except.ok ?_
      simp only [run, List.foldl_map, resolve_empty, hmark]
  · rfl

theorem parseStorage_eq (J : Jsoncons) (P : Platform) (doc : Json) (e : Engine) :
    parseStorage J P doc e = (readStorage J doc).map fun s =>
      run P (s.1.map (fun path => Act.set path (.storeInMemory true)) ++
        s.2.map (fun path => Act.set path (.storeInMemory false))) e := by
  unfold parseStorage readStorage
  split
  · cases liftJson (doc.member "storage") with
    | error ex => rfl
    | ok storage =>
      rw [ok_bind, ok_bind, parseStorageList_eq J P storage "memory" true
        (fun f e => e.setStoreFileInMemory P f) fun _ _ => rfl]
      cases optionalPaths J "" storage "memory" with
      | error ex => rfl
      | ok memory =>
        rw [map_ok, ok_bind, ok_bind, parseStorageList_eq J P storage "fs" false
          (fun f e => e.setStoreFileInFileSystem P f) fun _ _ => rfl]
        cases optionalPaths J "" storage "fs" with
        | error ex => rfl
        | ok fs =>
          refine congrArg Except.ok ?_
          dsimp only
          rw [run_append]
  · rfl

/-- **The sections of an accepted document are read and then run.** -/
theorem parseSections_eq (J : Jsoncons) (P : Platform) {doc : Json} (h : DocShape doc)
    (pre : String) (storeOnlyInMemory : Bool) (e : Engine) :
    parseSections J P doc pre storeOnlyInMemory e =
      (readDocument J pre doc).map fun d => run P (d.acts storeOnlyInMemory) e := by
  obtain ⟨apps, happs, hshape⟩ := h.ioGraph
  unfold parseSections readDocument
  rw [range_arr happs, ok_bind, ok_bind,
    foldlM_read e fun app happ s => parseApp_eq J P pre (hshape app happ) s]
  cases apps.mapM (readApp J pre) with
  | error ex => rfl
  | ok as =>
    rw [map_ok, ok_bind, ok_bind, run_flatMap]
    rw [parsePermanent_eq]
    cases optionalPaths J pre doc "permanent" with
    | error ex => rfl
    | ok permanent =>
      rw [map_ok, ok_bind, ok_bind, parseExclude_eq]
      cases optionalPaths J pre doc "exclude" with
      | error ex => rfl
      | ok exclude =>
        rw [map_ok, ok_bind, ok_bind, parseStorage_eq]
        cases readStorage J doc with
        | error ex => rfl
        | ok s =>
          refine congrArg Except.ok ?_
          unfold Document.acts Document.flagActs Document.storageActs
          simp only [run_append]
          cases storeOnlyInMemory <;> rfl

/-! ## The version parsers -/

/-- An engine with a name and no entries yet. -/
structure Fresh (name : String) (e : Engine) : Prop where
  name : e.workflowName = name
  storeAll : e.storeAllInMemory = false
  entries : e.capioClEntries = ∅

theorem Fresh.find {name : String} {e : Engine} (h : Fresh name e) (k : String) :
    e.find k = none := Engine.find_of_empty h.entries k

theorem useDefaultConfiguration_fresh {name : String} {e : Engine} (h : Fresh name e) :
    ∃ e', e.useDefaultConfiguration = .ok e' ∧ Fresh name e' := by
  obtain ⟨e', he', hname, hstore, hentries⟩ := e.exists_useDefaultConfiguration
  exact ⟨e', he', hname.trans h.name, hstore.trans h.storeAll, hentries.trans h.entries⟩

/-- The configuration a document names is read and its backend registered. A document that names
none uses the defaults. -/
def ConfigurationLoads (P : Platform) (doc : Json) : Prop :=
  ∀ path, doc.get? "configuration" = some (.str path) →
    ∃ c, Configuration.load P path ∅ = .ok c ∧ ∃ m, Engine.multicastBackend c = .ok m

theorem loadConfiguration_ok {P : Platform} {path name : String} {e : Engine}
    {c : Configuration} {m : List MonitorBackend} (h : Fresh name e)
    (hload : e.configuration.load P path = .ok c) (hm : Engine.multicastBackend c = .ok m) :
    ∃ e', e.loadConfiguration P path = .ok e' ∧ Fresh name e' := by
  unfold Engine.loadConfiguration
  simp only [hload, hm, ok_bind, pure_eq_ok]
  exact ⟨_, rfl, h.name, h.storeAll, h.entries⟩

/-- **`parse_v1`** validates, reads and runs. -/
theorem parseV1_eq (J : Jsoncons) (P : Platform) (doc : Json) :
    (schemaV1 doc = false ∧ ∀ pre storeOnlyInMemory, parseV1 J P doc pre storeOnlyInMemory =
      .error (.parserException "JSON validation failed!")) ∨
    (schemaV1 doc = true ∧ ∃ n base, doc.get? "name" = some (.str n) ∧ Fresh n base ∧
      ∀ pre storeOnlyInMemory, parseV1 J P doc pre storeOnlyInMemory =
        (readDocument J pre doc).map fun d => run P (d.acts storeOnlyInMemory) base) := by
  have hcreate : ∃ e, Engine.create P true = .ok e ∧ Fresh e.workflowName e := by
    have hnew : Fresh (P.workflowNameEnv.getD defaultWfName)
        ({ workflowName := P.workflowNameEnv.getD defaultWfName } : Engine) := ⟨rfl, rfl, rfl⟩
    obtain ⟨e, he, hf⟩ := useDefaultConfiguration_fresh hnew
    exact ⟨e, he, rfl, hf.storeAll, hf.entries⟩
  obtain ⟨e, he, hf⟩ := hcreate
  obtain ⟨e', he', hf'⟩ := useDefaultConfiguration_fresh hf
  unfold parseV1 validateJson
  simp only [he, he', ok_bind]
  cases hv : schemaV1 doc with
  | false => exact Or.inl ⟨rfl, fun _ _ => rfl⟩
  | true =>
    have hshape := ((schemaV1_iff doc).mp hv).1
    obtain ⟨n, hn⟩ := hshape.name
    refine Or.inr ⟨rfl, n, e'.setWorkflowName n, hn, ⟨rfl, hf'.storeAll, hf'.entries⟩,
      fun pre storeOnlyInMemory => ?_⟩
    rw [if_pos rfl, ok_bind, Json.member_of_get? hn, liftJson_ok, ok_bind, J.asString_str]
    exact parseSections_eq J P hshape pre storeOnlyInMemory _

/-- The error with which a configuration file fails. -/
def ConfigurationFails (P : Platform) (path : String) (ex : Exn) : Prop :=
  Configuration.load P path ∅ = .error ex ∨
    ∃ c, Configuration.load P path ∅ = .ok c ∧ Engine.multicastBackend c = .error ex

theorem ConfigurationFails.not_loads {P : Platform} {doc : Json} {path : String} {ex : Exn}
    (h : ConfigurationFails P path ex) (hpath : doc.get? "configuration" = some (.str path)) :
    ¬ ConfigurationLoads P doc := by
  intro hloads
  obtain ⟨c, hload, m, hm⟩ := hloads path hpath
  rcases h with h | ⟨c', h, hm'⟩
  · exact absurd (hload.symm.trans h) (by simp)
  · rw [← Except.ok.inj (hload.symm.trans h), hm] at hm'
    exact absurd hm' (by simp)

/-- The configuration of a version 1.1 document is loaded, or its error raised. -/
theorem configure_outcome (J : Jsoncons) {P : Platform} {doc : Json} {name : String} {e : Engine}
    (h : Fresh name e) (hempty : e.configuration = ∅)
    (hconf : ∀ v, doc.get? "configuration" = some v → ∃ path, v = .str path) :
    (ConfigurationLoads P doc ∧ ∃ base, configure J P doc e = .ok base ∧ Fresh name base) ∨
      ∃ path ex, doc.get? "configuration" = some (.str path) ∧ ConfigurationFails P path ex ∧
        configure J P doc e = .error ex := by
  unfold configure
  cases hpath : doc.get? "configuration" with
  | none =>
    obtain ⟨base, hbase, hfresh⟩ := useDefaultConfiguration_fresh h
    rw [Json.contains_eq_false_iff.mpr hpath, if_neg Bool.false_ne_true]
    exact Or.inl ⟨fun path hp => absurd (hpath.symm.trans hp) (by simp), base, hbase, hfresh⟩
  | some v =>
    obtain ⟨path, rfl⟩ := hconf v hpath
    simp only [Json.contains_iff.mpr ⟨_, hpath⟩, if_true, Json.member_of_get? hpath, liftJson_ok,
      ok_bind, J.asString_str]
    cases hload : Configuration.load P path ∅ with
    | error ex =>
      refine Or.inr ⟨path, ex, rfl, Or.inl hload, ?_⟩
      unfold Engine.loadConfiguration
      rw [hempty, hload]
      rfl
    | ok c =>
      cases hm : Engine.multicastBackend c with
      | error ex =>
        refine Or.inr ⟨path, ex, rfl, Or.inr ⟨c, hload, hm⟩, ?_⟩
        unfold Engine.loadConfiguration
        rw [hempty, hload, ok_bind, hm]
        rfl
      | ok m =>
        obtain ⟨base, hbase, hfresh⟩ := loadConfiguration_ok h (by rw [hempty]; exact hload) hm
        refine Or.inl ⟨fun path' hp => ?_, base, hbase, hfresh⟩
        rw [← Json.str.inj (Option.some.inj (hpath.symm.trans hp))]
        exact ⟨c, hload, m, hm⟩

/-- **`parse_v1_1`** validates, loads the configuration, reads and runs. -/
theorem parseV1_1_eq (J : Jsoncons) (P : Platform) (doc : Json) :
    (schemaV1_1 doc = false ∧ ∀ pre storeOnlyInMemory, parseV1_1 J P doc pre storeOnlyInMemory =
      .error (.parserException "JSON validation failed!")) ∨
    (schemaV1_1 doc = true ∧ ∃ n, doc.get? "name" = some (.str n) ∧
      ((ConfigurationLoads P doc ∧ ∃ base, Fresh n base ∧
        ∀ pre storeOnlyInMemory, parseV1_1 J P doc pre storeOnlyInMemory =
          (readDocument J pre doc).map fun d => run P (d.acts storeOnlyInMemory) base) ∨
      (¬ ConfigurationLoads P doc ∧ ∃ path ex, doc.get? "configuration" = some (.str path) ∧
        ConfigurationFails P path ex ∧
        ∀ pre storeOnlyInMemory, parseV1_1 J P doc pre storeOnlyInMemory = .error ex))) := by
  have hcreate : ∃ e, Engine.create P false = .ok e ∧ Fresh e.workflowName e ∧
      e.configuration = ∅ := ⟨_, rfl, ⟨rfl, rfl, rfl⟩, rfl⟩
  obtain ⟨e, he, hf, hc⟩ := hcreate
  unfold parseV1_1 validateJson
  simp only [he, ok_bind]
  cases hv : schemaV1_1 doc with
  | false => exact Or.inl ⟨rfl, fun _ _ => rfl⟩
  | true =>
    obtain ⟨hshape, -, hconf, -⟩ := (schemaV1_1_iff doc).mp hv
    obtain ⟨n, hn⟩ := hshape.name
    have hf' : Fresh n (e.setWorkflowName n) := ⟨rfl, hf.storeAll, hf.entries⟩
    refine Or.inr ⟨rfl, n, hn, ?_⟩
    simp only [if_true, ok_bind, Json.member_of_get? hn, liftJson_ok, J.asString_str]
    rcases configure_outcome J hf' hc hconf with
      ⟨hloads, base, hbase, hfresh⟩ | ⟨path, ex, hpath, hfails, herror⟩
    · refine Or.inl ⟨hloads, base, hfresh, fun pre flag => ?_⟩
      rw [hbase, ok_bind]
      exact parseSections_eq J P hshape pre flag base
    · refine Or.inr ⟨hfails.not_loads hpath, path, ex, hpath, hfails, fun _ _ => ?_⟩
      rw [herror]
      rfl

/-- The schema of the version it asks for accepts the document. -/
def Accepted (J : Jsoncons) (doc : Json) : Prop :=
  (release J doc = versionV1 ∧ schemaV1 doc = true) ∨
    (release J doc = versionV1_1 ∧ schemaV1_1 doc = true)

theorem docShape_of_accepted {J : Jsoncons} {doc : Json} (h : Accepted J doc) : DocShape doc := by
  rcases h with ⟨-, h⟩ | ⟨-, h⟩
  · exact ((schemaV1_iff doc).mp h).1
  · exact ((schemaV1_1_iff doc).mp h).1

/-- A version 1 document that the schema accepts names no configuration. -/
theorem get?_configuration_of_schemaV1 {doc : Json} (h : schemaV1 doc = true) :
    doc.get? "configuration" = none :=
  Schema.get?_of_noAdditionalProperties ((schemaV1_iff doc).mp h).2 (by decide)

/-- **What a parse of a document is**, whatever its version. -/
theorem parseDoc_cases (J : Jsoncons) (P : Platform) (doc : Json) :
    (¬ Accepted J doc ∧ ∃ msg, ∀ pre storeOnlyInMemory,
      parseDoc J P doc pre storeOnlyInMemory = .error (.parserException msg)) ∨
    (Accepted J doc ∧ ConfigurationLoads P doc ∧ ∃ n base, doc.get? "name" = some (.str n) ∧
      Fresh n base ∧ ∀ pre storeOnlyInMemory, parseDoc J P doc pre storeOnlyInMemory =
        (readDocument J pre doc).map fun d => run P (d.acts storeOnlyInMemory) base) ∨
    (Accepted J doc ∧ ¬ ConfigurationLoads P doc ∧ ∃ path ex,
      doc.get? "configuration" = some (.str path) ∧ ConfigurationFails P path ex ∧
      ∀ pre storeOnlyInMemory, parseDoc J P doc pre storeOnlyInMemory = .error ex) := by
  have hreject : (release J doc = versionV1 → schemaV1 doc = false) →
      (release J doc = versionV1_1 → schemaV1_1 doc = false) → ¬ Accepted J doc := by
    rintro h h' (⟨hr, hv⟩ | ⟨hr, hv⟩)
    · rw [h hr] at hv
      exact absurd hv Bool.false_ne_true
    · rw [h' hr] at hv
      exact absurd hv Bool.false_ne_true
  unfold parseDoc
  by_cases h1 : release J doc = versionV1
  · have hne : release J doc ≠ versionV1_1 := by rw [h1]; decide
    simp only [if_pos h1]
    rcases parseV1_eq J P doc with ⟨hv, heq⟩ | ⟨hv, n, base, hn, hf, heq⟩
    · exact Or.inl ⟨hreject (fun _ => hv) fun h => absurd h hne, _, heq⟩
    · refine Or.inr (Or.inl ⟨Or.inl ⟨h1, hv⟩, fun path h => ?_, n, base, hn, hf, heq⟩)
      exact absurd ((get?_configuration_of_schemaV1 hv).symm.trans h) (by simp)
  · simp only [if_neg h1]
    by_cases h2 : release J doc = versionV1_1
    · simp only [if_pos h2]
      rcases parseV1_1_eq J P doc with ⟨hv, heq⟩ | ⟨hv, n, hn, hcase⟩
      · exact Or.inl ⟨hreject (fun h => absurd h h1) fun _ => hv, _, heq⟩
      · rcases hcase with ⟨hconf, base, hf, heq⟩ | ⟨hconf, path, ex, hpath, herr, heq⟩
        · exact Or.inr (Or.inl ⟨Or.inr ⟨h2, hv⟩, hconf, n, base, hn, hf, heq⟩)
        · exact Or.inr (Or.inr ⟨Or.inr ⟨h2, hv⟩, hconf, path, ex, hpath, herr, heq⟩)
    · simp only [if_neg h2]
      exact Or.inl ⟨hreject (fun h => absurd h h1) fun h => absurd h h2, _, fun _ _ => rfl⟩

/-- **A parse that returns** has read the document and run its acts on a fresh engine. -/
theorem exists_of_parseDoc_ok {J : Jsoncons} {P : Platform} {doc : Json} {pre : String}
    {storeOnlyInMemory : Bool} {e : Engine}
    (h : parseDoc J P doc pre storeOnlyInMemory = .ok e) :
    Accepted J doc ∧ ConfigurationLoads P doc ∧ ∃ n base d, doc.get? "name" = some (.str n) ∧
      Fresh n base ∧ readDocument J pre doc = .ok d ∧ e = run P (d.acts storeOnlyInMemory) base := by
  rcases parseDoc_cases J P doc with ⟨-, msg, heq⟩ | ⟨hacc, hconf, n, base, hn, hf, heq⟩ |
    ⟨-, -, path, ex, -, -, heq⟩
  · exact absurd ((heq pre storeOnlyInMemory).symm.trans h) (by simp)
  · obtain ⟨d, hd, he⟩ := map_eq_ok_iff.mp ((heq pre storeOnlyInMemory).symm.trans h)
    exact ⟨hacc, hconf, n, base, d, hn, hf, hd, he.symm⟩
  · exact absurd ((heq pre storeOnlyInMemory).symm.trans h) (by simp)

/-- An accepted document that can be read is parsed. -/
theorem exists_parseDoc_ok {J : Jsoncons} {P : Platform} {doc : Json} {pre : String}
    {d : Document} (hacc : Accepted J doc) (hconf : ConfigurationLoads P doc)
    (hread : readDocument J pre doc = .ok d) : ∃ n base, doc.get? "name" = some (.str n) ∧
      Fresh n base ∧ ∀ storeOnlyInMemory, parseDoc J P doc pre storeOnlyInMemory =
        .ok (run P (d.acts storeOnlyInMemory) base) := by
  rcases parseDoc_cases J P doc with ⟨hrej, -⟩ | ⟨-, -, n, base, hn, hf, heq⟩ | ⟨-, hbad, -⟩
  · exact absurd hacc hrej
  · refine ⟨n, base, hn, hf, fun storeOnlyInMemory => ?_⟩
    rw [heq, hread]
    rfl
  · exact absurd hconf hbad

end CapioCl
