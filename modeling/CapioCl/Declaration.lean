import CapioCl.Document

/-!
# What a document declares

The JSON of a document and the lists its acts are built from.

* `mem_stream_iff`, `mem_permanent_iff`, `mem_exclude_iff`: the paths of a read document are the
  resolved paths of the JSON.
* `set_mem_acts_iff`, `setApp_mem_acts_iff`: which writes the acts of a document contain.
* `exists_item_of_directories`: only an item with a file count acts on every key.
* `path_mem_paths`: the acts are about the paths of the document.
-/

namespace CapioCl

open CapioCl.Lib CapioCl.Lib.Reading CapioCl.Parser

/-- The key of a stream. -/
def Stream.key : Stream → String
  | .input => "input_stream"
  | .output => "output_stream"

/-- The paths of a stream. -/
def AppSection.stream : Stream → AppSection → List String
  | .input => inputs
  | .output => outputs

/-- `j[key]` is an array of strings with `f` in it. -/
def Lists (j : Json) (key f : String) : Prop := ∃ l, j.get? key = some (Json.strs l) ∧ f ∈ l

/-- An item of `IO_Graph` named `n` has `f` in a stream. -/
def Declares (doc : Json) (σ : Stream) (n f : String) : Prop :=
  ∃ apps, doc.get? "IO_Graph" = some (.arr apps) ∧
    ∃ app ∈ apps, app.get? "name" = some (.str n) ∧ Lists app σ.key f

/-! ## Reading, backwards -/

theorem readDocument_inv {J : Jsoncons} {pre : String} {doc : Json} {d : Document}
    (h : readDocument J pre doc = .ok d) : ∃ apps, range doc "IO_Graph" = .ok apps ∧
      apps.mapM (readApp J pre) = .ok d.apps ∧
      optionalPaths J pre doc "permanent" = .ok d.permanent ∧
      optionalPaths J pre doc "exclude" = .ok d.exclude ∧
      readStorage J doc = .ok (d.memory, d.fs) := by
  unfold readDocument at h
  obtain ⟨apps, happs, h⟩ := bind_eq_ok_iff.mp h
  obtain ⟨as, has, h⟩ := bind_eq_ok_iff.mp h
  obtain ⟨permanent, hp, h⟩ := bind_eq_ok_iff.mp h
  obtain ⟨exclude, he, h⟩ := bind_eq_ok_iff.mp h
  obtain ⟨s, hs, h⟩ := bind_eq_ok_iff.mp h
  obtain rfl := Except.ok.inj h
  exact ⟨apps, happs, has, hp, he, hs⟩

theorem readApp_inv {J : Jsoncons} {pre : String} {app : Json} {a : AppSection}
    (h : readApp J pre app = .ok a) : (liftJson (app.member "name")).map J.asString = .ok a.name ∧
      (∀ σ : Stream, paths J pre app σ.key = .ok (a.stream σ)) ∧
      readItems J pre app = .ok a.items := by
  unfold readApp at h
  obtain ⟨name, hn, h⟩ := bind_eq_ok_iff.mp h
  obtain ⟨inputs, hi, h⟩ := bind_eq_ok_iff.mp h
  obtain ⟨outputs, ho, h⟩ := bind_eq_ok_iff.mp h
  obtain ⟨items, hs, h⟩ := bind_eq_ok_iff.mp h
  obtain rfl := Except.ok.inj h
  refine ⟨hn, fun σ => ?_, hs⟩
  cases σ with
  | input => exact hi
  | output => exact ho

/-- What is read of an item, part by part. -/
theorem readStreamItem_inv {J : Jsoncons} {pre : String} {j : Json} {item : StreamItem}
    (h : readStreamItem J pre j = .ok item) : item.isFile = j.contains "name" ∧
      paths J pre j (if j.contains "name" then "name" else "dirname") = .ok item.streamingNames ∧
      readCommitted J pre j = .ok (item.commitRule, item.nClose, item.fileDeps) ∧
      readMode J j = .ok item.fireRule ∧ readNFiles J j (j.contains "name") = .ok item.nFiles := by
  unfold readStreamItem at h
  obtain ⟨names, hn, h⟩ := bind_eq_ok_iff.mp h
  obtain ⟨⟨rule, count, deps⟩, hc, h⟩ := bind_eq_ok_iff.mp h
  obtain ⟨fire, hm, h⟩ := bind_eq_ok_iff.mp h
  obtain ⟨files, hf, h⟩ := bind_eq_ok_iff.mp h
  obtain rfl := Except.ok.inj h
  exact ⟨rfl, hn, hc, hm, hf⟩

/-- Dependencies are read for the rule `on_file` only. -/
theorem readFileDeps_inv {J : Jsoncons} {pre rule : String} {j : Json} {deps : List String}
    (h : readFileDeps J pre j rule = .ok deps) :
    (rule = commitRules.onFile ∧ paths J pre j "file_deps" = .ok deps) ∨
      (rule ≠ commitRules.onFile ∧ deps = []) := by
  unfold readFileDeps at h
  split at h
  · rename_i hrule
    exact Or.inl ⟨hrule, h⟩
  · rename_i hrule
    exact Or.inr ⟨hrule, (Except.ok.inj h).symm⟩

theorem readCommitted_inv {J : Jsoncons} {pre rule : String} {j : Json} {count : Int}
    {deps : List String} (h : readCommitted J pre j = .ok (rule, count, deps)) :
    (∃ committed, liftJson (j.member "committed") = .ok committed ∧
      readRule (J.asString committed) = .ok (rule, count) ∧
      readFileDeps J pre j rule = .ok deps) ∨
    (j.contains "committed" = false ∧ rule = commitRules.onTermination ∧ count = 0 ∧ deps = []) := by
  unfold readCommitted at h
  split at h
  · obtain ⟨committed, hc, h⟩ := bind_eq_ok_iff.mp h
    obtain ⟨⟨rule', count'⟩, hr, h⟩ := bind_eq_ok_iff.mp h
    obtain ⟨deps', hd, h⟩ := bind_eq_ok_iff.mp h
    obtain ⟨rfl, rfl, rfl⟩ : rule' = rule ∧ count' = count ∧ deps' = deps := by
      simpa using Except.ok.inj h
    exact Or.inl ⟨committed, hc, hr, hd⟩
  · rename_i habsent
    obtain ⟨rfl, rfl, rfl⟩ : commitRules.onTermination = rule ∧ 0 = count ∧ [] = deps := by
      simpa using Except.ok.inj h
    exact Or.inr ⟨Bool.not_eq_true _ ▸ habsent, rfl, rfl, rfl⟩

/-- The dependencies that are read are those of `file_deps`, or none. -/
theorem mem_fileDeps_of_read {J : Jsoncons} {pre : String} {j : Json} {item : StreamItem}
    (h : readStreamItem J pre j = .ok item) {dep : String} (hdep : dep ∈ item.fileDeps) :
    paths J pre j "file_deps" = .ok item.fileDeps := by
  obtain ⟨-, -, hc, -⟩ := readStreamItem_inv h
  rcases readCommitted_inv hc with ⟨-, -, -, hd⟩ | ⟨-, -, -, hnil⟩
  · rcases readFileDeps_inv hd with ⟨-, hd⟩ | ⟨-, hnil⟩
    · exact hd
    · rw [hnil] at hdep
      exact absurd hdep List.not_mem_nil
  · rw [hnil] at hdep
    exact absurd hdep List.not_mem_nil

theorem mem_of_readItems {J : Jsoncons} {pre : String} {app : Json} {items : List StreamItem}
    (h : readItems J pre app = .ok items) {item : StreamItem} (hi : item ∈ items) :
    ∃ j, readStreamItem J pre j = .ok item := by
  unfold readItems at h
  split at h
  · obtain ⟨xs, -, h⟩ := bind_eq_ok_iff.mp h
    obtain ⟨j, -, hj⟩ := mem_of_mapM h hi
    exact ⟨j, hj⟩
  · rw [← Except.ok.inj h] at hi
    exact absurd hi List.not_mem_nil

theorem mem_paths_iff {J : Jsoncons} {pre : String} {j : Json} {key : String} {l : List String}
    {strs : List String} (hj : j.get? key = some (Json.strs strs))
    (h : paths J pre j key = .ok l) (r : String) : r ∈ l ↔ ∃ f ∈ strs, resolve f pre = r := by
  rw [paths_strs J pre hj] at h
  rw [← Except.ok.inj h, List.mem_map]

theorem strs_inj {l l' : List String} (h : Json.strs l = Json.strs l') : l = l' :=
  List.map_injective_iff.mpr (fun _ _ => Json.str.inj) (Json.arr.inj h)

theorem mem_optionalPaths_iff {J : Jsoncons} {pre : String} {j : Json} {key : String}
    {l : List String} (hj : OptionalStrs j key) (h : optionalPaths J pre j key = .ok l)
    (r : String) : r ∈ l ↔ ∃ f, Lists j key f ∧ resolve f pre = r := by
  cases hv : j.get? key with
  | none =>
    rw [optionalPaths_none J pre hv] at h
    rw [← Except.ok.inj h]
    refine iff_of_false List.not_mem_nil ?_
    rintro ⟨f, ⟨strs, hs, -⟩, -⟩
    exact absurd (hv.symm.trans hs) (by simp)
  | some v =>
    obtain ⟨strs, rfl⟩ := hj v hv
    rw [optionalPaths_strs J pre hv] at h
    rw [← Except.ok.inj h, List.mem_map]
    constructor
    · rintro ⟨f, hf, hr⟩
      exact ⟨f, ⟨strs, hv, hf⟩, hr⟩
    · rintro ⟨f, ⟨strs', hs, hf⟩, hr⟩
      rw [hv] at hs
      exact ⟨f, strs_inj (Option.some.inj hs) ▸ hf, hr⟩

/-- The streams of a read document are the resolved streams of the JSON. -/
theorem mem_stream_iff {J : Jsoncons} {pre : String} {doc : Json} {d : Document}
    (hd : DocShape doc) (h : readDocument J pre doc = .ok d) (σ : Stream) (n r : String) :
    (∃ a ∈ d.apps, a.name = n ∧ r ∈ a.stream σ) ↔
      ∃ f, Declares doc σ n f ∧ resolve f pre = r := by
  obtain ⟨apps, happs, hshape⟩ := hd.ioGraph
  obtain ⟨apps', happs', has, -⟩ := readDocument_inv h
  obtain rfl := Except.ok.inj ((range_arr happs).symm.trans happs')
  -- an item and what is read from it
  have hitem : ∀ app ∈ apps, ∀ a, readApp J pre app = .ok a →
      app.get? "name" = some (.str a.name) ∧
        (r ∈ a.stream σ ↔ ∃ f, Lists app σ.key f ∧ resolve f pre = r) := by
    intro app happ a ha
    obtain ⟨hname, hstreams, -⟩ := readApp_inv ha
    obtain ⟨n', hn'⟩ := (hshape app happ).name
    obtain ⟨l, hl⟩ : ∃ l, app.get? σ.key = some (Json.strs l) := by
      cases σ with
      | input => exact (hshape app happ).inputs
      | output => exact (hshape app happ).outputs
    rw [Json.member_of_get? hn', liftJson_ok, map_ok, J.asString_str] at hname
    refine ⟨by rw [hn', Except.ok.inj hname], (mem_paths_iff hl (hstreams σ) r).trans ?_⟩
    constructor
    · rintro ⟨f, hf, hr⟩
      exact ⟨f, ⟨l, hl, hf⟩, hr⟩
    · rintro ⟨f, ⟨l', hl', hf⟩, hr⟩
      rw [hl] at hl'
      exact ⟨f, strs_inj (Option.some.inj hl') ▸ hf, hr⟩
  constructor
  · rintro ⟨a, ha, rfl, hr⟩
    obtain ⟨app, happ, hread⟩ := mem_of_mapM has ha
    obtain ⟨hn, hiff⟩ := hitem app happ a hread
    obtain ⟨f, hf, hres⟩ := hiff.mp hr
    exact ⟨f, ⟨apps, happs, app, happ, hn, hf⟩, hres⟩
  · rintro ⟨f, ⟨apps', happs', app, happ, hn, hf⟩, hres⟩
    rw [happs] at happs'
    obtain rfl := Json.arr.inj (Option.some.inj happs')
    obtain ⟨a, ha, hread⟩ := mem_mapM has happ
    obtain ⟨hname, hiff⟩ := hitem app happ a hread
    rw [hn] at hname
    exact ⟨a, ha, (Json.str.inj (Option.some.inj hname)).symm, hiff.mpr ⟨f, hf, hres⟩⟩

theorem mem_permanent_iff {J : Jsoncons} {pre : String} {doc : Json} {d : Document}
    (hd : DocShape doc) (h : readDocument J pre doc = .ok d) (r : String) :
    r ∈ d.permanent ↔ ∃ f, Lists doc "permanent" f ∧ resolve f pre = r := by
  obtain ⟨-, -, -, hp, -⟩ := readDocument_inv h
  exact mem_optionalPaths_iff hd.permanent hp r

theorem mem_exclude_iff {J : Jsoncons} {pre : String} {doc : Json} {d : Document}
    (hd : DocShape doc) (h : readDocument J pre doc = .ok d) (r : String) :
    r ∈ d.exclude ↔ ∃ f, Lists doc "exclude" f ∧ resolve f pre = r := by
  obtain ⟨-, -, -, -, he, -⟩ := readDocument_inv h
  exact mem_optionalPaths_iff hd.exclude he r

/-! ## The writes of a document -/

/-- The writes of an item to each of its paths. -/
def Parser.StreamItem.writes (item : StreamItem) : List Write :=
  [.isFile item.isFile, .commitRule item.commitRule, .fireRule item.fireRule,
      .closeCount item.nClose] ++
    (if item.nFiles ≠ 0 then [.fileCount item.nFiles] else []) ++
    if item.fileDeps = [] then [] else [.fileDeps item.fileDeps]

theorem mem_writes_iff {item : StreamItem} {w : Write} : w ∈ item.writes ↔
    w = .isFile item.isFile ∨ w = .commitRule item.commitRule ∨ w = .fireRule item.fireRule ∨
      w = .closeCount item.nClose ∨ (item.nFiles ≠ 0 ∧ w = .fileCount item.nFiles) ∨
      (item.fileDeps ≠ [] ∧ w = .fileDeps item.fileDeps) := by
  unfold StreamItem.writes
  simp only [List.mem_append, List.mem_cons, List.not_mem_nil, or_false, List.mem_ite_nil_right,
    List.mem_ite_nil_left, or_assoc, ne_eq]

theorem set_mem_fileCountActs_iff {path p : String} {num : Int} {w : Write} (hp : p ≠ "") :
    Act.set p w ∈ Engine.fileCountActs path num ↔ p = path ∧ w = .fileCount num := by
  unfold Engine.fileCountActs
  split
  · rename_i hpath
    exact iff_of_false List.not_mem_nil fun h => hp (h.1.trans hpath)
  · simp

theorem set_mem_fileDepsActs_iff {path p : String} {dependencies : List String} {w : Write}
    (hp : p ≠ "") : Act.set p w ∈ Engine.fileDepsActs path dependencies ↔
      dependencies ≠ [] ∧ p = path ∧ w = .fileDeps dependencies := by
  unfold Engine.fileDepsActs
  split
  · rename_i h
    refine iff_of_false List.not_mem_nil fun ⟨hne, hpath, _⟩ => ?_
    rcases h with h | h
    · exact hp (hpath.trans h)
    · exact hne h
  · rename_i h
    obtain ⟨-, hne⟩ := not_or.mp h
    simp [hne]

theorem set_mem_pathActs_iff {item : StreamItem} {path p : String} {w : Write} (hp : p ≠ "") :
    Act.set p w ∈ item.pathActs path ↔ p = path ∧ w ∈ item.writes := by
  have hcount : Act.set p w ∈ (if item.nFiles ≠ 0 then Engine.fileCountActs path item.nFiles
      else []) ↔ p = path ∧ item.nFiles ≠ 0 ∧ w = .fileCount item.nFiles := by
    split
    · rename_i hn
      rw [set_mem_fileCountActs_iff hp, and_iff_right hn]
    · rename_i hn
      exact iff_of_false List.not_mem_nil fun h => hn h.2.1
  unfold StreamItem.pathActs
  rw [List.mem_append, List.mem_append, hcount, set_mem_fileDepsActs_iff hp, mem_writes_iff]
  simp only [List.mem_cons, List.not_mem_nil, or_false, Act.set.injEq]
  by_cases hpath : p = path
  · simp only [hpath, true_and]
    grind
  · simp only [hpath, false_and, and_false, or_self]

theorem set_mem_item_iff {item : StreamItem} {p : String} {w : Write} (hp : p ≠ "") :
    Act.set p w ∈ item.acts ↔ p ∈ item.streamingNames ∧ w ∈ item.writes := by
  unfold StreamItem.acts
  simp only [List.mem_flatMap, set_mem_pathActs_iff hp]
  constructor
  · rintro ⟨path, hpath, rfl, hw⟩
    exact ⟨hpath, hw⟩
  · rintro ⟨hpath, hw⟩
    exact ⟨p, hpath, rfl, hw⟩

theorem set_mem_touch_iff {write w : Write} {l : List String} {p : String} :
    Act.set p w ∈ l.flatMap (touch write) ↔ p ∈ l ∧ w = write := by
  unfold touch
  simp only [List.mem_flatMap, List.mem_cons, reduceCtorEq, List.not_mem_nil, or_false, false_or,
    Act.set.injEq]
  constructor
  · rintro ⟨path, hpath, rfl, rfl⟩
    exact ⟨hpath, rfl⟩
  · rintro ⟨hpath, rfl⟩
    exact ⟨p, hpath, rfl, rfl⟩

theorem set_mem_streamActs_iff {a : AppSection} {p : String} {w : Write} :
    Act.set p w ∈ a.streamActs ↔ ∃ σ : Stream, p ∈ a.stream σ ∧ w = .app σ (eraseSpaces a.name) := by
  unfold AppSection.streamActs
  rw [List.mem_append, set_mem_touch_iff, set_mem_touch_iff]
  constructor
  · rintro (h | h)
    · exact ⟨.input, h⟩
    · exact ⟨.output, h⟩
  · rintro ⟨σ, h⟩
    cases σ with
    | input => exact Or.inl h
    | output => exact Or.inr h

/-- **The writes of a document.** -/
theorem set_mem_acts_iff {d : Document} {storeOnlyInMemory : Bool} {p : String} {w : Write}
    (hp : p ≠ "") : Act.set p w ∈ d.acts storeOnlyInMemory ↔
      (∃ a ∈ d.apps, (∃ σ : Stream, p ∈ a.stream σ ∧ w = .app σ (eraseSpaces a.name)) ∨
        ∃ item ∈ a.items, p ∈ item.streamingNames ∧ w ∈ item.writes) ∨
      (p ∈ d.permanent ∧ w = .permanent true) ∨ (p ∈ d.exclude ∧ w = .excluded true) ∨
      (p ∈ d.memory ∧ w = .storeInMemory true) ∨ (p ∈ d.fs ∧ w = .storeInMemory false) := by
  have happs : Act.set p w ∈ d.apps.flatMap AppSection.acts ↔ ∃ a ∈ d.apps,
      (∃ σ : Stream, p ∈ a.stream σ ∧ w = .app σ (eraseSpaces a.name)) ∨
        ∃ item ∈ a.items, p ∈ item.streamingNames ∧ w ∈ item.writes := by
    simp only [List.mem_flatMap, AppSection.acts, List.mem_append, set_mem_streamActs_iff,
      set_mem_item_iff hp]
  have hstorage : ∀ (l : List String) (b : Bool),
      Act.set p w ∈ l.map (fun path => Act.set path (.storeInMemory b)) ↔
        p ∈ l ∧ w = .storeInMemory b := by
    intro l b
    simp only [List.mem_map, Act.set.injEq]
    constructor
    · rintro ⟨path, hpath, rfl, rfl⟩
      exact ⟨hpath, rfl⟩
    · rintro ⟨hpath, rfl⟩
      exact ⟨p, hpath, rfl, rfl⟩
  have hlast : Act.set p w ∉ if storeOnlyInMemory = true then [Act.storeAll] else [] := by
    cases storeOnlyInMemory <;> simp
  unfold Document.acts Document.flagActs Document.storageActs
  rw [List.mem_append, or_iff_left hlast, List.mem_append, List.mem_append, happs,
    List.mem_append, List.mem_append, set_mem_touch_iff, set_mem_touch_iff, hstorage, hstorage]
  simp only [or_assoc]

/-- Only the flag stores everything in memory. -/
theorem storeAll_mem_acts_iff {d : Document} {storeOnlyInMemory : Bool} :
    Act.storeAll ∈ d.acts storeOnlyInMemory ↔ storeOnlyInMemory = true := by
  have htouch : ∀ (write : Write) (l : List String), Act.storeAll ∉ l.flatMap (touch write) := by
    intro write l
    simp [touch]
  have hitem : ∀ item : StreamItem, Act.storeAll ∉ item.acts := by
    intro item hact
    obtain ⟨path, -, hact⟩ := List.mem_flatMap.mp hact
    unfold StreamItem.pathActs Engine.fileCountActs Engine.fileDepsActs at hact
    by_cases hp : path = "" <;> by_cases hd : item.fileDeps = [] <;>
      simp [hp, hd] at hact
  have happs : Act.storeAll ∉ d.apps.flatMap AppSection.acts := by
    intro hact
    obtain ⟨a, -, hact⟩ := List.mem_flatMap.mp hact
    unfold AppSection.acts AppSection.streamActs at hact
    simp only [List.mem_append, htouch, or_self, false_or] at hact
    obtain ⟨item, -, hact⟩ := List.mem_flatMap.mp hact
    exact hitem item hact
  unfold Document.acts Document.flagActs Document.storageActs
  simp only [List.mem_append, happs, htouch, false_or]
  cases storeOnlyInMemory <;> simp

/-- An act that can change a kind. -/
def Act.SetsKind (act : Act) : Prop := act = .directories ∨ ∃ p value, act = .set p (.isFile value)

theorem not_setsKind_touch {write : Write} (hw : ∀ value, write ≠ .isFile value) {l : List String}
    {act : Act} (h : act ∈ l.flatMap (touch write)) : ¬ act.SetsKind := by
  obtain ⟨path, -, hact⟩ := List.mem_flatMap.mp h
  simp only [touch, List.mem_cons, List.not_mem_nil, or_false] at hact
  rcases hact with rfl | rfl
  · rintro (h | ⟨p, value, h⟩) <;> cases h
  · rintro (h | ⟨p, value, h⟩)
    · cases h
    · exact hw value (Act.set.inj h).2

theorem not_setsKind_streamActs {a : AppSection} {act : Act} (h : act ∈ a.streamActs) :
    ¬ act.SetsKind := by
  unfold AppSection.streamActs at h
  rcases List.mem_append.mp h with h | h
  · exact not_setsKind_touch (by simp) h
  · exact not_setsKind_touch (by simp) h

/-- The sections after `IO_Graph` change no kind. -/
theorem not_setsKind_sections {d : Document} {storeOnlyInMemory : Bool} {act : Act}
    (h : act ∈ d.flagActs ++ d.storageActs ++ if storeOnlyInMemory then [Act.storeAll] else []) :
    ¬ act.SetsKind := by
  have hstorage : ∀ {l : List String} {b : Bool},
      act ∈ l.map (fun path => Act.set path (.storeInMemory b)) → ¬ act.SetsKind := by
    intro l b hact
    obtain ⟨path, -, rfl⟩ := List.mem_map.mp hact
    rintro (h | ⟨p, value, h⟩) <;> cases h
  unfold Document.flagActs Document.storageActs at h
  simp only [List.mem_append] at h
  rcases h with ((h | h) | h | h) | h
  · exact not_setsKind_touch (by simp) h
  · exact not_setsKind_touch (by simp) h
  · exact hstorage h
  · exact hstorage h
  · split at h
    · obtain rfl := List.mem_singleton.mp h
      rintro (h | ⟨p, value, h⟩) <;> cases h
    · exact absurd h List.not_mem_nil

theorem directories_mem_pathActs_iff {item : StreamItem} {path : String} :
    Act.directories ∈ item.pathActs path ↔ item.nFiles ≠ 0 ∧ path ≠ "" := by
  unfold StreamItem.pathActs Engine.fileCountActs Engine.fileDepsActs
  by_cases hp : path = "" <;> by_cases hn : item.nFiles = 0 <;>
    by_cases hd : item.fileDeps = [] <;> simp [hp, hn, hd]

theorem directories_mem_item_iff {item : StreamItem} :
    Act.directories ∈ item.acts ↔ item.nFiles ≠ 0 ∧ ∃ path ∈ item.streamingNames, path ≠ "" := by
  unfold StreamItem.acts
  simp only [List.mem_flatMap, directories_mem_pathActs_iff]
  constructor
  · rintro ⟨path, hpath, hn, hne⟩
    exact ⟨hn, path, hpath, hne⟩
  · rintro ⟨hn, path, hpath, hne⟩
    exact ⟨path, hpath, hn, hne⟩

/-- Only a directory with a count marks everything as directories. -/
theorem exists_item_of_directories {d : Document} {storeOnlyInMemory : Bool}
    (h : Act.directories ∈ d.acts storeOnlyInMemory) :
    ∃ a ∈ d.apps, ∃ item ∈ a.items, item.nFiles ≠ 0 := by
  unfold Document.acts at h
  rw [List.append_assoc, List.append_assoc, List.mem_append, ← List.append_assoc] at h
  rcases h with h | h
  · obtain ⟨a, ha, hact⟩ := List.mem_flatMap.mp h
    rcases List.mem_append.mp hact with hact | hact
    · exact absurd (Or.inl rfl) (not_setsKind_streamActs hact)
    · obtain ⟨item, hitem, hact⟩ := List.mem_flatMap.mp hact
      exact ⟨a, ha, item, hitem, (directories_mem_item_iff.mp hact).1⟩
  · exact absurd (Or.inl rfl) (not_setsKind_sections h)

/-- The names an application list can be given. -/
theorem setApp_mem_acts_iff {d : Document} {storeOnlyInMemory : Bool} {σ : Stream}
    {p c : String} (hp : p ≠ "") : Act.set p (.app σ c) ∈ d.acts storeOnlyInMemory ↔
      ∃ a ∈ d.apps, eraseSpaces a.name = c ∧ p ∈ a.stream σ := by
  have hwrites : ∀ item : StreamItem, Write.app σ c ∉ item.writes := by
    intro item hw
    simp [mem_writes_iff] at hw
  rw [set_mem_acts_iff hp]
  constructor
  · rintro (⟨a, ha, ⟨σ', h, hw⟩ | ⟨item, -, -, hw⟩⟩ | ⟨-, hw⟩ | ⟨-, hw⟩ | ⟨-, hw⟩ | ⟨-, hw⟩)
    · injection hw with h1 h2
      subst h1
      exact ⟨a, ha, h2.symm, h⟩
    · exact absurd hw (hwrites item)
    all_goals exact absurd hw (by simp)
  · rintro ⟨a, ha, rfl, h⟩
    exact Or.inl ⟨a, ha, Or.inl ⟨σ, h, rfl⟩⟩

/-! ## The paths and the items -/

/-- Every path of an application. -/
def AppSection.paths (a : AppSection) : List String :=
  a.inputs ++ a.outputs ++ a.items.flatMap fun item => item.streamingNames ++ item.fileDeps

namespace Document

/-- Every path of a document. -/
def paths (d : Document) : List String :=
  d.apps.flatMap AppSection.paths ++ d.permanent ++ d.exclude ++ d.memory ++ d.fs

def items (d : Document) : List StreamItem := d.apps.flatMap AppSection.items

end Document

theorem path_touch {write : Write} {l : List String} {act : Act} {p : String}
    (h : act ∈ l.flatMap (touch write)) (hp : act.path? = some p) : p ∈ l := by
  obtain ⟨path, hpath, hact⟩ := List.mem_flatMap.mp h
  simp only [touch, List.mem_cons, List.not_mem_nil, or_false] at hact
  rcases hact with rfl | rfl
  · exact Option.some.inj hp ▸ hpath
  · exact Option.some.inj hp ▸ hpath

theorem path_pathActs {item : StreamItem} {path p : String} {act : Act}
    (h : act ∈ item.pathActs path) (hp : act.path? = some p) : p = path ∨ p ∈ item.fileDeps := by
  unfold StreamItem.pathActs Engine.fileCountActs Engine.fileDepsActs at h
  rw [List.mem_append, List.mem_append] at h
  rcases h with (h | h) | h
  · split at h
    · split at h
      · exact absurd h List.not_mem_nil
      · simp only [List.mem_cons, List.not_mem_nil, or_false] at h
        rcases h with rfl | rfl | rfl
        · exact Or.inl (Option.some.inj hp).symm
        · exact absurd hp (by simp [Act.path?])
        · exact Or.inl (Option.some.inj hp).symm
    · exact absurd h List.not_mem_nil
  · simp only [List.mem_cons, List.not_mem_nil, or_false] at h
    rcases h with rfl | rfl | rfl | rfl <;> exact Or.inl (Option.some.inj hp).symm
  · split at h
    · exact absurd h List.not_mem_nil
    · rw [List.mem_append, List.mem_map, List.mem_singleton] at h
      rcases h with ⟨dep, hdep, rfl⟩ | rfl
      · exact Or.inr (Option.some.inj hp ▸ hdep)
      · exact Or.inl (Option.some.inj hp).symm

/-- The acts of a document are about its paths. -/
theorem path_mem_paths {d : Document} {storeOnlyInMemory : Bool} {act : Act} {p : String}
    (h : act ∈ d.acts storeOnlyInMemory) (hp : act.path? = some p) : p ∈ d.paths := by
  have happ : ∀ {a : AppSection}, act ∈ a.acts → p ∈ a.paths := by
    intro a hact
    unfold AppSection.acts AppSection.streamActs at hact
    unfold AppSection.paths
    rw [List.mem_append, List.mem_append] at hact ⊢
    rcases hact with (hact | hact) | hact
    · exact Or.inl (Or.inl (path_touch hact hp))
    · exact Or.inl (Or.inr (path_touch hact hp))
    · obtain ⟨item, hitem, hact⟩ := List.mem_flatMap.mp hact
      obtain ⟨path, hpath, hact⟩ := List.mem_flatMap.mp hact
      refine Or.inr (List.mem_flatMap.mpr ⟨item, hitem, List.mem_append.mpr ?_⟩)
      rcases path_pathActs hact hp with rfl | hdep
      · exact Or.inl hpath
      · exact Or.inr hdep
  have hstorage : ∀ {l : List String} {b : Bool},
      act ∈ l.map (fun path => Act.set path (.storeInMemory b)) → p ∈ l := by
    intro l b hact
    obtain ⟨path, hpath, rfl⟩ := List.mem_map.mp hact
    exact Option.some.inj hp ▸ hpath
  unfold Document.acts Document.flagActs Document.storageActs at h
  unfold Document.paths
  simp only [List.mem_append] at h ⊢
  rcases h with ((h | h | h) | h | h) | h
  · obtain ⟨a, ha, hact⟩ := List.mem_flatMap.mp h
    exact Or.inl (Or.inl (Or.inl (Or.inl (List.mem_flatMap.mpr ⟨a, ha, happ hact⟩))))
  · exact Or.inl (Or.inl (Or.inl (Or.inr (path_touch h hp))))
  · exact Or.inl (Or.inl (Or.inr (path_touch h hp)))
  · exact Or.inl (Or.inr (hstorage h))
  · exact Or.inr (hstorage h)
  · split at h
    · rw [List.mem_singleton.mp h] at hp
      exact absurd hp (by simp [Act.path?])
    · exact absurd h List.not_mem_nil

/-- The keys of an engine made by a document are paths of the document. -/
theorem mem_paths_of_run {P : Platform} {d : Document} {storeOnlyInMemory : Bool} {n : String}
    {base : Engine} (hbase : Fresh n base) {q : String}
    (h : ((run P (d.acts storeOnlyInMemory) base).find q).isSome) : q ∈ d.paths := by
  rw [isSome_find_run, hbase.find] at h
  obtain ⟨⟨act, hact, hpath⟩, -⟩ := h.resolve_left (by simp)
  exact path_mem_paths hact hpath

end CapioCl
