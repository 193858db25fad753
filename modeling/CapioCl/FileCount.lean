import CapioCl.Creation
import CapioCl.Declaration

/-!
# `setDirectoryFileCount` and the other entries

Before it writes the count, `setDirectoryFileCount` calls `setDirectory` on every key of the store
(`Engine.cpp:607-610`). Its own entry ends up as it should. The others keep their entries only if
they were directories already (`counts_only_iff`), and a parser that comes to an item with `n_files`
turns the files of earlier items into directories (`nameItem_isFile_iff`).

* `fileCount_touches_iff`: the two together.
-/

namespace CapioCl

open CapioCl.Lib CapioCl.Lib.Reading CapioCl.Parser

/-! ## One call -/

namespace Engine

variable {P : Platform} {path : String} {e : Engine}

/-- The call sets the count of its path, which becomes a directory that no longer counts, and leaves
every entry but its own and its parent's. -/
def CountsOnly (P : Platform) (path : String) (num : Int) (e : Engine) : Prop :=
  (∃ entry, (e.setDirectoryFileCount P path num).find path = some entry ∧
    entry.isFile = false ∧ entry.directoryChildrenCount = num ∧
    entry.enableDirectoryCountUpdate = false) ∧
  ∀ k, k ≠ path → k ≠ parentPath path → (e.setDirectoryFileCount P path num).find k = e.find k

/-- The store after the call. -/
theorem find_setDirectoryFileCount (P : Platform) (hp : path ≠ "") (num : Int) (e : Engine)
    (k : String) : (e.setDirectoryFileCount P path num).find k =
      ((e._newFile P path).find k).map fun entry =>
        let entry := if k = "" then entry else { entry with isFile := false }
        if k = path then (Write.fileCount num).apply entry else entry := by
  have hkey : (((e._newFile P path).setAllDirectories P).find path).isSome := by
    rw [find_setAllDirectories, Option.isSome_map]
    exact find_newFile_isSome P hp e
  have hcall : e.setDirectoryFileCount P path num =
      ((e._newFile P path).setAllDirectories P).modify path (Write.fileCount num).apply := by
    rw [setDirectoryFileCount_eq_run]
    unfold fileCountActs
    rw [if_neg hp]
    change ((e._newFile P path).setAllDirectories P).setter P path _ = _
    rw [setter_eq P hp, newFile_of_isSome P hkey]
  rw [hcall, find_modify, find_setAllDirectories]
  by_cases hk : k = path
  · rw [if_pos hk, Option.map_map]
    exact congrArg (Option.map · _) (funext fun entry => (if_pos hk).symm)
  · rw [if_neg hk]
    exact congrArg (Option.map · _) (funext fun entry => (if_neg hk).symm)

/-- **When only the target is touched**: every other key but the parent is a directory already. -/
theorem counts_only_iff (P : Platform) (hp : path ≠ "") (num : Int) (e : Engine) :
    CountsOnly P path num e ↔
      ∀ k entry, k ≠ "" → k ≠ path → k ≠ parentPath path → e.find k = some entry →
        entry.isFile = false := by
  have hother : ∀ k, k ≠ path → k ≠ parentPath path →
      ((e.setDirectoryFileCount P path num).find k = e.find k ↔
        ∀ entry, k ≠ "" → e.find k = some entry → entry.isFile = false) := by
    intro k hk hpar
    rw [find_setDirectoryFileCount P hp, find_newFile_other P path e hk fun h => absurd h hpar]
    cases e.find k with
    | none => simp
    | some entry =>
      rw [Option.map_some]
      dsimp only
      rw [if_neg hk]
      by_cases h0 : k = ""
      · rw [if_pos h0]
        exact iff_of_true rfl fun _ hne => absurd h0 hne
      rw [if_neg h0]
      constructor
      · intro h entry' _ hfind
        obtain rfl := Option.some.inj hfind
        exact (congrArg CapioCLEntry.isFile (Option.some.inj h)).symm
      · intro h
        rw [← h entry h0 rfl]
  have hself : ∃ entry, (e.setDirectoryFileCount P path num).find path = some entry ∧
      entry.isFile = false ∧ entry.directoryChildrenCount = num ∧
      entry.enableDirectoryCountUpdate = false := by
    obtain ⟨entry, hentry⟩ := Option.isSome_iff_exists.mp (find_newFile_isSome P hp e)
    refine ⟨_, by rw [find_setDirectoryFileCount P hp, hentry, Option.map_some], ?_⟩
    dsimp only
    rw [if_pos rfl, if_neg hp]
    exact ⟨rfl, rfl, rfl⟩
  unfold CountsOnly
  rw [and_iff_right hself]
  constructor
  · exact fun h k entry h0 hk hpar hfind => (hother k hk hpar).mp (h k hk hpar) entry h0 hfind
  · exact fun h k hk hpar => (hother k hk hpar).mpr fun entry h0 => h k entry h0 hk hpar

end Engine

/-! ## After the last item of a file -/

/-- A write to another field than the kind. -/
theorem isFile_apply {w : Write} (h : ∀ value, w ≠ .isFile value) (entry : CapioCLEntry) :
    (w.apply entry).isFile = entry.isFile := by
  cases w with
  | app σ name => cases σ <;> rfl
  | isFile value => exact absurd rfl (h value)
  | _ => rfl

section
variable {P : Platform} {e : Engine} {r : String}

/-- A key, in a creation that is not that of a child. -/
theorem find_newFile_of_no_child (hkey : (e.find r).isSome) {p : String}
    (hchild : p ≠ "" → parentPath p ≠ r) : (e._newFile P p).find r = e.find r := by
  by_cases hp : p = ""
  · rw [hp, Engine.newFile_empty]
  by_cases hr : r = p
  · rw [← hr, Engine.newFile_of_isSome P hkey]
  · exact Engine.find_newFile_other P p e hr fun h => absurd h.symm (hchild hp)

/-- **One act, seen from the kind of a key** that it neither sets nor counts a child of. -/
theorem kind_perform (hr : r ≠ "") (hkey : (e.find r).isSome) {act : Act}
    (hset : ∀ value, act ≠ .set r (.isFile value))
    (hchild : ∀ p, act.path? = some p → p ≠ "" → parentPath p ≠ r) :
    ((act.perform P e).find r).map CapioCLEntry.isFile =
      if act = .directories then some false else (e.find r).map CapioCLEntry.isFile := by
  obtain ⟨entry, hentry⟩ := Option.isSome_iff_exists.mp hkey
  cases act with
  | create p =>
    rw [if_neg (by simp)]
    exact congrArg _ (find_newFile_of_no_child hkey (hchild p rfl))
  | set p w =>
    change ((e.setter P p w.apply).find r).map CapioCLEntry.isFile = _
    rw [if_neg (by simp), Engine.find_setter, find_newFile_of_no_child hkey (hchild p rfl)]
    split
    · rename_i hc
      have hw : ∀ value, w ≠ .isFile value := fun value h => hset value (by rw [h, hc.1])
      rw [hentry]
      exact congrArg some (isFile_apply hw entry)
    · rfl
  | directories =>
    change ((e.setAllDirectories P).find r).map CapioCLEntry.isFile = _
    rw [if_pos rfl, Engine.find_setAllDirectories, hentry, Option.map_some, if_neg hr]
    rfl
  | storeAll =>
    change ((e.setAllStoreInMemory P).find r).map CapioCLEntry.isFile = _
    rw [if_neg (by simp), Engine.find_setAllStoreInMemory, hentry, Option.map_some, if_neg hr]
    rfl

/-- **A run, seen from the kind of a key** without children in the end. -/
theorem kind_run (hr : r ≠ "") {acts : List Act} (hkey : (e.find r).isSome)
    (hset : ∀ value, Act.set r (.isFile value) ∉ acts)
    (hchild : ∀ q, ((run P acts e).find q).isSome → parentPath q ≠ r) :
    ((run P acts e).find r).map CapioCLEntry.isFile =
      if Act.directories ∈ acts then some false else (e.find r).map CapioCLEntry.isFile := by
  induction acts generalizing e with
  | nil => simp
  | cons act acts ih =>
    have hkept : ((act.perform P e).find r).isSome :=
      (isSome_find_perform P act e r).mpr (Or.inl hkey)
    have hstep := @kind_perform P e r hr hkey act
      (fun value h => hset value (h ▸ List.mem_cons_self)) fun p hp hne => hchild p (by
        rw [isSome_find_run]
        exact Or.inr ⟨⟨act, List.mem_cons_self, hp⟩, hne⟩)
    rw [run_cons, ih hkept (fun value h => hset value (List.mem_cons_of_mem act h)) hchild, hstep]
    by_cases hrest : Act.directories ∈ acts
    · rw [if_pos hrest, if_pos (List.mem_cons_of_mem act hrest)]
    · rw [if_neg hrest]
      simp only [List.mem_cons, hrest, or_false, eq_comm]

end

/-! ## The acts after an item -/

theorem exists_last_split {α : Type} {a : α} {l : List α} (h : a ∈ l) :
    ∃ s t, l = s ++ a :: t ∧ a ∉ t := by
  obtain ⟨s, t, hl, hs⟩ := List.eq_append_cons_of_mem (List.mem_reverse.mpr h)
  refine ⟨t.reverse, s.reverse, ?_, fun hmem => hs (List.mem_reverse.mp hmem)⟩
  rw [← List.reverse_reverse l, hl]
  simp

/-- An item of names sets the kind of each, last of all its marks. -/
theorem item_split {item : StreamItem} {r : String} (hr : r ≠ "") (hmem : r ∈ item.streamingNames)
    (hfile : item.isFile = true) (hn : item.nFiles = 0) :
    ∃ s t, item.acts = s ++ Act.set r (.isFile true) :: t ∧
      (∀ value, Act.set r (.isFile value) ∉ t) ∧ Act.directories ∉ t := by
  obtain ⟨names, names', hnames, hnot⟩ := exists_last_split hmem
  refine ⟨names.flatMap item.pathActs, [.set r (.commitRule item.commitRule),
    .set r (.fireRule item.fireRule), .set r (.closeCount item.nClose)] ++
      Engine.fileDepsActs r item.fileDeps ++ names'.flatMap item.pathActs, ?_, fun value => ?_, ?_⟩
  · unfold StreamItem.acts
    rw [hnames, List.flatMap_append, List.flatMap_cons]
    have hpath : item.pathActs r = Act.set r (.isFile true) :: ([.set r (.commitRule item.commitRule),
        .set r (.fireRule item.fireRule), .set r (.closeCount item.nClose)] ++
          Engine.fileDepsActs r item.fileDeps) := by
      unfold StreamItem.pathActs
      rw [if_neg (not_not.mpr hn), hfile]
      rfl
    rw [hpath]
    rfl
  · rw [List.mem_append, List.mem_append, set_mem_fileDepsActs_iff hr]
    rintro ((h | ⟨-, -, h⟩) | h)
    · simp at h
    · cases h
    · obtain ⟨path, hpath, hset⟩ := List.mem_flatMap.mp h
      obtain rfl : r = path := ((set_mem_pathActs_iff hr).mp hset).1
      exact hnot hpath
  · rw [List.mem_append, List.mem_append]
    rintro ((h | h) | h)
    · simp at h
    · unfold Engine.fileDepsActs at h
      split at h <;> simp at h
    · obtain ⟨path, -, hmark⟩ := List.mem_flatMap.mp h
      exact (directories_mem_pathActs_iff.mp hmark).1 hn

/-- What comes after an item in the acts of the applications: the items after it, and streams. -/
theorem apps_split {item : StreamItem} {apps : List AppSection} {before after : List StreamItem}
    (h : apps.flatMap AppSection.items = before ++ item :: after) :
    ∃ s t, apps.flatMap AppSection.acts = s ++ item.acts ++ t ∧
      (∀ act ∈ t, (∃ i ∈ after, act ∈ i.acts) ∨ ∃ a : AppSection, act ∈ a.streamActs) ∧
      ∀ i ∈ after, ∀ act ∈ i.acts, act ∈ t := by
  induction apps generalizing before with
  | nil => simp at h
  | cons a apps ih =>
    rw [List.flatMap_cons] at h
    -- the item belongs to a later application
    have hlater : ∀ before', apps.flatMap AppSection.items = before' ++ item :: after →
        ∃ s t, (a :: apps).flatMap AppSection.acts = s ++ item.acts ++ t ∧
          (∀ act ∈ t, (∃ i ∈ after, act ∈ i.acts) ∨ ∃ a : AppSection, act ∈ a.streamActs) ∧
          ∀ i ∈ after, ∀ act ∈ i.acts, act ∈ t := by
      intro before' h'
      obtain ⟨s, t, hacts, ht, hafter⟩ := ih h'
      refine ⟨a.acts ++ s, t, ?_, ht, hafter⟩
      rw [List.flatMap_cons, hacts]
      simp
    rcases List.append_eq_append_iff.mp h with ⟨before', -, hrest⟩ | ⟨rest, hhere, hrest⟩
    · exact hlater before' hrest
    cases rest with
    | nil => exact hlater [] hrest.symm
    | cons item' rest =>
      obtain ⟨rfl, rfl⟩ := List.cons.inj hrest
      refine ⟨a.streamActs ++ before.flatMap StreamItem.acts,
        rest.flatMap StreamItem.acts ++ apps.flatMap AppSection.acts, ?_, fun act hact => ?_,
        fun i hi act hact => ?_⟩
      · rw [List.flatMap_cons]
        unfold AppSection.acts
        rw [hhere]
        simp
      · rcases List.mem_append.mp hact with hact | hact
        · obtain ⟨i, hi, hact⟩ := List.mem_flatMap.mp hact
          exact Or.inl ⟨i, List.mem_append_left _ hi, hact⟩
        · obtain ⟨a', ha', hact⟩ := List.mem_flatMap.mp hact
          rcases List.mem_append.mp hact with hact | hact
          · exact Or.inr ⟨a', hact⟩
          · obtain ⟨i, hi, hact⟩ := List.mem_flatMap.mp hact
            exact Or.inl ⟨i, List.mem_append_right _ (List.mem_flatMap.mpr ⟨a', ha', hi⟩), hact⟩
      · rcases List.mem_append.mp hi with hi | hi
        · exact List.mem_append_left _ (List.mem_flatMap.mpr ⟨i, hi, hact⟩)
        · obtain ⟨a', ha', hi⟩ := List.mem_flatMap.mp hi
          refine List.mem_append_right _ (List.mem_flatMap.mpr ⟨a', ha', ?_⟩)
          exact List.mem_append_right _ (List.mem_flatMap.mpr ⟨i, hi, hact⟩)

/-- The items after the last item of a path: none of them names it. -/
structure LastItem (d : Document) (r : String) (item : StreamItem) (after : List StreamItem) :
    Prop where
  items : ∃ before, d.items = before ++ item :: after
  names : r ∈ item.streamingNames
  last : ∀ i ∈ after, r ∉ i.streamingNames

/-- **The acts of a document from the last mark of a file on**: no other mark, and a call on all keys
for each path a later item counts. -/
theorem acts_split {d : Document} {r : String} {item : StreamItem} {after : List StreamItem}
    (hr : r ≠ "") (hlast : LastItem d r item after) (hfile : item.isFile = true)
    (hn : item.nFiles = 0) (storeOnlyInMemory : Bool) :
    ∃ s t, d.acts storeOnlyInMemory = s ++ Act.set r (.isFile true) :: t ∧
      (∀ value, Act.set r (.isFile value) ∉ t) ∧
      (Act.directories ∈ t ↔ ∃ i ∈ after, i.nFiles ≠ 0 ∧ ∃ path ∈ i.streamingNames, path ≠ "") := by
  obtain ⟨before, hitems⟩ := hlast.items
  obtain ⟨s, t, hacts, ht, hafter⟩ := apps_split hitems
  obtain ⟨s', t', hitem, hset, hdirs⟩ := item_split hr hlast.names hfile hn
  let rest := d.flagActs ++ d.storageActs ++ if storeOnlyInMemory then [Act.storeAll] else []
  refine ⟨s ++ s', t' ++ t ++ rest, ?_, fun value h => ?_, ?_⟩
  · unfold Document.acts
    rw [hacts, hitem]
    simp [rest]
  · rcases List.mem_append.mp h with h | h
    · rcases List.mem_append.mp h with h | h
      · exact hset value h
      · rcases ht _ h with ⟨i, hi, h⟩ | ⟨a, h⟩
        · exact hlast.last i hi ((set_mem_item_iff hr).mp h).1
        · exact not_setsKind_streamActs h (Or.inr ⟨r, value, rfl⟩)
    · exact not_setsKind_sections h (Or.inr ⟨r, value, rfl⟩)
  · constructor
    · intro h
      rcases List.mem_append.mp h with h | h
      · rcases List.mem_append.mp h with h | h
        · exact absurd h hdirs
        · rcases ht _ h with ⟨i, hi, h⟩ | ⟨a, h⟩
          · exact ⟨i, hi, directories_mem_item_iff.mp h⟩
          · exact absurd (Or.inl rfl) (not_setsKind_streamActs h)
      · exact absurd (Or.inl rfl) (not_setsKind_sections h)
    · rintro ⟨i, hi, h⟩
      exact List.mem_append_left _ (List.mem_append_right _
        (hafter i hi _ (directories_mem_item_iff.mpr h)))

/-! ## Documents -/

theorem nFiles_of_isFile {J : Jsoncons} {pre : String} {item : Json} {i : StreamItem}
    (h : readStreamItem J pre item = .ok i) (hfile : i.isFile = true) : i.nFiles = 0 := by
  obtain ⟨hname, -, -, -, hn⟩ := readStreamItem_inv h
  unfold readNFiles at hn
  rw [← hname, hfile] at hn
  simpa using hn.symm

theorem exists_read_of_mem_items {J : Jsoncons} {pre : String} {doc : Json} {d : Document}
    (h : readDocument J pre doc = .ok d) {i : StreamItem} (hi : i ∈ d.items) :
    ∃ item, readStreamItem J pre item = .ok i := by
  obtain ⟨apps, -, happs, -⟩ := readDocument_inv h
  obtain ⟨a, ha, hi⟩ := List.mem_flatMap.mp hi
  obtain ⟨app, -, hread⟩ := mem_of_mapM happs ha
  obtain ⟨-, -, hitems⟩ := readApp_inv hread
  exact mem_of_readItems hitems hi

/-- The keys of a parsed engine are paths of the document. -/
theorem mem_paths_of_parseDoc {J : Jsoncons} {P : Platform} {doc : Json} {pre : String}
    {storeOnlyInMemory : Bool} {e : Engine} {d : Document}
    (h : parseDoc J P doc pre storeOnlyInMemory = .ok e) (hread : readDocument J pre doc = .ok d)
    {q : String} (hq : (e.find q).isSome) : q ∈ d.paths := by
  obtain ⟨-, -, n, base, d', -, hbase, hd', rfl⟩ := exists_of_parseDoc_ok h
  obtain rfl := Except.ok.inj (hread.symm.trans hd')
  exact mem_paths_of_run hbase hq

/-- **When a file stays one**: no item after its last one counts the files of a path. -/
theorem nameItem_isFile_iff {J : Jsoncons} {P : Platform} {doc : Json} {pre : String}
    {storeOnlyInMemory : Bool} {e : Engine} {d : Document} {r : String} {item : StreamItem}
    {after : List StreamItem} (h : parseDoc J P doc pre storeOnlyInMemory = .ok e)
    (hread : readDocument J pre doc = .ok d) (hr : r ≠ "") (hlast : LastItem d r item after)
    (hfile : item.isFile = true) (hchild : ∀ q, (e.find q).isSome → parentPath q ≠ r) :
    (e.find r).map CapioCLEntry.isFile = some true ↔
      ∀ i ∈ after, i.nFiles ≠ 0 → ∀ path ∈ i.streamingNames, path = "" := by
  obtain ⟨-, -, n, base, d', -, -, hd', rfl⟩ := exists_of_parseDoc_ok h
  obtain rfl := Except.ok.inj (hread.symm.trans hd')
  obtain ⟨before, hitems⟩ := hlast.items
  have hmem : item ∈ d.items := by
    rw [hitems]
    exact List.mem_append_right _ List.mem_cons_self
  obtain ⟨j, hj⟩ := exists_read_of_mem_items hread hmem
  obtain ⟨s, t, hacts, hset, hdirs⟩ :=
    acts_split hr hlast hfile (nFiles_of_isFile hj hfile) storeOnlyInMemory
  rw [hacts, run_append, run_cons] at hchild ⊢
  have hmarked : (((Act.set r (.isFile true)).perform P (run P s base)).find r).map
      CapioCLEntry.isFile = some true := by
    obtain ⟨entry, hentry⟩ := Option.isSome_iff_exists.mp (Engine.find_newFile_isSome P hr (run P s base))
    change (((run P s base).setter P r (Write.isFile true).apply).find r).map _ = _
    rw [Engine.find_setter, if_pos ⟨rfl, hr⟩, hentry]
    rfl
  have hkey : (((Act.set r (.isFile true)).perform P (run P s base)).find r).isSome := by
    rw [← Option.isSome_map, hmarked]
    rfl
  rw [kind_run hr hkey hset hchild, hmarked]
  by_cases hcount : Act.directories ∈ t
  · rw [if_pos hcount]
    obtain ⟨i, hi, hn, path, hpath, hne⟩ := hdirs.mp hcount
    exact iff_of_false (by simp) fun hall => hne (hall i hi hn path hpath)
  · rw [if_neg hcount]
    refine iff_of_true rfl fun i hi hn path hpath => ?_
    by_contra hne
    exact hcount (hdirs.mpr ⟨i, hi, hn, path, hpath, hne⟩)

/-- **When a file count touches only its target.** One call does when every other key but the parent
is a directory already, and a parser keeps the last word on a file when no later item counts the
files of a path. -/
theorem fileCount_touches_iff (P : Platform) :
    (∀ (path : String) (num : Int) (e : Engine), path ≠ "" →
      (e.CountsOnly P path num ↔
        ∀ k entry, k ≠ "" → k ≠ path → k ≠ parentPath path → e.find k = some entry →
          entry.isFile = false)) ∧
    ∀ (J : Jsoncons) (doc : Json) (pre : String) (storeOnlyInMemory : Bool) (e : Engine)
      (d : Document) (r : String) (item : StreamItem) (after : List StreamItem),
      parseDoc J P doc pre storeOnlyInMemory = .ok e → readDocument J pre doc = .ok d → r ≠ "" →
      LastItem d r item after → item.isFile = true →
      (∀ q, (e.find q).isSome → parentPath q ≠ r) →
      ((e.find r).map CapioCLEntry.isFile = some true ↔
        ∀ i ∈ after, i.nFiles ≠ 0 → ∀ path ∈ i.streamingNames, path = "") :=
  ⟨fun _ num e hp => Engine.counts_only_iff P hp num e,
    fun _ _ _ _ _ _ _ _ _ h hread hr hlast hfile hchild =>
      nameItem_isFile_iff h hread hr hlast hfile hchild⟩

/-- A name item. -/
def fileItem : Json := .obj [("name", .arr [.str "f"])]

/-- A directory with a file count. -/
def countItem : Json := .obj [("dirname", .arr [.str "d"]), ("n_files", .num 3 0)]

def streamingDocument (streaming : List Json) : Json :=
  .obj [("name", .str "wf"), ("IO_Graph", .arr [.obj [("name", .str "app"),
    ("input_stream", .arr []), ("output_stream", .arr [.str "f"]), ("streaming", .arr streaming)]])]

/-- `fileItem`, as it is read. -/
def readFileItem : StreamItem :=
  { isFile := true, streamingNames := ["f"], fileDeps := [], commitRule := commitRules.onTermination,
    fireRule := fireRules.noUpdate, nClose := 0, nFiles := 0 }

/-- `countItem`, as it is read. -/
def readCountItem : StreamItem :=
  { readFileItem with isFile := false, streamingNames := ["d"], nFiles := 3 }

def readStreamingDocument (items : List StreamItem) : Document where
  apps := [⟨"app", [], ["f"], items⟩]
  permanent := []
  exclude := []
  memory := []
  fs := []

/-- A store with a directory. -/
def directoryStore : Engine := Engine.setDirectory posix "x" {}

/-- A counted directory before a file, and a count next to another directory. -/
theorem countedFirst_isFile :
    directoryStore.CountsOnly posix "d" 3 ∧
    ∃ e, parseDoc jsoncons posix (streamingDocument [countItem, fileItem]) "" false = .ok e ∧
      (e.find "f").map CapioCLEntry.isFile = some true := by
  obtain ⟨e, he⟩ : ∃ e, parseDoc jsoncons posix (streamingDocument [countItem, fileItem]) "" false =
      .ok e := exists_ok_of_thrown (by decide +kernel)
  have hread : readDocument jsoncons "" (streamingDocument [countItem, fileItem]) =
      .ok (readStreamingDocument [readCountItem, readFileItem]) := by decide +kernel
  have hchild : ∀ p ∈ (readStreamingDocument [readCountItem, readFileItem]).paths, parentPath p ≠ "f" :=
    List.forall_iff_forall_mem.mp (by decide +kernel)
  refine ⟨((fileCount_touches_iff posix).1 "d" 3 directoryStore (by decide)).mpr ?_, e, he,
    ((fileCount_touches_iff posix).2 _ _ _ _ e _ "f" readFileItem [] he hread (by decide)
      ⟨⟨[readCountItem], rfl⟩, List.mem_singleton_self _, by simp⟩ rfl
      fun q hq => hchild q (mem_paths_of_parseDoc he hread hq)).mpr (by simp)⟩
  intro k entry _ _ _ hfind
  have hkeys : directoryStore.capioClEntries.keys = ["x"] := by decide +kernel
  have hx : (directoryStore.find "x").map CapioCLEntry.isFile = some false := by decide +kernel
  have hk : k ∈ directoryStore.capioClEntries.keys := Engine.mem_keys_iff.mpr (by rw [hfind]; rfl)
  rw [hkeys] at hk
  rw [List.mem_singleton.mp hk] at hfind
  rw [hfind] at hx
  exact Option.some.inj hx

/-- A store with a file. -/
def fileStore : Engine := Engine.newFile posix "x" {}

/-- A count for `d` turns the file `x` into a directory, and so does an item that is read after
that of the file. -/
theorem fileStore_touched :
    ¬ fileStore.CountsOnly posix "d" 3 ∧
    ∃ e d, parseDoc jsoncons posix (streamingDocument [fileItem, countItem]) "" false = .ok e ∧
      readDocument jsoncons "" (streamingDocument [fileItem, countItem]) = .ok d ∧
      LastItem d "f" readFileItem [readCountItem] ∧ readFileItem.isFile = true ∧
      (∀ q, (e.find q).isSome → parentPath q ≠ "f") ∧
      (e.find "f").map CapioCLEntry.isFile = some false := by
  constructor
  · intro h
    have hx : (fileStore.find "x").map CapioCLEntry.isFile = some true := by decide +kernel
    have hx' : ((fileStore.setDirectoryFileCount posix "d" 3).find "x").map CapioCLEntry.isFile =
        some false := by decide +kernel
    rw [h.2 "x" (by decide) (by decide +kernel), hx] at hx'
    exact absurd hx' (by decide)
  · obtain ⟨e, he⟩ : ∃ e, parseDoc jsoncons posix (streamingDocument [fileItem, countItem]) ""
        false = .ok e := exists_ok_of_thrown (by decide +kernel)
    have hread : readDocument jsoncons "" (streamingDocument [fileItem, countItem]) =
        .ok (readStreamingDocument [readFileItem, readCountItem]) := by decide +kernel
    have hfind : ((parseDoc jsoncons posix (streamingDocument [fileItem, countItem]) "" false).map
        fun e => (e.find "f").map CapioCLEntry.isFile).toOption = some (some false) := by
      decide +kernel
    rw [he] at hfind
    have hchild : ∀ p ∈ (readStreamingDocument [readFileItem, readCountItem]).paths,
        parentPath p ≠ "f" := List.forall_iff_forall_mem.mp (by decide +kernel)
    exact ⟨e, _, he, hread, ⟨⟨[], rfl⟩, List.mem_singleton_self _, by decide⟩, rfl,
      fun q hq => hchild q (mem_paths_of_parseDoc he hread hq), Option.some.inj hfind⟩

end CapioCl
