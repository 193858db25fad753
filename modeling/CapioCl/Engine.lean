import CapioCl.Configuration

/-!
# The engine

`CapioCLEntry` and `Engine` (`engine.h`, `Engine.cpp`). The store `capioClEntries` maps a path to
its entry. The locks are left out: one call runs at a time. Counts are unbounded integers.

A creating setter writes the entry of its path; when there is none it creates it with `_newFile`
and calls itself again. `setter` is that shape, and the setters are instances of it. The
recursion is kept, and ends because `_newFile` leaves an entry (`find_newFile_isSome`); what the
two calls amount to is `setter_eq`.

Each function has one lemma about `find`, which is all that later modules use:
`find_newFile` for creation, `find_setter` for the setters, and so on.
-/

namespace CapioCl

open CapioCl.Lib

/-- `CapioCLEntry`. -/
structure CapioCLEntry where
  producers : List String := []
  consumers : List String := []
  fileDependencies : List String := []
  commitRule : String := commitRules.onTermination
  fireRule : String := fireRules.update
  directoryChildrenCount : Int := 0
  commitOnCloseCount : Int := 0
  enableDirectoryCountUpdate : Bool := true
  storeInMemory : Bool := false
  permanent : Bool := false
  excluded : Bool := false
  isFile : Bool := true
  deriving Repr, DecidableEq

/-- How `operator==` compares two lists: the sizes, and each element of the first in the second. -/
def sameElements (a b : List String) : Bool := a.length == b.length && a.all fun x => b.contains x

/-- The same for two lists of paths, whose elements `std::find` compares as paths. -/
def samePaths (a b : List String) : Bool := a.length == b.length && a.all fun x => b.any (samePath x)

/-- `CapioCLEntry::operator==`. -/
def CapioCLEntry.equals (this other : CapioCLEntry) : Bool :=
  this.commitRule == other.commitRule && this.fireRule == other.fireRule &&
  this.permanent == other.permanent && this.excluded == other.excluded &&
  this.isFile == other.isFile && this.commitOnCloseCount == other.commitOnCloseCount &&
  this.directoryChildrenCount == other.directoryChildrenCount &&
  this.storeInMemory == other.storeInMemory &&
  this.enableDirectoryCountUpdate == other.enableDirectoryCountUpdate &&
  sameElements this.producers other.producers && sameElements this.consumers other.consumers &&
  samePaths this.fileDependencies other.fileDependencies

/-- `compute_directory_entry_count` on the entry of the parent. -/
def CapioCLEntry.counted (entry : CapioCLEntry) : CapioCLEntry :=
  if entry.enableDirectoryCountUpdate then
    { entry with directoryChildrenCount := entry.directoryChildrenCount + 1, isFile := false }
  else entry

/-- Counting changes the count and the kind only. -/
theorem CapioCLEntry.get_counted {α : Sort*} {get : CapioCLEntry → α}
    (h : ∀ x n b, get { x with directoryChildrenCount := n, isFile := b } = get x)
    (x : CapioCLEntry) : get x.counted = get x := by
  unfold counted
  split
  · exact h x _ _
  · rfl

/-- `vec.emplace_back(x)` unless `std::find` finds it. -/
def appendNew (vec : List String) (x : String) : List String :=
  if x ∈ vec then vec else vec ++ [x]

/-- `Engine`. -/
structure Engine where
  storeAllInMemory : Bool := false
  configuration : Configuration := ∅
  monitor : List MonitorBackend := []
  workflowName : String := defaultWfName
  capioClEntries : UnorderedMap String CapioCLEntry := ∅

namespace Engine

/-- `_capio_cl_entries.find(path)`. -/
def find (e : Engine) (path : String) : Option CapioCLEntry := e.capioClEntries.lookup path

/-- Write through the iterator `find` returned. -/
def modify (path : String) (write : CapioCLEntry → CapioCLEntry) (e : Engine) : Engine :=
  { e with capioClEntries := e.capioClEntries.modify path write }

/-! ## Configuration (`Engine.cpp:148-162`, `901-936`) -/

/-- `Engine::useDefaultConfiguration`. -/
def useDefaultConfiguration (e : Engine) : Except Exn Engine := do
  let configuration := e.configuration.loadDefaults
  let multicast ← multicastMonitor configuration
  return { e with configuration := configuration, monitor := e.monitor ++ [multicast, .fileSystem] }

/-- It always succeeds, and leaves the name, the flag and the entries. -/
theorem exists_useDefaultConfiguration (e : Engine) : ∃ e', e.useDefaultConfiguration = .ok e' ∧
    e'.workflowName = e.workflowName ∧ e'.storeAllInMemory = e.storeAllInMemory ∧
    e'.capioClEntries = e.capioClEntries := by
  unfold useDefaultConfiguration
  dsimp only
  rw [multicastMonitor_loadDefaults]
  exact ⟨_, rfl, rfl, rfl, rfl⟩

/-- `Engine::Engine`. -/
def create (P : Platform) (useDefaultSettings : Bool) : Except Exn Engine :=
  let e : Engine := { workflowName := P.workflowNameEnv.getD defaultWfName }
  if useDefaultSettings then e.useDefaultConfiguration else .ok e

/-- The text of a parameter that enables a backend, `"false"` when it is missing. -/
def enabled (configuration : Configuration) (key : String) : Bool :=
  match configuration.getParameter key with
  | .ok v => v = "true"
  | .error _ => false

/-- The multicast backend, when it is enabled. -/
def multicastBackend (configuration : Configuration) : Except Exn (List MonitorBackend) :=
  if enabled configuration "monitor.mcast.enabled" then
    (multicastMonitor configuration).map fun m => [m]
  else .ok []

/-- `Engine::loadConfiguration`. -/
def loadConfiguration (P : Platform) (path : String) (e : Engine) : Except Exn Engine := do
  let configuration ← e.configuration.load P path
  let multicast ← multicastBackend configuration
  let fileSystem :=
    if enabled configuration "monitor.filesystem.enabled" then [.fileSystem] else []
  return { e with configuration := configuration, monitor := e.monitor ++ multicast ++ fileSystem }

/-- `Engine::setWorkflowName`. -/
def setWorkflowName (name : String) (e : Engine) : Engine := { e with workflowName := name }

/-! ## Creation (`Engine.cpp:164-220`) -/

/-- The loop of `_newFile` over the entries: the longest key that matches `path`, the first one in
iteration order, with its length in bytes. -/
def longestMatch (P : Platform) (path : String) (e : Engine) : String × Nat :=
  (P.entryOrder.order e.capioClEntries.keys).foldl
    (fun best filename =>
      if P.fnmatch filename path && best.2 < filename.utf8ByteSize then
        (filename, filename.utf8ByteSize)
      else best)
    ("", 0)

/-- The entry `_newFile` builds for a path without one: a copy of the longest match, or the
default entry. -/
def newEntry (P : Platform) (path : String) (e : Engine) : CapioCLEntry :=
  let best := e.longestMatch P path
  if 0 < best.2 then
    match e.find best.1 with
    | some data =>
      if e.storeAllInMemory then { data with storeInMemory := true } else data
    | none => {}
  else { storeInMemory := e.storeAllInMemory }

/-- `Engine::compute_directory_entry_count`. -/
def computeDirectoryEntryCount (path : String) (e : Engine) : Engine :=
  let parent := parentPath path
  if parent = "" then e else e.modify parent CapioCLEntry.counted

/-- `Engine::_newFile`. -/
def _newFile (P : Platform) (path : String) (e : Engine) : Engine :=
  if path = "" then e
  else if (e.find path).isSome then e
  else
    let e' := { e with capioClEntries := e.capioClEntries.insert path (e.newEntry P path) }
    e'.computeDirectoryEntryCount path

/-- `Engine::newFile`. -/
def newFile (P : Platform) (path : String) (e : Engine) : Engine := e._newFile P path

theorem mem_keys_iff {e : Engine} {k : String} :
    k ∈ e.capioClEntries.keys ↔ (e.find k).isSome := by
  unfold Engine.find
  rw [AList.lookup_isSome, AList.mem_keys]

theorem find_of_empty {e : Engine} (he : e.capioClEntries = ∅) (k : String) : e.find k = none := by
  unfold Engine.find
  rw [he]
  rfl

@[simp] theorem find_modify (path : String) (write : CapioCLEntry → CapioCLEntry) (e : Engine)
    (k : String) :
    (e.modify path write).find k = if k = path then (e.find k).map write else e.find k :=
  UnorderedMap.lookup_modify e.capioClEntries path write k

theorem find_computeDirectoryEntryCount (path : String) (e : Engine) (k : String) :
    (e.computeDirectoryEntryCount path).find k =
      if k = parentPath path ∧ k ≠ "" then (e.find k).map CapioCLEntry.counted else e.find k := by
  unfold computeDirectoryEntryCount
  by_cases hp : parentPath path = ""
  · rw [if_pos hp, if_neg (by rw [hp]; exact fun h => h.2 h.1)]
  · rw [if_neg hp, find_modify]
    by_cases hk : k = parentPath path
    · rw [if_pos hk, if_pos ⟨hk, by rwa [hk]⟩]
    · rw [if_neg hk, if_neg fun h => hk h.1]

/-- **What creation does to the store.** Nothing for the empty path or a key; else the new entry
appears and the parent's is counted. -/
theorem find_newFile (P : Platform) (path : String) (e : Engine) (k : String) :
    (e._newFile P path).find k =
      if path = "" ∨ (e.find path).isSome then e.find k
      else
        let entry := if k = path then some (e.newEntry P path) else e.find k
        if k = parentPath path ∧ k ≠ "" then entry.map CapioCLEntry.counted else entry := by
  unfold _newFile
  by_cases hp : path = ""
  · rw [if_pos hp, if_pos (Or.inl hp)]
  by_cases hf : (e.find path).isSome
  · rw [if_neg hp, if_pos hf, if_pos (Or.inr hf)]
  rw [if_neg hp, if_neg hf, if_neg (not_or.mpr ⟨hp, hf⟩)]
  simp only [find_computeDirectoryEntryCount]
  have hins : find { e with capioClEntries := e.capioClEntries.insert path (e.newEntry P path) } k =
      if k = path then some (e.newEntry P path) else e.find k := by
    by_cases hk : k = path
    · subst hk
      rw [if_pos rfl]
      exact AList.lookup_insert _
    · rw [if_neg hk]
      exact AList.lookup_insert_ne hk
  rw [hins]

/-- The keys after a creation. -/
theorem find_newFile_isSome_iff (P : Platform) (path : String) (e : Engine) (k : String) :
    ((e._newFile P path).find k).isSome ↔ (e.find k).isSome ∨ (k = path ∧ path ≠ "") := by
  rw [find_newFile]
  by_cases hp : path = "" ∨ (e.find path).isSome
  · rw [if_pos hp]
    constructor
    · exact Or.inl
    · rintro (h | ⟨rfl, hne⟩)
      · exact h
      · exact hp.resolve_left hne
  · rw [if_neg hp]
    rw [not_or] at hp
    by_cases hk : k = path
    · subst hk
      simp only [if_true]
      split <;> simp [hp.1]
    · simp only [if_neg hk]
      split <;> simp [hk]

theorem find_newFile_isSome (P : Platform) {path : String} (hp : path ≠ "") (e : Engine) :
    ((e._newFile P path).find path).isSome :=
  (find_newFile_isSome_iff P path e path).mpr (Or.inr ⟨rfl, hp⟩)

/-- Creating a key again changes nothing. -/
theorem newFile_of_isSome (P : Platform) {path : String} {e : Engine}
    (h : (e.find path).isSome) : e._newFile P path = e := by
  unfold _newFile
  by_cases hp : path = ""
  · rw [if_pos hp]
  · rw [if_neg hp, if_pos h]

theorem isSome_find_modify {path : String} {write : CapioCLEntry → CapioCLEntry} {e : Engine}
    {k : String} : ((e.modify path write).find k).isSome = (e.find k).isSome := by
  rw [find_modify]
  split
  · rw [Option.isSome_map]
  · rfl

/-! ## The creating setters -/

/-- The shape of the creating setters: write the entry of `path`, or create it and call again. -/
def setter (P : Platform) (path : String) (write : CapioCLEntry → CapioCLEntry) (e : Engine) :
    Engine :=
  if _hp : path = "" then e
  else
    match _h : e.find path with
    | some _ => e.modify path write
    | none => setter P path write (e._newFile P path)
termination_by if (e.find path).isSome then 0 else 1
decreasing_by simp [find_newFile_isSome P _hp, _h]

/-- **A creating setter is a creation followed by a write.** -/
theorem setter_eq (P : Platform) {path : String} (hp : path ≠ "")
    (write : CapioCLEntry → CapioCLEntry) (e : Engine) :
    e.setter P path write = (e._newFile P path).modify path write := by
  have hfound : ∀ {e : Engine}, (e.find path).isSome →
      e.setter P path write = e.modify path write := by
    intro e h
    unfold setter
    rw [dif_neg hp]
    split
    · rfl
    · rename_i hn
      rw [hn] at h
      exact absurd h (by simp)
  by_cases h : (e.find path).isSome
  · rw [newFile_of_isSome P h, hfound h]
  · unfold setter
    rw [dif_neg hp]
    split
    · rename_i hs
      rw [hs] at h
      exact absurd rfl h
    · exact hfound (find_newFile_isSome P hp e)

theorem setter_empty (P : Platform) (write : CapioCLEntry → CapioCLEntry) (e : Engine) :
    e.setter P "" write = e := by
  unfold setter
  rw [dif_pos rfl]

/-- `Engine::addProducer`; the name is passed by reference and comes back stripped. -/
def addProducer (P : Platform) (path producer : String) (e : Engine) : Engine × String :=
  if path = "" then (e, producer)
  else
    let producer := eraseSpaces producer
    (e.setter P path fun entry => { entry with producers := appendNew entry.producers producer },
      producer)

/-- `Engine::addConsumer`. -/
def addConsumer (P : Platform) (path consumer : String) (e : Engine) : Engine × String :=
  if path = "" then (e, consumer)
  else
    let consumer := eraseSpaces consumer
    (e.setter P path fun entry => { entry with consumers := appendNew entry.consumers consumer },
      consumer)

/-- `Engine::setCommitRule`. -/
def setCommitRule (P : Platform) (path commitRule : String) (e : Engine) : Except Exn Engine :=
  if path = "" then .ok e
  else do
    let commit ← commitRules.sanitize commitRule
    return e.setter P path fun entry => { entry with commitRule := commit }

/-- `Engine::setFireRule`. -/
def setFireRule (P : Platform) (path fireRule : String) (e : Engine) : Except Exn Engine :=
  if path = "" then .ok e
  else do
    let fire ← fireRules.sanitize fireRule
    return e.setter P path fun entry => { entry with fireRule := fire }

/-- `Engine::setPermanent`. -/
def setPermanent (P : Platform) (path : String) (value : Bool) (e : Engine) : Engine :=
  e.setter P path fun entry => { entry with permanent := value }

/-- `Engine::setExclude`. -/
def setExclude (P : Platform) (path : String) (value : Bool) (e : Engine) : Engine :=
  e.setter P path fun entry => { entry with excluded := value }

/-- `Engine::setDirectory`. -/
def setDirectory (P : Platform) (path : String) (e : Engine) : Engine :=
  e.setter P path fun entry => { entry with isFile := false }

/-- `Engine::setFile`. -/
def setFile (P : Platform) (path : String) (e : Engine) : Engine :=
  e.setter P path fun entry => { entry with isFile := true }

/-- `Engine::setCommitedCloseNumber`. -/
def setCommitedCloseNumber (P : Platform) (path : String) (num : Int) (e : Engine) : Engine :=
  e.setter P path fun entry => { entry with commitOnCloseCount := num }

/-- `Engine::setStoreFileInMemory`. -/
def setStoreFileInMemory (P : Platform) (path : String) (e : Engine) : Engine :=
  e.setter P path fun entry => { entry with storeInMemory := true }

/-- `Engine::setStoreFileInFileSystem`. -/
def setStoreFileInFileSystem (P : Platform) (path : String) (e : Engine) : Engine :=
  e.setter P path fun entry => { entry with storeInMemory := false }

/-! ## Lazily creating queries -/

/-- The shape of the queries: read the entry of `path`, or create it and ask again. -/
def query {α : Type} (P : Platform) (path : String) (whenEmpty : α) (read : CapioCLEntry → α)
    (e : Engine) : α × Engine :=
  if _hp : path = "" then (whenEmpty, e)
  else
    match _h : e.find path with
    | some entry => (read entry, e)
    | none => query P path whenEmpty read (e._newFile P path)
termination_by if (e.find path).isSome then 0 else 1
decreasing_by simp [find_newFile_isSome P _hp, _h]

theorem query_empty {α : Type} (P : Platform) (whenEmpty : α) (read : CapioCLEntry → α)
    (e : Engine) : query P "" whenEmpty read e = (whenEmpty, e) := by
  unfold query
  rw [dif_pos rfl]

theorem query_of_find {α : Type} (P : Platform) {path : String} (whenEmpty : α)
    (read : CapioCLEntry → α) {e : Engine} {entry : CapioCLEntry} (hp : path ≠ "")
    (h : e.find path = some entry) : query P path whenEmpty read e = (read entry, e) := by
  unfold query
  rw [dif_neg hp]
  split
  · rename_i heq
    rw [Option.some.inj (h.symm.trans heq)]
  · rename_i heq
    exact absurd (h.symm.trans heq) (by simp)

/-- `Engine::isPermanent`. -/
def isPermanent (P : Platform) (path : String) (e : Engine) : Bool × Engine :=
  query P path true CapioCLEntry.permanent e

/-- `Engine::isExcluded`. -/
def isExcluded (P : Platform) (path : String) (e : Engine) : Bool × Engine :=
  query P path true CapioCLEntry.excluded e

/-! ## Calls over several paths -/

/-- `Engine::getPaths`. -/
def getPaths (P : Platform) (e : Engine) : List String :=
  P.entryOrder.order e.capioClEntries.keys

/-- `Engine::setAllStoreInMemory`. -/
def setAllStoreInMemory (P : Platform) (e : Engine) : Engine :=
  let e := { e with storeAllInMemory := true }
  (e.getPaths P).foldl (fun e path => e.setStoreFileInMemory P path) e

theorem mem_getPaths {P : Platform} {e : Engine} {path : String} :
    path ∈ e.getPaths P ↔ (e.find path).isSome := by
  unfold getPaths find
  rw [P.entryOrder.mem_order, ← AList.mem_keys, AList.lookup_isSome]

/-- A setter called on each of some keys writes each of them. -/
theorem find_foldl_setter (P : Platform) (write : CapioCLEntry → CapioCLEntry)
    (hidem : ∀ entry, write (write entry) = write entry) (k : String) (paths : List String)
    (e : Engine) (h : ∀ p ∈ paths, (e.find p).isSome) :
    (paths.foldl (fun e p => e.setter P p write) e).find k =
      if k ∈ paths ∧ k ≠ "" then (e.find k).map write else e.find k := by
  induction paths generalizing e with
  | nil => simp
  | cons p paths ih =>
    by_cases hp : p = ""
    · subst hp
      rw [List.foldl_cons, setter_empty,
        ih e fun q hq => h q (List.mem_cons_of_mem _ hq)]
      by_cases hk : k = ""
      · rw [if_neg fun h => h.2 hk, if_neg fun h => h.2 hk]
      · simp [hk]
    · have hsome := h p List.mem_cons_self
      have he : e.setter P p write = e.modify p write := by
        rw [setter_eq P hp, newFile_of_isSome P hsome]
      rw [List.foldl_cons, he, ih _ fun q hq => by
        rw [isSome_find_modify]; exact h q (List.mem_cons_of_mem _ hq), find_modify]
      by_cases hkp : k = p
      · subst hkp
        cases e.find k <;> simp [hp, hidem]
      · simp [hkp]

/-- `Engine::setDirectory` on every path of `getPaths`, the loop of `setDirectoryFileCount`. -/
def setAllDirectories (P : Platform) (e : Engine) : Engine :=
  (e.getPaths P).foldl (fun e path => e.setDirectory P path) e

theorem find_setAllDirectories (P : Platform) (e : Engine) (k : String) :
    (e.setAllDirectories P).find k =
      (e.find k).map fun entry => if k = "" then entry else { entry with isFile := false } := by
  unfold setAllDirectories setDirectory
  rw [find_foldl_setter P (fun entry => { entry with isFile := false }) (fun _ => rfl) k _ e
    fun p hp => mem_getPaths.mp hp]
  by_cases hk : k = ""
  · rw [if_neg fun h => h.2 hk]
    simp [hk]
  · cases h : e.find k with
    | none => simp
    | some entry =>
      rw [if_pos ⟨mem_getPaths.mpr (by rw [h]; rfl), hk⟩]
      simp [hk]

theorem find_setAllStoreInMemory (P : Platform) (e : Engine) (k : String) :
    (e.setAllStoreInMemory P).find k =
      (e.find k).map fun entry => if k = "" then entry else { entry with storeInMemory := true } := by
  unfold setAllStoreInMemory setStoreFileInMemory
  simp only
  rw [find_foldl_setter P (fun entry => { entry with storeInMemory := true }) (fun _ => rfl) k _ _
    fun p hp => mem_getPaths.mp hp]
  by_cases hk : k = ""
  · rw [if_neg fun h => h.2 hk]
    simp [hk, find]
  · cases h : e.find k with
    | none =>
      have h' : e.capioClEntries.lookup k = none := h
      simp [find, h']
    | some entry =>
      have h' : e.capioClEntries.lookup k = some entry := h
      rw [if_pos ⟨mem_getPaths.mpr (by simp [find, h']), hk⟩]
      simp [hk, find, h']

/-- `Engine::setDirectoryFileCount`. The second call marks the new entry as well. -/
def setDirectoryFileCount (P : Platform) (path : String) (num : Int) (e : Engine) : Engine :=
  if _hp : path = "" then e
  else
    let e' := e.setAllDirectories P
    match _h : e'.find path with
    | some _ => e'.modify path fun entry =>
        { entry with directoryChildrenCount := num, enableDirectoryCountUpdate := false }
    | none => setDirectoryFileCount P path num (e'._newFile P path)
termination_by if (e.find path).isSome then 0 else 1
decreasing_by
  have hnone : (e.find path).isSome = false := by
    have h : ((e.setAllDirectories P).find path) = none := _h
    rw [find_setAllDirectories, Option.map_eq_none_iff] at h
    rw [h]
    rfl
  simp [find_newFile_isSome P _hp, hnone]

/-- `newFile` on each of some paths. -/
def newFiles (P : Platform) (paths : List String) (e : Engine) : Engine :=
  paths.foldl (fun e itm => e.newFile P itm) e

theorem find_newFiles_isSome_iff (P : Platform) (k : String) (paths : List String) (e : Engine) :
    ((e.newFiles P paths).find k).isSome ↔ (e.find k).isSome ∨ (k ∈ paths ∧ k ≠ "") := by
  unfold newFiles newFile
  induction paths generalizing e with
  | nil => simp
  | cons p paths ih =>
    rw [List.foldl_cons, ih, find_newFile_isSome_iff, List.mem_cons, or_assoc]
    refine or_congr_right ?_
    constructor
    · rintro (⟨rfl, h⟩ | ⟨h1, h2⟩)
      · exact ⟨Or.inl rfl, h⟩
      · exact ⟨Or.inr h1, h2⟩
    · rintro ⟨rfl | h1, h2⟩
      · exact Or.inl ⟨rfl, h2⟩
      · exact Or.inr ⟨h1, h2⟩

/-- `Engine::setFileDeps`. -/
def setFileDeps (P : Platform) (path : String) (dependencies : List String) (e : Engine) : Engine :=
  if _hp : path = "" then e
  else if dependencies = [] then e
  else
    let e' := e.newFiles P dependencies
    match _h : e'.find path with
    | some _ => e'.modify path fun entry => { entry with fileDependencies := dependencies }
    | none => setFileDeps P path dependencies (e'._newFile P path)
termination_by if (e.find path).isSome then 0 else 1
decreasing_by
  have hnone : ¬ (e.find path).isSome := by
    intro h
    have h' : ((e.newFiles P dependencies).find path).isSome :=
      (find_newFiles_isSome_iff P path dependencies e).mpr (Or.inl h)
    have hn : (e.newFiles P dependencies).find path = none := _h
    rw [hn] at h'
    exact absurd h' (by simp)
  simp [find_newFile_isSome P _hp, hnone]

/-- `Engine::remove`. -/
def remove (path : String) (e : Engine) : Engine :=
  match e.find path with
  | none => e
  | some _ => { e with capioClEntries := e.capioClEntries.erase path }

/-- `Engine::operator==`. -/
def equals (this other : Engine) : Bool :=
  this.capioClEntries.keys.length == other.capioClEntries.keys.length &&
  this.capioClEntries.keys.all fun path =>
    match this.find path, other.find path with
    | some thisItm, some otherItm => thisItm.equals otherItm
    | _, _ => false

end Engine

end CapioCl
