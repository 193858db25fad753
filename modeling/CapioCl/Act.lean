import CapioCl.Engine
import CapioCl.Lib.Registers

/-!
# Engine calls as lists of acts

The parser only ever creates entries and writes fields of entries it creates on the way. An `Act`
is one such step: `create` is `_newFile`, `set` a creating setter, `directories` and `storeAll` the
two loops over `getPaths`. Each engine call is a list of acts (`setDirectoryFileCount_eq_run`,
`setFileDeps_eq_run`, and the setters by definition), so a fact about all runs of acts is a fact
about all sequences of calls.

* `isSome_find_run`: the keys after a run.
* `source`: the key whose entry a creation copies; `newEntry_of_source` says what the new entry is.
* `mem_apps_perform`: where an application name can come from in one step.
-/

namespace CapioCl

open CapioCl.Lib

/-- The two directions of the IO graph. -/
inductive Stream where
  | input
  | output
  deriving Repr, DecidableEq

namespace CapioCLEntry

/-- Consumers of an input stream, producers of an output stream. -/
def apps : Stream → CapioCLEntry → List String
  | .input => consumers
  | .output => producers

end CapioCLEntry

/-- A write to one field of an entry. -/
inductive Write where
  | app (σ : Stream) (name : String)
  | commitRule (rule : String)
  | fireRule (rule : String)
  | closeCount (num : Int)
  | fileDeps (dependencies : List String)
  | permanent (value : Bool)
  | excluded (value : Bool)
  | isFile (value : Bool)
  | storeInMemory (value : Bool)
  | fileCount (num : Int)
  deriving Repr, DecidableEq

/-- The entry after a write. -/
def Write.apply : Write → CapioCLEntry → CapioCLEntry
  | .app .input name, entry => { entry with consumers := appendNew entry.consumers name }
  | .app .output name, entry => { entry with producers := appendNew entry.producers name }
  | .commitRule rule, entry => { entry with commitRule := rule }
  | .fireRule rule, entry => { entry with fireRule := rule }
  | .closeCount num, entry => { entry with commitOnCloseCount := num }
  | .fileDeps dependencies, entry => { entry with fileDependencies := dependencies }
  | .permanent value, entry => { entry with permanent := value }
  | .excluded value, entry => { entry with excluded := value }
  | .isFile value, entry => { entry with isFile := value }
  | .storeInMemory value, entry => { entry with storeInMemory := value }
  | .fileCount num, entry =>
    { entry with directoryChildrenCount := num, enableDirectoryCountUpdate := false }

/-- A write of an application, a flag or a storage. -/
def Write.OffRules : Write → Prop
  | .app _ _ | .permanent _ | .excluded _ | .storeInMemory _ => True
  | _ => False

/-- One step on the store. -/
inductive Act where
  | create (path : String)
  | set (path : String) (write : Write)
  | directories
  | storeAll
  deriving Repr, DecidableEq

/-- The path an act creates an entry for. -/
def Act.path? : Act → Option String
  | .create path => some path
  | .set path _ => some path
  | .directories => none
  | .storeAll => none

def Act.perform (P : Platform) : Act → Engine → Engine
  | .create path, e => e._newFile P path
  | .set path write, e => e.setter P path write.apply
  | .directories, e => e.setAllDirectories P
  | .storeAll, e => e.setAllStoreInMemory P

/-- Acts one after another. -/
def run (P : Platform) (acts : List Act) (e : Engine) : Engine :=
  acts.foldl (fun e act => act.perform P e) e

@[simp] theorem run_nil (P : Platform) (e : Engine) : run P [] e = e := rfl

@[simp] theorem run_cons (P : Platform) (act : Act) (acts : List Act) (e : Engine) :
    run P (act :: acts) e = run P acts (act.perform P e) := rfl

theorem run_append (P : Platform) (xs ys : List Act) (e : Engine) :
    run P (xs ++ ys) e = run P ys (run P xs e) := List.foldl_append

theorem run_concat (P : Platform) (acts : List Act) (act : Act) (e : Engine) :
    run P (acts ++ [act]) e = act.perform P (run P acts e) := run_append P acts [act] e

/-! ## What an act leaves alone -/

namespace Engine

/-- Everything but the entries and the store-all flag. -/
def header (e : Engine) : Configuration × List MonitorBackend × String :=
  (e.configuration, e.monitor, e.workflowName)

theorem ext_of_find {e e' : Engine} (hh : e.header = e'.header)
    (hs : e.storeAllInMemory = e'.storeAllInMemory)
    (hk : e.capioClEntries.keys = e'.capioClEntries.keys) (hf : ∀ k, e.find k = e'.find k) :
    e = e' := by
  have hm : e.capioClEntries = e'.capioClEntries := UnorderedMap.ext_of_keys hk hf
  obtain ⟨s, c, m, w, entries⟩ := e
  obtain ⟨s', c', m', w', entries'⟩ := e'
  simp only [header, Prod.mk.injEq] at hh
  obtain ⟨rfl, rfl, rfl⟩ := hh
  dsimp only at hs hm
  rw [hs, hm]

@[simp] theorem keys_modify (path : String) (write : CapioCLEntry → CapioCLEntry) (e : Engine) :
    (e.modify path write).capioClEntries.keys = e.capioClEntries.keys :=
  UnorderedMap.keys_modify _ _ _

theorem frame_newFile (P : Platform) (path : String) (e : Engine) :
    (e._newFile P path).header = e.header ∧
      (e._newFile P path).storeAllInMemory = e.storeAllInMemory := by
  unfold _newFile computeDirectoryEntryCount
  by_cases hp : path = ""
  · rw [if_pos hp]
    exact ⟨rfl, rfl⟩
  · rw [if_neg hp]
    split
    · exact ⟨rfl, rfl⟩
    · dsimp only
      split <;> exact ⟨rfl, rfl⟩

/-- A creation puts the new key in front of the others. -/
theorem keys_newFile (P : Platform) (path : String) (e : Engine) :
    (e._newFile P path).capioClEntries.keys =
      if path = "" ∨ (e.find path).isSome then e.capioClEntries.keys
      else path :: e.capioClEntries.keys := by
  unfold _newFile computeDirectoryEntryCount
  by_cases hp : path = ""
  · rw [if_pos hp, if_pos (Or.inl hp)]
  by_cases hf : (e.find path).isSome
  · rw [if_neg hp, if_pos hf, if_pos (Or.inr hf)]
  rw [if_neg hp, if_neg hf, if_neg (not_or.mpr ⟨hp, hf⟩)]
  have hnot : path ∉ e.capioClEntries.keys := by
    rwa [← AList.mem_keys, ← AList.lookup_isSome]
  have hins : (e.capioClEntries.insert path (e.newEntry P path)).keys =
      path :: e.capioClEntries.keys := by
    rw [AList.keys_insert, List.erase_of_not_mem hnot]
  dsimp only
  split
  · exact hins
  · rw [keys_modify]
    exact hins

theorem frame_setter (P : Platform) (path : String) (write : CapioCLEntry → CapioCLEntry)
    (e : Engine) : (e.setter P path write).header = e.header ∧
      (e.setter P path write).storeAllInMemory = e.storeAllInMemory := by
  by_cases hp : path = ""
  · rw [hp, setter_empty]
    exact ⟨rfl, rfl⟩
  · rw [setter_eq P hp]
    exact frame_newFile P path e

theorem keys_setter_of_isSome (P : Platform) {path : String} {e : Engine}
    (h : (e.find path).isSome) (write : CapioCLEntry → CapioCLEntry) :
    (e.setter P path write).capioClEntries.keys = e.capioClEntries.keys := by
  by_cases hp : path = ""
  · rw [hp, setter_empty]
  · rw [setter_eq P hp, newFile_of_isSome P h, keys_modify]

theorem isSome_find_setter (P : Platform) (path : String) (write : CapioCLEntry → CapioCLEntry)
    (e : Engine) (k : String) :
    ((e.setter P path write).find k).isSome ↔ (e.find k).isSome ∨ (k = path ∧ path ≠ "") := by
  by_cases hp : path = ""
  · rw [hp, setter_empty]
    simp
  · rw [setter_eq P hp, isSome_find_modify]
    exact find_newFile_isSome_iff P path e k

/-- A setter on each of some keys leaves the keys, the flag and the header alone. -/
theorem frame_foldl_setter (P : Platform) (write : CapioCLEntry → CapioCLEntry)
    (paths : List String) (e : Engine) (h : ∀ p ∈ paths, (e.find p).isSome) :
    (paths.foldl (fun e p => e.setter P p write) e).header = e.header ∧
      (paths.foldl (fun e p => e.setter P p write) e).storeAllInMemory = e.storeAllInMemory ∧
      (paths.foldl (fun e p => e.setter P p write) e).capioClEntries.keys =
        e.capioClEntries.keys := by
  induction paths generalizing e with
  | nil => exact ⟨rfl, rfl, rfl⟩
  | cons p paths ih =>
    have hp : (e.find p).isSome := h p List.mem_cons_self
    obtain ⟨h1, h2, h3⟩ := ih (e.setter P p write) fun q hq =>
      (isSome_find_setter P p write e q).mpr (Or.inl (h q (List.mem_cons_of_mem _ hq)))
    obtain ⟨f1, f2⟩ := frame_setter P p write e
    exact ⟨h1.trans f1, h2.trans f2, h3.trans (keys_setter_of_isSome P hp write)⟩

theorem frame_setAllDirectories (P : Platform) (e : Engine) :
    (e.setAllDirectories P).header = e.header ∧
      (e.setAllDirectories P).storeAllInMemory = e.storeAllInMemory ∧
      (e.setAllDirectories P).capioClEntries.keys = e.capioClEntries.keys :=
  frame_foldl_setter P _ _ e fun _ hp => mem_getPaths.mp hp

theorem frame_setAllStoreInMemory (P : Platform) (e : Engine) :
    (e.setAllStoreInMemory P).header = e.header ∧
      (e.setAllStoreInMemory P).storeAllInMemory = true ∧
      (e.setAllStoreInMemory P).capioClEntries.keys = e.capioClEntries.keys :=
  frame_foldl_setter P _ _ { e with storeAllInMemory := true } fun _ hp => mem_getPaths.mp hp

end Engine

/-! ## Where a new entry comes from -/

namespace Engine

theorem longestMatch_of_keys {P : Platform} {path : String} {e e' : Engine}
    (h : e.capioClEntries.keys = e'.capioClEntries.keys) :
    e.longestMatch P path = e'.longestMatch P path := by
  unfold longestMatch
  rw [h]

/-- The loop keeps the longest of the matches it has seen. -/
theorem foldl_longest (matched : String → Bool) (ks : List String) (best : String × Nat) :
    let best' := ks.foldl (fun best k =>
      if matched k && best.2 < k.utf8ByteSize then (k, k.utf8ByteSize) else best) best
    (best' = best ∨ ∃ k ∈ ks, matched k ∧ best' = (k, k.utf8ByteSize)) ∧ best.2 ≤ best'.2 ∧
      ∀ k ∈ ks, matched k → k.utf8ByteSize ≤ best'.2 := by
  dsimp only
  induction ks generalizing best with
  | nil => simp
  | cons k ks ih =>
    rw [List.foldl_cons]
    by_cases hk : matched k ∧ best.2 < k.utf8ByteSize
    · have hc : (matched k && decide (best.2 < k.utf8ByteSize)) = true := by
        simpa using hk
      rw [if_pos hc]
      obtain ⟨h1, h2, h3⟩ := ih (k, k.utf8ByteSize)
      refine ⟨Or.inr ?_, hk.2.le.trans h2, fun q hq hm => ?_⟩
      · rcases h1 with h1 | ⟨q, hq, hm, h1⟩
        · exact ⟨k, List.mem_cons_self, hk.1, h1⟩
        · exact ⟨q, List.mem_cons_of_mem k hq, hm, h1⟩
      · rcases List.mem_cons.mp hq with rfl | hq
        · exact h2
        · exact h3 q hq hm
    · have hc : ¬ (matched k && decide (best.2 < k.utf8ByteSize)) = true := by
        simpa using hk
      rw [if_neg hc]
      obtain ⟨h1, h2, h3⟩ := ih best
      refine ⟨?_, h2, fun q hq hm => ?_⟩
      · rcases h1 with h1 | ⟨q, hq, hm, h1⟩
        · exact Or.inl h1
        · exact Or.inr ⟨q, List.mem_cons_of_mem k hq, hm, h1⟩
      · rcases List.mem_cons.mp hq with rfl | hq
        · exact (not_lt.mp fun hlt => hk ⟨hm, hlt⟩).trans h2
        · exact h3 q hq hm

/-- The key whose entry a creation of `path` copies. -/
def source (P : Platform) (path : String) (e : Engine) : Option String :=
  let best := e.longestMatch P path
  if 0 < best.2 then some best.1 else none

theorem source_of_keys {P : Platform} {path : String} {e e' : Engine}
    (h : e.capioClEntries.keys = e'.capioClEntries.keys) :
    e.source P path = e'.source P path := by
  unfold source
  rw [longestMatch_of_keys h]

/-- The copied key is a longest key that matches. -/
theorem source_eq_some {P : Platform} {path g : String} {e : Engine}
    (h : e.source P path = some g) :
    (e.find g).isSome ∧ P.fnmatch g path = true ∧ g ≠ "" ∧
      ∀ k, (e.find k).isSome → P.fnmatch k path = true → k.utf8ByteSize ≤ g.utf8ByteSize := by
  unfold source at h
  dsimp only at h
  split at h
  · rename_i hpos
    obtain rfl := Option.some.inj h
    obtain ⟨h1, -, h3⟩ :=
      foldl_longest (fun k => P.fnmatch k path) (e.getPaths P) ("", 0)
    change (e.longestMatch P path = ("", 0) ∨ ∃ k ∈ e.getPaths P, P.fnmatch k path ∧
      e.longestMatch P path = (k, k.utf8ByteSize)) at h1
    rcases h1 with h1 | ⟨k, hk, hm, h1⟩
    · rw [h1] at hpos
      exact absurd hpos (by simp)
    · rw [h1] at hpos ⊢
      refine ⟨mem_getPaths.mp hk, hm, ?_, fun q hq hqm => ?_⟩
      · rintro rfl
        exact absurd hpos (by simp)
      · have hle : q.utf8ByteSize ≤ (e.longestMatch P path).2 := h3 q (mem_getPaths.mpr hq) hqm
        rwa [h1] at hle
  · exact absurd h (by simp)

/-- Nothing is copied when no nonempty key matches. -/
theorem source_eq_none {P : Platform} {path : String} {e : Engine} :
    e.source P path = none ↔
      ∀ k, (e.find k).isSome → P.fnmatch k path = true → k = "" := by
  constructor
  · intro h k hk hm
    unfold source at h
    dsimp only at h
    split at h
    · exact absurd h (by simp)
    · rename_i hpos
      have hle : k.utf8ByteSize ≤ (e.longestMatch P path).2 :=
        (foldl_longest (fun k => P.fnmatch k path) (e.getPaths P) ("", 0)).2.2 k
          (mem_getPaths.mpr hk) hm
      exact String.utf8ByteSize_eq_zero_iff.mp (by omega)
  · intro h
    cases hs : e.source P path with
    | none => rfl
    | some g =>
      obtain ⟨hg, hm, hne, -⟩ := source_eq_some hs
      exact absurd (h g hg hm) hne

/-- A copied entry differs from its source at most in the storage flag. -/
theorem newEntry_of_source {P : Platform} {path g : String} {e : Engine}
    (h : e.source P path = some g) : ∃ data, e.find g = some data ∧
      e.newEntry P path =
        { data with storeInMemory := e.storeAllInMemory || data.storeInMemory } := by
  obtain ⟨data, hdata⟩ := Option.isSome_iff_exists.mp (source_eq_some h).1
  refine ⟨data, hdata, ?_⟩
  unfold source at h
  unfold newEntry
  dsimp only at h ⊢
  split at h
  · rename_i hpos
    rw [if_pos hpos, Option.some.inj h, hdata]
    cases e.storeAllInMemory <;> simp
  · exact absurd h (by simp)

theorem newEntry_of_none {P : Platform} {path : String} {e : Engine}
    (h : e.source P path = none) :
    e.newEntry P path = { storeInMemory := e.storeAllInMemory } := by
  unfold source at h
  unfold newEntry
  dsimp only at h ⊢
  split at h
  · exact absurd h (by simp)
  · rename_i hpos
    rw [if_neg hpos]

end Engine

/-! ## Calls as acts -/

namespace Engine

theorem setCommitRule_eq (P : Platform) (path : String) {rule : String}
    (h : commitRules.Valid rule) (e : Engine) :
    e.setCommitRule P path rule = .ok ((Act.set path (.commitRule rule)).perform P e) := by
  unfold setCommitRule
  by_cases hp : path = ""
  · rw [if_pos hp, hp]
    exact congrArg _ (setter_empty P _ e).symm
  · rw [if_neg hp, commitRules.sanitize_of_valid h]
    rfl

theorem setFireRule_eq (P : Platform) (path : String) {rule : String}
    (h : fireRules.Valid rule) (e : Engine) :
    e.setFireRule P path rule = .ok ((Act.set path (.fireRule rule)).perform P e) := by
  unfold setFireRule
  by_cases hp : path = ""
  · rw [if_pos hp, hp]
    exact congrArg _ (setter_empty P _ e).symm
  · rw [if_neg hp, fireRules.sanitize_of_valid h]
    rfl

/-- `addConsumer` or `addProducer`. -/
def addApp : Stream → Platform → String → String → Engine → Engine × String
  | .input => addConsumer
  | .output => addProducer

theorem addApp_eq (σ : Stream) (P : Platform) (path name : String) (e : Engine) :
    (addApp σ P path name e).1 = (Act.set path (.app σ (eraseSpaces name))).perform P e := by
  by_cases hp : path = ""
  · subst hp
    change _ = e.setter P "" (Write.app σ (eraseSpaces name)).apply
    rw [setter_empty]
    cases σ <;> rfl
  · cases σ <;> simp [addApp, addConsumer, addProducer, hp] <;> rfl

/-- The name a call leaves behind is the same up to spaces. -/
theorem eraseSpaces_addApp (σ : Stream) (P : Platform) (path name : String) (e : Engine) :
    eraseSpaces (addApp σ P path name e).2 = eraseSpaces name := by
  by_cases hp : path = ""
  · cases σ <;> simp [addApp, addConsumer, addProducer, hp]
  · cases σ <;> simp [addApp, addConsumer, addProducer, hp]

/-- The acts of `setDirectoryFileCount`. -/
def fileCountActs (path : String) (num : Int) : List Act :=
  if path = "" then [] else [.create path, .directories, .set path (.fileCount num)]

/-- The acts of `setFileDeps`. -/
def fileDepsActs (path : String) (dependencies : List String) : List Act :=
  if path = "" ∨ dependencies = [] then []
  else dependencies.map .create ++ [.set path (.fileDeps dependencies)]

theorem newFiles_eq_run (P : Platform) (paths : List String) (e : Engine) :
    e.newFiles P paths = run P (paths.map .create) e := by
  induction paths generalizing e with
  | nil => rfl
  | cons p paths ih => exact ih (e._newFile P p)

/-- Declaring keys again changes nothing. -/
theorem newFiles_of_isSome (P : Platform) {paths : List String} {e : Engine}
    (h : ∀ p ∈ paths, p = "" ∨ (e.find p).isSome) : e.newFiles P paths = e := by
  induction paths with
  | nil => rfl
  | cons p paths ih =>
    have hp : e._newFile P p = e := by
      rcases h p List.mem_cons_self with rfl | hp
      · unfold _newFile
        rw [if_pos rfl]
      · exact newFile_of_isSome P hp
    change newFiles P paths (e._newFile P p) = e
    rw [hp]
    exact ih fun q hq => h q (List.mem_cons_of_mem p hq)

/-- **`setFileDeps` declares the dependencies, then creates and writes.** -/
theorem setFileDeps_eq_run (P : Platform) (path : String) (dependencies : List String)
    (e : Engine) :
    e.setFileDeps P path dependencies = run P (fileDepsActs path dependencies) e := by
  unfold fileDepsActs
  by_cases hp : path = ""
  · rw [if_pos (Or.inl hp)]
    unfold setFileDeps
    rw [dif_pos hp]
    rfl
  by_cases hd : dependencies = []
  · rw [if_pos (Or.inr hd)]
    unfold setFileDeps
    rw [dif_neg hp, if_pos hd]
    rfl
  rw [if_neg (not_or.mpr ⟨hp, hd⟩), run_append, ← newFiles_eq_run]
  change e.setFileDeps P path dependencies = (e.newFiles P dependencies).setter P path _
  rw [setter_eq P hp]
  have hfound : ∀ {e : Engine}, ((e.newFiles P dependencies).find path).isSome →
      e.setFileDeps P path dependencies =
        (e.newFiles P dependencies).modify path (Write.fileDeps dependencies).apply := by
    intro e h
    unfold setFileDeps
    rw [dif_neg hp, if_neg hd]
    dsimp only
    split
    · rfl
    · rename_i hn
      rw [hn] at h
      exact absurd h (by simp)
  by_cases h : ((e.newFiles P dependencies).find path).isSome
  · rw [newFile_of_isSome P h]
    exact hfound h
  · unfold setFileDeps
    rw [dif_neg hp, if_neg hd]
    dsimp only
    split
    · rename_i hs
      rw [hs] at h
      exact absurd rfl h
    -- the second call finds every dependency and the path
    · have hsame : ((e.newFiles P dependencies)._newFile P path).newFiles P dependencies =
          (e.newFiles P dependencies)._newFile P path := by
        refine newFiles_of_isSome P fun d hdep => ?_
        by_cases hne : d = ""
        · exact Or.inl hne
        · refine Or.inr ((find_newFile_isSome_iff P path _ d).mpr (Or.inl ?_))
          exact (find_newFiles_isSome_iff P d dependencies e).mpr (Or.inr ⟨hdep, hne⟩)
      rw [hfound (by rw [hsame]; exact find_newFile_isSome P hp _), hsame]

/-- Counting reads nothing of the kind. -/
theorem counted_congr {x y : CapioCLEntry}
    (h : { x with isFile := false } = { y with isFile := false }) :
    { x.counted with isFile := false } = { y.counted with isFile := false } := by
  have hcounted : ∀ z : CapioCLEntry, { z.counted with isFile := false } =
      { ({ z with isFile := false } : CapioCLEntry).counted with isFile := false } := by
    intro z
    unfold CapioCLEntry.counted
    dsimp only
    split <;> rfl
  rw [hcounted x, hcounted y, h]

/-- The same for an entry that may be missing. -/
theorem map_counted_congr {a b : Option CapioCLEntry}
    (h : a.map (fun x => { x with isFile := false }) = b.map fun x => { x with isFile := false }) :
    (a.map CapioCLEntry.counted).map (fun x => { x with isFile := false }) =
      (b.map CapioCLEntry.counted).map fun x => { x with isFile := false } := by
  cases a with
  | none => cases b with
    | none => rfl
    | some y => exact absurd h (by simp)
  | some x => cases b with
    | none => exact absurd h (by simp)
    | some y => exact congrArg some (counted_congr (Option.some.inj h))

/-- A new entry is the same, up to its kind, when every entry has been marked. -/
theorem newEntry_setAllDirectories (P : Platform) (path : String) (e : Engine) :
    { (e.setAllDirectories P).newEntry P path with isFile := false } =
      { e.newEntry P path with isFile := false } := by
  obtain ⟨-, hs, hk⟩ := frame_setAllDirectories P e
  have hsource : (e.setAllDirectories P).source P path = e.source P path := source_of_keys hk
  cases hg : e.source P path with
  | none => rw [newEntry_of_none hg, newEntry_of_none (hsource.trans hg), hs]
  | some g =>
    obtain ⟨data, hdata, hnew⟩ := newEntry_of_source hg
    obtain ⟨data', hdata', hnew'⟩ := newEntry_of_source (hsource.trans hg)
    rw [find_setAllDirectories, hdata, Option.map_some, if_neg (source_eq_some hg).2.2.1] at hdata'
    rw [hnew, hnew', ← Option.some.inj hdata', hs]

/-- Marking every entry before a creation as well as after it makes no difference. -/
theorem setAllDirectories_newFile (P : Platform) (path : String) (e : Engine) :
    ((e.setAllDirectories P)._newFile P path).setAllDirectories P =
      (e._newFile P path).setAllDirectories P := by
  obtain ⟨hh, hs, hk⟩ := frame_setAllDirectories P e
  have hsome : ∀ k, ((e.setAllDirectories P).find k).isSome ↔ (e.find k).isSome := by
    intro k
    rw [find_setAllDirectories, Option.isSome_map]
  refine ext_of_find ?_ ?_ ?_ fun k => ?_
  · rw [(frame_setAllDirectories P _).1, (frame_setAllDirectories P _).1, (frame_newFile P _ _).1,
      (frame_newFile P _ _).1, hh]
  · rw [(frame_setAllDirectories P _).2.1, (frame_setAllDirectories P _).2.1,
      (frame_newFile P _ _).2, (frame_newFile P _ _).2, hs]
  · rw [(frame_setAllDirectories P _).2.2, (frame_setAllDirectories P _).2.2, keys_newFile,
      keys_newFile, hk]
    simp only [hsome]
  · rw [find_setAllDirectories, find_setAllDirectories, find_newFile, find_newFile]
    simp only [hsome]
    by_cases hc : path = "" ∨ (e.find path).isSome
    · rw [if_pos hc, if_pos hc, find_setAllDirectories, Option.map_map]
      refine congrArg (Option.map · (e.find k)) (funext fun entry => ?_)
      by_cases h0 : k = "" <;> simp [h0]
    rw [if_neg hc, if_neg hc]
    by_cases h0 : k = ""
    · simp [h0, (not_or.mp hc).1, find_setAllDirectories]
    -- the entry before counting, up to the kind
    have hbefore : (if k = path then some ((e.setAllDirectories P).newEntry P path)
          else (e.setAllDirectories P).find k).map (fun x => { x with isFile := false }) =
        (if k = path then some (e.newEntry P path) else e.find k).map
          (fun x => { x with isFile := false }) := by
      by_cases hkp : k = path
      · rw [if_pos hkp, if_pos hkp, Option.map_some, Option.map_some, newEntry_setAllDirectories]
      · rw [if_neg hkp, if_neg hkp, find_setAllDirectories, Option.map_map]
        exact congrArg (Option.map · (e.find k)) (funext fun x => by simp [h0])
    simp only [h0, if_false, ne_eq, not_false_eq_true, and_true]
    by_cases hpar : k = parentPath path
    · rw [if_pos hpar, if_pos hpar]
      exact map_counted_congr hbefore
    · rw [if_neg hpar, if_neg hpar]
      exact hbefore

/-- **`setDirectoryFileCount` marks every entry as a directory** on its way to its own. -/
theorem setDirectoryFileCount_eq_run (P : Platform) (path : String) (num : Int) (e : Engine) :
    e.setDirectoryFileCount P path num = run P (fileCountActs path num) e := by
  unfold fileCountActs
  by_cases hp : path = ""
  · rw [if_pos hp]
    unfold setDirectoryFileCount
    rw [dif_pos hp]
    rfl
  rw [if_neg hp]
  change e.setDirectoryFileCount P path num =
    ((e._newFile P path).setAllDirectories P).setter P path _
  have hsome : ∀ (e : Engine) k, ((e.setAllDirectories P).find k).isSome = (e.find k).isSome := by
    intro e k
    rw [find_setAllDirectories, Option.isSome_map]
  have hfound : ∀ {e : Engine}, (e.find path).isSome → e.setDirectoryFileCount P path num =
      (e.setAllDirectories P).modify path (Write.fileCount num).apply := by
    intro e h
    unfold setDirectoryFileCount
    rw [dif_neg hp]
    dsimp only
    split
    · rfl
    · rename_i hn
      rw [← hsome, hn] at h
      exact absurd h (by simp)
  rw [setter_eq P hp, newFile_of_isSome P (by rw [hsome]; exact find_newFile_isSome P hp e)]
  by_cases h : (e.find path).isSome
  · rw [hfound h, newFile_of_isSome P h]
  · unfold setDirectoryFileCount
    rw [dif_neg hp]
    dsimp only
    split
    · rename_i hs
      rw [← hsome, hs] at h
      exact absurd rfl h
    · rw [hfound (find_newFile_isSome P hp _), setAllDirectories_newFile]

end Engine

/-! ## One step -/

namespace Engine

theorem newFile_empty (P : Platform) (e : Engine) : e._newFile P "" = e := by
  unfold _newFile
  rw [if_pos rfl]

theorem find_setter (P : Platform) (path : String) (write : CapioCLEntry → CapioCLEntry)
    (e : Engine) (k : String) :
    (e.setter P path write).find k =
      if k = path ∧ path ≠ "" then ((e._newFile P path).find k).map write
      else (e._newFile P path).find k := by
  by_cases hp : path = ""
  · rw [hp, setter_empty, newFile_empty]
    simp
  · rw [setter_eq P hp, find_modify]
    by_cases hk : k = path
    · rw [if_pos hk, if_pos ⟨hk, hp⟩]
    · rw [if_neg hk, if_neg fun h => hk h.1]

/-- A creation as seen by a field that counting does not touch. -/
theorem map_find_newFile {α : Type} {get : CapioCLEntry → α} (hget : ∀ x, get x.counted = get x)
    (P : Platform) (path : String) (e : Engine) (k : String) :
    ((e._newFile P path).find k).map get =
      if k = path ∧ path ≠ "" ∧ e.find path = none then some (get (e.newEntry P path))
      else (e.find k).map get := by
  have hcounted : ∀ x : Option CapioCLEntry, (x.map CapioCLEntry.counted).map get = x.map get := by
    intro x
    rw [Option.map_map]
    exact congrArg (Option.map · x) (funext hget)
  rw [find_newFile]
  by_cases hc : path = "" ∨ (e.find path).isSome
  · rw [if_pos hc, if_neg]
    rintro ⟨-, hp, hnone⟩
    rcases hc with hc | hc
    · exact hp hc
    · rw [hnone] at hc
      exact absurd hc (by simp)
  · rw [not_or, Option.not_isSome_iff_eq_none] at hc
    rw [if_neg (by rw [not_or, Option.not_isSome_iff_eq_none]; exact hc)]
    dsimp only
    have hsplit : ∀ b : Prop, [Decidable b] → ∀ x : Option CapioCLEntry,
        (if b then x.map CapioCLEntry.counted else x).map get = x.map get := by
      intro b _ x
      split
      · exact hcounted x
      · rfl
    rw [hsplit]
    by_cases hk : k = path
    · rw [if_pos hk, if_pos ⟨hk, hc⟩, Option.map_some]
    · rw [if_neg hk, if_neg fun h => hk h.1]

/-- The applications of `path` in direction `σ`. -/
def apps (σ : Stream) (path : String) (e : Engine) : List String :=
  ((e.find path).map (CapioCLEntry.apps σ)).getD []

theorem apps_of_find {e : Engine} {path : String} {entry : CapioCLEntry}
    (h : e.find path = some entry) (σ : Stream) : e.apps σ path = entry.apps σ := by
  unfold apps
  rw [h]
  rfl

theorem apps_of_none {e : Engine} {path : String} (h : e.find path = none) (σ : Stream) :
    e.apps σ path = [] := by
  unfold apps
  rw [h]
  rfl

/-- Only keys have applications. -/
theorem exists_of_mem_apps {e : Engine} {σ : Stream} {path name : String}
    (h : name ∈ e.apps σ path) : ∃ entry, e.find path = some entry ∧ name ∈ entry.apps σ := by
  cases hfind : e.find path with
  | none =>
    rw [apps_of_none hfind] at h
    exact absurd h List.not_mem_nil
  | some entry => exact ⟨entry, rfl, apps_of_find hfind σ ▸ h⟩

theorem isSome_of_mem_apps {e : Engine} {σ : Stream} {path name : String}
    (h : name ∈ e.apps σ path) : (e.find path).isSome := by
  obtain ⟨entry, hentry, -⟩ := exists_of_mem_apps h
  exact Option.isSome_iff_exists.mpr ⟨entry, hentry⟩

end Engine

/-- In state `e` the act creates `path` as a copy of the entry of `g`. -/
def Copies (P : Platform) (e : Engine) (act : Act) (g path : String) : Prop :=
  act.path? = some path ∧ path ≠ "" ∧ e.find path = none ∧ e.source P path = some g

theorem Copies.fnmatch {P : Platform} {e : Engine} {act : Act} {g path : String}
    (h : Copies P e act g path) : P.fnmatch g path = true :=
  (Engine.source_eq_some h.2.2.2).2.1

theorem isSome_find_perform (P : Platform) (act : Act) (e : Engine) (k : String) :
    ((act.perform P e).find k).isSome ↔ (e.find k).isSome ∨ (act.path? = some k ∧ k ≠ "") := by
  cases act with
  | create p =>
    refine (Engine.find_newFile_isSome_iff P p e k).trans (or_congr_right ?_)
    simp only [Act.path?, Option.some.injEq]
    constructor
    · rintro ⟨rfl, h⟩
      exact ⟨rfl, h⟩
    · rintro ⟨rfl, h⟩
      exact ⟨rfl, h⟩
  | set p w =>
    refine (Engine.isSome_find_setter P p w.apply e k).trans (or_congr_right ?_)
    simp only [Act.path?, Option.some.injEq]
    constructor
    · rintro ⟨rfl, h⟩
      exact ⟨rfl, h⟩
    · rintro ⟨rfl, h⟩
      exact ⟨rfl, h⟩
  | directories =>
    change ((e.setAllDirectories P).find k).isSome ↔ _
    rw [Engine.find_setAllDirectories, Option.isSome_map]
    simp [Act.path?]
  | storeAll =>
    change ((e.setAllStoreInMemory P).find k).isSome ↔ _
    rw [Engine.find_setAllStoreInMemory, Option.isSome_map]
    simp [Act.path?]

theorem header_perform (P : Platform) (act : Act) (e : Engine) :
    (act.perform P e).header = e.header := by
  cases act with
  | create p => exact (Engine.frame_newFile P p e).1
  | set p w => exact (Engine.frame_setter P p w.apply e).1
  | directories => exact (Engine.frame_setAllDirectories P e).1
  | storeAll => exact (Engine.frame_setAllStoreInMemory P e).1

/-- **The keys after a run** are the old ones and the paths of the acts. -/
theorem isSome_find_run (P : Platform) (k : String) (acts : List Act) (e : Engine) :
    ((run P acts e).find k).isSome ↔
      (e.find k).isSome ∨ ((∃ act ∈ acts, act.path? = some k) ∧ k ≠ "") := by
  induction acts generalizing e with
  | nil => simp
  | cons act acts ih =>
    rw [run_cons, ih, isSome_find_perform, or_assoc]
    refine or_congr_right ?_
    simp only [List.mem_cons, exists_eq_or_imp]
    rw [or_and_right]

theorem header_run (P : Platform) (acts : List Act) (e : Engine) :
    (run P acts e).header = e.header := by
  induction acts generalizing e with
  | nil => rfl
  | cons act acts ih => exact (ih _).trans (header_perform P act e)

/-! ## The header takes no part -/

namespace Engine

/-- The engine with the header of another. -/
def withHeader (h : Configuration × List MonitorBackend × String) (e : Engine) : Engine :=
  { e with configuration := h.1, monitor := h.2.1, workflowName := h.2.2 }

theorem newFile_withHeader (P : Platform) (h : Configuration × List MonitorBackend × String)
    (path : String) (e : Engine) :
    (e.withHeader h)._newFile P path = (e._newFile P path).withHeader h := by
  have hentry : (e.withHeader h).newEntry P path = e.newEntry P path := rfl
  have hfind : (e.withHeader h).find path = e.find path := rfl
  unfold _newFile computeDirectoryEntryCount
  rw [hentry, hfind]
  by_cases hp : path = ""
  · rw [if_pos hp, if_pos hp]
  · rw [if_neg hp, if_neg hp]
    by_cases hf : (e.find path).isSome
    · rw [if_pos hf, if_pos hf]
    · rw [if_neg hf, if_neg hf]
      dsimp only
      split <;> rfl

theorem setter_withHeader (P : Platform) (h : Configuration × List MonitorBackend × String)
    (path : String) (write : CapioCLEntry → CapioCLEntry) (e : Engine) :
    (e.withHeader h).setter P path write = (e.setter P path write).withHeader h := by
  by_cases hp : path = ""
  · rw [hp, setter_empty, setter_empty]
  · rw [setter_eq P hp, setter_eq P hp, newFile_withHeader]
    rfl

theorem foldl_setter_withHeader (P : Platform)
    (h : Configuration × List MonitorBackend × String) (write : CapioCLEntry → CapioCLEntry)
    (paths : List String) (e : Engine) :
    paths.foldl (fun e p => e.setter P p write) (e.withHeader h) =
      (paths.foldl (fun e p => e.setter P p write) e).withHeader h := by
  induction paths generalizing e with
  | nil => rfl
  | cons p paths ih => rw [List.foldl_cons, setter_withHeader, ih, List.foldl_cons]

end Engine

theorem perform_withHeader (P : Platform) (h : Configuration × List MonitorBackend × String)
    (act : Act) (e : Engine) : act.perform P (e.withHeader h) = (act.perform P e).withHeader h := by
  cases act with
  | create p => exact Engine.newFile_withHeader P h p e
  | set p w => exact Engine.setter_withHeader P h p w.apply e
  | directories => exact Engine.foldl_setter_withHeader P h _ (e.getPaths P) e
  | storeAll =>
    exact Engine.foldl_setter_withHeader P h _ (e.getPaths P) { e with storeAllInMemory := true }

theorem run_withHeader (P : Platform) (h : Configuration × List MonitorBackend × String)
    (acts : List Act) (e : Engine) : run P acts (e.withHeader h) = (run P acts e).withHeader h := by
  induction acts generalizing e with
  | nil => rfl
  | cons act acts ih => rw [run_cons, perform_withHeader, ih, run_cons]

/-- The same entries and the same store-all flag. -/
structure SameStore (e e' : Engine) : Prop where
  storeAll : e.storeAllInMemory = e'.storeAllInMemory
  entries : e.capioClEntries = e'.capioClEntries

/-- **A run on the same store ends in the same store.** -/
theorem SameStore.run {e e' : Engine} (h : SameStore e e') (P : Platform) (acts : List Act) :
    SameStore (run P acts e) (run P acts e') := by
  have he : e' = e.withHeader e'.header := by
    obtain ⟨s, c, m, w, entries⟩ := e
    obtain ⟨s', c', m', w', entries'⟩ := e'
    obtain ⟨rfl, rfl⟩ := h
    rfl
  rw [he, run_withHeader]
  exact ⟨rfl, rfl⟩

/-! ## Application names -/

theorem mem_appendNew {vec : List String} {x y : String} :
    y ∈ appendNew vec x ↔ y ∈ vec ∨ y = x := by
  unfold appendNew
  split
  · rename_i h
    constructor
    · exact Or.inl
    · rintro (hy | rfl)
      · exact hy
      · exact h
  · rw [List.mem_append, List.mem_singleton]

theorem nodup_appendNew {vec : List String} {x : String} (h : vec.Nodup) :
    (appendNew vec x).Nodup := by
  unfold appendNew
  split
  · exact h
  · rename_i hx
    exact List.nodup_append.mpr ⟨h, List.nodup_singleton x, fun a ha b hb => by
      rw [List.mem_singleton.mp hb]
      exact fun e => hx (e ▸ ha)⟩

namespace Engine

theorem apps_newFile (P : Platform) (σ : Stream) (path : String) (e : Engine) (k : String) :
    (e._newFile P path).apps σ k =
      if k = path ∧ path ≠ "" ∧ e.find path = none then
        ((e.source P path).map fun g => e.apps σ g).getD []
      else e.apps σ k := by
  unfold apps
  have hget : ∀ x : CapioCLEntry, x.counted.apps σ = x.apps σ :=
    @CapioCLEntry.get_counted _ (·.apps σ) fun x n b => by cases σ <;> rfl
  rw [map_find_newFile hget]
  split
  · cases hg : e.source P path with
    | none =>
      rw [newEntry_of_none hg]
      cases σ <;> rfl
    | some g =>
      obtain ⟨data, hdata, hnew⟩ := newEntry_of_source hg
      rw [hnew, Option.map_some, hdata]
      cases σ <;> rfl
  · rfl

theorem mem_apps_newFile (P : Platform) (σ : Stream) (path : String) (e : Engine)
    (k c : String) :
    c ∈ (e._newFile P path).apps σ k ↔
      c ∈ e.apps σ k ∨ ∃ g, Copies P e (.create path) g k ∧ c ∈ e.apps σ g := by
  rw [apps_newFile]
  by_cases hc : k = path ∧ path ≠ "" ∧ e.find path = none
  · rw [if_pos hc]
    obtain ⟨rfl, hp, hnone⟩ := hc
    have hempty : e.apps σ k = [] := by
      unfold apps
      rw [hnone]
      rfl
    rw [hempty]
    constructor
    · intro h
      cases hg : e.source P k with
      | none =>
        rw [hg] at h
        exact absurd h (by simp)
      | some g =>
        rw [hg] at h
        exact Or.inr ⟨g, ⟨rfl, hp, hnone, hg⟩, h⟩
    · rintro (h | ⟨g, ⟨-, -, -, hg⟩, h⟩)
      · exact absurd h (by simp)
      · rw [hg]
        exact h
  · rw [if_neg hc]
    constructor
    · exact Or.inl
    · rintro (h | ⟨g, ⟨hpath, hne, hnone, -⟩, -⟩)
      · exact h
      · obtain rfl := Option.some.inj hpath
        exact absurd ⟨rfl, hne, hnone⟩ hc

end Engine

/-- The application list after a write. -/
theorem mem_apps_write {σ : Stream} {w : Write} {entry : CapioCLEntry} {c : String} :
    c ∈ (w.apply entry).apps σ ↔ c ∈ entry.apps σ ∨ w = .app σ c := by
  cases w with
  | app σ' name =>
    cases σ <;> cases σ' <;>
      simp [Write.apply, CapioCLEntry.apps, mem_appendNew, eq_comm]
  | _ => cases σ <;> simp [Write.apply, CapioCLEntry.apps]

theorem nodup_apps_write {σ : Stream} (w : Write) {entry : CapioCLEntry}
    (h : (entry.apps σ).Nodup) : ((w.apply entry).apps σ).Nodup := by
  cases w with
  | app σ' name =>
    cases σ <;> cases σ'
    · exact nodup_appendNew h
    · exact h
    · exact h
    · exact nodup_appendNew h
  | _ => cases σ <;> exact h

/-- **Where a name comes from in one step**: it was there, it is written, or it is copied. -/
theorem mem_apps_perform (P : Platform) (σ : Stream) (act : Act) (e : Engine) (k c : String) :
    c ∈ (act.perform P e).apps σ k ↔
      c ∈ e.apps σ k ∨ (act = .set k (.app σ c) ∧ k ≠ "") ∨
        ∃ g, Copies P e act g k ∧ c ∈ e.apps σ g := by
  have hloop : ∀ {e' : Engine} {f : CapioCLEntry → CapioCLEntry},
      e'.find k = (e.find k).map f → (∀ x, (f x).apps σ = x.apps σ) →
      (c ∈ e'.apps σ k ↔ c ∈ e.apps σ k) := by
    intro e' f hf hblind
    unfold Engine.apps
    rw [hf, Option.map_map, show CapioCLEntry.apps σ ∘ f = CapioCLEntry.apps σ from funext hblind]
  cases act with
  | create p =>
    refine (Engine.mem_apps_newFile P σ p e k c).trans (or_congr_right ?_)
    simp
  | set p w =>
    have hstep : c ∈ (e.setter P p w.apply).apps σ k ↔
        c ∈ (e._newFile P p).apps σ k ∨ (Act.set p w = .set k (.app σ c) ∧ k ≠ "") := by
      unfold Engine.apps
      rw [Engine.find_setter]
      by_cases hk : k = p ∧ p ≠ ""
      · obtain ⟨rfl, hp⟩ := hk
        obtain ⟨entry, hentry⟩ :=
          Option.isSome_iff_exists.mp (Engine.find_newFile_isSome P hp e)
        rw [if_pos ⟨rfl, hp⟩, hentry]
        simpa [hp] using mem_apps_write
      · rw [if_neg hk]
        refine (or_iff_left ?_).symm
        rintro ⟨h, hne⟩
        injection h with h
        exact hk ⟨h.symm, by rwa [h]⟩
    refine hstep.trans ?_
    rw [Engine.mem_apps_newFile, or_assoc, or_congr_right or_comm]
    exact Iff.rfl
  | directories =>
    refine (hloop (Engine.find_setAllDirectories P e k) fun x => ?_).trans ?_
    · split <;> cases σ <;> rfl
    · simp [Copies, Act.path?]
  | storeAll =>
    refine (hloop (Engine.find_setAllStoreInMemory P e k) fun x => ?_).trans ?_
    · split <;> cases σ <;> rfl
    · simp [Copies, Act.path?]

end CapioCl
