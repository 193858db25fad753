import CapioCl.Act

/-!
# Lazily creating queries

The queries of the engine are `const`, and yet most of them create the entry of a path that has
none (`Engine.cpp:378-416`, `438-456`, `474-600`, `642-712`, `740-759`, `823-881`). `ask` is any of
these. What a query leaves behind is `state_ask`: the engine as it was, or the engine after the
creation of the path.

* `lazyRead_transparent`: on a path without glob characters the creation cannot be observed by the
  queries that do not read the kind or the child count of a directory.
-/

namespace CapioCl

open CapioCl.Lib

namespace Engine

/-- `Engine::getCommitRule`. -/
def getCommitRule (P : Platform) (path : String) (e : Engine) : String × Engine :=
  query P path commitRules.onTermination CapioCLEntry.commitRule e

/-- `Engine::getFireRule`. -/
def getFireRule (P : Platform) (path : String) (e : Engine) : String × Engine :=
  query P path fireRules.noUpdate CapioCLEntry.fireRule e

/-- `Engine::isFirable`. -/
def isFirable (P : Platform) (path : String) (e : Engine) : Bool × Engine :=
  query P path true (fun entry => entry.fireRule = fireRules.noUpdate) e

/-- `Engine::isFile`. After a creation it answers with `isPermanent`. -/
def isFile (P : Platform) (path : String) (e : Engine) : Bool × Engine :=
  if path = "" then (true, e)
  else
    match e.find path with
    | some entry => (entry.isFile, e)
    | none => (e._newFile P path).isPermanent P path

/-- `Engine::isDirectory`. -/
def isDirectory (P : Platform) (path : String) (e : Engine) : Bool × Engine :=
  if path = "" then (true, e)
  else
    let (answer, e) := e.isFile P path
    (!answer, e)

/-- `Engine::isStoredInMemory`. -/
def isStoredInMemory (P : Platform) (path : String) (e : Engine) : Bool × Engine :=
  query P path true CapioCLEntry.storeInMemory e

/-- `Engine::getCommitCloseCount`. -/
def getCommitCloseCount (P : Platform) (path : String) (e : Engine) : Int × Engine :=
  query P path 0 CapioCLEntry.commitOnCloseCount e

/-- `Engine::getDirectoryFileCount`. -/
def getDirectoryFileCount (P : Platform) (path : String) (e : Engine) : Int × Engine :=
  query P path 0 CapioCLEntry.directoryChildrenCount e

/-- `Engine::getProducers`. -/
def getProducers (P : Platform) (path : String) (e : Engine) : List String × Engine :=
  query P path [] CapioCLEntry.producers e

/-- The shape of `isConsumer` and `isProducer`: look at every pattern that matches, and create the
entry of `path` when none has the application. -/
def isApp (σ : Stream) (P : Platform) (path appName : String) (e : Engine) : Bool × Engine :=
  if path = "" then (true, e)
  else if (e.getPaths P).any fun pattern =>
      P.fnmatch pattern path && (e.apps σ pattern).contains appName then (true, e)
  else (false, e._newFile P path)

/-- `Engine::isConsumer`. -/
def isConsumer (P : Platform) (path appName : String) (e : Engine) : Bool × Engine :=
  isApp .input P path appName e

/-- `Engine::isProducer`. -/
def isProducer (P : Platform) (path appName : String) (e : Engine) : Bool × Engine :=
  isApp .output P path appName e

/-! ## Queries that create nothing (`Engine.cpp:222-227`, `632-640`, `759-767`) -/

/-- `Engine::contains`. -/
def contains (P : Platform) (file : String) (e : Engine) : Bool :=
  (e.getPaths P).any fun pattern => P.fnmatch pattern file

/-- `Engine::getConsumers`. -/
def getConsumers (path : String) (e : Engine) : List String :=
  match e.find path with
  | some entry => entry.consumers
  | none => []

/-- `Engine::getCommitOnFileDependencies`. -/
def getCommitOnFileDependencies (path : String) (e : Engine) : List String :=
  match e.find path with
  | some entry => entry.fileDependencies
  | none => []

end Engine

/-- The queries that create. -/
inductive Query where
  | getCommitRule
  | getFireRule
  | isFirable
  | isPermanent
  | isFile
  | isDirectory
  | isExcluded
  | isStoredInMemory
  | getCommitCloseCount
  | getDirectoryFileCount
  | getProducers
  | isProducer (appName : String)
  | isConsumer (appName : String)
  deriving Repr, DecidableEq

/-- What a query returns. -/
inductive Answer where
  | rule (s : String)
  | flag (b : Bool)
  | count (n : Int)
  | names (l : List String)
  deriving Repr, DecidableEq

/-- A query on a path: the answer and the engine it leaves. -/
def ask (P : Platform) (q : Query) (path : String) (e : Engine) : Answer × Engine :=
  match q with
  | .getCommitRule => (e.getCommitRule P path).map .rule id
  | .getFireRule => (e.getFireRule P path).map .rule id
  | .isFirable => (e.isFirable P path).map .flag id
  | .isPermanent => (e.isPermanent P path).map .flag id
  | .isFile => (e.isFile P path).map .flag id
  | .isDirectory => (e.isDirectory P path).map .flag id
  | .isExcluded => (e.isExcluded P path).map .flag id
  | .isStoredInMemory => (e.isStoredInMemory P path).map .flag id
  | .getCommitCloseCount => (e.getCommitCloseCount P path).map .count id
  | .getDirectoryFileCount => (e.getDirectoryFileCount P path).map .count id
  | .getProducers => (e.getProducers P path).map .names id
  | .isProducer appName => (e.isProducer P path appName).map .flag id
  | .isConsumer appName => (e.isConsumer P path appName).map .flag id

/-! ## What a query leaves behind -/

namespace Engine

/-- **A query reads the entry a creation leaves.** -/
theorem query_eq {α : Type} (P : Platform) {path : String} (hp : path ≠ "") (whenEmpty : α)
    (read : CapioCLEntry → α) (e : Engine) : query P path whenEmpty read e =
      ((((e._newFile P path).find path).map read).getD whenEmpty, e._newFile P path) := by
  have hfound : ∀ {e : Engine}, (e.find path).isSome →
      query P path whenEmpty read e = (((e.find path).map read).getD whenEmpty, e) := by
    intro e h
    obtain ⟨entry, hentry⟩ := Option.isSome_iff_exists.mp h
    rw [query_of_find P whenEmpty read hp hentry, hentry]
    rfl
  by_cases h : (e.find path).isSome
  · rw [newFile_of_isSome P h, hfound h]
  · unfold query
    rw [dif_neg hp]
    split
    · rename_i hs
      rw [hs] at h
      exact absurd rfl h
    · exact hfound (find_newFile_isSome P hp e)

theorem query_map {α β : Type} (f : α → β) (P : Platform) (path : String) (whenEmpty : α)
    (read : CapioCLEntry → α) (e : Engine) :
    (query P path whenEmpty read e).map f id = query P path (f whenEmpty) (f ∘ read) e := by
  by_cases hp : path = ""
  · subst hp
    rw [query_empty, query_empty]
    rfl
  · obtain ⟨entry, hentry⟩ := Option.isSome_iff_exists.mp (find_newFile_isSome P hp e)
    rw [query_eq P hp, query_eq P hp, hentry]
    rfl

theorem state_isFile (P : Platform) {path : String} (hp : path ≠ "") (e : Engine) :
    (e.isFile P path).2 = e._newFile P path := by
  unfold isFile
  rw [if_neg hp]
  cases h : e.find path with
  | some entry =>
    dsimp only
    rw [newFile_of_isSome P (by rw [h]; rfl)]
  | none =>
    dsimp only
    unfold isPermanent
    rw [query_eq P hp, newFile_of_isSome P (find_newFile_isSome P hp e)]

/-- What `isConsumer` and `isProducer` answer. -/
theorem isApp_iff (σ : Stream) (P : Platform) (path appName : String) (e : Engine) :
    (e.isApp σ P path appName).1 = true ↔
      path = "" ∨ ∃ g, P.fnmatch g path = true ∧ appName ∈ e.apps σ g := by
  unfold isApp
  by_cases hp : path = ""
  · rw [if_pos hp]
    exact iff_of_true rfl (Or.inl hp)
  rw [if_neg hp, or_iff_right hp]
  have hany : ((e.getPaths P).any fun pattern =>
      P.fnmatch pattern path && (e.apps σ pattern).contains appName) = true ↔
        ∃ g, P.fnmatch g path = true ∧ appName ∈ e.apps σ g := by
    simp only [List.any_eq_true, Bool.and_eq_true, List.contains_iff_mem]
    constructor
    · rintro ⟨g, -, h⟩
      exact ⟨g, h⟩
    · rintro ⟨g, hm, happ⟩
      refine ⟨g, mem_getPaths.mpr ?_, hm, happ⟩
      unfold apps at happ
      cases hg : e.find g with
      | some entry => rfl
      | none =>
        rw [hg] at happ
        exact absurd happ (by simp)
  rw [← hany]
  split
  · exact iff_of_true rfl ‹_›
  · exact iff_of_false nofun ‹_›

end Engine

/-- The queries that read one field: the answer for the empty path and the field. -/
def Query.field : Query → Option (Answer × (CapioCLEntry → Answer))
  | .getCommitRule => some (.rule commitRules.onTermination, fun x => .rule x.commitRule)
  | .getFireRule => some (.rule fireRules.noUpdate, fun x => .rule x.fireRule)
  | .isFirable => some (.flag true, fun x => .flag (x.fireRule = fireRules.noUpdate))
  | .isPermanent => some (.flag true, fun x => .flag x.permanent)
  | .isExcluded => some (.flag true, fun x => .flag x.excluded)
  | .isStoredInMemory => some (.flag true, fun x => .flag x.storeInMemory)
  | .getCommitCloseCount => some (.count 0, fun x => .count x.commitOnCloseCount)
  | .getDirectoryFileCount => some (.count 0, fun x => .count x.directoryChildrenCount)
  | .getProducers => some (.names [], fun x => .names x.producers)
  | .isFile => none
  | .isDirectory => none
  | .isProducer _ => none
  | .isConsumer _ => none

theorem ask_field (P : Platform) {q : Query} {whenEmpty : Answer} {read : CapioCLEntry → Answer}
    (h : q.field = some (whenEmpty, read)) (path : String) (e : Engine) :
    ask P q path e = Engine.query P path whenEmpty read e := by
  cases q <;> simp only [Query.field, Option.some.injEq, Prod.mk.injEq, reduceCtorEq] at h
  all_goals
    obtain ⟨rfl, rfl⟩ := h
    exact Engine.query_map _ P path _ _ e

/-- **A query leaves the engine as it was, or creates the path.** -/
theorem state_ask (P : Platform) (q : Query) (path : String) (e : Engine) :
    (ask P q path e).2 = e ∨ (ask P q path e).2 = e._newFile P path := by
  have hfile : (e.isFile P path).2 = e ∨ (e.isFile P path).2 = e._newFile P path := by
    by_cases hp : path = ""
    · unfold Engine.isFile
      rw [if_pos hp]
      exact Or.inl rfl
    · exact Or.inr (Engine.state_isFile P hp e)
  have happ : ∀ σ appName, (e.isApp σ P path appName).2 = e ∨
      (e.isApp σ P path appName).2 = e._newFile P path := by
    intro σ appName
    unfold Engine.isApp
    split
    · exact Or.inl rfl
    · split
      · exact Or.inl rfl
      · exact Or.inr rfl
  cases hfield : q.field with
  | some field =>
    rw [ask_field P hfield]
    by_cases hp : path = ""
    · subst hp
      rw [Engine.query_empty]
      exact Or.inl rfl
    · rw [Engine.query_eq P hp]
      exact Or.inr rfl
  | none =>
    cases q with
    | isFile => exact hfile
    | isDirectory =>
      change (e.isDirectory P path).2 = e ∨ (e.isDirectory P path).2 = e._newFile P path
      unfold Engine.isDirectory
      split
      · exact Or.inl rfl
      · exact hfile
    | isProducer appName => exact happ .output appName
    | isConsumer appName => exact happ .input appName
    | _ => exact absurd hfield nofun

/-! ## Reading a concrete path -/

/-- A step that skips `k` does not see it in a list. -/
theorem foldl_filter_ne {α : Type} {f : α → String → α} {k : String} (h : ∀ b, f b k = b)
    (ks : List String) (b : α) : (ks.filter (· ≠ k)).foldl f b = ks.foldl f b := by
  induction ks generalizing b with
  | nil => rfl
  | cons q ks ih =>
    by_cases hq : q = k
    · rw [List.filter_cons_of_neg (by simp [hq]), List.foldl_cons, hq, h, ih]
    · rw [List.filter_cons_of_pos (by simp [hq]), List.foldl_cons, List.foldl_cons, ih]

namespace Engine

variable {P : Platform} {p r : String} {e : Engine}

/-- A key that does not match `r` does not decide what `r` copies. -/
theorem source_newFile (hties : P.entryOrder.Stable) (hm : P.fnmatch p r = false) :
    (e._newFile P p).source P r = e.source P r := by
  by_cases hold : p = "" ∨ (e.find p).isSome
  · refine source_of_keys ?_
    rw [keys_newFile, if_pos hold]
  · have hnot : p ∉ e.capioClEntries.keys := by
      rw [← AList.mem_keys, ← AList.lookup_isSome]
      exact (not_or.mp hold).2
    have hlongest : (e._newFile P p).longestMatch P r = e.longestMatch P r := by
      unfold longestMatch
      rw [keys_newFile, if_neg hold, ← hties p _ hnot]
      refine (foldl_filter_ne (fun b => ?_) _ _).symm
      rw [hm, Bool.false_and]
      rfl
    unfold source
    rw [hlongest]

/-- A field that counting does not touch is copied alike before and after the creation of a key
that does not match. -/
theorem read_newEntry_newFile {α : Type} {read : CapioCLEntry → α}
    (hread : ∀ x, read x.counted = read x) (hties : P.entryOrder.Stable)
    (hm : P.fnmatch p r = false) :
    read ((e._newFile P p).newEntry P r) = read (e.newEntry P r) := by
  have hflag : (e._newFile P p).storeAllInMemory = e.storeAllInMemory := (frame_newFile P p e).2
  have hsource : (e._newFile P p).source P r = e.source P r := source_newFile hties hm
  cases hg : e.source P r with
  | none => rw [newEntry_of_none (hsource.trans hg), newEntry_of_none hg, hflag]
  | some g =>
    obtain ⟨data', hdata', hnew'⟩ := newEntry_of_source (hsource.trans hg)
    obtain ⟨data, hdata, hnew⟩ := newEntry_of_source hg
    -- the source itself changed at most by being counted
    let copied : CapioCLEntry → CapioCLEntry := fun x =>
      { x with storeInMemory := e.storeAllInMemory || x.storeInMemory }
    have hcounted : ∀ x, copied x.counted = (copied x).counted := by
      intro x
      unfold CapioCLEntry.counted
      split <;> simp [copied, *]
    have hcopy := @map_find_newFile α (read ∘ copied)
      (fun x => (congrArg read (hcounted x)).trans (hread (copied x))) P p e g
    rw [hdata', hdata, if_neg] at hcopy
    · rw [hnew', hnew, hflag]
      exact Option.some.inj hcopy
    · rintro ⟨rfl, -, hnone⟩
      rw [hnone] at hdata
      exact absurd hdata (by simp)

end Engine

/-- The queries that do not read the kind or the child count. -/
def Query.Steady : Query → Prop
  | .isFile => False
  | .isDirectory => False
  | .getDirectoryFileCount => False
  | _ => True

theorem Query.Steady.read_counted {q : Query} (h : q.Steady) {whenEmpty : Answer}
    {read : CapioCLEntry → Answer} (hq : q.field = some (whenEmpty, read)) (x : CapioCLEntry) :
    read x.counted = read x := by
  refine @CapioCLEntry.get_counted _ read (fun x n b => ?_) x
  cases q <;> simp only [Query.field, Option.some.injEq, Prod.mk.injEq, reduceCtorEq] at hq
  all_goals
    obtain ⟨rfl, rfl⟩ := hq
  case getDirectoryFileCount => exact h.elim
  all_goals rfl

/-- A field reads the same before and after the creation of a concrete path. -/
theorem ask_newFile_field {P : Platform} (hties : P.entryOrder.Stable) {p : String}
    (hc : Concrete p) {q : Query} (hq : q.Steady) {whenEmpty : Answer}
    {read : CapioCLEntry → Answer} (hfield : q.field = some (whenEmpty, read)) (r : String)
    (e : Engine) : (ask P q r (e._newFile P p)).1 = (ask P q r e).1 := by
  have hread := hq.read_counted hfield
  rw [ask_field P hfield, ask_field P hfield]
  by_cases hr : r = ""
  · subst hr
    rw [Engine.query_empty, Engine.query_empty]
  rw [Engine.query_eq P hr, Engine.query_eq P hr]
  dsimp only
  rw [Engine.map_find_newFile hread P r (e._newFile P p), Engine.map_find_newFile hread P r e]
  by_cases hpr : r = p ∧ p ≠ "" ∧ e.find p = none
  -- `r` is the path created: both times its entry is the copy
  · obtain ⟨rfl, -, hnone⟩ := hpr
    have hsome := Engine.find_newFile_isSome P hr e
    rw [if_neg, if_pos ⟨rfl, hr, hnone⟩, Engine.map_find_newFile hread, if_pos ⟨rfl, hr, hnone⟩]
    rintro ⟨-, -, hnone'⟩
    rw [hnone'] at hsome
    exact absurd hsome (by simp)
  · have hfind := Engine.map_find_newFile hread P p e r
    rw [if_neg hpr] at hfind
    have hkeys : (e._newFile P p).find r = none ↔ e.find r = none := by
      rw [← Option.map_eq_none_iff (f := read), hfind, Option.map_eq_none_iff]
    rw [hfind]
    by_cases hnone : e.find r = none
    · rw [if_pos ⟨rfl, hr, hkeys.mpr hnone⟩, if_pos ⟨rfl, hr, hnone⟩]
      by_cases hne : r = p
      -- `p` is empty or a key: nothing was created
      · subst hne
        exact absurd ⟨rfl, hr, hnone⟩ hpr
      · have hm : P.fnmatch p r = false := by
          rw [Bool.eq_false_iff]
          exact fun hm => hne ((P.fnmatch_literal hc).mp hm).symm
        rw [Engine.read_newEntry_newFile hread hties hm]
    · rw [if_neg fun h => hnone (hkeys.mp h.2.2), if_neg fun h => hnone h.2.2]

/-- Membership reads the same before and after the creation of a concrete path. -/
theorem isApp_newFile {P : Platform} {p : String} (hc : Concrete p) (σ : Stream)
    (r appName : String) (e : Engine) :
    ((e._newFile P p).isApp σ P r appName).1 = (e.isApp σ P r appName).1 := by
  rw [Bool.eq_iff_iff, Engine.isApp_iff, Engine.isApp_iff]
  refine or_congr_right ⟨?_, ?_⟩
  · rintro ⟨g, hm, happ⟩
    rcases (Engine.mem_apps_newFile P σ p e g appName).mp happ with hold | ⟨g', hcopy, hold⟩
    · exact ⟨g, hm, hold⟩
    -- the copy matches only its own path, which its source matches too
    · obtain rfl : p = g := Option.some.inj hcopy.1
      obtain rfl := (P.fnmatch_literal hc).mp hm
      exact ⟨g', hcopy.fnmatch, hold⟩
  · rintro ⟨g, hm, happ⟩
    exact ⟨g, hm, (Engine.mem_apps_newFile P σ p e g appName).mpr (Or.inl happ)⟩

/-- **Lazy reads of concrete paths are transparent.** A query on a concrete path changes no answer
of a query that does not read a kind or a child count, and no entry but the new one and that of
its parent. -/
theorem lazyRead_transparent (P : Platform) (hties : P.entryOrder.Stable) (e : Engine)
    {p : String} (hc : Concrete p) (q : Query) :
    (∀ q' : Query, q'.Steady → ∀ r, (ask P q' r (ask P q p e).2).1 = (ask P q' r e).1) ∧
      ((e.find p).isSome → (ask P q p e).2 = e) ∧
      (∀ k, k ≠ p → k ≠ parentPath p → (ask P q p e).2.find k = e.find k) ∧
      (ask P q p e).2.header = e.header ∧
      (ask P q p e).2.storeAllInMemory = e.storeAllInMemory := by
  rcases state_ask P q p e with hstate | hstate
  · rw [hstate]
    exact ⟨fun _ _ _ => rfl, fun _ => rfl, fun _ _ _ => rfl, rfl, rfl⟩
  rw [hstate]
  refine ⟨fun q' hq' r => ?_, fun h => Engine.newFile_of_isSome P h, fun k hk hpar => ?_,
    Engine.frame_newFile P p e⟩
  · cases hfield : q'.field with
    | some field => exact ask_newFile_field hties hc hq' hfield r e
    | none =>
      cases q' with
      | isProducer appName => exact congrArg Answer.flag (isApp_newFile hc .output r appName e)
      | isConsumer appName => exact congrArg Answer.flag (isApp_newFile hc .input r appName e)
      | isFile => exact hq'.elim
      | isDirectory => exact hq'.elim
      | _ => exact absurd hfield nofun
  · rw [Engine.find_newFile]
    split
    · rfl
    · dsimp only
      rw [if_neg fun h => hpar h.1]

/-- A store with a pattern. -/
def patternEngine : Engine :=
  { capioClEntries := (∅ : UnorderedMap String CapioCLEntry).insert "*.dat"
      { producers := ["app"], commitRule := commitRules.onClose } }

theorem patternEngine_transparent :
    posix.entryOrder.Stable ∧ Concrete "out.dat" ∧
      (ask posix .getProducers "out.dat" patternEngine).1 = .names ["app"] ∧
      (ask posix .getCommitRule "x.dat" (ask posix .getProducers "out.dat" patternEngine).2).1 =
        (ask posix .getCommitRule "x.dat" patternEngine).1 := by
  have hc : Concrete "out.dat" := by decide +kernel
  have h := lazyRead_transparent posix IterationOrder.stable_id patternEngine hc
    .getProducers
  exact ⟨IterationOrder.stable_id, hc, by decide +kernel, h.1 .getCommitRule trivial "x.dat"⟩

end CapioCl
