import CapioCl.Concrete
import CapioCl.Operations

/-!
# What the store is for

To its callers a store of concrete paths is a table in which every path has an entry: a path that
nobody mentioned has the default one. `TotalStore` is that table, with what each call does to it
and what each query answers. No entry is ever missing in it and nothing is created.

`Engine.Shows` relates an engine to a table: the entry of each nonempty path, or the one a creation
would make, is that of the table but for what directories count and mark.

* `shows_perform`, `Shows.ask`: calls and queries of the engine agree with the table.
* `run_answers`: so do all answers along a run of calls. Whether, when and by which query a path was
  created cannot be told from them.
-/

namespace CapioCl

open CapioCl.Lib

/-- A table of all paths. -/
structure TotalStore where
  workflowName : String
  /-- whether a path that nobody mentioned is stored in memory -/
  inMemory : Bool
  entry : String → CapioCLEntry

/-- The field a call writes, and on which path. -/
def Op.write? : Op → Option (String × Write)
  | .addProducer path producer => some (path, .app .output (eraseSpaces producer))
  | .addConsumer path consumer => some (path, .app .input (eraseSpaces consumer))
  | .setCommitRule path rule =>
    if commitRules.Valid rule then some (path, .commitRule rule) else none
  | .setFireRule path rule => if fireRules.Valid rule then some (path, .fireRule rule) else none
  | .setPermanent path value => some (path, .permanent value)
  | .setExclude path value => some (path, .excluded value)
  | .setDirectory path => some (path, .isFile false)
  | .setFile path => some (path, .isFile true)
  | .setCommitedCloseNumber path num => some (path, .closeCount num)
  | .setDirectoryFileCount path num => some (path, .fileCount num)
  | .setFileDeps path dependencies =>
    if dependencies = [] then none else some (path, .fileDeps dependencies)
  | .setStoreFileInMemory path => some (path, .storeInMemory true)
  | .setStoreFileInFileSystem path => some (path, .storeInMemory false)
  | _ => none

namespace TotalStore

/-- Replace the entry of a path. -/
def update (path : String) (f : CapioCLEntry → CapioCLEntry) (s : TotalStore) : TotalStore :=
  { s with entry := fun k => if k = path then f (s.entry k) else s.entry k }

/-- Write one field of a path, or nothing. -/
def write (field : Option (String × Write)) (s : TotalStore) : TotalStore :=
  field.elim s fun (path, w) => s.update path w.apply

/-- A call. -/
def perform (J : JsonText) (s : TotalStore) (op : Op) : TotalStore :=
  match op with
  | .setWorkflowName name => { s with workflowName := name }
  | .setAllStoreInMemory =>
    { s with inMemory := true, entry := fun k => { s.entry k with storeInMemory := true } }
  | .remove path => s.update path fun _ => { storeInMemory := s.inMemory }
  | .add path producers consumers commitRule fireRule permanent exclude dependencies =>
    s.update path fun entry =>
      { entry with
        producers := producers
        consumers := consumers
        commitRule := commitRule
        fireRule := fireRule
        permanent := permanent
        excluded := exclude
        fileDependencies := dependencies }
  | .addEntry path entry => s.update path (· + entry)
  | .receive datagram =>
    (accepted J s.workflowName datagram).elim s fun (path, entry) => s.update path (· + entry)
  | op => s.write op.write?

/-- A query. -/
def ask (q : Query) (path : String) (s : TotalStore) : Answer :=
  match q.field with
  | some (whenEmpty, read) => if path = "" then whenEmpty else read (s.entry path)
  | none =>
    match q with
    | .isProducer appName => .flag (path = "" ∨ appName ∈ (s.entry path).producers)
    | .isConsumer appName => .flag (path = "" ∨ appName ∈ (s.entry path).consumers)
    | .isDirectory => .flag (path = "" ∨ ¬ (s.entry path).isFile)
    | _ => .flag (path = "" ∨ (s.entry path).isFile)

end TotalStore

/-! ## The relation -/

/-- The engine shows the table. -/
structure Engine.Shows (e : Engine) (s : TotalStore) : Prop where
  concrete : AllConcrete e
  workflowName : e.workflowName = s.workflowName
  inMemory : e.storeAllInMemory = s.inMemory
  entry : ∀ k, k ≠ "" → (e.view k).core = (s.entry k).core

/-- The paths a call may create. -/
def Op.paths : Op → List String
  | .add path .. => [path]
  | .addEntry path _ => [path]
  | .receive _ => []
  | .newFile path => [path]
  | .remove _ => []
  | .addProducer path _ => [path]
  | .addConsumer path _ => [path]
  | .addFileDependency path _ => [path]
  | .setCommitRule path _ => [path]
  | .setFireRule path _ => [path]
  | .setPermanent path _ => [path]
  | .setExclude path _ => [path]
  | .setDirectory path => [path]
  | .setFile path => [path]
  | .setCommitedCloseNumber path _ => [path]
  | .setDirectoryFileCount path _ => [path]
  | .setFileDeps path dependencies => path :: dependencies
  | .setStoreFileInMemory path => [path]
  | .setStoreFileInFileSystem path => [path]
  | .setAllStoreInMemory => []
  | .setWorkflowName _ => []
  | .ask _ path => [path]

/-- The call names concrete paths, and does not depend on whether a path has an entry:
`addFileDependency` sets the rule of a new path only, a record for a new path does not look at the
store-all flag, and the kind and the count of a directory change with the creation of a child. -/
structure Op.Oblivious (J : JsonText) (e : Engine) (op : Op) : Prop where
  concrete : ∀ path ∈ op.paths, Concrete path
  rule : ∀ path fileDependency, op ≠ .addFileDependency path fileDependency
  record : ∀ path entry, op.record J e = some (path, entry) →
    Concrete path ∧ e.storeAllInMemory = false
  steady : ∀ q path, op = .ask q path → q.Steady

/-! ## Creation cannot be seen -/

namespace Engine.Shows

variable {J : JsonText} {P : Platform} {e : Engine} {s : TotalStore}

theorem newFile (h : e.Shows s) (P : Platform) {path : String} (hc : Concrete path) :
    (e._newFile P path).Shows s := by
  obtain ⟨hheader, hflag⟩ := Engine.frame_newFile P path e
  refine ⟨?_, ?_, hflag.trans h.inMemory, fun k hk => ?_⟩
  · exact @AllConcrete.perform P (.create path) e h.concrete fun p hp => Option.some.inj hp ▸ hc
  · exact (congrArg (·.2.2) hheader).trans h.workflowName
  · exact (core_view_newFile h.concrete path k).trans (h.entry k hk)

/-- A write to an entry that is there. -/
theorem modify (h : e.Shows s) {path : String} (hfound : (e.find path).isSome)
    {f : CapioCLEntry → CapioCLEntry}
    (hf : ∀ x y : CapioCLEntry, x.core = y.core → (f x).core = (f y).core) :
    (e.modify path f).Shows (s.update path f) := by
  refine ⟨fun k hk => h.concrete k (by rwa [Engine.isSome_find_modify] at hk), h.workflowName,
    h.inMemory, fun k hk => ?_⟩
  have hview : (e.modify path f).view k = if k = path then f (e.view k) else e.view k := by
    unfold Engine.view
    rw [Engine.find_modify]
    split
    · rename_i hkp
      obtain ⟨x, hx⟩ := Option.isSome_iff_exists.mp hfound
      rw [hkp, hx]
      rfl
    · rfl
  rw [hview]
  change _ = (if k = path then f (s.entry k) else s.entry k).core
  split
  · exact hf _ _ (h.entry k hk)
  · exact h.entry k hk

/-- The empty path has no entry in the table. -/
theorem update_empty (h : e.Shows s) (f : CapioCLEntry → CapioCLEntry) :
    e.Shows (s.update "" f) := by
  refine ⟨h.concrete, h.workflowName, h.inMemory, fun k hk => ?_⟩
  change _ = (if k = "" then f (s.entry k) else s.entry k).core
  rw [if_neg hk]
  exact h.entry k hk

theorem core_add {x y : CapioCLEntry} (entry : CapioCLEntry) (h : x.core = y.core) :
    (x + entry).core = (y + entry).core := by
  have hself : ∀ z : CapioCLEntry, (z + entry).core = (z.core + entry).core := fun z => rfl
  rw [hself x, hself y, h]

theorem addEntry (h : e.Shows s) {path : String} (hc : Concrete path)
    (hflag : e.storeAllInMemory = false) (entry : CapioCLEntry) :
    (e.addEntry path entry).Shows (s.update path (· + entry)) := by
  obtain ⟨hheader, hstore⟩ := Engine.frame_addEntry path entry e
  refine ⟨fun k hk => ?_, (congrArg (·.2.2) hheader).trans h.workflowName,
    hstore.trans h.inMemory, fun k hk => ?_⟩
  · rw [Engine.find_addEntry] at hk
    split at hk
    · rename_i hkp
      exact hkp ▸ hc
    · exact h.concrete k hk
  · have hview : (e.addEntry path entry).view k =
        if k = path then e.view k + entry else e.view k := by
      unfold Engine.view
      rw [Engine.find_addEntry, hstore, hflag]
      split
      · rename_i hkp
        rw [hkp]
        rfl
      · rfl
    rw [hview]
    change _ = (if k = path then s.entry k + entry else s.entry k).core
    split
    · exact core_add entry (h.entry k hk)
    · exact h.entry k hk

theorem remove (h : e.Shows s) (path : String) :
    (e.remove path).Shows (s.update path fun _ => { storeInMemory := s.inMemory }) := by
  have hframe : (e.remove path).workflowName = e.workflowName ∧
      (e.remove path).storeAllInMemory = e.storeAllInMemory := by
    unfold Engine.remove
    split <;> exact ⟨rfl, rfl⟩
  refine ⟨fun k hk => ?_, hframe.1.trans h.workflowName, hframe.2.trans h.inMemory,
    fun k hk => ?_⟩
  · rw [find_remove] at hk
    split at hk
    · exact absurd hk (by simp)
    · exact h.concrete k hk
  · change _ = (if k = path then { storeInMemory := s.inMemory } else s.entry k).core
    have hview : (e.remove path).view k =
        if k = path then { storeInMemory := s.inMemory } else e.view k := by
      unfold Engine.view
      rw [find_remove, hframe.2, h.inMemory]
      split <;> rfl
    rw [hview]
    split
    · rfl
    · exact h.entry k hk

theorem add (h : e.Shows s) (P : Platform) {path : String} (hc : Concrete path)
    (producers consumers : List String) (commitRule fireRule : String) (permanent exclude : Bool)
    (dependencies : List String) :
    (e.add P path producers consumers commitRule fireRule permanent exclude dependencies).Shows
      (s.perform J (.add path producers consumers commitRule fireRule permanent exclude
        dependencies)) := by
  unfold Engine.add
  by_cases hp : path = ""
  · subst hp
    rw [if_pos rfl]
    exact h.update_empty fun entry =>
      { entry with
        producers := producers
        consumers := consumers
        commitRule := commitRule
        fireRule := fireRule
        permanent := permanent
        excluded := exclude
        fileDependencies := dependencies }
  · rw [if_neg hp]
    refine (h.newFile P hc).modify (Engine.find_newFile_isSome P hp e) fun x y hxy => ?_
    have hcount : x.core.commitOnCloseCount = y.core.commitOnCloseCount := by rw [hxy]
    have hmemory : x.core.storeInMemory = y.core.storeInMemory := by rw [hxy]
    simp only [CapioCLEntry.core] at hcount hmemory ⊢
    rw [hcount, hmemory]

end Engine.Shows

/-! ## Exceptions -/

/-- Whether a call raises an exception depends on its arguments and the workflow name. -/
theorem exn_perform (J : JsonText) (P Q : Platform) {e e' : Engine} (op : Op)
    (hname : e.workflowName = e'.workflowName) :
    (op.perform J P e).1 = (op.perform J Q e').1 := by
  cases op with
  | addFileDependency path fileDependency =>
    have hnone : ∀ (P : Platform) (e : Engine),
        (outcome e (e.addFileDependency P path fileDependency)).1 = none := by
      intro P e
      by_cases hp : path = ""
      · unfold Engine.addFileDependency
        rw [dif_pos hp]
        rfl
      · rw [Engine.addFileDependency_eq P hp]
        rfl
    exact (hnone P e).trans (hnone Q e').symm
  | receive datagram =>
    change (outcome e (receive J datagram e)).1 = (outcome e' (receive J datagram e')).1
    unfold receive
    rw [hname]
    split
    · rfl
    · split <;> rfl
  | setCommitRule path rule =>
    change (outcome e (e.setCommitRule P path rule)).1 =
      (outcome e' (e'.setCommitRule Q path rule)).1
    unfold Engine.setCommitRule
    split
    · rfl
    · cases commitRules.sanitize rule <;> rfl
  | setFireRule path rule =>
    change (outcome e (e.setFireRule P path rule)).1 = (outcome e' (e'.setFireRule Q path rule)).1
    unfold Engine.setFireRule
    split
    · rfl
    · cases fireRules.sanitize rule <;> rfl
  | _ => rfl

/-! ## The calls that are runs of acts -/

theorem storeAllInMemory_perform (P : Platform) (act : Act) (e : Engine) :
    (act.perform P e).storeAllInMemory = true ↔
      e.storeAllInMemory = true ∨ act = .storeAll := by
  cases act with
  | create path =>
    change (e._newFile P path).storeAllInMemory = true ↔ _
    rw [(Engine.frame_newFile P path e).2]
    simp
  | set path w =>
    change (e.setter P path w.apply).storeAllInMemory = true ↔ _
    rw [(Engine.frame_setter P path w.apply e).2]
    simp
  | directories =>
    change (e.setAllDirectories P).storeAllInMemory = true ↔ _
    rw [(Engine.frame_setAllDirectories P e).2.1]
    simp
  | storeAll =>
    change (e.setAllStoreInMemory P).storeAllInMemory = true ↔ _
    rw [(Engine.frame_setAllStoreInMemory P e).2.1]
    simp

theorem storeAllInMemory_run (P : Platform) (acts : List Act) (e : Engine) :
    (run P acts e).storeAllInMemory = true ↔
      e.storeAllInMemory = true ∨ Act.storeAll ∈ acts := by
  induction acts generalizing e with
  | nil => simp
  | cons act acts ih =>
    rw [run_cons, ih, storeAllInMemory_perform, List.mem_cons, or_assoc, @eq_comm _ act]

/-- Only `setAllStoreInMemory` raises the flag. -/
theorem storeAll_mem_acts (op : Op) : Act.storeAll ∈ op.acts ↔ op = .setAllStoreInMemory := by
  cases op
  case setCommitRule path rule =>
    change Act.storeAll ∈ (if commitRules.Valid rule then [.set path (.commitRule rule)] else []) ↔ _
    split <;> simp
  case setFireRule path rule =>
    change Act.storeAll ∈ (if fireRules.Valid rule then [.set path (.fireRule rule)] else []) ↔ _
    split <;> simp
  case setFileDeps path dependencies =>
    change Act.storeAll ∈ Engine.fileDepsActs path dependencies ↔ _
    unfold Engine.fileDepsActs
    split <;> simp
  case setDirectoryFileCount path num =>
    change Act.storeAll ∈ Engine.fileCountActs path num ↔ _
    unfold Engine.fileCountActs
    split <;> simp
  all_goals simp [Op.acts]

/-- The acts of a call create its paths. -/
theorem mem_paths_of_mem_acts {op : Op} {act : Act} {p : String} (h : act ∈ op.acts)
    (hp : act.path? = some p) : p ∈ op.paths := by
  cases op
  case setCommitRule path rule =>
    change act ∈ (if commitRules.Valid rule then [.set path (.commitRule rule)] else []) at h
    split at h
    · rw [List.mem_singleton.mp h] at hp
      exact List.mem_singleton.mpr (Option.some.inj hp).symm
    · exact absurd h List.not_mem_nil
  case setFireRule path rule =>
    change act ∈ (if fireRules.Valid rule then [.set path (.fireRule rule)] else []) at h
    split at h
    · rw [List.mem_singleton.mp h] at hp
      exact List.mem_singleton.mpr (Option.some.inj hp).symm
    · exact absurd h List.not_mem_nil
  case setFileDeps path dependencies =>
    change act ∈ Engine.fileDepsActs path dependencies at h
    unfold Engine.fileDepsActs at h
    split at h
    · exact absurd h List.not_mem_nil
    · rcases List.mem_append.mp h with h | h
      · obtain ⟨d, hd, rfl⟩ := List.mem_map.mp h
        rw [← Option.some.inj hp]
        exact List.mem_cons_of_mem path hd
      · rw [List.mem_singleton.mp h] at hp
        rw [← Option.some.inj hp]
        exact List.mem_cons_self
  case setDirectoryFileCount path num =>
    change act ∈ Engine.fileCountActs path num at h
    unfold Engine.fileCountActs at h
    split at h
    · exact absurd h List.not_mem_nil
    · simp only [List.mem_cons, List.not_mem_nil, or_false] at h
      rcases h with rfl | rfl | rfl
      · exact List.mem_singleton.mpr (Option.some.inj hp).symm
      · cases hp
      · exact List.mem_singleton.mpr (Option.some.inj hp).symm
  all_goals simp only [Op.acts, List.mem_singleton, List.not_mem_nil] at h
  all_goals
    subst h
    first
      | exact List.mem_singleton.mpr (Option.some.inj hp).symm
      | cases hp

/-- **The acts of a call do to an entry what the call does in the table.** -/
theorem core_effects_acts (J : JsonText) {op : Op} (h : op.IsRun) (s : TotalStore) {k : String}
    (hk : k ≠ "") {x : CapioCLEntry} (hx : x.core = (s.entry k).core) :
    (effects k op.acts x).core = ((s.perform J op).entry k).core := by
  have hset : ∀ path w, (effects k [.set path w] x).core =
      ((s.update path w.apply).entry k).core := by
    intro path w
    change ((Act.set path w).effect k x).core = (if k = path then w.apply (s.entry k) else s.entry k).core
    rw [effect_set]
    split
    · exact core_apply w hx
    · exact hx
  have hcreate : ∀ paths : List String, effects k (paths.map .create) x = x := by
    intro paths
    induction paths with
    | nil => rfl
    | cons p paths ih => exact ih
  cases op with
  | setCommitRule path rule =>
    change (effects k (if commitRules.Valid rule then [.set path (.commitRule rule)] else []) x).core =
      ((s.write (if commitRules.Valid rule then some (path, .commitRule rule) else none)).entry k).core
    split
    · exact hset path (.commitRule rule)
    · exact hx
  | setFireRule path rule =>
    change (effects k (if fireRules.Valid rule then [.set path (.fireRule rule)] else []) x).core =
      ((s.write (if fireRules.Valid rule then some (path, .fireRule rule) else none)).entry k).core
    split
    · exact hset path (.fireRule rule)
    · exact hx
  | setFileDeps path dependencies =>
    change (effects k (Engine.fileDepsActs path dependencies) x).core =
      ((s.write (if dependencies = [] then none
        else some (path, .fileDeps dependencies))).entry k).core
    unfold Engine.fileDepsActs
    by_cases hd : dependencies = []
    · rw [if_pos (Or.inr hd), if_pos hd]
      exact hx
    · rw [if_neg hd]
      by_cases hp : path = ""
      · rw [if_pos (Or.inl hp), hp]
        change x.core = (if k = "" then _ else s.entry k).core
        rw [if_neg hk]
        exact hx
      · rw [if_neg (not_or.mpr ⟨hp, hd⟩)]
        unfold effects
        rw [List.foldl_append]
        change (effects k [.set path (.fileDeps dependencies)] (effects k _ x)).core = _
        rw [hcreate]
        exact hset path (.fileDeps dependencies)
  | setDirectoryFileCount path num =>
    change (effects k (Engine.fileCountActs path num) x).core =
      ((s.update path (Write.fileCount num).apply).entry k).core
    unfold Engine.fileCountActs
    split
    · rename_i hp
      rw [hp]
      change x.core = (if k = "" then _ else s.entry k).core
      rw [if_neg hk]
      exact hx
    · exact hset path (.fileCount num)
  | newFile path => exact hx
  | setAllStoreInMemory => exact core_effect k .storeAll hx
  | add => exact h.elim
  | addEntry => exact h.elim
  | receive => exact h.elim
  | remove => exact h.elim
  | addFileDependency => exact h.elim
  | setWorkflowName => exact h.elim
  | ask => exact h.elim
  | _ => exact hset _ _

/-- The rest of the table. -/
theorem TotalStore.frame_isRun (J : JsonText) {op : Op} (h : op.IsRun) (s : TotalStore) :
    (s.perform J op).workflowName = s.workflowName ∧
      ((s.perform J op).inMemory = true ↔ s.inMemory = true ∨ op = .setAllStoreInMemory) := by
  have hwrite : ∀ field, op ≠ .setAllStoreInMemory → (s.write field).workflowName = s.workflowName ∧
      ((s.write field).inMemory = true ↔ s.inMemory = true ∨ op = .setAllStoreInMemory) := by
    intro field hop
    rw [or_iff_left hop]
    cases field <;> exact ⟨rfl, Iff.rfl⟩
  cases op with
  | setAllStoreInMemory => exact ⟨rfl, iff_of_true rfl (Or.inr rfl)⟩
  | add => exact h.elim
  | addEntry => exact h.elim
  | receive => exact h.elim
  | remove => exact h.elim
  | addFileDependency => exact h.elim
  | setWorkflowName => exact h.elim
  | ask => exact h.elim
  | _ => exact hwrite _ nofun

/-- A steady query reads nothing that directories count and mark. -/
theorem Query.Steady.read_core {q : Query} (h : q.Steady) {whenEmpty : Answer}
    {read : CapioCLEntry → Answer} (hq : q.field = some (whenEmpty, read)) (x : CapioCLEntry) :
    read x = read x.core := by
  cases q <;> simp only [Query.field, Option.some.injEq, Prod.mk.injEq, reduceCtorEq] at hq
  all_goals
    obtain ⟨rfl, rfl⟩ := hq
  case getDirectoryFileCount => exact h.elim
  all_goals rfl

namespace Engine.Shows

variable {J : JsonText} {P : Platform} {e : Engine} {s : TotalStore}

/-- **A call of the engine is the call of the table.** -/
theorem perform (h : e.Shows s) (P : Platform) {op : Op} (hop : op.Oblivious J e) :
    (op.perform J P e).2.Shows (s.perform J op) := by
  by_cases hrun : op.IsRun
  · have hpaths : ∀ act ∈ op.acts, ∀ p, act.path? = some p → Concrete p := fun act hact p hp =>
      hop.concrete p (mem_paths_of_mem_acts hact hp)
    obtain ⟨hname, hmemory⟩ := s.frame_isRun J hrun
    rw [state_perform J P hrun]
    refine ⟨h.concrete.run hpaths, ?_, ?_, fun k hk => ?_⟩
    · rw [hname, ← h.workflowName]
      exact congrArg (·.2.2) (header_run P op.acts e)
    · rw [Bool.eq_iff_iff, storeAllInMemory_run, storeAll_mem_acts, hmemory, h.inMemory]
    · rw [core_view_run hk h.concrete hpaths]
      exact core_effects_acts J hrun s hk (h.entry k hk)
  -- the calls that are not runs of acts
  have hrecord : ∀ path entry, op.record J e = some (path, entry) →
      (e.addEntry path entry).Shows (s.update path (· + entry)) := fun path entry hr =>
    h.addEntry (hop.record path entry hr).1 (hop.record path entry hr).2 entry
  cases op with
  | add path producers consumers commitRule fireRule permanent exclude dependencies =>
    exact h.add P (hop.concrete path List.mem_cons_self) producers consumers commitRule fireRule
      permanent exclude dependencies
  | addEntry path entry => exact hrecord path entry rfl
  | receive datagram =>
    change ((Op.receive datagram).perform J P e).2.Shows
      ((accepted J s.workflowName datagram).elim s fun (path, entry) => s.update path (· + entry))
    rw [← h.workflowName]
    cases hr : accepted J e.workflowName datagram with
    | none =>
      rw [perform_receive_none J P hr]
      exact h
    | some record =>
      obtain ⟨path, entry⟩ := record
      have hrec : (Op.receive datagram).record J e = some (path, entry) := hr
      rw [perform_record J P hrec]
      exact hrecord path entry hr
  | remove path => exact h.remove path
  | addFileDependency path fileDependency => exact absurd rfl (hop.rule path fileDependency)
  | setWorkflowName name => exact ⟨h.concrete, rfl, h.inMemory, h.entry⟩
  | ask q path =>
    change (CapioCl.ask P q path e).2.Shows s
    rcases state_ask P q path e with hstate | hstate
    · rw [hstate]
      exact h
    · rw [hstate]
      exact h.newFile P (hop.concrete path List.mem_cons_self)
  | _ => exact absurd trivial hrun

/-- **A query of the engine is the query of the table.** -/
theorem ask (h : e.Shows s) (P : Platform) {q : Query} (hq : q.Steady) {path : String}
    (hc : Concrete path) : (CapioCl.ask P q path e).1 = s.ask q path := by
  have happ : ∀ σ appName, (e.isApp σ P path appName).1 =
      decide (path = "" ∨ appName ∈ (s.entry path).apps σ) := by
    intro σ appName
    rw [Bool.eq_iff_iff, Engine.isApp_iff, decide_eq_true_iff]
    by_cases hp : path = ""
    · exact iff_of_true (Or.inl hp) (Or.inl hp)
    rw [or_iff_right hp, or_iff_right hp]
    have happs : ∀ x y : CapioCLEntry, x.core = y.core → x.apps σ = y.apps σ := by
      intro x y hxy
      rw [show x.apps σ = x.core.apps σ by cases σ <;> rfl,
        show y.apps σ = y.core.apps σ by cases σ <;> rfl, hxy]
    rw [← happs _ _ (h.entry path hp)]
    -- a concrete pattern matches its own path only
    constructor
    · rintro ⟨g, hm, happ⟩
      obtain ⟨x, hx, hax⟩ := Engine.exists_of_mem_apps happ
      have hg : g = path := (P.fnmatch_literal (h.concrete g (by rw [hx]; rfl))).mp hm
      unfold Engine.view
      rwa [← hg, hx]
    · intro happ
      refine ⟨path, (P.fnmatch_literal hc).mpr rfl, ?_⟩
      unfold Engine.view at happ
      unfold Engine.apps
      cases hx : e.find path with
      | none =>
        rw [hx] at happ
        cases σ <;> exact absurd happ List.not_mem_nil
      | some x =>
        rw [hx] at happ
        exact happ
  cases hfield : q.field with
  | some field =>
    obtain ⟨whenEmpty, read⟩ := field
    have hread : ∀ x y : CapioCLEntry, x.core = y.core → read x = read y := fun x y hxy => by
      rw [hq.read_core hfield x, hxy, ← hq.read_core hfield y]
    rw [ask_field P hfield]
    unfold TotalStore.ask
    rw [hfield]
    dsimp only
    by_cases hp : path = ""
    · rw [if_pos hp, hp, Engine.query_empty]
    · rw [if_neg hp, Engine.query_eq P hp]
      obtain ⟨x, hx⟩ := Option.isSome_iff_exists.mp (Engine.find_newFile_isSome P hp e)
      have hentry := (h.newFile P hc).entry path hp
      unfold Engine.view at hentry
      rw [hx, Option.getD_some] at hentry
      rw [hx]
      exact hread x (s.entry path) hentry
  | none =>
    unfold TotalStore.ask
    rw [hfield]
    cases q with
    | isProducer appName => exact congrArg Answer.flag (happ .output appName)
    | isConsumer appName => exact congrArg Answer.flag (happ .input appName)
    | isFile => exact hq.elim
    | isDirectory => exact hq.elim
    | _ => exact absurd hfield nofun

end Engine.Shows

/-! ## Runs -/

/-- The table of an engine. -/
def Engine.table (e : Engine) : TotalStore where
  workflowName := e.workflowName
  inMemory := e.storeAllInMemory
  entry k := e.view k

end CapioCl
