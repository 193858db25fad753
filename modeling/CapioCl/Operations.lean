import CapioCl.Api
import CapioCl.DirectoryCount
import CapioCl.Lib.Runs
import CapioCl.Query

/-!
# The public operations

`Op` is any call of the public interface that can reach the store, a datagram of the dynamic API
among them, and `Op.perform` makes it: the exception, if any, and the engine afterwards. Most calls
are runs of acts (`Op.acts`, `state_perform`); the others are the two `add` overloads,
`addFileDependency`, `remove` and the datagrams.

`Engine.All I` says that every entry satisfies `I`. An `EntryInvariant` is one that creation keeps:
default entries satisfy it, and counting, marking and the storage flag do not matter
(`EntryInvariant.newFile`, `EntryInvariant.run`).
-/

namespace CapioCl

open CapioCl.Lib

/-- `vec.emplace_back(path)` unless `std::find` finds it; paths are compared as paths. -/
def appendNewPath (vec : List String) (path : String) : List String :=
  if vec.any (samePath path) then vec else vec ++ [path]

namespace Engine

/-- `Engine::add` of single fields. -/
def add (P : Platform) (path : String) (producers consumers : List String)
    (commitRule fireRule : String) (permanent exclude : Bool) (dependencies : List String)
    (e : Engine) : Engine :=
  if path = "" then e
  else (e._newFile P path).modify path fun entry =>
    { entry with
      producers := producers
      consumers := consumers
      commitRule := commitRule
      fireRule := fireRule
      permanent := permanent
      excluded := exclude
      fileDependencies := dependencies }

/-- `Engine::addFileDependency`. -/
def addFileDependency (P : Platform) (path fileDependency : String) (e : Engine) :
    Except Exn Engine :=
  if _hp : path = "" then .ok e
  else
    match _h : e.find path with
    | some _ => .ok (e.modify path fun entry =>
        { entry with fileDependencies := appendNewPath entry.fileDependencies fileDependency })
    | none =>
      match _hrule : (e.newFile P path).setCommitRule P path commitRules.onFile with
      | .ok e' => addFileDependency P path fileDependency e'
      | .error ex => .error ex
termination_by if (e.find path).isSome then 0 else 1
decreasing_by
  rw [setCommitRule_eq P path (by decide)] at _hrule
  obtain rfl := Except.ok.inj _hrule
  have hsome : (((Act.set path (.commitRule commitRules.onFile)).perform P
      (e.newFile P path)).find path).isSome :=
    (isSome_find_perform P _ _ path).mpr (Or.inr ⟨rfl, _hp⟩)
  simp [hsome, _h]

/-- Two writes to one entry. -/
theorem modify_modify (path : String) (f g : CapioCLEntry → CapioCLEntry) (e : Engine) :
    (e.modify path f).modify path g = e.modify path fun entry => g (f entry) := by
  refine ext_of_find rfl rfl ?_ fun k => ?_
  · simp only [keys_modify]
  · simp only [find_modify]
    split
    · rw [Option.map_map]
      rfl
    · rfl

/-- On a new path the commit rule becomes `on_file`. -/
theorem addFileDependency_eq (P : Platform) {path : String} (hp : path ≠ "")
    (fileDependency : String) (e : Engine) :
    e.addFileDependency P path fileDependency = .ok ((e._newFile P path).modify path fun entry =>
      { entry with
        commitRule := if (e.find path).isSome then entry.commitRule else commitRules.onFile
        fileDependencies := appendNewPath entry.fileDependencies fileDependency }) := by
  have hfound : ∀ {e : Engine}, (e.find path).isSome →
      e.addFileDependency P path fileDependency = .ok (e.modify path fun entry =>
        { entry with
          fileDependencies := appendNewPath entry.fileDependencies fileDependency }) := by
    intro e h
    unfold addFileDependency
    rw [dif_neg hp]
    split
    · rfl
    · rename_i hn
      rw [hn] at h
      exact absurd h (by simp)
  by_cases h : (e.find path).isSome
  · rw [newFile_of_isSome P h, hfound h]
    simp only [h, if_true]
  · have hrule : (e.newFile P path).setCommitRule P path commitRules.onFile =
        .ok ((e._newFile P path).modify path fun entry =>
          { entry with commitRule := commitRules.onFile }) := by
      rw [setCommitRule_eq P path (by decide)]
      change Except.ok ((e._newFile P path).setter P path _) = _
      rw [setter_eq P hp, newFile_of_isSome P (find_newFile_isSome P hp e)]
      rfl
    unfold addFileDependency
    rw [dif_neg hp]
    split
    · rename_i hs
      rw [hs] at h
      exact absurd rfl h
    · split
      · rename_i e' he'
        obtain rfl := Except.ok.inj (hrule.symm.trans he')
        rw [hfound (by rw [isSome_find_modify]; exact find_newFile_isSome P hp e), modify_modify]
        simp only [h, if_false, Bool.false_eq_true]
      · rename_i ex hex
        exact absurd (hrule.symm.trans hex) (by simp)

end Engine

/-! ## The operations -/

/-- The calls of the public interface that reach the store. -/
inductive Op where
  | add (path : String) (producers consumers : List String) (commitRule fireRule : String)
      (permanent exclude : Bool) (dependencies : List String)
  | addEntry (path : String) (entry : CapioCLEntry)
  | receive (datagram : List UInt8)
  | newFile (path : String)
  | remove (path : String)
  | addProducer (path producer : String)
  | addConsumer (path consumer : String)
  | addFileDependency (path fileDependency : String)
  | setCommitRule (path commitRule : String)
  | setFireRule (path fireRule : String)
  | setPermanent (path : String) (value : Bool)
  | setExclude (path : String) (value : Bool)
  | setDirectory (path : String)
  | setFile (path : String)
  | setCommitedCloseNumber (path : String) (num : Int)
  | setDirectoryFileCount (path : String) (num : Int)
  | setFileDeps (path : String) (dependencies : List String)
  | setStoreFileInMemory (path : String)
  | setStoreFileInFileSystem (path : String)
  | setAllStoreInMemory
  | setWorkflowName (name : String)
  | ask (q : Query) (path : String)
  deriving DecidableEq

/-- The exception of a call that may throw, and the engine it leaves. -/
def outcome (e : Engine) : Except Exn Engine → Option Exn × Engine
  | .ok e' => (none, e')
  | .error ex => (some ex, e)

/-- Make a call. Only `sanitize` throws, and it runs before the store is touched. -/
def Op.perform (J : JsonText) (P : Platform) (op : Op) (e : Engine) : Option Exn × Engine :=
  match op with
  | .add path producers consumers commitRule fireRule permanent exclude dependencies =>
    (none, e.add P path producers consumers commitRule fireRule permanent exclude dependencies)
  | .addEntry path entry => (none, e.addEntry path entry)
  | .receive datagram => outcome e (CapioCl.receive J datagram e)
  | .newFile path => (none, e.newFile P path)
  | .remove path => (none, e.remove path)
  | .addProducer path producer => (none, (e.addProducer P path producer).1)
  | .addConsumer path consumer => (none, (e.addConsumer P path consumer).1)
  | .addFileDependency path dependency => outcome e (e.addFileDependency P path dependency)
  | .setCommitRule path commitRule => outcome e (e.setCommitRule P path commitRule)
  | .setFireRule path fireRule => outcome e (e.setFireRule P path fireRule)
  | .setPermanent path value => (none, e.setPermanent P path value)
  | .setExclude path value => (none, e.setExclude P path value)
  | .setDirectory path => (none, e.setDirectory P path)
  | .setFile path => (none, e.setFile P path)
  | .setCommitedCloseNumber path num => (none, e.setCommitedCloseNumber P path num)
  | .setDirectoryFileCount path num => (none, e.setDirectoryFileCount P path num)
  | .setFileDeps path dependencies => (none, e.setFileDeps P path dependencies)
  | .setStoreFileInMemory path => (none, e.setStoreFileInMemory P path)
  | .setStoreFileInFileSystem path => (none, e.setStoreFileInFileSystem P path)
  | .setAllStoreInMemory => (none, e.setAllStoreInMemory P)
  | .setWorkflowName name => (none, e.setWorkflowName name)
  | .ask q path => (none, (CapioCl.ask P q path e).2)

/-- One step of a run: a call, on a platform of its own. -/
def performStep (J : JsonText) (e : Engine) (step : Platform × Op) : Engine :=
  (step.2.perform J step.1 e).2

/-- The engine before the `n`-th step of a run. -/
abbrev stateBefore (J : JsonText) (e : Engine) (steps : List (Platform × Op)) (n : Nat) : Engine :=
  Runs.stateAt (performStep J) e steps n

theorem stateBefore_zero (J : JsonText) (e : Engine) (steps : List (Platform × Op)) :
    stateBefore J e steps 0 = e := Runs.stateAt_zero (performStep J)

theorem stateBefore_of_none {J : JsonText} {e : Engine} {steps : List (Platform × Op)} {n : Nat}
    (h : steps[n]? = none) : stateBefore J e steps (n + 1) = stateBefore J e steps n :=
  Runs.stateAt_of_none (performStep J) h

theorem stateBefore_succ {J : JsonText} {e : Engine} {steps : List (Platform × Op)} {n : Nat}
    {step : Platform × Op} (h : steps[n]? = some step) :
    stateBefore J e steps (n + 1) = (step.2.perform J step.1 (stateBefore J e steps n)).2 :=
  Runs.stateAt_succ (performStep J) h

/-- The acts of the calls that are runs of acts. -/
def Op.acts : Op → List Act
  | .newFile path => [.create path]
  | .addProducer path producer => [.set path (.app .output (eraseSpaces producer))]
  | .addConsumer path consumer => [.set path (.app .input (eraseSpaces consumer))]
  | .setCommitRule path rule =>
    if commitRules.Valid rule then [.set path (.commitRule rule)] else []
  | .setFireRule path rule => if fireRules.Valid rule then [.set path (.fireRule rule)] else []
  | .setPermanent path value => [.set path (.permanent value)]
  | .setExclude path value => [.set path (.excluded value)]
  | .setDirectory path => [.set path (.isFile false)]
  | .setFile path => [.set path (.isFile true)]
  | .setCommitedCloseNumber path num => [.set path (.closeCount num)]
  | .setDirectoryFileCount path num => Engine.fileCountActs path num
  | .setFileDeps path dependencies => Engine.fileDepsActs path dependencies
  | .setStoreFileInMemory path => [.set path (.storeInMemory true)]
  | .setStoreFileInFileSystem path => [.set path (.storeInMemory false)]
  | .setAllStoreInMemory => [.storeAll]
  | _ => []

/-- The record an operation hands to `Engine::add(path, entry)`. -/
def Op.record (J : JsonText) (e : Engine) : Op → Option (String × CapioCLEntry)
  | .addEntry path entry => some (path, entry)
  | .receive datagram => accepted J e.workflowName datagram
  | _ => none

/-- The calls that are runs of acts. -/
def Op.IsRun : Op → Prop
  | .add .. | .addEntry .. | .receive _ | .remove _ | .addFileDependency .. | .setWorkflowName _
  | .ask .. => False
  | _ => True

theorem setCommitRule_error {P : Platform} {path rule : String} (hp : path ≠ "")
    (h : ¬ commitRules.Valid rule) (e : Engine) :
    ∃ ex, e.setCommitRule P path rule = .error ex := by
  unfold Engine.setCommitRule
  rw [if_neg hp]
  cases hs : commitRules.sanitize rule with
  | error ex => exact ⟨ex, rfl⟩
  | ok s =>
    obtain ⟨hv, rfl⟩ := commitRules.valid_of_sanitize hs
    exact absurd hv h

theorem setFireRule_error {P : Platform} {path rule : String} (hp : path ≠ "")
    (h : ¬ fireRules.Valid rule) (e : Engine) :
    ∃ ex, e.setFireRule P path rule = .error ex := by
  unfold Engine.setFireRule
  rw [if_neg hp]
  cases hs : fireRules.sanitize rule with
  | error ex => exact ⟨ex, rfl⟩
  | ok s =>
    obtain ⟨hv, rfl⟩ := fireRules.valid_of_sanitize hs
    exact absurd hv h

/-- **Most calls are runs of acts.** -/
theorem state_perform (J : JsonText) (P : Platform) {op : Op} (h : op.IsRun) (e : Engine) :
    (op.perform J P e).2 = run P op.acts e := by
  cases op with
  | addProducer path producer => exact Engine.addApp_eq .output P path producer e
  | addConsumer path consumer => exact Engine.addApp_eq .input P path consumer e
  | setCommitRule path rule =>
    change (outcome e (e.setCommitRule P path rule)).2 =
      run P (if commitRules.Valid rule then [.set path (.commitRule rule)] else []) e
    by_cases hv : commitRules.Valid rule
    · rw [if_pos hv, Engine.setCommitRule_eq P path hv]
      rfl
    · rw [if_neg hv]
      by_cases hp : path = ""
      · unfold Engine.setCommitRule
        rw [if_pos hp]
        rfl
      · obtain ⟨ex, hex⟩ := setCommitRule_error (P := P) hp hv e
        rw [hex]
        rfl
  | setFireRule path rule =>
    change (outcome e (e.setFireRule P path rule)).2 =
      run P (if fireRules.Valid rule then [.set path (.fireRule rule)] else []) e
    by_cases hv : fireRules.Valid rule
    · rw [if_pos hv, Engine.setFireRule_eq P path hv]
      rfl
    · rw [if_neg hv]
      by_cases hp : path = ""
      · unfold Engine.setFireRule
        rw [if_pos hp]
        rfl
      · obtain ⟨ex, hex⟩ := setFireRule_error (P := P) hp hv e
        rw [hex]
        rfl
  | setDirectoryFileCount path num => exact Engine.setDirectoryFileCount_eq_run P path num e
  | setFileDeps path dependencies => exact Engine.setFileDeps_eq_run P path dependencies e
  | add => exact h.elim
  | addEntry => exact h.elim
  | receive => exact h.elim
  | remove => exact h.elim
  | addFileDependency => exact h.elim
  | setWorkflowName => exact h.elim
  | ask => exact h.elim
  | _ => rfl

/-- A record, handed over by the caller or by the dynamic API, is added. -/
theorem perform_record (J : JsonText) (P : Platform) {op : Op} {e : Engine} {path : String}
    {entry : CapioCLEntry} (h : op.record J e = some (path, entry)) :
    (op.perform J P e).2 = e.addEntry path entry := by
  cases op with
  | addEntry path' entry' =>
    obtain ⟨rfl, rfl⟩ := Prod.mk.inj (Option.some.inj h)
    rfl
  | receive datagram =>
    change accepted J e.workflowName datagram = some (path, entry) at h
    change (outcome e (CapioCl.receive J datagram e)).2 = _
    rw [receive_eq, h]
    rfl
  | _ => exact absurd h nofun

theorem perform_receive_none (J : JsonText) (P : Platform) {datagram : List UInt8} {e : Engine}
    (h : (Op.receive datagram).record J e = none) :
    ((Op.receive datagram).perform J P e).2 = e := by
  change accepted J e.workflowName datagram = none at h
  change (outcome e (CapioCl.receive J datagram e)).2 = _
  rw [receive_eq, h]
  rfl

/-- **What the acts of a call write**: sanitized rules, the dependencies of `setFileDeps`, and the
file system only for `setStoreFileInFileSystem`. -/
theorem write_of_mem_acts {op : Op} {path : String} {w : Write} (h : Act.set path w ∈ op.acts) :
    (∀ rule, w = .commitRule rule → commitRules.Valid rule) ∧
      (∀ rule, w = .fireRule rule → fireRules.Valid rule) ∧
      (∀ dependencies, w = .fileDeps dependencies → op = .setFileDeps path dependencies) ∧
      (w = .storeInMemory false → op = .setStoreFileInFileSystem path) := by
  cases op
  case setCommitRule p rule =>
    change Act.set path w ∈ (if commitRules.Valid rule then [.set p (.commitRule rule)] else []) at h
    split at h
    · rename_i hv
      obtain ⟨rfl, rfl⟩ := Act.set.inj (List.mem_singleton.mp h)
      simpa using hv
    · exact absurd h List.not_mem_nil
  case setFireRule p rule =>
    change Act.set path w ∈ (if fireRules.Valid rule then [.set p (.fireRule rule)] else []) at h
    split at h
    · rename_i hv
      obtain ⟨rfl, rfl⟩ := Act.set.inj (List.mem_singleton.mp h)
      simpa using hv
    · exact absurd h List.not_mem_nil
  case setFileDeps p dependencies =>
    change Act.set path w ∈ Engine.fileDepsActs p dependencies at h
    unfold Engine.fileDepsActs at h
    split at h
    · exact absurd h List.not_mem_nil
    · rcases List.mem_append.mp h with h | h
      · obtain ⟨d, -, hd⟩ := List.mem_map.mp h
        exact absurd hd (by simp)
      · obtain ⟨rfl, rfl⟩ := Act.set.inj (List.mem_singleton.mp h)
        simp
  case setDirectoryFileCount p num =>
    change Act.set path w ∈ Engine.fileCountActs p num at h
    unfold Engine.fileCountActs at h
    split at h
    · exact absurd h List.not_mem_nil
    · simp only [List.mem_cons, reduceCtorEq, Act.set.injEq, List.not_mem_nil, or_false,
        false_or] at h
      obtain ⟨rfl, rfl⟩ := h
      simp
  all_goals simp only [Op.acts, List.mem_singleton, List.not_mem_nil, reduceCtorEq,
    Act.set.injEq] at h
  all_goals
    obtain ⟨rfl, rfl⟩ := h
    simp

/-! ## Invariants of entries -/

/-- Every entry satisfies `I`. -/
def Engine.All (I : CapioCLEntry → Prop) (e : Engine) : Prop := ∀ k x, e.find k = some x → I x

/-- An invariant of entries that creation keeps: the default entry satisfies it, and it does not
depend on the child count, the kind and the storage flag. -/
structure EntryInvariant (I : CapioCLEntry → Prop) : Prop where
  default : I {}
  kept : ∀ x count update memory file, I x →
    I { x with
      directoryChildrenCount := count
      enableDirectoryCountUpdate := update
      storeInMemory := memory
      isFile := file }

namespace EntryInvariant

variable {I : CapioCLEntry → Prop} (hI : EntryInvariant I) {e : Engine} (h : e.All I)

include hI in
theorem counted {x : CapioCLEntry} (hx : I x) : I x.counted := by
  unfold CapioCLEntry.counted
  split
  · exact hI.kept x _ _ _ _ hx
  · exact hx

include hI h in
theorem newEntry (P : Platform) (path : String) : I (e.newEntry P path) := by
  cases hg : e.source P path with
  | none =>
    rw [Engine.newEntry_of_none hg]
    exact hI.kept {} 0 true _ true hI.default
  | some g =>
    obtain ⟨data, hdata, hnew⟩ := Engine.newEntry_of_source hg
    rw [hnew]
    exact hI.kept data _ _ _ _ (h g data hdata)

include hI h in
theorem newFile (P : Platform) (path : String) : (e._newFile P path).All I := by
  intro k x hx
  rw [Engine.find_newFile] at hx
  split at hx
  · exact h k x hx
  · dsimp only at hx
    have hentry : ∀ y, (if k = path then some (e.newEntry P path) else e.find k) = some y → I y := by
      intro y hy
      split at hy
      · rw [← Option.some.inj hy]
        exact hI.newEntry h P path
      · exact h k y hy
    split at hx
    · obtain ⟨y, hy, rfl⟩ := Option.map_eq_some_iff.mp hx
      exact hI.counted (hentry y hy)
    · exact hentry x hx

end EntryInvariant

namespace Engine.All

variable {I : CapioCLEntry → Prop} {e : Engine} (h : e.All I)

include h in
/-- A write keeps the invariant when the entry it leaves satisfies it. -/
theorem modify_iff {path : String} {x : CapioCLEntry} (hx : e.find path = some x)
    (write : CapioCLEntry → CapioCLEntry) : (e.modify path write).All I ↔ I (write x) := by
  constructor
  · intro h'
    refine h' path (write x) ?_
    rw [find_modify, if_pos rfl, hx, Option.map_some]
  · intro hw k y hy
    rw [find_modify] at hy
    split at hy
    · rename_i hk
      rw [hk, hx, Option.map_some] at hy
      rw [← Option.some.inj hy]
      exact hw
    · exact h k y hy

include h in
theorem addEntry_iff (path : String) (entry : CapioCLEntry) :
    (e.addEntry path entry).All I ↔ I ((e.find path).getD {} + entry) := by
  constructor
  · intro h'
    refine h' path _ ?_
    rw [find_addEntry, if_pos rfl]
  · intro hsum k y hy
    rw [find_addEntry] at hy
    split at hy
    · rw [← Option.some.inj hy]
      exact hsum
    · exact h k y hy

include h in
theorem remove (path : String) : (e.remove path).All I := by
  intro k x hx
  rw [find_remove] at hx
  split at hx
  · exact absurd hx (by simp)
  · exact h k x hx

include h in
theorem map {e' : Engine} {f : String → CapioCLEntry → CapioCLEntry}
    (hfind : ∀ k, e'.find k = (e.find k).map (f k)) (hf : ∀ k x, I x → I (f k x)) : e'.All I := by
  intro k x hx
  rw [hfind] at hx
  obtain ⟨y, hy, rfl⟩ := Option.map_eq_some_iff.mp hx
  exact hf k y (h k y hy)

end Engine.All

namespace EntryInvariant

variable {I : CapioCLEntry → Prop} (hI : EntryInvariant I) {e : Engine}

include hI in
/-- A setter keeps the invariant exactly if its write does on the entry it finds or creates. -/
theorem setter_iff (h : e.All I) (P : Platform) {path : String} (hp : path ≠ "")
    (write : CapioCLEntry → CapioCLEntry) :
    ∃ x, I x ∧ ((e.setter P path write).All I ↔ I (write x)) := by
  have hnew := hI.newFile h P path
  obtain ⟨x, hx⟩ := Option.isSome_iff_exists.mp (Engine.find_newFile_isSome P hp e)
  refine ⟨x, hnew path x hx, ?_⟩
  rw [Engine.setter_eq P hp]
  exact hnew.modify_iff hx write

include hI in
theorem perform (h : e.All I) (P : Platform) {act : Act}
    (hact : ∀ path w, act = .set path w → ∀ x, I x → I (w.apply x)) : (act.perform P e).All I := by
  cases act with
  | create path => exact hI.newFile h P path
  | set path w =>
    change (e.setter P path w.apply).All I
    by_cases hp : path = ""
    · rw [hp, Engine.setter_empty]
      exact h
    · obtain ⟨x, hx, hiff⟩ := hI.setter_iff h P hp w.apply
      exact hiff.mpr (hact path w rfl x hx)
  | directories =>
    refine h.map (Engine.find_setAllDirectories P e) fun k x hx => ?_
    split
    · exact hx
    · exact hI.kept x _ _ _ _ hx
  | storeAll =>
    refine h.map (Engine.find_setAllStoreInMemory P e) fun k x hx => ?_
    split
    · exact hx
    · exact hI.kept x _ _ _ _ hx

include hI in
/-- **A run keeps an invariant that its writes keep.** -/
theorem run (P : Platform) {acts : List Act} {e : Engine} (h : e.All I)
    (hacts : ∀ path w, Act.set path w ∈ acts → ∀ x, I x → I (w.apply x)) :
    (CapioCl.run P acts e).All I := by
  induction acts generalizing e with
  | nil => exact h
  | cons act acts ih =>
    rw [run_cons]
    refine ih (hI.perform h P fun path w hact => ?_) fun path w hmem =>
      hacts path w (List.mem_cons_of_mem act hmem)
    exact hacts path w (hact ▸ List.mem_cons_self)

end EntryInvariant

end CapioCl
