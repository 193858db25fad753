import CapioCl.Creation
import CapioCl.Query

/-!
# Lookups of a path without an entry

Three accessors leave the common shape of a query when the path has no entry. `isFile` creates the
entry and then answers with `isPermanent` (`Engine.cpp:573`); `getConsumers` and
`getCommitOnFileDependencies` answer with the empty list and create nothing (`Engine.cpp:632-640`,
`759-767`), where `getProducers` creates. So each of them is right only for some of the records a
path may inherit.

* `isFile_answers_iff`: when the kind answered is that of the entry left behind.
* `lists_inherited_iff`: when the three lists are those of the entry a creation would make.
-/

namespace CapioCl

open CapioCl.Lib

namespace Engine

variable {P : Platform} {path : String} {e : Engine}

/-! ## The kind -/

/-- `isFile` and `isDirectory` answer with the kind of the entry they leave, now and when asked
again. -/
def KindAnswered (P : Platform) (path : String) (e : Engine) : Prop :=
  ∃ entry, (e.isFile P path).2.find path = some entry ∧
    (e.isFile P path).1 = entry.isFile ∧
    (e.isDirectory P path).2.find path = some entry ∧
    (e.isDirectory P path).1 = !entry.isFile ∧
    ((e.isFile P path).2.isFile P path).1 = (e.isFile P path).1 ∧
    ((e.isDirectory P path).2.isDirectory P path).1 = (e.isDirectory P path).1

theorem isFile_of_find (hp : path ≠ "") {entry : CapioCLEntry} (h : e.find path = some entry) :
    e.isFile P path = (entry.isFile, e) := by
  unfold isFile
  rw [if_neg hp, h]

theorem isFile_of_none (hp : path ≠ "") (h : e.find path = none) {entry : CapioCLEntry}
    (hnew : (e._newFile P path).find path = some entry) :
    e.isFile P path = (entry.permanent, e._newFile P path) := by
  unfold isFile isPermanent
  rw [if_neg hp, h]
  exact query_of_find P _ _ hp hnew

theorem isDirectory_eq (hp : path ≠ "") :
    e.isDirectory P path = (!(e.isFile P path).1, (e.isFile P path).2) := by
  unfold isDirectory
  rw [if_neg hp]

/-- The answer is right, now and later, if the first one is. -/
theorem kindAnswered_iff (hp : path ≠ "") {entry : CapioCLEntry}
    (h : (e.isFile P path).2.find path = some entry) :
    KindAnswered P path e ↔ (e.isFile P path).1 = entry.isFile := by
  constructor
  · rintro ⟨entry', h', hkind, -⟩
    rw [Option.some.inj (h.symm.trans h')]
    exact hkind
  · intro hkind
    have hdirectory := isDirectory_eq (P := P) (e := e) hp
    refine ⟨entry, h, hkind, ?_, ?_, ?_, ?_⟩
    · rw [hdirectory]
      exact h
    · rw [hdirectory, hkind]
    · rw [isFile_of_find hp h, hkind]
    · rw [hdirectory, isDirectory_eq hp, isFile_of_find hp h, hkind]

/-- The kind of a new entry agrees with its permanent flag. A path that is its own parent and
counts is a directory as soon as it is created. -/
def KindIsFlag (path : String) (entry : CapioCLEntry) : Prop :=
  if parentPath path = path ∧ entry.enableDirectoryCountUpdate = true then entry.permanent = false
  else entry.isFile = entry.permanent

theorem kindIsFlag_iff (path : String) (entry : CapioCLEntry) : KindIsFlag path entry ↔
    (if parentPath path = path then entry.counted else entry).permanent =
      (if parentPath path = path then entry.counted else entry).isFile := by
  unfold KindIsFlag
  by_cases hself : parentPath path = path
  · rw [if_pos hself]
    unfold CapioCLEntry.counted
    by_cases hcount : entry.enableDirectoryCountUpdate = true
    · rw [if_pos ⟨hself, hcount⟩, if_pos hcount]
    · rw [if_neg fun h => hcount h.2, if_neg hcount, eq_comm]
  · rw [if_neg fun h => hself h.1, if_neg hself, eq_comm]

/-- **When the kind is answered right.** The path is a key, or the record it inherits has a kind
that agrees with its permanent flag. -/
theorem isFile_answers_iff (P : Platform) (e : Engine) {path : String} (hp : path ≠ "") :
    KindAnswered P path e ↔
      (e.find path).isSome ∨ KindIsFlag path (e.inherited P path) := by
  cases h : e.find path with
  | some entry =>
    have hleft : (e.isFile P path).2.find path = some entry := by
      rw [isFile_of_find hp h]
      exact h
    refine iff_of_true ((kindAnswered_iff hp hleft).mpr ?_) (Or.inl rfl)
    rw [isFile_of_find hp h]
  | none =>
    have hnew := find_newFile_self P hp h
    have hanswer := isFile_of_none hp h hnew
    have hflag : KindIsFlag path (e.inherited P path) ↔ KindIsFlag path (e.newEntry P path) := by
      rw [newEntry_eq]
      exact Iff.rfl
    rw [kindAnswered_iff hp (by rw [hanswer]; exact hnew), hanswer, hflag, kindIsFlag_iff]
    simp

/-- A pattern of directories. -/
def directoryPattern : Engine :=
  { capioClEntries := (∅ : UnorderedMap String CapioCLEntry).insert "d*" { isFile := false } }

theorem directoryPattern_kindAnswered : KindAnswered posix "d1" directoryPattern := by
  refine (isFile_answers_iff posix directoryPattern (by decide)).mpr (Or.inr ?_)
  have hinherited : directoryPattern.inherited posix "d1" = { isFile := false } := by
    decide +kernel
  rw [hinherited]
  unfold KindIsFlag
  rw [if_neg]
  exact fun h => absurd h.1 (by decide +kernel)

/-- In an empty store `f` is not a file when asked for the first time, and one when asked again. -/
theorem newFile_not_kindAnswered :
    "f" ≠ "" ∧ ¬ KindAnswered posix "f" {} ∧
      (({} : Engine).isFile posix "f").1 = false ∧
      ((({} : Engine).isFile posix "f").2.isFile posix "f").1 = true := by
  have hnew : (({} : Engine)._newFile posix "f").find "f" = some {} := by decide +kernel
  have hfirst : ({} : Engine).isFile posix "f" = (false, ({} : Engine)._newFile posix "f") :=
    isFile_of_none (by decide) (find_of_empty rfl "f") hnew
  have hsecond : ((({} : Engine).isFile posix "f").2.isFile posix "f").1 = true := by
    rw [hfirst, isFile_of_find (by decide) hnew]
  refine ⟨by decide, ?_, by rw [hfirst], hsecond⟩
  rintro ⟨entry, -, -, -, -, htwice, -⟩
  rw [hsecond, hfirst] at htwice
  cases htwice

/-! ## The lists -/

/-- The three lists of `path` are those of the entry `newFile` would create, and its consumers those
of the pattern it comes from, as `isConsumer` has it. -/
def ListsInherited (P : Platform) (path : String) (e : Engine) : Prop :=
  ∃ entry, (e.newFile P path).find path = some entry ∧
    (e.getProducers P path).1 = entry.producers ∧
    e.getConsumers path = entry.consumers ∧
    e.getCommitOnFileDependencies path = entry.fileDependencies ∧
    ∀ q a, e.source P path = some q → a ∈ e.getConsumers q →
      a ∈ e.getConsumers path ∧ (e.isConsumer P path a).1 = true

/-- What counting leaves of the lists of a new entry. -/
theorem lists_newFile (P : Platform) (hp : path ≠ "") (hnew : e.find path = none) :
    ∃ entry, (e._newFile P path).find path = some entry ∧
      entry.consumers = (e.inherited P path).consumers ∧
      entry.fileDependencies = (e.inherited P path).fileDependencies := by
  have hlists : ∀ x : CapioCLEntry, x.counted.consumers = x.consumers ∧
      x.counted.fileDependencies = x.fileDependencies := fun x =>
    ⟨@CapioCLEntry.get_counted _ CapioCLEntry.consumers (fun _ _ _ => rfl) x,
      @CapioCLEntry.get_counted _ CapioCLEntry.fileDependencies (fun _ _ _ => rfl) x⟩
  refine ⟨_, find_newFile_self P hp hnew, ?_⟩
  rw [newEntry_eq]
  split
  · exact hlists _
  · exact ⟨rfl, rfl⟩

/-- **When the lists are inherited.** The producers always are; the consumers and the dependencies
are exactly if the record inherited has none. -/
theorem lists_inherited_iff (P : Platform) (e : Engine) {path : String} (hp : path ≠ "")
    (hnew : e.find path = none) :
    ListsInherited P path e ↔
      (e.inherited P path).consumers = [] ∧ (e.inherited P path).fileDependencies = [] := by
  obtain ⟨entry, hentry, hconsumers, hdeps⟩ := lists_newFile P hp hnew
  have hnone : e.getConsumers path = [] ∧ e.getCommitOnFileDependencies path = [] := by
    unfold getConsumers getCommitOnFileDependencies
    rw [hnew]
    exact ⟨rfl, rfl⟩
  constructor
  · rintro ⟨entry', hentry', -, h1, h2, -⟩
    obtain rfl := Option.some.inj (hentry'.symm.trans hentry)
    rw [← hconsumers, ← hdeps, ← h1, ← h2]
    exact hnone
  · rintro ⟨h1, h2⟩
    refine ⟨entry, hentry, ?_, ?_, ?_, fun q a hq ha => absurd ha ?_⟩
    · change (query P path [] CapioCLEntry.producers e).1 = _
      rw [query_eq P hp, hentry]
      rfl
    · rw [hnone.1, hconsumers, h1]
    · rw [hnone.2, hdeps, h2]
    -- the pattern has no consumers
    · obtain ⟨data, hdata, -⟩ := newEntry_of_source hq
      have hinherited : e.inherited P path = data := by
        unfold inherited
        rw [hq, Option.bind_some, hdata, Option.getD_some]
      unfold getConsumers
      rw [hdata, ← hinherited]
      dsimp only
      rw [h1]
      exact List.not_mem_nil

/-- A pattern with a producer. -/
theorem patternEngine_listsInherited : ListsInherited posix "x.dat" patternEngine :=
  (lists_inherited_iff posix patternEngine (by decide) (by decide +kernel)).mpr
    (by decide +kernel)

/-- A pattern with a consumer. -/
def consumerPattern : Engine :=
  { capioClEntries := (∅ : UnorderedMap String CapioCLEntry).insert "*.dat" { consumers := ["app"] } }

/-- `app` consumes `x.dat` and is not listed. -/
theorem consumerPattern_not_listsInherited :
    "x.dat" ≠ "" ∧ consumerPattern.find "x.dat" = none ∧
      (consumerPattern.isConsumer posix "x.dat" "app").1 = true ∧
      consumerPattern.getConsumers "x.dat" = [] ∧
      ¬ ListsInherited posix "x.dat" consumerPattern := by
  have hlist : consumerPattern.getConsumers "x.dat" = [] := by decide +kernel
  refine ⟨by decide, by decide +kernel, by decide +kernel, hlist, ?_⟩
  rintro ⟨-, -, -, -, -, hpattern⟩
  have hmem : "app" ∈ consumerPattern.getConsumers "x.dat" :=
    (hpattern "*.dat" "app" (by decide +kernel) (by decide +kernel)).1
  rw [hlist] at hmem
  exact absurd hmem List.not_mem_nil

end Engine

end CapioCl
