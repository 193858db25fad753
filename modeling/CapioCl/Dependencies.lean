import CapioCl.Operations

/-!
# File dependencies

`addFileDependency` and `setFileDeps` (`Engine.cpp:336-355`, `714-738`). By the header both set the
commit rule to `on_file`. `addFileDependency` does so when it creates the entry and not when it finds
one; `setFileDeps` never does, and returns at once on an empty list.

* `fileDependencies_commit_iff`: when the rule and the list are what the header says.
-/

namespace CapioCl

open CapioCl.Lib

theorem any_appendNewPath (vec : List String) (path : String) :
    (appendNewPath vec path).any (samePath path) = true := by
  unfold appendNewPath
  split
  · assumption
  · rw [List.any_append, Bool.or_eq_true]
    exact Or.inr (by simp)

namespace Engine

variable {P : Platform} {path : String} {e : Engine}

/-- `addFileDependency` leaves the rule `on_file`, and the dependency in the list. -/
def DependencyAdded (P : Platform) (path dependency : String) (e : Engine) : Prop :=
  ∃ e', e.addFileDependency P path dependency = .ok e' ∧
    (e'.getCommitRule P path).1 = commitRules.onFile ∧
    (e'.getCommitOnFileDependencies path).any (samePath dependency) = true

/-- `setFileDeps` leaves exactly the list and, unless it is empty, the rule `on_file` and every
nonempty dependency as a key. -/
def DependenciesSet (P : Platform) (path : String) (dependencies : List String) (e : Engine) :
    Prop :=
  (e.setFileDeps P path dependencies).getCommitOnFileDependencies path = dependencies ∧
    (dependencies ≠ [] →
      ((e.setFileDeps P path dependencies).getCommitRule P path).1 = commitRules.onFile ∧
      ∀ d ∈ dependencies, d ≠ "" → ((e.setFileDeps P path dependencies).find d).isSome)

theorem getCommitRule_of_find (hp : path ≠ "") {entry : CapioCLEntry}
    (h : e.find path = some entry) : (e.getCommitRule P path).1 = entry.commitRule := by
  unfold getCommitRule
  rw [query_of_find P _ _ hp h]

theorem getCommitOnFileDependencies_of_find {entry : CapioCLEntry}
    (h : e.find path = some entry) : e.getCommitOnFileDependencies path = entry.fileDependencies := by
  unfold getCommitOnFileDependencies
  rw [h]

/-- The rule is `on_file` already, or there is no entry. -/
theorem dependencyAdded_iff (P : Platform) (hp : path ≠ "") (dependency : String) (e : Engine) :
    DependencyAdded P path dependency e ↔
      ∀ entry, e.find path = some entry → entry.commitRule = commitRules.onFile := by
  obtain ⟨entry, hentry⟩ := Option.isSome_iff_exists.mp (find_newFile_isSome P hp e)
  have hcall := addFileDependency_eq P hp dependency e
  generalize hwrite : (fun entry : CapioCLEntry =>
    { entry with
      commitRule := if (e.find path).isSome then entry.commitRule else commitRules.onFile
      fileDependencies := appendNewPath entry.fileDependencies dependency }) = write at hcall
  have hfind : ((e._newFile P path).modify path write).find path = some (write entry) := by
    rw [find_modify, if_pos rfl, hentry, Option.map_some]
  have hlist : ((((e._newFile P path).modify path write).getCommitOnFileDependencies path).any
      (samePath dependency)) = true := by
    rw [getCommitOnFileDependencies_of_find hfind, ← hwrite]
    exact any_appendNewPath _ _
  have hrule : (((e._newFile P path).modify path write).getCommitRule P path).1 =
      if (e.find path).isSome then entry.commitRule else commitRules.onFile := by
    rw [getCommitRule_of_find hp hfind, ← hwrite]
  have hadded : DependencyAdded P path dependency e ↔
      (if (e.find path).isSome then entry.commitRule else commitRules.onFile) =
        commitRules.onFile := by
    constructor
    · rintro ⟨e', he', hon, -⟩
      obtain rfl := Except.ok.inj (hcall.symm.trans he')
      rwa [hrule] at hon
    · exact fun hon => ⟨_, hcall, hrule.trans hon, hlist⟩
  rw [hadded]
  cases h : e.find path with
  | none => simp
  | some old =>
    rw [newFile_of_isSome P (by rw [h]; rfl), h] at hentry
    obtain rfl := Option.some.inj hentry
    simp

/-- An empty list changes nothing. -/
theorem dependenciesSet_nil (P : Platform) (path : String) (e : Engine) :
    DependenciesSet P path [] e ↔ e.getCommitOnFileDependencies path = [] := by
  have hcall : e.setFileDeps P path [] = e := by
    rw [setFileDeps_eq_run]
    unfold fileDepsActs
    rw [if_pos (Or.inr rfl)]
    rfl
  unfold DependenciesSet
  rw [hcall]
  simp

/-- The rule is the one the path has once the dependencies are declared. -/
theorem dependenciesSet_iff (P : Platform) (hp : path ≠ "") {dependencies : List String}
    (hd : dependencies ≠ []) (e : Engine) :
    DependenciesSet P path dependencies e ↔
      ((e.newFiles P dependencies).getCommitRule P path).1 = commitRules.onFile := by
  obtain ⟨entry, hentry⟩ :=
    Option.isSome_iff_exists.mp (find_newFile_isSome P hp (e.newFiles P dependencies))
  have hcall : e.setFileDeps P path dependencies =
      ((e.newFiles P dependencies)._newFile P path).modify path
        (Write.fileDeps dependencies).apply := by
    rw [← setter_eq P hp, setFileDeps_eq_run]
    unfold fileDepsActs
    rw [if_neg (not_or.mpr ⟨hp, hd⟩), run_append, ← newFiles_eq_run]
    rfl
  have hfind : (e.setFileDeps P path dependencies).find path =
      some ((Write.fileDeps dependencies).apply entry) := by
    rw [hcall, find_modify, if_pos rfl, hentry, Option.map_some]
  have hbefore : ((e.newFiles P dependencies).getCommitRule P path).1 = entry.commitRule := by
    unfold getCommitRule
    rw [query_eq P hp, hentry]
    rfl
  have hkeys : ∀ d ∈ dependencies, d ≠ "" → ((e.setFileDeps P path dependencies).find d).isSome := by
    intro d hmem hne
    rw [hcall, isSome_find_modify, find_newFile_isSome_iff, find_newFiles_isSome_iff]
    exact Or.inl (Or.inr ⟨hmem, hne⟩)
  unfold DependenciesSet
  rw [getCommitOnFileDependencies_of_find hfind, getCommitRule_of_find hp hfind, hbefore]
  constructor
  · exact fun h => (h.2 hd).1
  · exact fun h => ⟨rfl, fun _ => ⟨h, hkeys⟩⟩

/-- Declaring dependencies changes no rule of a key. -/
theorem commitRule_newFiles (P : Platform) (paths : List String) {entry : CapioCLEntry}
    (h : e.find path = some entry) : ∃ entry', (e.newFiles P paths).find path = some entry' ∧
      entry'.commitRule = entry.commitRule := by
  have hcounted : ∀ x : CapioCLEntry, x.counted.commitRule = x.commitRule :=
    @CapioCLEntry.get_counted _ CapioCLEntry.commitRule fun _ _ _ => rfl
  induction paths generalizing e entry with
  | nil => exact ⟨entry, h, rfl⟩
  | cons p paths ih =>
    have hstep := map_find_newFile hcounted P p e path
    rw [if_neg, h, Option.map_some] at hstep
    · obtain ⟨entry', hentry', hrule⟩ := Option.map_eq_some_iff.mp hstep
      obtain ⟨last, hlast, hlastRule⟩ := ih hentry'
      exact ⟨last, hlast, hlastRule.trans hrule⟩
    · rintro ⟨rfl, -, hnone⟩
      rw [h] at hnone
      cases hnone

/-- **When file dependencies imply commit on file.** When the path has an entry, its rule must be
`on_file` already. When it has none, `addFileDependency` sets the rule, and `setFileDeps` leaves the
one a lookup of the path finds once the dependencies are declared, which must be `on_file`. An empty
list is left only if the path had none. -/
theorem fileDependencies_commit_iff (P : Platform) (e : Engine) {path : String} (hp : path ≠ "")
    (dependency : String) (dependencies : List String) :
    DependencyAdded P path dependency e ∧ DependenciesSet P path dependencies e ↔
      (∀ entry, e.find path = some entry → entry.commitRule = commitRules.onFile) ∧
      (dependencies = [] → ∀ entry, e.find path = some entry → entry.fileDependencies = []) ∧
      (dependencies ≠ [] → e.find path = none →
        ((e.newFiles P dependencies).getCommitRule P path).1 = commitRules.onFile) := by
  rw [dependencyAdded_iff P hp]
  refine and_congr_right fun hkey => ?_
  by_cases hd : dependencies = []
  · subst hd
    rw [dependenciesSet_nil]
    unfold getCommitOnFileDependencies
    cases e.find path <;> simp
  · rw [dependenciesSet_iff P hp hd, and_iff_right fun h => absurd h hd, imp_iff_right hd]
    cases h : e.find path with
    | none => exact (imp_iff_right rfl).symm
    | some entry =>
      obtain ⟨entry', hentry', hrule⟩ := commitRule_newFiles P dependencies h
      rw [getCommitRule_of_find hp hentry', hrule, hkey entry h]
      simp

/-- A file under the rule `on_file`. -/
def committedOnFile : Engine :=
  { capioClEntries := (∅ : UnorderedMap String CapioCLEntry).insert "f"
      { commitRule := commitRules.onFile } }

theorem committedOnFile_keepsRule :
    DependencyAdded posix "f" "d" committedOnFile ∧
      DependenciesSet posix "f" ["a", "d"] committedOnFile := by
  have hfind : committedOnFile.find "f" = some { commitRule := commitRules.onFile } := by
    decide +kernel
  refine (fileDependencies_commit_iff posix committedOnFile (by decide) "d" ["a", "d"]).mpr
    ⟨fun entry h => ?_, nofun, fun _ h => ?_⟩
  · rw [← Option.some.inj (hfind.symm.trans h)]
  · rw [hfind] at h
    cases h

/-- A plain file with a dependency. -/
def oneDependency : Engine :=
  { capioClEntries := (∅ : UnorderedMap String CapioCLEntry).insert "f"
      { fileDependencies := ["d"] } }

/-- `addFileDependency` on a key keeps `on_termination`, `setFileDeps` on a new path does so as
well, and an empty list leaves the old one. -/
theorem oneDependency_not_committed :
    ¬ DependencyAdded posix "f" "a" oneDependency ∧ ¬ DependenciesSet posix "g" ["d"] {} ∧
      ¬ DependenciesSet posix "f" [] oneDependency := by
  have hfind : oneDependency.find "f" = some { fileDependencies := ["d"] } := by decide +kernel
  refine ⟨fun h => ?_, fun h => ?_, fun h => ?_⟩
  · have hrule := (dependencyAdded_iff posix (by decide) "a" oneDependency).mp h _ hfind
    exact absurd hrule (by decide)
  · have hrule := (dependenciesSet_iff posix (by decide) (by decide) {}).mp h
    have hnew : ((({} : Engine).newFiles posix ["d"])._newFile posix "g").find "g" = some {} := by
      decide +kernel
    unfold getCommitRule at hrule
    rw [query_eq posix (by decide), hnew] at hrule
    exact absurd hrule (by decide)
  · rw [dependenciesSet_nil, getCommitOnFileDependencies_of_find hfind] at h
    cases h

end Engine

end CapioCl
