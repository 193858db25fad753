import CapioCl.Concrete
import CapioCl.Lib.Runs

/-!
# Directory child counts

`compute_directory_entry_count` runs once, when an entry is created, and counts it in its parent if
that is a key then. `Engine::remove` does not count back, a directory declared after its children
starts from zero, and a path that is its own parent counts itself.

* `countsExact_perform_iff`: which calls keep exact counts exact.
* `countsExact_run_iff`: the counts stay exact along a run exactly when each of its calls does.
-/

namespace CapioCl

open CapioCl.Lib

/-- The calls of a run. -/
inductive Call where
  | newFile (path : String)
  | remove (path : String)
  deriving Repr, DecidableEq

namespace Call

def path : Call → String
  | .newFile path => path
  | .remove path => path

def perform (P : Platform) : Call → Engine → Engine
  | .newFile path, e => e.newFile P path
  | .remove path, e => e.remove path

end Call

/-- Calls one after another; the iteration order of the store may change from call to call. -/
def runCalls (steps : List (Platform × Call)) (e : Engine) : Engine :=
  steps.foldl (fun e step => step.2.perform step.1 e) e

/-- The number of keys other than `d` whose parent is `d`. -/
def childCount (d : String) (e : Engine) : Nat :=
  e.capioClEntries.keys.countP fun q => q ≠ d ∧ parentPath q = d

/-- Each key counts its children. -/
def CountsExact (e : Engine) : Prop :=
  ∀ d entry, e.find d = some entry → entry.directoryChildrenCount = childCount d e

/-- Counting is enabled, and the keys are concrete and not empty. -/
structure Counting (e : Engine) : Prop where
  concrete : AllConcrete e
  nonempty : ∀ k, (e.find k).isSome → k ≠ ""
  enabled : ∀ k entry, e.find k = some entry → entry.enableDirectoryCountUpdate = true

/-! ## One call -/

theorem remove_of_find {path : String} {e : Engine} (h : (e.find path).isSome) :
    e.remove path = { e with capioClEntries := e.capioClEntries.erase path } := by
  obtain ⟨entry, hentry⟩ := Option.isSome_iff_exists.mp h
  unfold Engine.remove
  rw [hentry]

theorem remove_of_none {path : String} {e : Engine} (h : e.find path = none) :
    e.remove path = e := by
  unfold Engine.remove
  rw [h]

theorem find_remove (path : String) (e : Engine) (k : String) :
    (e.remove path).find k = if k = path then none else e.find k := by
  by_cases hf : (e.find path).isSome
  · rw [remove_of_find hf]
    by_cases hk : k = path
    · rw [if_pos hk, hk]
      exact AList.lookup_erase path e.capioClEntries
    · rw [if_neg hk]
      exact AList.lookup_erase_ne hk
  · have hnone : e.find path = none := Option.not_isSome_iff_eq_none.mp hf
    rw [remove_of_none hnone]
    split
    · rename_i hk
      rw [hk, hnone]
    · rfl

theorem enabled_counted (entry : CapioCLEntry) :
    entry.counted.enableDirectoryCountUpdate = entry.enableDirectoryCountUpdate :=
  @CapioCLEntry.get_counted _ CapioCLEntry.enableDirectoryCountUpdate (fun _ _ _ => rfl) entry

theorem count_counted {entry : CapioCLEntry} (h : entry.enableDirectoryCountUpdate = true) :
    entry.counted.directoryChildrenCount = entry.directoryChildrenCount + 1 := by
  unfold CapioCLEntry.counted
  rw [if_pos h]

theorem Counting.newFile {P : Platform} {path : String} {e : Engine} (h : Counting e)
    (hp : Concrete path) : Counting (e.newFile P path) := by
  have hconc : AllConcrete ((Act.create path).perform P e) :=
    h.concrete.perform fun p hpath => by rwa [← Option.some.inj hpath]
  refine ⟨hconc, fun k hk => ?_, fun k entry hk => ?_⟩
  · rcases (Engine.find_newFile_isSome_iff P path e k).mp hk with hk | ⟨rfl, hne⟩
    · exact h.nonempty k hk
    · exact hne
  · have hmap := Engine.map_find_newFile enabled_counted P path e k
    rw [show (e._newFile P path).find k = some entry from hk, Option.map_some] at hmap
    split at hmap
    · rename_i hc
      rw [newEntry_concrete h.concrete hc.2.2] at hmap
      exact Option.some.inj hmap
    · obtain ⟨x, hx, he⟩ := Option.map_eq_some_iff.mp hmap.symm
      rw [← he]
      exact h.enabled k x hx

theorem Counting.remove {path : String} {e : Engine} (h : Counting e) :
    Counting (e.remove path) := by
  have hsub : ∀ k entry, (e.remove path).find k = some entry → e.find k = some entry := by
    intro k entry hk
    rw [find_remove] at hk
    split at hk
    · exact absurd hk (by simp)
    · exact hk
  have hsome : ∀ k, ((e.remove path).find k).isSome → (e.find k).isSome := by
    intro k hk
    obtain ⟨entry, hentry⟩ := Option.isSome_iff_exists.mp hk
    rw [hsub k entry hentry]
    rfl
  exact ⟨fun k hk => h.concrete k (hsome k hk), fun k hk => h.nonempty k (hsome k hk),
    fun k entry hk => h.enabled k entry (hsub k entry hk)⟩

theorem childCount_newFile (P : Platform) {path : String} {e : Engine} (hp : path ≠ "")
    (hf : e.find path = none) (d : String) : childCount d (e.newFile P path) =
      childCount d e + if path ≠ d ∧ parentPath path = d then 1 else 0 := by
  have hfree : ¬ (path = "" ∨ (e.find path).isSome) := by
    rw [hf]
    simpa using hp
  unfold childCount Engine.newFile
  rw [Engine.keys_newFile, if_neg hfree, List.countP_cons]
  simp only [decide_eq_true_eq]

theorem childCount_remove {path : String} {e : Engine} (hf : (e.find path).isSome) (d : String) :
    childCount d (e.remove path) + (if path ≠ d ∧ parentPath path = d then 1 else 0) =
      childCount d e := by
  have hperm := List.perm_cons_erase (Engine.mem_keys_iff.mpr hf)
  unfold childCount
  rw [remove_of_find hf, AList.keys_erase, hperm.countP_eq, List.countP_cons]
  simp only [decide_eq_true_eq]

/-- What a new entry counts before any child of it is created: itself, when it is its own
parent. -/
def ownCount (path : String) : Nat := if parentPath path = path then 1 else 0

/-- The calls that keep exact counts exact: a new path has no key below it (but itself), and a
removed key none above it (but itself). -/
def KeepsCounts (e : Engine) : Call → Prop
  | .newFile path => path = "" ∨ (e.find path).isSome ∨ childCount path e = ownCount path
  | .remove path => e.find path = none ∨ parentPath path = path ∨ e.find (parentPath path) = none

theorem countsExact_newFile_iff {P : Platform} {path : String} {e : Engine} (h : Counting e)
    (hp : path ≠ "") (hx : CountsExact e) :
    CountsExact (e.newFile P path) ↔ KeepsCounts e (.newFile path) := by
  unfold KeepsCounts
  by_cases hf : (e.find path).isSome
  · rw [show e.newFile P path = e from Engine.newFile_of_isSome P hf]
    exact iff_of_true hx (Or.inr (Or.inl hf))
  have hnone : e.find path = none := Option.not_isSome_iff_eq_none.mp hf
  have hfree : ¬ (path = "" ∨ (e.find path).isSome) := not_or.mpr ⟨hp, hf⟩
  -- every other key counts the new one exactly when it is its parent
  have hother : ∀ d entry, d ≠ path → (e.newFile P path).find d = some entry →
      entry.directoryChildrenCount = childCount d (e.newFile P path) := by
    intro d entry hd hentry
    unfold Engine.newFile at hentry
    rw [Engine.find_newFile, if_neg hfree] at hentry
    dsimp only at hentry
    rw [if_neg hd] at hentry
    rw [childCount_newFile P hp hnone]
    split at hentry
    · rename_i hc
      obtain ⟨x, hfx, rfl⟩ := Option.map_eq_some_iff.mp hentry
      rw [count_counted (h.enabled d x hfx), hx d x hfx, if_pos ⟨Ne.symm hd, hc.1.symm⟩]
      push_cast
      rfl
    · rename_i hc
      have hd0 : d ≠ "" := h.nonempty d (by rw [hentry]; rfl)
      rw [hx d entry hentry, if_neg fun hp => hc ⟨hp.2.symm, hd0⟩, Nat.add_zero]
  -- the new key counts itself when it is its own parent
  obtain ⟨entry, hentry, hcount⟩ : ∃ entry, (e.newFile P path).find path = some entry ∧
      entry.directoryChildrenCount = ownCount path := by
    unfold Engine.newFile ownCount
    rw [Engine.find_newFile, if_neg hfree]
    dsimp only
    rw [if_pos rfl, newEntry_concrete h.concrete hnone]
    by_cases hpar : path = parentPath path
    · rw [if_pos ⟨hpar, hp⟩, if_pos hpar.symm]
      exact ⟨_, rfl, rfl⟩
    · rw [if_neg fun hc => hpar hc.1, if_neg fun hc => hpar hc.symm]
      exact ⟨_, rfl, rfl⟩
  have hchildren : childCount path (e.newFile P path) = childCount path e := by
    rw [childCount_newFile P hp hnone, if_neg fun hc => hc.1 rfl, Nat.add_zero]
  constructor
  · intro hx'
    refine Or.inr (Or.inr ?_)
    have hnew := hx' path entry hentry
    rw [hcount, hchildren] at hnew
    exact_mod_cast hnew.symm
  · rintro (hc | hc | hc)
    · exact absurd hc hp
    · exact absurd hc hf
    · intro d entry' hentry'
      by_cases hd : d = path
      · subst hd
        rw [← Option.some.inj (hentry.symm.trans hentry'), hcount, hchildren, hc]
      · exact hother d entry' hd hentry'

theorem countsExact_remove_iff {path : String} {e : Engine} (hx : CountsExact e) :
    CountsExact (e.remove path) ↔ KeepsCounts e (.remove path) := by
  unfold KeepsCounts
  by_cases hf : (e.find path).isSome
  · have hkey : e.find path ≠ none := by
      rw [← Option.isSome_iff_ne_none]
      exact hf
    constructor
    · intro hx'
      refine Or.inr ?_
      by_contra hcon
      rw [not_or] at hcon
      obtain ⟨hne, hpar⟩ := hcon
      -- the parent still counts the removed child
      obtain ⟨entry, hentry⟩ := Option.ne_none_iff_exists'.mp hpar
      have hafter := hx' (parentPath path) entry (by rw [find_remove, if_neg hne, hentry])
      have hbefore := hx (parentPath path) entry hentry
      have hcount := childCount_remove hf (parentPath path)
      rw [if_pos ⟨Ne.symm hne, rfl⟩] at hcount
      omega
    · rintro (hc | hc) d entry hentry
      · exact absurd hc hkey
      · rw [find_remove] at hentry
        split at hentry
        · exact absurd hentry (by simp)
        · rename_i hd
          have hcount := childCount_remove hf d
          rw [if_neg, Nat.add_zero] at hcount
          · rw [hx d entry hentry, hcount]
          · rintro ⟨-, hpd⟩
            rcases hc with hc | hc
            · exact hd (hpd.symm.trans hc)
            · rw [hpd, hentry] at hc
              exact absurd hc (by simp)
  · have hnone : e.find path = none := Option.not_isSome_iff_eq_none.mp hf
    rw [remove_of_none hnone]
    exact iff_of_true hx (Or.inl hnone)

/-- **Which calls keep exact counts exact.** -/
theorem countsExact_perform_iff {P : Platform} {call : Call} {e : Engine} (h : Counting e)
    (hp : call.path ≠ "") (hx : CountsExact e) :
    CountsExact (call.perform P e) ↔ KeepsCounts e call := by
  cases call with
  | newFile path => exact countsExact_newFile_iff h hp hx
  | remove path => exact countsExact_remove_iff hx

theorem Counting.perform {P : Platform} {call : Call} {e : Engine} (h : Counting e)
    (hp : Concrete call.path) : Counting (call.perform P e) := by
  cases call with
  | newFile path => exact h.newFile hp
  | remove path => exact h.remove

/-! ## Runs -/

theorem Counting.runCalls {e : Engine} (h : Counting e) {steps : List (Platform × Call)}
    (hsteps : ∀ step ∈ steps, Concrete step.2.path) : Counting (runCalls steps e) :=
  Registers.foldl_invariant steps (fun _ step hstep hs => hs.perform (hsteps step hstep)) h

/-- **Exact counts along a run.** From an empty engine every state a run reaches has exact counts
if and only if each call of the run keeps them in the state it is made in. -/
theorem countsExact_run_iff {e : Engine} (he : e.capioClEntries = ∅)
    {steps : List (Platform × Call)}
    (hsteps : ∀ step ∈ steps, step.2.path ≠ "" ∧ Concrete step.2.path) :
    (∀ n, CountsExact (runCalls (steps.take n) e)) ↔
      ∀ n step, steps[n]? = some step → KeepsCounts (runCalls (steps.take n) e) step.2 := by
  have hstart : Counting e := by
    refine ⟨fun k hk => ?_, fun k hk => ?_, fun k entry hk => ?_⟩
    all_goals
      rw [Engine.find_of_empty he] at hk
      exact absurd hk (by simp)
  have hcounting : ∀ n, Counting (runCalls (steps.take n) e) := fun n =>
    hstart.runCalls fun step hstep => (hsteps step (List.mem_of_mem_take hstep)).2
  refine @Runs.always_iff _ _ (fun e step => step.2.perform step.1 e) e steps CountsExact
    (fun s step => KeepsCounts s step.2) (fun d entry hentry => ?_) fun n step hstep hx => ?_
  · rw [Engine.find_of_empty he] at hentry
    exact absurd hentry (by simp)
  · rw [Runs.stateAt_succ _ hstep]
    exact countsExact_perform_iff (hcounting n) (hsteps step (List.mem_of_getElem? hstep)).1 hx

/-- A directory and its file. -/
def parentThenChild : List (Platform × Call) :=
  [(posix, .newFile "a"), (posix, .newFile "a/b")]

theorem parentThenChild_countsExact :
    (∀ step ∈ parentThenChild, step.2.path ≠ "" ∧ Concrete step.2.path) ∧
      ∀ n, CountsExact (runCalls (parentThenChild.take n) {}) := by
  have hpaths : ∀ step ∈ parentThenChild, step.2.path ≠ "" ∧ Concrete step.2.path := by
    intro step hstep
    rcases List.mem_cons.mp hstep with rfl | hstep
    · decide +kernel
    · rw [List.mem_singleton.mp hstep]
      decide +kernel
  -- each path is new, and no key is below it
  refine ⟨hpaths, (countsExact_run_iff rfl hpaths).mpr fun n step hstep => ?_⟩
  match n with
  | 0 =>
    obtain rfl := Option.some.inj hstep
    exact Or.inr (Or.inr (by decide +kernel))
  | 1 =>
    obtain rfl := Option.some.inj hstep
    exact Or.inr (Or.inr (by decide +kernel))
  | n + 2 => cases hstep

/-- Declared after its file, the directory counts nothing. -/
theorem childThenParent_not_countsExact :
    ¬ ∀ steps : List (Platform × Call),
      (∀ step ∈ steps, step.2.path ≠ "" ∧ Concrete step.2.path) →
        CountsExact (runCalls steps {}) := by
  intro h
  have hx := h [(posix, .newFile "a/b"), (posix, .newFile "a")] (by
    intro step hstep
    rcases List.mem_cons.mp hstep with rfl | hstep
    · decide +kernel
    · rw [List.mem_singleton.mp hstep]
      decide +kernel)
  have hfind : ((runCalls [(posix, .newFile "a/b"), (posix, .newFile "a")] {}).find "a") =
      some {} := by decide +kernel
  have hcount : childCount "a"
      (runCalls [(posix, .newFile "a/b"), (posix, .newFile "a")] {}) = 1 := by decide +kernel
  have := hx "a" {} hfind
  rw [hcount] at this
  exact absurd this (by decide)

end CapioCl
