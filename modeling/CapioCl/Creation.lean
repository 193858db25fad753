import CapioCl.Act

/-!
# Creation

What `Engine::newFile` makes of a path without an entry (`Engine.cpp:164-220`). The loop over the
entries keeps a running maximum that starts at length zero; whatever the order of the loop, it ends
at a longest key that matches (`source_longest`), and at nothing if no key matches
(`source_eq_none_iff`). The new entry starts as a copy of that key's entry (`Inherits`).

The parent is counted after the insertion. Two things follow. A path that is its own parent, like
`/`, is counted in its own new entry; and the record of the empty path, which is the parent path of
a relative name, is never counted.

* `newFile_creates`: creation, in any order of the loop; the order does not matter when the longest
  match is unique.
-/

namespace CapioCl

open CapioCl.Lib

namespace Engine

variable {P : Platform} {path : String} {e : Engine}

/-- `g` is a longest of the keys that match `path`. -/
structure Longest (P : Platform) (path : String) (e : Engine) (g : String) : Prop where
  key : (e.find g).isSome
  matched : P.fnmatch g path = true
  longest : ∀ k, (e.find k).isSome → P.fnmatch k path = true → k.utf8ByteSize ≤ g.utf8ByteSize

/-- The entries a creation of `path` may start from: a copy of a longest match, or a default
entry. -/
inductive Inherits (P : Platform) (path : String) (e : Engine) : CapioCLEntry → Prop where
  | copy {g : String} {data : CapioCLEntry} : e.Longest P path g → e.find g = some data →
      Inherits P path e
        { data with storeInMemory := if e.storeAllInMemory then true else data.storeInMemory }
  | default : (∀ k, (e.find k).isSome → P.fnmatch k path = false) →
      Inherits P path e { storeInMemory := e.storeAllInMemory }

/-- The empty key matches nothing. -/
theorem fnmatch_empty (P : Platform) (hp : path ≠ "") : P.fnmatch "" path = false := by
  have hc : Concrete "" := by decide +kernel
  rw [Bool.eq_false_iff]
  exact fun h => hp ((P.fnmatch_literal hc).mp h).symm

theorem source_longest {g : String} (h : e.source P path = some g) : e.Longest P path g := by
  obtain ⟨h1, h2, -, h4⟩ := source_eq_some h
  exact ⟨h1, h2, h4⟩

theorem source_eq_none_iff (hp : path ≠ "") :
    e.source P path = none ↔ ∀ k, (e.find k).isSome → P.fnmatch k path = false := by
  rw [source_eq_none]
  constructor
  · intro h k hk
    by_contra hm
    rw [Bool.not_eq_false] at hm
    rw [h k hk hm, fnmatch_empty P hp] at hm
    cases hm
  · intro h k hk hm
    rw [h k hk] at hm
    cases hm

theorem newEntry_inherits (P : Platform) (hp : path ≠ "") (e : Engine) :
    e.Inherits P path (e.newEntry P path) := by
  cases hs : e.source P path with
  | none =>
    rw [newEntry_of_none hs]
    exact .default ((source_eq_none_iff hp).mp hs)
  | some g =>
    obtain ⟨data, hdata, hnew⟩ := newEntry_of_source hs
    have hflag : (e.storeAllInMemory || data.storeInMemory) =
        if e.storeAllInMemory then true else data.storeInMemory := by
      cases e.storeAllInMemory <;> rfl
    rw [hnew, hflag]
    exact .copy (source_longest hs) hdata

/-- The record a creation of `path` copies, up to the storage flag: that of the key the loop ends at,
or a default one. -/
def inherited (P : Platform) (path : String) (e : Engine) : CapioCLEntry :=
  ((e.source P path).bind e.find).getD {}

theorem newEntry_eq (P : Platform) (path : String) (e : Engine) :
    e.newEntry P path = { e.inherited P path with
      storeInMemory := e.storeAllInMemory || (e.inherited P path).storeInMemory } := by
  unfold inherited
  cases hs : e.source P path with
  | none =>
    rw [newEntry_of_none hs]
    cases e.storeAllInMemory <;> rfl
  | some g =>
    obtain ⟨data, hdata, hnew⟩ := newEntry_of_source hs
    rw [hnew, Option.bind_some, hdata, Option.getD_some]

/-- With one longest match at most, the order of the loop does not matter. -/
theorem source_of_unique {P' : Platform} (hp : path ≠ "") (hf : P'.fnmatch = P.fnmatch)
    (hunique : ∀ g g', e.Longest P path g → e.Longest P path g' → g = g') :
    e.source P' path = e.source P path := by
  have hback : ∀ {g}, e.Longest P' path g → e.Longest P path g := by
    rintro g ⟨h1, h2, h3⟩
    rw [hf] at h2 h3
    exact ⟨h1, h2, h3⟩
  have hnone : e.source P' path = none ↔ e.source P path = none := by
    rw [source_eq_none_iff hp, source_eq_none_iff hp, hf]
  cases h : e.source P path with
  | none => exact hnone.mpr h
  | some g =>
    cases h' : e.source P' path with
    | none =>
      rw [hnone.mp h'] at h
      cases h
    | some g' => rw [hunique g' g (hback (source_longest h')) (source_longest h)]

/-- A creation depends on the platform through the key it copies. -/
theorem newFile_of_source {P' : Platform} (h : e.source P' path = e.source P path) :
    e._newFile P' path = e._newFile P path := by
  have hentry : e.newEntry P' path = e.newEntry P path := by
    cases hs : e.source P path with
    | none => rw [newEntry_of_none hs, newEntry_of_none (h.trans hs)]
    | some g =>
      obtain ⟨data, hdata, hnew⟩ := newEntry_of_source hs
      obtain ⟨data', hdata', hnew'⟩ := newEntry_of_source (h.trans hs)
      rw [hnew, hnew', Option.some.inj (hdata.symm.trans hdata')]
  unfold _newFile
  rw [hentry]

/-- The entry of a path after its creation. -/
theorem find_newFile_self (P : Platform) (hp : path ≠ "") (hnew : e.find path = none) :
    (e._newFile P path).find path = some
      (if parentPath path = path then (e.newEntry P path).counted else e.newEntry P path) := by
  have hold : ¬ (path = "" ∨ (e.find path).isSome) := by simp [hp, hnew]
  rw [find_newFile, if_neg hold]
  dsimp only
  rw [if_pos rfl]
  by_cases hself : parentPath path = path
  · rw [if_pos ⟨hself.symm, hp⟩, if_pos hself]
    rfl
  · rw [if_neg fun h => hself h.1.symm, if_neg hself]

/-- The entries of the other paths: a creation leaves all but the parent, and counts that if it is
not the empty path. -/
theorem find_newFile_other (P : Platform) (path : String) (e : Engine) {k : String} (hk : k ≠ path)
    (hpar : k = parentPath path → k = "") : (e._newFile P path).find k = e.find k := by
  rw [find_newFile]
  split
  · rfl
  · dsimp only
    rw [if_neg fun h => h.2 (hpar h.1)]

/-- `e'` is `e` with a new entry for `path`, counted in the entry of its parent. -/
structure Creates (P : Platform) (path : String) (e e' : Engine) : Prop where
  keys : ∀ k, (e'.find k).isSome ↔ (e.find k).isSome ∨ k = path
  entry : ∃ entry, e.Inherits P path entry ∧
    e'.find path = some (if parentPath path = path then entry.counted else entry)
  parent : parentPath path ≠ "" → parentPath path ≠ path →
    e'.find (parentPath path) = (e.find (parentPath path)).map CapioCLEntry.counted
  others : ∀ k, k ≠ path → (k = parentPath path → k = "") → e'.find k = e.find k
  header : e'.header = e.header
  storeAll : e'.storeAllInMemory = e.storeAllInMemory

theorem creates_newFile (P : Platform) (hp : path ≠ "") (hnew : e.find path = none) :
    Creates P path e (e._newFile P path) := by
  obtain ⟨hheader, hstore⟩ := frame_newFile P path e
  refine ⟨fun k => ?_, ⟨_, newEntry_inherits P hp e, find_newFile_self P hp hnew⟩,
    fun hne hself => ?_, fun k hk hpar => find_newFile_other P path e hk hpar, hheader, hstore⟩
  · simpa [hp] using find_newFile_isSome_iff P path e k
  · have hold : ¬ (path = "" ∨ (e.find path).isSome) := by simp [hp, hnew]
    rw [find_newFile, if_neg hold]
    dsimp only
    rw [if_pos ⟨rfl, hne⟩, if_neg hself]

/-- **Creation copies a longest match.** For a path without an entry, whatever the order of the
loop, exactly that key is added, its entry is a copy of that of a longest match or a default one,
and nothing else changes but the count and the kind of the parent, which may be the path itself. A
path that has an entry is left alone, and the order of the loop does not matter when the longest
match is unique. -/
theorem newFile_creates (P : Platform) (e : Engine) {path : String} (hp : path ≠ "") :
    (e.find path = none → Creates P path e (e.newFile P path)) ∧
      ((e.find path).isSome → e.newFile P path = e) ∧
      ((∀ g g', e.Longest P path g → e.Longest P path g' → g = g') →
        ∀ order, e.newFile { P with entryOrder := order } path = e.newFile P path) := by
  refine ⟨creates_newFile P hp, newFile_of_isSome P, fun hunique order => ?_⟩
  exact newFile_of_source (source_of_unique hp rfl hunique)

/-- A store with two patterns, one longer than the other. -/
def nestedPatterns : Engine :=
  { capioClEntries := ((∅ : UnorderedMap String CapioCLEntry).insert "*" { producers := ["any"] }).insert
      "a*" { producers := ["app"], permanent := true } }

theorem nestedPatterns_creates :
    Creates posix "ab" nestedPatterns (nestedPatterns.newFile posix "ab") ∧
      (nestedPatterns.newFile posix "ab").find "ab" =
        some { producers := ["app"], permanent := true } ∧
      nestedPatterns.newFile posix "a*" = nestedPatterns := by
  have hnew : nestedPatterns.find "ab" = none := by decide +kernel
  have hold : (nestedPatterns.find "a*").isSome := by decide +kernel
  exact ⟨(newFile_creates posix nestedPatterns (by decide)).1 hnew, by decide +kernel,
    (newFile_creates posix nestedPatterns (by decide)).2.1 hold⟩

/-- A store with a record for the empty path. -/
def emptyKey : Engine := { capioClEntries := (∅ : UnorderedMap String CapioCLEntry).insert "" {} }

/-- The empty path is the parent path of `f` and a key that counts, and yet it is not counted; and
the entry of `/` is not a default one, though no key matches. -/
theorem emptyKey_not_counted :
    ("f" ≠ "" ∧ emptyKey.find "f" = none ∧
      ¬ ∀ parent, emptyKey.find (parentPath "f") = some parent →
        parent.enableDirectoryCountUpdate = true →
        (emptyKey.newFile posix "f").find (parentPath "f") =
          some { parent with
            directoryChildrenCount := parent.directoryChildrenCount + 1, isFile := false }) ∧
      ("/" ≠ "" ∧ ({} : Engine).find "/" = none ∧
        ¬ ∃ entry, Inherits posix "/" {} entry ∧
          (({} : Engine).newFile posix "/").find "/" = some entry) := by
  refine ⟨⟨by decide, by decide +kernel, fun h => ?_⟩, by decide, by decide +kernel, ?_⟩
  · have hkey : emptyKey.find (parentPath "f") = some {} := by decide +kernel
    have hafter : (emptyKey.newFile posix "f").find (parentPath "f") = some {} := by decide +kernel
    have hcounted := hafter.symm.trans (h {} hkey rfl)
    exact absurd hcounted (by decide)
  · rintro ⟨entry, hentry, hafter⟩
    have hroot : (({} : Engine).newFile posix "/").find "/" =
        some { directoryChildrenCount := 1, isFile := false } := by decide +kernel
    have hdefault : entry = {} := by
      cases hentry with
      | copy hg => exact absurd hg.key (by rw [find_of_empty rfl]; simp)
      | default _ => rfl
    rw [hdefault] at hafter
    exact absurd (hafter.symm.trans hroot) (by decide)

end Engine

end CapioCl
