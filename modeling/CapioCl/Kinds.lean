import CapioCl.Act
import Mathlib.Data.List.Induction

/-!
# Kinds along a run

A path becomes a directory without a write to it in three ways: a child is created after it, every
entry is turned into a directory, or it is created as a copy of a directory. `Marked` says so of a
sequence of mentions, without the entries, and `KindStore.run` that this is what a run does to the
paths it does not describe.
-/

namespace CapioCl

open CapioCl.Lib

/-! ## Mentions -/

/-- What an act means for the kinds of the paths it does not write to. -/
inductive Mention where
  | path (path : String)
  | directories
  deriving Repr, DecidableEq

def Act.mention? : Act → Option Mention
  | .create path => some (.path path)
  | .set path _ => some (.path path)
  | .directories => some .directories
  | .storeAll => none

def mentions (acts : List Act) : List Mention := acts.filterMap Act.mention?

def Mention.create? : Mention → Option Act
  | .path p => some (.create p)
  | .directories => none

/-- A store of the mentioned paths, each created where it is first met. -/
def met (P : Platform) (ms : List Mention) : Engine := run P (ms.filterMap Mention.create?) {}

theorem met_concat_path (P : Platform) (ms : List Mention) (path : String) :
    met P (ms ++ [.path path]) = (met P ms)._newFile P path := by
  unfold met
  rw [List.filterMap_append]
  exact run_concat P _ (.create path) {}

theorem met_concat_directories (P : Platform) (ms : List Mention) :
    met P (ms ++ [.directories]) = met P ms := by
  unfold met
  rw [List.filterMap_append]
  exact congrArg (fun acts => run P acts {}) (List.append_nil _)

theorem isSome_find_met {P : Platform} {ms : List Mention} {path : String} :
    ((met P ms).find path).isSome ↔ Mention.path path ∈ ms ∧ path ≠ "" := by
  unfold met
  rw [isSome_find_run, or_iff_right (by rw [Engine.find_of_empty rfl]; simp)]
  refine and_congr_left' ?_
  constructor
  · rintro ⟨act, hact, hpath⟩
    obtain ⟨m, hm, hcreate⟩ := List.mem_filterMap.mp hact
    cases m with
    | path p =>
      obtain rfl := Option.some.inj hcreate
      obtain rfl := Option.some.inj hpath
      exact hm
    | directories => cases hcreate
  · exact fun h => ⟨.create path, List.mem_filterMap.mpr ⟨_, h, rfl⟩, rfl⟩

/-! ## Marks -/

/-- The mentions make `path` a directory. -/
inductive Marked (P : Platform) : List Mention → String → Prop where
  | earlier {ms : List Mention} {path : String} (m : Mention) :
      Marked P ms path → Marked P (ms ++ [m]) path
  | directories {ms : List Mention} {path : String} :
      Mention.path path ∈ ms → path ≠ "" → Marked P (ms ++ [.directories]) path
  | child {ms : List Mention} {path child : String} : child ≠ "" → Mention.path child ∉ ms →
      parentPath child = path → (Mention.path path ∈ ms ∧ path ≠ "") ∨ path = child →
      Marked P (ms ++ [.path child]) path
  | copy {ms : List Mention} {path g : String} : path ≠ "" → Mention.path path ∉ ms →
      (met P ms).source P path = some g → Marked P ms g → Marked P (ms ++ [.path path]) path

/-- A marked path is met. -/
theorem Marked.met {P : Platform} {ms : List Mention} {path : String} (h : Marked P ms path) :
    Mention.path path ∈ ms ∧ path ≠ "" := by
  induction h with
  | earlier m _ ih => exact ⟨List.mem_append_left _ ih.1, ih.2⟩
  | directories hmem hne => exact ⟨List.mem_append_left _ hmem, hne⟩
  | child hne _ _ hmet =>
    rcases hmet with ⟨hmem, hne'⟩ | rfl
    · exact ⟨List.mem_append_left _ hmem, hne'⟩
    · exact ⟨List.mem_append_right _ (List.mem_singleton_self _), hne⟩
  | copy hne _ _ _ _ =>
    exact ⟨List.mem_append_right _ (List.mem_singleton_self _), hne⟩

/-- **What the last mention marks.** -/
theorem marked_concat_iff {P : Platform} {ms : List Mention} {m : Mention} {path : String} :
    Marked P (ms ++ [m]) path ↔ Marked P ms path ∨
      (m = .directories ∧ Mention.path path ∈ ms ∧ path ≠ "") ∨
      ∃ child, m = .path child ∧ child ≠ "" ∧ Mention.path child ∉ ms ∧
        ((parentPath child = path ∧ ((Mention.path path ∈ ms ∧ path ≠ "") ∨ path = child)) ∨
          (path = child ∧ ∃ g, (CapioCl.met P ms).source P path = some g ∧ Marked P ms g)) := by
  constructor
  · intro h
    generalize heq : ms ++ [m] = ms' at h
    cases h with
    | earlier m' h =>
      obtain ⟨rfl, -⟩ := List.append_inj' heq rfl
      exact .inl h
    | directories hmem hne =>
      obtain ⟨rfl, hm⟩ := List.append_inj' heq rfl
      exact .inr (.inl ⟨(List.cons.inj hm).1, hmem, hne⟩)
    | child hne hnew hparent hmet =>
      obtain ⟨rfl, hm⟩ := List.append_inj' heq rfl
      exact .inr (.inr ⟨_, (List.cons.inj hm).1, hne, hnew, .inl ⟨hparent, hmet⟩⟩)
    | copy hne hnew hsource hg =>
      obtain ⟨rfl, hm⟩ := List.append_inj' heq rfl
      exact .inr (.inr ⟨_, (List.cons.inj hm).1, hne, hnew, .inr ⟨rfl, _, hsource, hg⟩⟩)
  · rintro (h | ⟨rfl, hmem, hne⟩ | ⟨child, rfl, hne, hnew, ⟨hparent, hmet⟩ | ⟨rfl, g, hs, hg⟩⟩)
    · exact h.earlier m
    · exact .directories hmem hne
    · exact .child hne hnew hparent hmet
    · exact .copy hne hnew hs hg

/-- A path met again marks nothing. -/
theorem marked_old_path {P : Platform} {ms : List Mention} {path : String}
    (h : path = "" ∨ Mention.path path ∈ ms) (k : String) :
    Marked P (ms ++ [.path path]) k ↔ Marked P ms k := by
  rw [marked_concat_iff]
  refine or_iff_left ?_
  rintro (⟨hm, -⟩ | ⟨p, hm, hne, hnew, -⟩)
  · cases hm
  · cases hm
    rcases h with rfl | h
    · exact hne rfl
    · exact hnew h

/-- A path first met marks its parent, and is marked if it copies a marked one. -/
theorem marked_new_path {P : Platform} {ms : List Mention} {path : String} (hne : path ≠ "")
    (hnew : Mention.path path ∉ ms) (k : String) :
    Marked P (ms ++ [.path path]) k ↔ Marked P ms k ∨
      (parentPath path = k ∧ ((Mention.path k ∈ ms ∧ k ≠ "") ∨ k = path)) ∨
        (k = path ∧ ∃ g, (met P ms).source P path = some g ∧ Marked P ms g) := by
  rw [marked_concat_iff]
  refine or_congr_right ?_
  constructor
  · rintro (⟨hm, -⟩ | ⟨p, hm, -, -, hc⟩)
    · cases hm
    · cases hm
      rcases hc with hc | ⟨rfl, hc⟩
      · exact .inl hc
      · exact .inr ⟨rfl, hc⟩
  · rintro (hc | ⟨rfl, hc⟩)
    · exact .inr ⟨path, rfl, hne, hnew, .inl hc⟩
    · exact .inr ⟨k, rfl, hne, hnew, .inr ⟨rfl, hc⟩⟩

/-! ## Entries nothing describes -/

/-- The rules of a new entry, which counts its children. -/
structure CapioCLEntry.Bare (entry : CapioCLEntry) : Prop where
  commitRule : entry.commitRule = commitRules.onTermination
  fireRule : entry.fireRule = fireRules.update
  closeCount : entry.commitOnCloseCount = 0
  fileDeps : entry.fileDependencies = []
  enabled : entry.enableDirectoryCountUpdate = true

theorem CapioCLEntry.Bare.counted {entry : CapioCLEntry} (h : entry.Bare) :
    entry.counted.Bare ∧ entry.counted.isFile = false := by
  unfold CapioCLEntry.counted
  rw [if_pos h.enabled]
  exact ⟨⟨h.commitRule, h.fireRule, h.closeCount, h.fileDeps, h.enabled⟩, rfl⟩

theorem Write.OffRules.apply {w : Write} (hw : w.OffRules) {entry : CapioCLEntry}
    (h : entry.Bare) : (w.apply entry).Bare ∧ (w.apply entry).isFile = entry.isFile := by
  obtain ⟨h1, h2, h3, h4, h5⟩ := h
  cases w with
  | app σ name => cases σ <;> exact ⟨⟨h1, h2, h3, h4, h5⟩, rfl⟩
  | permanent value => exact ⟨⟨h1, h2, h3, h4, h5⟩, rfl⟩
  | excluded value => exact ⟨⟨h1, h2, h3, h4, h5⟩, rfl⟩
  | storeInMemory value => exact ⟨⟨h1, h2, h3, h4, h5⟩, rfl⟩
  | _ => exact absurd hw id

/-- The keys are the met paths, and those in `U` have bare entries of the marked kind. -/
structure KindStore (P : Platform) (U : String → Prop) (ms : List Mention) (e : Engine) : Prop where
  keys : e.capioClEntries.keys = (met P ms).capioClEntries.keys
  bare : ∀ k entry, U k → e.find k = some entry → entry.Bare
  kind : ∀ k entry, U k → e.find k = some entry → (entry.isFile = false ↔ Marked P ms k)

section
variable {P : Platform} {U : String → Prop} {ms : List Mention} {e : Engine}

theorem KindStore.of_empty (P : Platform) (U : String → Prop) {e : Engine}
    (he : e.capioClEntries = ∅) : KindStore P U [] e := by
  have hnone : ∀ k entry, e.find k ≠ some entry := by
    intro k entry h
    rw [Engine.find_of_empty he] at h
    cases h
  exact ⟨by rw [he]; rfl, fun k entry _ h => absurd h (hnone k entry),
    fun k entry _ h => absurd h (hnone k entry)⟩

theorem KindStore.isSome_find (h : KindStore P U ms e) {k : String} :
    (e.find k).isSome ↔ Mention.path k ∈ ms ∧ k ≠ "" := by
  rw [← Engine.mem_keys_iff, h.keys, Engine.mem_keys_iff, isSome_find_met]

/-- What a creation makes of a path in `U`, before its parent is counted. -/
theorem KindStore.newEntry (h : KindStore P U ms e)
    (hU : ∀ g q, U q → P.fnmatch g q = true → g ≠ q → U g) {path : String} (hpath : U path)
    (hnew : e.find path = none) : (e.newEntry P path).Bare ∧
      ((e.newEntry P path).isFile = false ↔
        ∃ g, (met P ms).source P path = some g ∧ Marked P ms g) := by
  have hsource : e.source P path = (met P ms).source P path := Engine.source_of_keys h.keys
  rw [← hsource]
  cases hs : e.source P path with
  | none =>
    rw [Engine.newEntry_of_none hs]
    exact ⟨⟨rfl, rfl, rfl, rfl, rfl⟩, by simp⟩
  | some g =>
    obtain ⟨data, hdata, heq⟩ := Engine.newEntry_of_source hs
    have hg : U g := by
      refine hU g path hpath (Engine.source_eq_some hs).2.1 ?_
      rintro rfl
      rw [hnew] at hdata
      cases hdata
    obtain ⟨h1, h2, h3, h4, h5⟩ := h.bare g data hg hdata
    rw [heq]
    refine ⟨⟨h1, h2, h3, h4, h5⟩, (h.kind g data hg hdata).trans ?_⟩
    constructor
    · exact fun hm => ⟨g, rfl, hm⟩
    · rintro ⟨g', hg', hm⟩
      rwa [Option.some.inj hg']

/-- A creation keeps the kinds marked. -/
theorem KindStore.newFile (h : KindStore P U ms e)
    (hU : ∀ g q, U q → P.fnmatch g q = true → g ≠ q → U g) (path : String) :
    KindStore P U (ms ++ [.path path]) (e._newFile P path) := by
  have hkeys : (e._newFile P path).capioClEntries.keys =
      (met P (ms ++ [.path path])).capioClEntries.keys := by
    have hsome : (e.find path).isSome = ((met P ms).find path).isSome :=
      Bool.eq_iff_iff.mpr (h.isSome_find.trans isSome_find_met.symm)
    rw [met_concat_path, Engine.keys_newFile, Engine.keys_newFile, h.keys, hsome]
  by_cases hold : path = "" ∨ (e.find path).isSome
  · have hfind : ∀ k, (e._newFile P path).find k = e.find k := by
      intro k
      rw [Engine.find_newFile, if_pos hold]
    have hmet : path = "" ∨ Mention.path path ∈ ms := hold.imp_right fun hsome =>
      (h.isSome_find.mp hsome).1
    refine ⟨hkeys, fun k entry hk hentry => ?_, fun k entry hk hentry => ?_⟩
    · exact h.bare k entry hk (by rwa [← hfind])
    · rw [marked_old_path hmet]
      exact h.kind k entry hk (by rwa [← hfind])
  · obtain ⟨hne, hnone⟩ := not_or.mp hold
    have hnew : e.find path = none := Option.not_isSome_iff_eq_none.mp hnone
    have hnotin : Mention.path path ∉ ms := fun hmem => hnone (h.isSome_find.mpr ⟨hmem, hne⟩)
    -- the entry before its parent is counted
    have hbefore : ∀ k x, U k → (if k = path then some (e.newEntry P path) else e.find k) = some x →
        x.Bare ∧ (x.isFile = false ↔ Marked P ms k ∨
          (k = path ∧ ∃ g, (met P ms).source P path = some g ∧ Marked P ms g)) := by
      intro k x hk hx
      by_cases hkp : k = path
      · subst hkp
        rw [if_pos rfl] at hx
        obtain rfl := Option.some.inj hx
        obtain ⟨hb, hkind⟩ := h.newEntry hU hk hnew
        refine ⟨hb, hkind.trans ?_⟩
        rw [or_iff_right fun hm => hnotin hm.met.1, and_iff_right rfl]
      · rw [if_neg hkp] at hx
        refine ⟨h.bare k x hk hx, (h.kind k x hk hx).trans ?_⟩
        exact (or_iff_left fun hc => hkp hc.1).symm
    have hentry : ∀ k entry, U k → (e._newFile P path).find k = some entry → entry.Bare ∧
        (entry.isFile = false ↔ Marked P (ms ++ [.path path]) k) := by
      intro k entry hk hfind
      rw [Engine.find_newFile, if_neg hold] at hfind
      dsimp only at hfind
      rw [marked_new_path hne hnotin]
      by_cases hparent : k = parentPath path ∧ k ≠ ""
      · rw [if_pos hparent] at hfind
        obtain ⟨x, hx, rfl⟩ := Option.map_eq_some_iff.mp hfind
        obtain ⟨hb, hfile⟩ := (hbefore k x hk hx).1.counted
        refine ⟨hb, iff_of_true hfile (.inr (.inl ⟨hparent.1.symm, ?_⟩))⟩
        by_cases hkp : k = path
        · exact .inr hkp
        · rw [if_neg hkp] at hx
          exact .inl (h.isSome_find.mp (by rw [hx]; rfl))
      · rw [if_neg hparent] at hfind
        obtain ⟨hb, hkind⟩ := hbefore k entry hk hfind
        refine ⟨hb, hkind.trans (or_congr_right ?_)⟩
        refine (or_iff_right ?_).symm
        rintro ⟨hk', ⟨-, hk0⟩ | rfl⟩
        · exact hparent ⟨hk'.symm, hk0⟩
        · exact hparent ⟨hk'.symm, hne⟩
    exact ⟨hkeys, fun k entry hk hf => (hentry k entry hk hf).1,
      fun k entry hk hf => (hentry k entry hk hf).2⟩

/-- A write to a path outside `U`, or off the rules, keeps the kinds marked. -/
theorem KindStore.setter (h : KindStore P U ms e)
    (hU : ∀ g q, U q → P.fnmatch g q = true → g ≠ q → U g) {path : String} {w : Write}
    (hw : U path → path ≠ "" → w.OffRules) :
    KindStore P U (ms ++ [.path path]) (e.setter P path w.apply) := by
  have hnew := h.newFile hU path
  by_cases hp : path = ""
  · rw [hp, Engine.setter_empty]
    rwa [hp, Engine.newFile_empty] at hnew
  · have hfind : ∀ k entry, U k → (e.setter P path w.apply).find k = some entry →
        ∃ x, (e._newFile P path).find k = some x ∧
          (x.Bare → entry.Bare ∧ entry.isFile = x.isFile) := by
      intro k entry hk hentry
      rw [Engine.find_setter] at hentry
      split at hentry
      · rename_i hc
        obtain ⟨x, hx, rfl⟩ := Option.map_eq_some_iff.mp hentry
        exact ⟨x, hx, (hw (hc.1 ▸ hk) hp).apply⟩
      · exact ⟨entry, hentry, fun hb => ⟨hb, rfl⟩⟩
    refine ⟨?_, fun k entry hk hentry => ?_, fun k entry hk hentry => ?_⟩
    · rw [Engine.setter_eq P hp, Engine.keys_modify]
      exact hnew.keys
    · obtain ⟨x, hx, happly⟩ := hfind k entry hk hentry
      exact (happly (hnew.bare k x hk hx)).1
    · obtain ⟨x, hx, happly⟩ := hfind k entry hk hentry
      rw [(happly (hnew.bare k x hk hx)).2]
      exact hnew.kind k x hk hx

theorem KindStore.setAllDirectories (h : KindStore P U ms e) :
    KindStore P U (ms ++ [.directories]) (e.setAllDirectories P) := by
  have hfind : ∀ k entry, (e.setAllDirectories P).find k = some entry → ∃ x, e.find k = some x ∧
      k ≠ "" ∧ entry = { x with isFile := false } := by
    intro k entry hentry
    rw [Engine.find_setAllDirectories] at hentry
    obtain ⟨x, hx, rfl⟩ := Option.map_eq_some_iff.mp hentry
    have hk : k ≠ "" := (h.isSome_find.mp (by rw [hx]; rfl)).2
    exact ⟨x, hx, hk, if_neg hk⟩
  refine ⟨?_, fun k entry hk hentry => ?_, fun k entry hk hentry => ?_⟩
  · rw [(Engine.frame_setAllDirectories P e).2.2, met_concat_directories]
    exact h.keys
  · obtain ⟨x, hx, -, rfl⟩ := hfind k entry hentry
    obtain ⟨h1, h2, h3, h4, h5⟩ := h.bare k x hk hx
    exact ⟨h1, h2, h3, h4, h5⟩
  · obtain ⟨x, hx, hne, rfl⟩ := hfind k entry hentry
    exact iff_of_true rfl (.directories (h.isSome_find.mp (by rw [hx]; rfl)).1 hne)

theorem KindStore.setAllStoreInMemory (h : KindStore P U ms e) :
    KindStore P U ms (e.setAllStoreInMemory P) := by
  have hfind : ∀ k entry, (e.setAllStoreInMemory P).find k = some entry → ∃ x, e.find k = some x ∧
      (x.Bare → entry.Bare) ∧ entry.isFile = x.isFile := by
    intro k entry hentry
    rw [Engine.find_setAllStoreInMemory] at hentry
    obtain ⟨x, hx, rfl⟩ := Option.map_eq_some_iff.mp hentry
    refine ⟨x, hx, fun ⟨h1, h2, h3, h4, h5⟩ => ?_, ?_⟩ <;> split
    · exact ⟨h1, h2, h3, h4, h5⟩
    · exact ⟨h1, h2, h3, h4, h5⟩
    · rfl
    · rfl
  refine ⟨(Engine.frame_setAllStoreInMemory P e).2.2.trans h.keys, fun k entry hk hentry => ?_,
    fun k entry hk hentry => ?_⟩
  · obtain ⟨x, hx, hb, -⟩ := hfind k entry hentry
    exact hb (h.bare k x hk hx)
  · obtain ⟨x, hx, -, hfile⟩ := hfind k entry hentry
    rw [hfile]
    exact h.kind k x hk hx

/-- **An act keeps the kinds marked**, when it does not describe a path in `U`. -/
theorem KindStore.perform (h : KindStore P U ms e)
    (hU : ∀ g q, U q → P.fnmatch g q = true → g ≠ q → U g) {act : Act}
    (hact : ∀ q w, U q → q ≠ "" → act = .set q w → w.OffRules) :
    KindStore P U (ms ++ act.mention?.toList) (act.perform P e) := by
  cases act with
  | create p => exact h.newFile hU p
  | set p w => exact h.setter hU fun hp hne => hact p w hp hne rfl
  | directories => exact h.setAllDirectories
  | storeAll =>
    change KindStore P U (ms ++ []) (e.setAllStoreInMemory P)
    rw [List.append_nil]
    exact h.setAllStoreInMemory

/-- **A run makes directories of the marked paths**, among those it does not describe. -/
theorem KindStore.run (he : e.capioClEntries = ∅)
    (hU : ∀ g q, U q → P.fnmatch g q = true → g ≠ q → U g) {acts : List Act}
    (hacts : ∀ q w, U q → q ≠ "" → Act.set q w ∈ acts → w.OffRules) :
    KindStore P U (mentions acts) (CapioCl.run P acts e) := by
  induction acts using List.reverseRecOn with
  | nil => exact KindStore.of_empty P U he
  | append_singleton acts act ih =>
    have hbefore := ih fun q w hq hne hmem => hacts q w hq hne (List.mem_append_left _ hmem)
    have hstep := hbefore.perform hU fun q w hq hne heq =>
      hacts q w hq hne (heq ▸ List.mem_append_right _ (List.mem_singleton_self _))
    have hmentions : mentions (acts ++ [act]) = mentions acts ++ act.mention?.toList := by
      unfold mentions
      rw [List.filterMap_append]
      cases act <;> rfl
    rw [hmentions, run_concat]
    exact hstep

end

end CapioCl
