import CapioCl.ConcreteDocument
import CapioCl.DumpDocument
import CapioCl.Equality
import CapioCl.IoGraph

/-!
# The round trip of a workflow of plain files

An engine of plain files (`PlainFiles`) is dumped and parsed into an equal engine:
`plainFiles_roundTrip`. The document lists every path several times and in any order; what the
parse makes of a key is still what the engine holds, because the document is concrete
(`ConcreteDocument`), and because no step of the parse counts a child or marks a directory
(`PlainStore.run`).
-/

namespace CapioCl

open CapioCl.Lib CapioCl.Lib.Reading CapioCl.Parser CapioCl.Serializer

/-! ## Runs that leave files alone -/

/-- An entry as creation makes it, in what directories change. -/
structure CapioCLEntry.Plain (entry : CapioCLEntry) : Prop where
  isFile : entry.isFile = true
  count : entry.directoryChildrenCount = 0
  enabled : entry.enableDirectoryCountUpdate = true

/-- A write that keeps an entry plain. -/
def Write.Plain : Write → Prop
  | .isFile value => value = true
  | .fileCount _ => False
  | _ => True

theorem CapioCLEntry.Plain.apply {entry : CapioCLEntry} (h : entry.Plain) {w : Write}
    (hw : w.Plain) : (w.apply entry).Plain := by
  obtain ⟨h1, h2, h3⟩ := h
  cases w with
  | app σ name => cases σ <;> exact ⟨h1, h2, h3⟩
  | isFile value => exact ⟨hw, h2, h3⟩
  | fileCount num => exact absurd hw id
  | _ => exact ⟨h1, h2, h3⟩

/-- Plain entries under some keys, none of which is the parent of another. -/
structure PlainStore (K : String → Prop) (e : Engine) : Prop where
  keys : ∀ k, (e.find k).isSome → K k
  plain : ∀ k entry, e.find k = some entry → entry.Plain

section
variable {P : Platform} {K : String → Prop} (hK : ∀ p k, K p → K k → parentPath p ≠ k)

include hK

theorem PlainStore.newFile {e : Engine} (h : PlainStore K e) {path : String} (hp : K path) :
    PlainStore K (e._newFile P path) := by
  have hnew : (e.newEntry P path).Plain := by
    cases hs : e.source P path with
    | none =>
      rw [Engine.newEntry_of_none hs]
      exact ⟨rfl, rfl, rfl⟩
    | some g =>
      obtain ⟨data, hdata, heq⟩ := Engine.newEntry_of_source hs
      obtain ⟨h1, h2, h3⟩ := h.plain g data hdata
      rw [heq]
      exact ⟨h1, h2, h3⟩
  have hkeys : ∀ k, ((e._newFile P path).find k).isSome → K k := by
    intro k hk
    rcases (Engine.find_newFile_isSome_iff P path e k).mp hk with hk | ⟨rfl, -⟩
    · exact h.keys k hk
    · exact hp
  refine ⟨hkeys, fun k entry hentry => ?_⟩
  have hk : K k := hkeys k (by rw [hentry]; rfl)
  rw [Engine.find_newFile] at hentry
  split at hentry
  · exact h.plain k entry hentry
  · dsimp only at hentry
    rw [if_neg fun hc => hK path k hp hk hc.1.symm] at hentry
    split at hentry
    · rw [← Option.some.inj hentry]
      exact hnew
    · exact h.plain k entry hentry

theorem PlainStore.perform {e : Engine} (h : PlainStore K e) {act : Act}
    (hpath : ∀ p, act.path? = some p → K p) (hdir : act ≠ .directories)
    (hw : ∀ p w, act = .set p w → p ≠ "" → w.Plain) : PlainStore K (act.perform P e) := by
  cases act with
  | create p => exact h.newFile hK (hpath p rfl)
  | set p w =>
    obtain ⟨hkeys, hplain⟩ := h.newFile (P := P) hK (hpath p rfl)
    refine ⟨fun k hk => ?_, fun k entry hentry => ?_⟩
    · rcases (isSome_find_perform P (.set p w) e k).mp hk with hk | ⟨hk, -⟩
      · exact h.keys k hk
      · exact hpath k hk
    · change (e.setter P p w.apply).find k = some entry at hentry
      rw [Engine.find_setter] at hentry
      split at hentry
      · rename_i hc
        obtain ⟨x, hx, rfl⟩ := Option.map_eq_some_iff.mp hentry
        exact (hplain k x hx).apply (hw p w rfl hc.2)
      · exact hplain k entry hentry
  | directories => exact absurd rfl hdir
  | storeAll =>
    refine ⟨fun k hk => ?_, fun k entry hentry => ?_⟩
    · exact h.keys k (((isSome_find_perform P .storeAll e k).mp hk).resolve_right (by simp [Act.path?]))
    · change (e.setAllStoreInMemory P).find k = some entry at hentry
      rw [Engine.find_setAllStoreInMemory] at hentry
      obtain ⟨x, hx, rfl⟩ := Option.map_eq_some_iff.mp hentry
      obtain ⟨h1, h2, h3⟩ := h.plain k x hx
      split <;> exact ⟨h1, h2, h3⟩

/-- **A run over such keys that marks no directory keeps every entry plain.** -/
theorem PlainStore.run {e : Engine} (h : PlainStore K e) {acts : List Act}
    (hpath : ∀ act ∈ acts, ∀ p, act.path? = some p → K p) (hdir : Act.directories ∉ acts)
    (hw : ∀ p w, Act.set p w ∈ acts → p ≠ "" → w.Plain) : PlainStore K (CapioCl.run P acts e) :=
  Registers.foldl_invariant acts (fun _ act hact hs =>
    hs.perform hK (hpath act hact) (fun he => hdir (he ▸ hact))
      fun p w he => hw p w (he ▸ hact)) h

end

/-! ## Plain files -/

/-- An engine of plain files: concrete keys, none the parent of another, each written by some
application, with rules that a document can carry. -/
structure PlainFiles (e : Engine) : Prop where
  concrete : ∀ k, (e.find k).isSome → k ≠ "" ∧ Concrete k
  parents : ∀ p k, (e.find p).isSome → (e.find k).isSome → parentPath p ≠ k
  plain : ∀ k entry, e.find k = some entry → entry.Plain
  produced : ∀ k entry, e.find k = some entry → entry.producers ≠ []
  nodup : ∀ k entry, e.find k = some entry →
    (∀ σ, (entry.apps σ).Nodup) ∧ entry.fileDependencies.Nodup
  names : ∀ k entry, e.find k = some entry → ∀ σ, ∀ n ∈ entry.apps σ, NoSpaces n
  fireRule : ∀ k entry, e.find k = some entry → fireRules.Valid entry.fireRule
  commitRule : ∀ k entry, e.find k = some entry → entry.commitRule ∈ nameRules
  closeCount : ∀ k entry, e.find k = some entry →
    0 ≤ entry.commitOnCloseCount ∧ entry.commitOnCloseCount ≤ intMax ∧
      (entry.commitRule ≠ commitRules.onClose → entry.commitOnCloseCount = 0)
  fileDeps : ∀ k entry, e.find k = some entry →
    (entry.commitRule ≠ commitRules.onFile → entry.fileDependencies = []) ∧
      ∀ dep ∈ entry.fileDependencies, (e.find dep).isSome

theorem valid_of_mem_nameRules {r : String} (h : r ∈ nameRules) : commitRules.Valid r := by
  have hall : ∀ r ∈ nameRules, commitRules.Valid r := by decide
  exact hall r h

namespace PlainFiles

variable {e : Engine} (h : PlainFiles e)

include h

/-- The item of a plain file carries its rules. -/
theorem itemOf_eq {k : String} {entry : CapioCLEntry} (hk : e.find k = some entry) :
    (itemOf k entry).isFile = true ∧ (itemOf k entry).nFiles = 0 ∧
      (itemOf k entry).commitRule = entry.commitRule ∧
      (itemOf k entry).nClose = entry.commitOnCloseCount ∧
      (itemOf k entry).fileDeps = entry.fileDependencies := by
  have hfile := (h.plain k entry hk).isFile
  obtain ⟨hnonneg, -, hcount⟩ := h.closeCount k entry hk
  have hdeps := (h.fileDeps k entry hk).1
  unfold itemOf
  refine ⟨hfile, if_pos hfile, ?_, ?_, ?_⟩
  · dsimp only
    split
    · rename_i hpos
      by_contra hne
      rw [hcount (Ne.symm hne)] at hpos
      exact absurd hpos (by decide)
    · rfl
  · dsimp only
    split
    · rfl
    · omega
  · dsimp only
    split
    · rename_i hpos
      refine (hdeps fun hrule => ?_).symm
      have hne : entry.commitRule ≠ commitRules.onClose := by
        rw [hrule]
        decide
      rw [hcount hne] at hpos
      exact absurd hpos (by decide)
    · split
      · rfl
      · rename_i hne
        exact (hdeps hne).symm

theorem readStreamItem_eq (J : Jsoncons) {k : String} {entry : CapioCLEntry}
    (hk : e.find k = some entry) :
    readStreamItem J "" (streamingItemOf k entry) = .ok (itemOf k entry) := by
  refine readStreamItem_dump J k (valid_of_mem_nameRules (h.commitRule k entry hk))
    (h.closeCount k entry hk).2.1 ?_
  rw [(h.plain k entry hk).count]
  decide

theorem accepted {O : DumpOrders} {apps : List Json} (hg : DumpGraph O e apps) :
    schemaV1 (dumpDoc O e apps) = true := by
  rw [schemaV1_dumpDoc_iff hg]
  intro k entry hpe
  rw [streamingItem_dump_iff, committed_dump_iff]
  refine ⟨Or.inr (Or.inl ?_), h.fireRule k entry hpe.1⟩
  unfold kindRules
  rw [if_pos (h.plain k entry hpe.1).isFile]
  exact h.commitRule k entry hpe.1

/-- The dumped document is read. -/
theorem exists_read (J : Jsoncons) {O : DumpOrders} {apps : List Json} (hg : DumpGraph O e apps) :
    ∃ d, readDocument J "" (dumpDoc O e apps) = .ok d ∧ ReadDump J O e d := by
  have hshape := ((schemaV1_iff _).mp (h.accepted hg)).1
  have hreadable : DocReadable J (dumpDoc O e apps) := by
    rw [docReadable_dump_iff hg]
    intro k entry hpe
    rw [itemReadable_dump_iff J k (valid_of_mem_nameRules (h.commitRule k entry hpe.1))
      (by rw [(h.plain k entry hpe.1).count]; decide)]
    exact (h.closeCount k entry hpe.1).2.1
  rcases readDocument_outcome J "" hshape with ⟨-, d, hd, -⟩ | ⟨hbad, -⟩
  · exact ⟨d, hd, readDump_of_ok hg hshape hd⟩
  · exact absurd hreadable hbad

section
variable {J : Jsoncons} {O : DumpOrders} {d : Document} (hd : ReadDump J O e d)

include hd

/-- The items that name a key are the item of its entry. -/
theorem item_eq {item : StreamItem} (hitem : item ∈ d.items) :
    ∃ p entry, e.find p = some entry ∧ item = itemOf p entry := by
  obtain ⟨p, entry, hpe, hread⟩ := hd.items item hitem
  rw [h.readStreamItem_eq J hpe.1] at hread
  exact ⟨p, entry, hpe.1, (Except.ok.inj hread).symm⟩

/-- Every path of the document is a key. -/
theorem isSome_of_mem_paths {p : String} (hp : p ∈ d.paths) : (e.find p).isSome := by
  rcases hd.named hp with hp | ⟨q, entry, hq, hp⟩
  · exact hp
  · exact (h.fileDeps q entry hq.1).2 p hp

theorem concrete_paths : ∀ p ∈ d.paths, Concrete p := fun p hp =>
  (h.concrete p (h.isSome_of_mem_paths hd hp)).2

/-- The acts of the document mark no directory. -/
theorem directories_notMem : Act.directories ∉ d.acts false := by
  intro hact
  obtain ⟨a, ha, item, hi, hn⟩ := exists_item_of_directories hact
  obtain ⟨q, entry, hq, rfl⟩ := h.item_eq hd (List.mem_flatMap.mpr ⟨a, ha, hi⟩)
  exact hn (h.itemOf_eq hq).2.1

theorem plain_of_mem_acts {p : String} {w : Write} (hp : p ≠ "")
    (hact : Act.set p w ∈ d.acts false) : w.Plain := by
  rcases (set_mem_acts_iff hp).mp hact with ⟨a, ha, ⟨σ, -, rfl⟩ | ⟨item, hi, -, hw⟩⟩ | ⟨-, rfl⟩ |
    ⟨-, rfl⟩ | ⟨-, rfl⟩ | ⟨-, rfl⟩
  · trivial
  · obtain ⟨q, entry, hq, rfl⟩ := h.item_eq hd (List.mem_flatMap.mpr ⟨a, ha, hi⟩)
    obtain ⟨hfile, hn, -⟩ := h.itemOf_eq hq
    rcases mem_writes_iff.mp hw with rfl | rfl | rfl | rfl | ⟨hne, -⟩ | ⟨-, rfl⟩
    · exact hfile
    · trivial
    · trivial
    · trivial
    · exact absurd hn hne
    · trivial
  all_goals trivial

variable {P : Platform} {n : String} {base : Engine} (hf : Fresh n base)

include hf

/-- **The keys of the parsed engine** are those of the dumped one. -/
theorem isSome_find_iff (k : String) :
    ((run P (d.acts false) base).find k).isSome ↔ (e.find k).isSome := by
  rw [isSome_find_run, hf.find]
  constructor
  · rintro (hk | ⟨⟨act, hact, hpath⟩, -⟩)
    · exact absurd hk (by simp)
    · exact h.isSome_of_mem_paths hd (path_mem_paths hact hpath)
  · intro hk
    have hne := (h.concrete k hk).1
    obtain ⟨entry, hentry⟩ := Option.isSome_iff_exists.mp hk
    obtain ⟨c, hcm⟩ := List.exists_mem_of_ne_nil _ (h.produced k entry hentry)
    have happs : c ∈ e.apps .output k := by
      rw [Engine.apps_of_find hentry]
      exact hcm
    obtain ⟨a, ha, rfl, hs⟩ := (hd.streams .output c k).mpr happs
    refine Or.inr ⟨⟨.set k (.app .output (eraseSpaces a.name)), ?_, rfl⟩, hne⟩
    exact (setApp_mem_acts_iff hne).mpr ⟨a, ha, rfl, hs⟩

section

variable {k : String} {entry x : CapioCLEntry} (hk : e.find k = some entry)
  (hx : (run P (d.acts false) base).find k = some x)

include hx

theorem plain_of_find : x.Plain := by
  have hstore : PlainStore (fun p => (e.find p).isSome) base :=
    ⟨fun q hq => by rw [hf.find] at hq; exact absurd hq (by simp),
      fun q y hy => by rw [hf.find] at hy; exact absurd hy (by simp)⟩
  refine (hstore.run h.parents (fun act hact p hp => ?_) (h.directories_notMem hd)
    fun p w hact hp => h.plain_of_mem_acts hd hp hact).plain k x hx
  exact h.isSome_of_mem_paths hd (path_mem_paths hact hp)

include hk

/-- A rule is that of the item of the entry, which is every item that names the key. -/
theorem rule_agrees {α : Type} {get : CapioCLEntry → α} {val : Write → Option α}
    {ruleOf : StreamItem → α} (hr : RuleField get val ruleOf) :
    get x = ruleOf (itemOf k entry) := by
  refine hr.of_find hf (h.concrete_paths hd) hx (fun item hitem hki => ?_) fun hnone => ?_
  · obtain ⟨q, entry', hq, rfl⟩ := h.item_eq hd hitem
    obtain rfl := List.mem_singleton.mp hki
    rw [Option.some.inj (hq.symm.trans hk)]
  · obtain ⟨item, hitem, hread⟩ := hd.produced k entry ⟨hk, h.produced k entry hk⟩
    rw [h.readStreamItem_eq J hk] at hread
    obtain rfl := Except.ok.inj hread
    exact absurd (List.mem_singleton_self k) (hnone _ hitem)

/-- The applications are the same, each once. -/
theorem apps_agree (σ : Stream) :
    (x.apps σ).Nodup ∧ ∀ c, c ∈ x.apps σ ↔ c ∈ entry.apps σ := by
  have hspaces : ∀ {m : String}, m ∈ e.apps σ k → eraseSpaces m = m := by
    intro m hm
    rw [Engine.apps_of_find hk] at hm
    exact eraseSpaces_of_noSpaces (h.names k entry hk σ m hm)
  constructor
  · have hnodup := (NodupApps.of_empty hf.find).run (P := P) (d.acts false) σ k
    rwa [Engine.apps_of_find hx] at hnodup
  · intro c
    rw [mem_apps_iff hf (h.concrete_paths hd) hx, ← Engine.apps_of_find hk]
    constructor
    · rintro ⟨a, ha, rfl, hs⟩
      have hm := (hd.streams σ a.name k).mp ⟨a, ha, rfl, hs⟩
      rwa [hspaces hm]
    · intro hm
      obtain ⟨a, ha, rfl, hs⟩ := (hd.streams σ c k).mpr hm
      exact ⟨a, ha, hspaces hm, hs⟩

/-- **The entry of a key in the parsed engine**, field by field. -/
theorem entry_agrees :
    x.Plain ∧ x.commitRule = entry.commitRule ∧ x.fireRule = entry.fireRule ∧
      x.commitOnCloseCount = entry.commitOnCloseCount ∧
      x.fileDependencies = entry.fileDependencies ∧ x.permanent = entry.permanent ∧
      x.excluded = entry.excluded ∧ x.storeInMemory = entry.storeInMemory ∧
      ∀ σ, (x.apps σ).Nodup ∧ ∀ c, c ∈ x.apps σ ↔ c ∈ entry.apps σ := by
  have hc := h.concrete_paths hd
  obtain ⟨-, -, hrule, hclose, hdeps⟩ := h.itemOf_eq hk
  have hflag : ∀ {c : CapioCLEntry → Bool}, k ∈ pathsWhere c O e ↔ c entry = true := by
    intro c
    rw [mem_pathsWhere, hk]
    simp
  refine ⟨h.plain_of_find hd hf hx, (h.rule_agrees hd hf hk hx ruleField_commitRule).trans hrule,
    h.rule_agrees hd hf hk hx ruleField_fireRule,
    (h.rule_agrees hd hf hk hx ruleField_closeCount).trans hclose,
    (h.rule_agrees hd hf hk hx ruleField_fileDeps).trans hdeps, ?_, ?_, ?_,
    h.apps_agree hd hf hk hx⟩
  · rw [Bool.eq_iff_iff, permanent_iff hf hc hx, hd.permanent, hflag]
  · rw [Bool.eq_iff_iff, excluded_iff hf hc hx, hd.exclude, hflag]
  · rw [Bool.eq_iff_iff, storeInMemory_iff hf hc hx, hd.memory, hd.fs, hflag, hflag]
    cases entry.storeInMemory <;> simp

end

/-- The parsed entry and the dumped one are equal, either way round. -/
theorem entry_equals {k : String} {entry x : CapioCLEntry} (hk : e.find k = some entry)
    (hx : (run P (d.acts false) base).find k = some x) :
    x.equals entry = true ∧ entry.equals x = true := by
  obtain ⟨⟨hf1, hf2, hf3⟩, hrule, hfire, hclose, hdeps, hperm, hexcl, hstore, happs⟩ :=
    h.entry_agrees hd hf hk hx
  obtain ⟨hk1, hk2, hk3⟩ := h.plain k entry hk
  obtain ⟨hnodup, -⟩ := h.nodup k entry hk
  have hsame : ∀ σ, sameElements (x.apps σ) (entry.apps σ) = true ∧
      sameElements (entry.apps σ) (x.apps σ) = true := fun σ =>
    ⟨sameElements_of_nodup (happs σ).1 (hnodup σ) (happs σ).2,
      sameElements_of_nodup (hnodup σ) (happs σ).1 fun c => ((happs σ).2 c).symm⟩
  have hfile : x.isFile = entry.isFile := hf1.trans hk1.symm
  have hcount : x.directoryChildrenCount = entry.directoryChildrenCount := hf2.trans hk2.symm
  have henabled : x.enableDirectoryCountUpdate = entry.enableDirectoryCountUpdate :=
    hf3.trans hk3.symm
  simp only [CapioCLEntry.equals_iff]
  refine ⟨⟨hrule, hfire, hperm, hexcl, hfile, hclose, hcount, hstore, henabled,
    (hsame .output).1, (hsame .input).1, ?_⟩, hrule.symm, hfire.symm, hperm.symm, hexcl.symm,
    hfile.symm, hclose.symm, hcount.symm, hstore.symm, henabled.symm, (hsame .output).2,
    (hsame .input).2, ?_⟩
  · rw [hdeps]
    exact samePaths_refl _
  · rw [hdeps]
    exact samePaths_refl _

end

end PlainFiles

/-- **Plain files survive the round trip**: the dump is parsed into an equal engine with the same
workflow name. -/
theorem plainFiles_roundTrip (J : Jsoncons) {P : Platform} (O : DumpOrders) {e : Engine}
    (h : PlainFiles e) {filename version : String} (files : Files) (hne : filename ≠ "")
    (hw : P.writable filename = true) (hv : version = versionV1 ∨ version = versionV1_1) :
    ∃ files' e', dump P O e filename version files = .ok files' ∧
      parse J P files' filename "" false = .ok e' ∧ e'.workflowName = e.workflowName ∧
      e'.equals e = true ∧ e.equals e' = true := by
  obtain ⟨apps, doc, files', -, hg, hdoc, hdump, -, hparse⟩ := exists_dump J O e files hne hw hv
  obtain ⟨d, hd, hread⟩ := h.exists_read J hg
  obtain ⟨n, base, hn, hf, hrun⟩ := exists_parseDoc_ok (hdoc.accepted.mpr (h.accepted hg))
    hdoc.configuration ((hdoc.read "").trans hd)
  refine ⟨files', run P (d.acts false) base, hdump, (hparse "" false).trans (hrun false), ?_, ?_⟩
  · have hwf : (run P (d.acts false) base).workflowName = base.workflowName :=
      congrArg (fun header => header.2.2) (header_run P _ base)
    rw [hdoc.name] at hn
    rw [hwf, hf.name, ← Json.str.inj (Option.some.inj hn)]
  · have hentry : ∀ k, Option.Rel (fun x y : CapioCLEntry => x.equals y = true ∧ y.equals x = true)
        ((run P (d.acts false) base).find k) (e.find k) := by
      intro k
      have hkeys := h.isSome_find_iff (P := P) hread hf k
      cases hx : (run P (d.acts false) base).find k with
      | none =>
        rw [hx] at hkeys
        cases hk : e.find k with
        | none => exact Option.Rel.none
        | some entry =>
          rw [hk] at hkeys
          exact absurd hkeys (by simp)
      | some x =>
        rw [hx] at hkeys
        obtain ⟨entry, hk⟩ := Option.isSome_iff_exists.mp (hkeys.mp rfl)
        rw [hk]
        exact Option.Rel.some (h.entry_equals hread hf hk hx)
    simp only [Engine.equals_iff]
    refine ⟨fun k => ?_, fun k => ?_⟩
    · have hrel := hentry k
      generalize (run P (d.acts false) base).find k = x, e.find k = y at hrel ⊢
      cases hrel with
      | none => exact Option.Rel.none
      | some hxy => exact Option.Rel.some hxy.1
    · have hrel := hentry k
      generalize (run P (d.acts false) base).find k = x, e.find k = y at hrel ⊢
      cases hrel with
      | none => exact Option.Rel.none
      | some hxy => exact Option.Rel.some hxy.2

/-- A file closed twice, read by another application. -/
def sharedFile : CapioCLEntry :=
  { producers := ["writer"], consumers := ["reader"], commitRule := commitRules.onClose
    commitOnCloseCount := 2 }

/-- A file committed with the first one. -/
def dependentFile : CapioCLEntry :=
  { producers := ["writer", "reader"], commitRule := commitRules.onFile, fileDependencies := ["a"]
    fireRule := fireRules.noUpdate, permanent := true, storeInMemory := true }

def twoFiles : UnorderedMap String CapioCLEntry :=
  AList.insert "b" dependentFile (AList.insert "a" sharedFile ∅)

def twoFilesEngine : Engine := { workflowName := "wf", capioClEntries := twoFiles }

theorem find_twoFilesEngine {k : String} {entry : CapioCLEntry}
    (h : twoFilesEngine.find k = some entry) :
    (k = "a" ∧ entry = sharedFile) ∨ (k = "b" ∧ entry = dependentFile) := by
  rcases UnorderedMap.of_lookup_insert h with h | h
  · exact Or.inr h
  · rcases UnorderedMap.of_lookup_insert h with h | h
    · exact Or.inl h
    · cases h

theorem plainFiles_twoFilesEngine : PlainFiles twoFilesEngine := by
  have hkey : ∀ {k : String}, (twoFilesEngine.find k).isSome → k = "a" ∨ k = "b" := by
    intro k hk
    obtain ⟨entry, hentry⟩ := Option.isSome_iff_exists.mp hk
    exact (find_twoFilesEngine hentry).imp And.left And.left
  have hentry : ∀ {S : CapioCLEntry → Prop}, S sharedFile → S dependentFile →
      ∀ k entry, twoFilesEngine.find k = some entry → S entry := by
    intro S hs hd k entry hk
    rcases find_twoFilesEngine hk with ⟨-, rfl⟩ | ⟨-, rfl⟩
    · exact hs
    · exact hd
  constructor
  · intro k hk
    rcases hkey hk with rfl | rfl <;> decide +kernel
  · intro p k hp hk
    rcases hkey hp with rfl | rfl <;> rcases hkey hk with rfl | rfl <;> decide +kernel
  · exact hentry ⟨rfl, rfl, rfl⟩ ⟨rfl, rfl, rfl⟩
  · exact hentry (by decide) (by decide)
  · refine hentry ⟨fun σ => ?_, by decide⟩ ⟨fun σ => ?_, by decide⟩ <;> cases σ <;> decide
  · refine hentry (fun σ => ?_) fun σ => ?_ <;> cases σ <;> decide +kernel
  · exact hentry (by decide) (by decide)
  · exact hentry (by decide) (by decide)
  · exact hentry (by decide) (by decide)
  · have ha : (twoFilesEngine.find "a").isSome := by decide +kernel
    refine hentry ⟨by decide, ?_⟩ ⟨by decide, ?_⟩
    · exact fun dep hdep => absurd hdep List.not_mem_nil
    · intro dep hdep
      rwa [List.mem_singleton.mp hdep]

theorem twoFilesEngine_roundTrip : ∃ files' e',
    dump posix ⟨IterationOrder.id, IterationOrder.id, IterationOrder.id⟩ twoFilesEngine
      "wf.json" versionV1_1 (fun _ => none) = .ok files' ∧
    parse jsoncons posix files' "wf.json" "" false = .ok e' ∧ e'.workflowName = "wf" ∧
    e'.equals twoFilesEngine = true ∧ twoFilesEngine.equals e' = true :=
  plainFiles_roundTrip jsoncons ⟨IterationOrder.id, IterationOrder.id, IterationOrder.id⟩
    plainFiles_twoFilesEngine (fun _ => none) (by decide) (by decide) (Or.inr rfl)

end CapioCl
