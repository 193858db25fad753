import CapioCl.Creation
import CapioCl.EqualityLaws
import CapioCl.TotalStore

/-!
# Equal engines behave alike

`Engine::operator==` compares entries, up to the order of their lists. It does not look at the order
in which a map lists its keys, which decides between two patterns of one length when an entry is
created. Where no two such patterns match one path, engines that are equal stay equal under any
calls and answer alike, whatever the orders of their maps.

* `Engine.Alike`: the relation that all calls keep (`Engine.Alike.call`).
* `equals_indistinguishable`: no sequence of calls tells equal engines apart.
* `concrete_steps`: for concrete paths and lists without repetitions nothing but `operator==` is asked.
-/

namespace CapioCl

open CapioCl.Lib CapioCl.Lib.Comparison

/-! ## Lists -/

theorem perm_appendNew {a b : List String} (h : a.Perm b) (x : String) :
    (appendNew a x).Perm (appendNew b x) := by
  unfold appendNew
  by_cases hx : x ∈ a
  · rw [if_pos hx, if_pos (h.mem_iff.mp hx)]
    exact h
  · rw [if_neg hx, if_neg (mt h.mem_iff.mpr hx)]
    exact h.append_right [x]

theorem perm_appendNewPath {a b : List String} (h : (a.map pathKey).Perm (b.map pathKey))
    (x : String) : ((appendNewPath a x).map pathKey).Perm ((appendNewPath b x).map pathKey) := by
  have hany : ∀ l : List String, l.any (samePath x) = true ↔ pathKey x ∈ l.map pathKey := by
    intro l
    rw [List.any_eq_true, List.mem_map]
    exact exists_congr fun y => and_congr_right fun _ => samePath_iff_pathKey.trans eq_comm
  unfold appendNewPath
  by_cases hx : a.any (samePath x) = true
  · rw [if_pos hx, if_pos ((hany b).mpr (h.mem_iff.mp ((hany a).mp hx)))]
    exact h
  · rw [if_neg hx, if_neg fun hb => hx ((hany a).mpr (h.mem_iff.mpr ((hany b).mp hb)))]
    rw [List.map_append, List.map_append]
    exact h.append_right _

/-! ## Entries -/

namespace CapioCLEntry.SameUpToOrder

variable {x y : CapioCLEntry}

theorem refl (x : CapioCLEntry) : x.SameUpToOrder x :=
  ⟨⟨rfl, rfl, rfl, rfl, rfl, rfl, rfl, rfl, rfl⟩, .refl _, .refl _, .refl _⟩

theorem counted (h : x.SameUpToOrder y) : x.counted.SameUpToOrder y.counted := by
  obtain ⟨⟨h1, h2, h3, h4, h5, h6, h7, h8, h9⟩, hp, hc, hd⟩ := h
  unfold CapioCLEntry.counted
  rw [h7, h9]
  split
  · exact ⟨⟨h1, h2, h3, h4, rfl, h6, rfl, h8, rfl⟩, hp, hc, hd⟩
  · exact ⟨⟨h1, h2, h3, h4, h5, h6, h7, h8, h9⟩, hp, hc, hd⟩

theorem store (h : x.SameUpToOrder y) {b b' : Bool} (hb : b = b') :
    ({ x with storeInMemory := b } : CapioCLEntry).SameUpToOrder { y with storeInMemory := b' } := by
  obtain ⟨⟨h1, h2, h3, h4, h5, h6, h7, -, h9⟩, hp, hc, hd⟩ := h
  exact ⟨⟨h1, h2, h3, h4, h5, h6, h7, hb, h9⟩, hp, hc, hd⟩

theorem mark (h : x.SameUpToOrder y) (b : Bool) :
    ({ x with isFile := b } : CapioCLEntry).SameUpToOrder { y with isFile := b } := by
  obtain ⟨⟨h1, h2, h3, h4, -, h6, h7, h8, h9⟩, hp, hc, hd⟩ := h
  exact ⟨⟨h1, h2, h3, h4, rfl, h6, h7, h8, h9⟩, hp, hc, hd⟩

theorem add (h : x.SameUpToOrder y) (z : CapioCLEntry) : (x + z).SameUpToOrder (y + z) := by
  obtain ⟨⟨-, -, h3, h4, h5, h6, h7, h8, h9⟩, hp, hc, hd⟩ := h
  refine ⟨⟨rfl, rfl, congrArg (· || z.permanent) h3, congrArg (· || z.excluded) h4,
    congrArg (· && z.isFile) h5, congrArg (· + z.commitOnCloseCount) h6,
    congrArg (· + z.directoryChildrenCount) h7, congrArg (· || z.storeInMemory) h8,
    congrArg (· && z.enableDirectoryCountUpdate) h9⟩, hp.append_right _, hc.append_right _, ?_⟩
  change ((x.fileDependencies ++ z.fileDependencies).map pathKey).Perm
    ((y.fileDependencies ++ z.fileDependencies).map pathKey)
  rw [List.map_append, List.map_append]
  exact hd.append_right _

theorem depend (h : x.SameUpToOrder y) {rule rule' : String} (hrule : rule = rule')
    (fileDependency : String) :
    ({ x with
        commitRule := rule
        fileDependencies := appendNewPath x.fileDependencies fileDependency } :
      CapioCLEntry).SameUpToOrder
      { y with
        commitRule := rule'
        fileDependencies := appendNewPath y.fileDependencies fileDependency } := by
  obtain ⟨⟨-, h2, h3, h4, h5, h6, h7, h8, h9⟩, hp, hc, hd⟩ := h
  exact ⟨⟨hrule, h2, h3, h4, h5, h6, h7, h8, h9⟩, hp, hc, perm_appendNewPath hd fileDependency⟩

theorem write (h : x.SameUpToOrder y) (w : Write) : (w.apply x).SameUpToOrder (w.apply y) := by
  obtain ⟨⟨h1, h2, h3, h4, h5, h6, h7, h8, h9⟩, hp, hc, hd⟩ := h
  cases w with
  | app σ name =>
    cases σ with
    | input => exact ⟨⟨h1, h2, h3, h4, h5, h6, h7, h8, h9⟩, hp, perm_appendNew hc name, hd⟩
    | output => exact ⟨⟨h1, h2, h3, h4, h5, h6, h7, h8, h9⟩, perm_appendNew hp name, hc, hd⟩
  | commitRule rule => exact ⟨⟨rfl, h2, h3, h4, h5, h6, h7, h8, h9⟩, hp, hc, hd⟩
  | fireRule rule => exact ⟨⟨h1, rfl, h3, h4, h5, h6, h7, h8, h9⟩, hp, hc, hd⟩
  | permanent value => exact ⟨⟨h1, h2, rfl, h4, h5, h6, h7, h8, h9⟩, hp, hc, hd⟩
  | excluded value => exact ⟨⟨h1, h2, h3, rfl, h5, h6, h7, h8, h9⟩, hp, hc, hd⟩
  | isFile value => exact ⟨⟨h1, h2, h3, h4, rfl, h6, h7, h8, h9⟩, hp, hc, hd⟩
  | closeCount num => exact ⟨⟨h1, h2, h3, h4, h5, rfl, h7, h8, h9⟩, hp, hc, hd⟩
  | storeInMemory value => exact ⟨⟨h1, h2, h3, h4, h5, h6, h7, rfl, h9⟩, hp, hc, hd⟩
  | fileCount num => exact ⟨⟨h1, h2, h3, h4, h5, h6, rfl, h8, rfl⟩, hp, hc, hd⟩
  | fileDeps dependencies => exact ⟨⟨h1, h2, h3, h4, h5, h6, h7, h8, h9⟩, hp, hc, .refl _⟩

theorem apps (h : x.SameUpToOrder y) (σ : Stream) : (x.apps σ).Perm (y.apps σ) := by
  cases σ with
  | input => exact h.consumers
  | output => exact h.producers

end CapioCLEntry.SameUpToOrder

/-! ## Engines -/

/-- No two of the paths have one length and match, as patterns, another of them. -/
def Untied (fnmatch : String → String → Bool) (paths : String → Prop) : Prop :=
  ∀ g g' path, paths g → paths g' → paths path → g.utf8ByteSize = g'.utf8ByteSize →
    g ≠ path → g' ≠ path → fnmatch g path = true → fnmatch g' path = true → g = g'

/-- Paths without glob characters. -/
theorem untied_concrete (P : Platform) : Untied P.fnmatch Concrete := by
  intro g g' path hg hg' _ _ _ _ hm hm'
  exact ((P.fnmatch_literal hg).mp hm).trans ((P.fnmatch_literal hg').mp hm').symm

/-- The same entries up to the order of their lists, under some of the paths, the same flag and the
same name. -/
structure Engine.Alike (paths : String → Prop) (e e' : Engine) : Prop where
  entries : e.SameUpToOrder e'
  within : ∀ k, (e.find k).isSome → paths k
  storeAllInMemory : e.storeAllInMemory = e'.storeAllInMemory
  workflowName : e.workflowName = e'.workflowName

namespace Engine.Alike

variable {fnmatch : String → String → Bool} {paths : String → Prop} {P P' : Platform}
  {e e' : Engine} {path : String}

theorem isSome (h : e.Alike paths e') (k : String) : (e.find k).isSome = (e'.find k).isSome :=
  optionRel_isSome (h.entries k)

theorem equals (h : e.Alike paths e') : e.equals e' = true ∧ e'.equals e = true :=
  ⟨equals_of_sameUpToOrder h.entries, equals_of_sameUpToOrder h.entries.symm⟩

/-! ### Creation -/

section Creation

variable (h : e.Alike paths e') (hu : Untied fnmatch paths) (hP : P.fnmatch = fnmatch)
  (hP' : P'.fnmatch = fnmatch)
include h hu hP hP'

/-- Both engines copy the entry of one key to a new one. -/
theorem source (hp : path ≠ "") (hnew : ¬ (e.find path).isSome) (hpath : paths path) :
    e.source P path = e'.source P' path := by
  have hnone : e.source P path = none ↔ e'.source P' path = none := by
    rw [source_eq_none_iff hp, source_eq_none_iff hp, hP, hP']
    exact forall_congr' fun k => by rw [h.isSome k]
  cases hg : e.source P path with
  | none => exact (hnone.mp hg).symm
  | some g =>
    cases hg' : e'.source P' path with
    | none =>
      rw [hnone.mpr hg'] at hg
      cases hg
    | some g' =>
      obtain ⟨hkey, hmatch, hlongest⟩ := source_longest hg
      obtain ⟨hkey', hmatch', hlongest'⟩ := source_longest hg'
      have hin : (e.find g').isSome := by rwa [h.isSome g']
      have hin' : (e'.find g).isSome := by rwa [← h.isSome g]
      rw [hP] at hmatch hlongest
      rw [hP'] at hmatch' hlongest'
      have hsize : g.utf8ByteSize = g'.utf8ByteSize :=
        Nat.le_antisymm (hlongest' g hin' hmatch) (hlongest g' hin hmatch')
      exact congrArg some (hu g g' path (h.within g hkey) (h.within g' hin) hpath hsize
        (fun heq => hnew (heq ▸ hkey)) (fun heq => hnew (heq ▸ hin)) hmatch hmatch')

theorem newEntry (hp : path ≠ "") (hnew : ¬ (e.find path).isSome) (hpath : paths path) :
    (e.newEntry P path).SameUpToOrder (e'.newEntry P' path) := by
  have hinherited : (e.inherited P path).SameUpToOrder (e'.inherited P' path) := by
    unfold inherited
    rw [h.source hu hP hP' hp hnew hpath]
    cases e'.source P' path with
    | none => exact .refl {}
    | some g => exact optionRel_getD (.refl {}) (h.entries g)
  rw [newEntry_eq, newEntry_eq, h.storeAllInMemory]
  exact hinherited.store (by rw [hinherited.scalars.storeInMemory])

theorem newFile (hpath : paths path) : (e._newFile P path).Alike paths (e'._newFile P' path) := by
  obtain ⟨hheader, hflag⟩ := frame_newFile P path e
  obtain ⟨hheader', hflag'⟩ := frame_newFile P' path e'
  refine ⟨fun k => ?_, fun k hk => ?_, hflag.trans (h.storeAllInMemory.trans hflag'.symm),
    (congrArg (·.2.2) hheader).trans (h.workflowName.trans (congrArg (·.2.2) hheader').symm)⟩
  · rw [find_newFile, find_newFile, ← h.isSome path]
    by_cases hold : path = "" ∨ (e.find path).isSome
    · rw [if_pos hold, if_pos hold]
      exact h.entries k
    · rw [if_neg hold, if_neg hold]
      dsimp only
      have hentry : Option.Rel CapioCLEntry.SameUpToOrder
          (if k = path then some (e.newEntry P path) else e.find k)
          (if k = path then some (e'.newEntry P' path) else e'.find k) := by
        split
        · exact .some (h.newEntry hu hP hP' (not_or.mp hold).1 (not_or.mp hold).2 hpath)
        · exact h.entries k
      have hcounted : ∀ x y : CapioCLEntry, x.SameUpToOrder y →
          x.counted.SameUpToOrder y.counted := fun _ _ hxy => hxy.counted
      split
      · exact optionRel_map hcounted hentry
      · exact hentry
  · rcases (find_newFile_isSome_iff P path e k).mp hk with hk | ⟨rfl, -⟩
    · exact h.within k hk
    · exact hpath

end Creation

/-! ### Writes -/

theorem modify (h : e.Alike paths e') (path : String) {f g : CapioCLEntry → CapioCLEntry}
    (hfg : ∀ x y, x.SameUpToOrder y → (f x).SameUpToOrder (g y)) :
    (e.modify path f).Alike paths (e'.modify path g) := by
  refine ⟨fun k => ?_, fun k hk => h.within k (by rwa [isSome_find_modify] at hk),
    h.storeAllInMemory, h.workflowName⟩
  rw [find_modify, find_modify]
  split
  · exact optionRel_map hfg (h.entries k)
  · exact h.entries k

/-- What an engine becomes when every entry changes by itself. -/
theorem map (h : e.Alike paths e') {d d' : Engine} {f : String → CapioCLEntry → CapioCLEntry}
    (hfind : ∀ k, d.find k = (e.find k).map (f k)) (hfind' : ∀ k, d'.find k = (e'.find k).map (f k))
    (hf : ∀ k x y, x.SameUpToOrder y → (f k x).SameUpToOrder (f k y))
    (hflag : d.storeAllInMemory = d'.storeAllInMemory) (hname : d.workflowName = d'.workflowName) :
    d.Alike paths d' := by
  refine ⟨fun k => ?_, fun k hk => ?_, hflag, hname⟩
  · rw [hfind, hfind']
    exact optionRel_map (hf k) (h.entries k)
  · rw [hfind, Option.isSome_map] at hk
    exact h.within k hk

theorem addEntry (h : e.Alike paths e') (hpath : paths path) (entry : CapioCLEntry) :
    (e.addEntry path entry).Alike paths (e'.addEntry path entry) := by
  obtain ⟨hheader, hflag⟩ := frame_addEntry path entry e
  obtain ⟨hheader', hflag'⟩ := frame_addEntry path entry e'
  refine ⟨fun k => ?_, fun k hk => ?_, hflag.trans (h.storeAllInMemory.trans hflag'.symm),
    (congrArg (·.2.2) hheader).trans (h.workflowName.trans (congrArg (·.2.2) hheader').symm)⟩
  · rw [find_addEntry, find_addEntry]
    split
    · exact .some ((optionRel_getD (.refl {}) (h.entries path)).add entry)
    · exact h.entries k
  · rw [find_addEntry] at hk
    split at hk
    · rename_i hkp
      exact hkp ▸ hpath
    · exact h.within k hk

theorem remove (h : e.Alike paths e') (path : String) :
    (e.remove path).Alike paths (e'.remove path) := by
  have hframe : ∀ e : Engine, (e.remove path).storeAllInMemory = e.storeAllInMemory ∧
      (e.remove path).workflowName = e.workflowName := by
    intro e
    unfold Engine.remove
    split <;> exact ⟨rfl, rfl⟩
  refine ⟨fun k => ?_, fun k hk => ?_,
    (hframe e).1.trans (h.storeAllInMemory.trans (hframe e').1.symm),
    (hframe e).2.trans (h.workflowName.trans (hframe e').2.symm)⟩
  · rw [find_remove, find_remove]
    split
    · exact .none
    · exact h.entries k
  · rw [find_remove] at hk
    split at hk
    · cases hk
    · exact h.within k hk

/-! ### Acts -/

section Acts

variable (h : e.Alike paths e') (hu : Untied fnmatch paths) (hP : P.fnmatch = fnmatch)
  (hP' : P'.fnmatch = fnmatch)
include h hu hP hP'

theorem perform (act : Act) (hact : ∀ p, act.path? = some p → paths p) :
    (act.perform P e).Alike paths (act.perform P' e') := by
  cases act with
  | create path => exact h.newFile hu hP hP' (hact path rfl)
  | set path w =>
    change (e.setter P path w.apply).Alike paths (e'.setter P' path w.apply)
    by_cases hp : path = ""
    · rw [hp, setter_empty, setter_empty]
      exact h
    · rw [setter_eq P hp, setter_eq P' hp]
      exact (h.newFile hu hP hP' (hact path rfl)).modify path fun x y hxy => hxy.write w
  | directories =>
    obtain ⟨hheader, hflag, -⟩ := frame_setAllDirectories P e
    obtain ⟨hheader', hflag', -⟩ := frame_setAllDirectories P' e'
    refine h.map (find_setAllDirectories P e) (find_setAllDirectories P' e') (fun k x y hxy => ?_)
      (hflag.trans (h.storeAllInMemory.trans hflag'.symm))
      ((congrArg (·.2.2) hheader).trans (h.workflowName.trans (congrArg (·.2.2) hheader').symm))
    split
    · exact hxy
    · exact hxy.mark false
  | storeAll =>
    obtain ⟨hheader, hflag, -⟩ := frame_setAllStoreInMemory P e
    obtain ⟨hheader', hflag', -⟩ := frame_setAllStoreInMemory P' e'
    refine h.map (find_setAllStoreInMemory P e) (find_setAllStoreInMemory P' e')
      (fun k x y hxy => ?_) (hflag.trans hflag'.symm)
      ((congrArg (·.2.2) hheader).trans (h.workflowName.trans (congrArg (·.2.2) hheader').symm))
    split
    · exact hxy
    · exact hxy.store rfl

theorem run {acts : List Act} (hacts : ∀ act ∈ acts, ∀ p, act.path? = some p → paths p) :
    (CapioCl.run P acts e).Alike paths (CapioCl.run P' acts e') := by
  induction acts generalizing e e' with
  | nil => exact h
  | cons act acts ih =>
    rw [run_cons, run_cons]
    exact ih (h.perform hu hP hP' act (hacts act List.mem_cons_self)) fun a ha =>
      hacts a (List.mem_cons_of_mem act ha)

end Acts

end Engine.Alike

/-! ## Queries -/

/-- Answers that differ in the order of names at most. -/
inductive Answer.SameUpToOrder : Answer → Answer → Prop where
  | same (a : Answer) : SameUpToOrder a a
  | names {l l' : List String} : l.Perm l' → SameUpToOrder (.names l) (.names l')

theorem Answer.sameUpToOrder_of_eq {a b : Answer} (h : a = b) : a.SameUpToOrder b := h ▸ .same a

theorem Query.read_alike {q : Query} {whenEmpty : Answer} {read : CapioCLEntry → Answer}
    (hq : q.field = some (whenEmpty, read)) {x y : CapioCLEntry} (h : x.SameUpToOrder y) :
    (read x).SameUpToOrder (read y) := by
  obtain ⟨⟨h1, h2, h3, h4, h5, h6, h7, h8, h9⟩, hp, hc, hd⟩ := h
  cases q with
  | getProducers =>
    obtain ⟨-, rfl⟩ := Prod.mk.inj (Option.some.inj hq)
    exact .names hp
  | isFile => cases hq
  | isDirectory => cases hq
  | isProducer => cases hq
  | isConsumer => cases hq
  | _ =>
    obtain ⟨-, rfl⟩ := Prod.mk.inj (Option.some.inj hq)
    refine Answer.sameUpToOrder_of_eq ?_
    simp only [*]

namespace Engine.Alike

variable {fnmatch : String → String → Bool} {paths : String → Prop} {P P' : Platform}
  {e e' : Engine} {path : String}

theorem mem_apps (h : e.Alike paths e') (σ : Stream) (g name : String) :
    name ∈ e.apps σ g ↔ name ∈ e'.apps σ g := by
  have happs : ∀ x y : CapioCLEntry, x.SameUpToOrder y → (x.apps σ).Perm (y.apps σ) :=
    fun _ _ hxy => hxy.apps σ
  have hperm : (e.apps σ g).Perm (e'.apps σ g) :=
    optionRel_getD (.refl []) (optionRel_map happs (h.entries g))
  exact hperm.mem_iff

variable (h : e.Alike paths e') (hu : Untied fnmatch paths) (hP : P.fnmatch = fnmatch)
  (hP' : P'.fnmatch = fnmatch)
include h hu hP hP'

theorem query {α : Type} {A : α → α → Prop} (hpath : paths path) {whenEmpty : α}
    {read : CapioCLEntry → α} (hA : A whenEmpty whenEmpty)
    (hread : ∀ x y : CapioCLEntry, x.SameUpToOrder y → A (read x) (read y)) :
    A (Engine.query P path whenEmpty read e).1 (Engine.query P' path whenEmpty read e').1 ∧
      (Engine.query P path whenEmpty read e).2.Alike paths
        (Engine.query P' path whenEmpty read e').2 := by
  by_cases hp : path = ""
  · subst hp
    rw [query_empty, query_empty]
    exact ⟨hA, h⟩
  · have hnew := h.newFile hu hP hP' hpath
    rw [query_eq P hp, query_eq P' hp]
    exact ⟨optionRel_getD hA (optionRel_map hread (hnew.entries path)), hnew⟩

theorem isFile (hpath : paths path) :
    (e.isFile P path).1 = (e'.isFile P' path).1 ∧
      (e.isFile P path).2.Alike paths (e'.isFile P' path).2 := by
  have hrel := h.entries path
  unfold Engine.isFile
  by_cases hp : path = ""
  · rw [if_pos hp, if_pos hp]
    exact ⟨rfl, h⟩
  rw [if_neg hp, if_neg hp]
  generalize hx : e.find path = x, hy : e'.find path = y at hrel
  cases hrel with
  | some hxy => exact ⟨hxy.scalars.isFile, h⟩
  | none =>
    exact (h.newFile hu hP hP' hpath).query hu hP hP' hpath rfl fun _ _ hxy => hxy.scalars.permanent

theorem isApp (hpath : paths path) (σ : Stream) (appName : String) :
    (e.isApp σ P path appName).1 = (e'.isApp σ P' path appName).1 ∧
      (e.isApp σ P path appName).2.Alike paths (e'.isApp σ P' path appName).2 := by
  have hanswer : (e.isApp σ P path appName).1 = (e'.isApp σ P' path appName).1 := by
    rw [Bool.eq_iff_iff, isApp_iff, isApp_iff, hP, hP']
    exact or_congr_right (exists_congr fun g => and_congr_right fun _ => h.mem_apps σ g appName)
  refine ⟨hanswer, ?_⟩
  have hstate : ∀ (P : Platform) (e : Engine), (e.isApp σ P path appName).2 =
      if (e.isApp σ P path appName).1 then e else e._newFile P path := by
    intro P e
    unfold Engine.isApp
    split
    · rfl
    · split <;> rfl
  rw [hstate, hstate, hanswer]
  split
  · exact h
  · exact h.newFile hu hP hP' hpath

/-- **A query** answers alike, and leaves both engines alike. -/
theorem ask (hpath : paths path) (q : Query) :
    (CapioCl.ask P q path e).1.SameUpToOrder (CapioCl.ask P' q path e').1 ∧
      (CapioCl.ask P q path e).2.Alike paths (CapioCl.ask P' q path e').2 := by
  cases hfield : q.field with
  | some field =>
    rw [ask_field P hfield, ask_field P' hfield]
    exact h.query hu hP hP' hpath (.same _) fun x y hxy => Query.read_alike hfield hxy
  | none =>
    cases q with
    | isFile =>
      obtain ⟨h1, h2⟩ := h.isFile hu hP hP' hpath
      exact ⟨Answer.sameUpToOrder_of_eq (congrArg Answer.flag h1), h2⟩
    | isDirectory =>
      change (Answer.flag (e.isDirectory P path).1).SameUpToOrder
        (Answer.flag (e'.isDirectory P' path).1) ∧
        (e.isDirectory P path).2.Alike paths (e'.isDirectory P' path).2
      obtain ⟨h1, h2⟩ := h.isFile hu hP hP' hpath
      unfold Engine.isDirectory
      split
      · exact ⟨.same _, h⟩
      · exact ⟨Answer.sameUpToOrder_of_eq (congrArg (fun b => Answer.flag (!b)) h1), h2⟩
    | isProducer appName =>
      obtain ⟨h1, h2⟩ := h.isApp hu hP hP' hpath .output appName
      exact ⟨Answer.sameUpToOrder_of_eq (congrArg Answer.flag h1), h2⟩
    | isConsumer appName =>
      obtain ⟨h1, h2⟩ := h.isApp hu hP hP' hpath .input appName
      exact ⟨Answer.sameUpToOrder_of_eq (congrArg Answer.flag h1), h2⟩
    | _ => exact absurd hfield nofun

end Engine.Alike

/-! ## Calls -/

/-- The call names some of the paths only. -/
structure Op.Within (J : JsonText) (paths : String → Prop) (op : Op) : Prop where
  named : ∀ path ∈ op.paths, paths path
  received : ∀ datagram wfName path entry, op = .receive datagram →
    accepted J wfName datagram = some (path, entry) → paths path

section Calls

variable {fnmatch : String → String → Bool} {paths : String → Prop} {J : JsonText}
  {P P' : Platform} {e e' : Engine} {op : Op}

/-- **Calls keep engines alike.** -/
theorem Engine.Alike.call (h : e.Alike paths e') (hu : Untied fnmatch paths)
    (hP : P.fnmatch = fnmatch) (hP' : P'.fnmatch = fnmatch) (hop : op.Within J paths) :
    (op.perform J P e).2.Alike paths (op.perform J P' e').2 := by
  have hisRun : op.IsRun → (op.perform J P e).2.Alike paths (op.perform J P' e').2 := by
    intro hrun
    rw [state_perform J P hrun, state_perform J P' hrun]
    exact h.run hu hP hP' fun act hact p hp => hop.named p (mem_paths_of_mem_acts hact hp)
  cases op with
  | add path producers consumers commitRule fireRule permanent exclude dependencies =>
    change (e.add P path _ _ _ _ _ _ _).Alike paths (e'.add P' path _ _ _ _ _ _ _)
    unfold Engine.add
    split
    · exact h
    · refine (h.newFile hu hP hP' (hop.named path List.mem_cons_self)).modify path fun x y hxy => ?_
      obtain ⟨⟨-, -, -, -, h5, h6, h7, h8, h9⟩, -, -, -⟩ := hxy
      exact ⟨⟨rfl, rfl, rfl, rfl, h5, h6, h7, h8, h9⟩, .refl _, .refl _, .refl _⟩
  | addEntry path entry => exact h.addEntry (hop.named path List.mem_cons_self) entry
  | receive datagram =>
    cases hr : (Op.receive datagram).record J e with
    | none =>
      have hr' : (Op.receive datagram).record J e' = none := by
        change accepted J e'.workflowName datagram = none
        rw [← h.workflowName]
        exact hr
      rw [perform_receive_none J P hr, perform_receive_none J P' hr']
      exact h
    | some record =>
      have hr' : (Op.receive datagram).record J e' = some record := by
        change accepted J e'.workflowName datagram = some record
        rw [← h.workflowName]
        exact hr
      rw [perform_record J P hr, perform_record J P' hr']
      exact h.addEntry (hop.received datagram _ _ _ rfl hr) record.2
  | remove path => exact h.remove path
  | addFileDependency path fileDependency =>
    change (outcome e (e.addFileDependency P path fileDependency)).2.Alike paths
      (outcome e' (e'.addFileDependency P' path fileDependency)).2
    by_cases hp : path = ""
    · unfold Engine.addFileDependency
      rw [dif_pos hp, dif_pos hp]
      exact h
    · rw [Engine.addFileDependency_eq P hp, Engine.addFileDependency_eq P' hp, h.isSome path]
      refine (h.newFile hu hP hP' (hop.named path List.mem_cons_self)).modify path fun x y hxy =>
        hxy.depend ?_ fileDependency
      rw [hxy.scalars.commitRule]
  | setWorkflowName name => exact ⟨h.entries, h.within, h.storeAllInMemory, rfl⟩
  | ask q path => exact (h.ask hu hP hP' (hop.named path List.mem_cons_self) q).2
  | _ => exact hisRun trivial

/-- The same call, on two systems whose `fnmatch` agrees. -/
structure SameCall (J : JsonText) (fnmatch : String → String → Bool) (paths : String → Prop)
    (x y : Platform × Op) : Prop where
  op : x.2 = y.2
  left : x.1.fnmatch = fnmatch
  right : y.1.fnmatch = fnmatch
  within : x.2.Within J paths

/-- Nothing that is asked of one of the paths tells the engines apart. -/
structure SameAnswers (paths : String → Prop) (P P' : Platform) (e e' : Engine) : Prop where
  ask : ∀ q path, paths path → (ask P q path e).1.SameUpToOrder (ask P' q path e').1
  contains : ∀ path, e.contains P path = e'.contains P' path
  consumers : ∀ path, (e.getConsumers path).Perm (e'.getConsumers path)
  dependencies : ∀ path, ((e.getCommitOnFileDependencies path).map pathKey).Perm
    ((e'.getCommitOnFileDependencies path).map pathKey)

theorem Engine.Alike.sameAnswers (h : e.Alike paths e') (hu : Untied fnmatch paths)
    (hP : P.fnmatch = fnmatch) (hP' : P'.fnmatch = fnmatch) : SameAnswers paths P P' e e' := by
  refine ⟨fun q path hpath => (h.ask hu hP hP' hpath q).1, fun path => ?_, fun path => ?_,
    fun path => ?_⟩
  · unfold Engine.contains
    rw [Bool.eq_iff_iff, List.any_eq_true, List.any_eq_true, hP, hP']
    refine exists_congr fun k => and_congr_left fun _ => ?_
    rw [Engine.mem_getPaths, Engine.mem_getPaths, h.isSome k]
  · have hrel := h.entries path
    unfold Engine.getConsumers
    generalize e.find path = x, e'.find path = y at hrel
    cases hrel with
    | none => exact .refl _
    | some hxy => exact hxy.consumers
  · have hrel := h.entries path
    unfold Engine.getCommitOnFileDependencies
    generalize e.find path = x, e'.find path = y at hrel
    cases hrel with
    | none => exact .refl _
    | some hxy => exact hxy.fileDependencies

/-- **Runs keep engines alike.** -/
theorem Engine.Alike.steps (h : e.Alike paths e') (hu : Untied fnmatch paths)
    {steps steps' : List (Platform × Op)}
    (hsteps : List.Forall₂ (SameCall J fnmatch paths) steps steps') (n : Nat) :
    (stateBefore J e steps n).Alike paths (stateBefore J e' steps' n) := by
  refine Runs.related (performStep J) (R := Engine.Alike paths) h hsteps
    (fun e e' step step' h hstep => ?_) n
  obtain ⟨P, op⟩ := step
  obtain ⟨P', op'⟩ := step'
  obtain ⟨hop, hP, hP', hwithin⟩ := hstep
  obtain rfl : op = op' := hop
  exact h.call hu hP hP' hwithin

/-- Stores of concrete paths whose lists have no repetitions have no ties and nothing overcounted:
`operator==` is all they need. -/
theorem concrete_steps (J : JsonText) (h : AllConcrete e) (hsets : e.All CapioCLEntry.ListSets)
    (hequal : e.equals e' = true) (hflag : e.storeAllInMemory = e'.storeAllInMemory)
    (hname : e.workflowName = e'.workflowName) {steps steps' : List (Platform × Op)}
    (hsteps : List.Forall₂ (SameCall J P.fnmatch Concrete) steps steps') (n : Nat) :
    let d := stateBefore J e steps n
    let d' := stateBefore J e' steps' n
    (d.equals d' = true ∧ d'.equals d = true) ∧ SameAnswers Concrete P P d d' := by
  have halike : e.Alike Concrete e' :=
    ⟨Engine.sameUpToOrder_of_listSets hsets hequal, h, hflag, hname⟩
  have hafter := halike.steps (untied_concrete P) hsteps n
  exact ⟨hafter.equals, hafter.sameAnswers (untied_concrete P) rfl rfl⟩

/-- **Equal engines cannot be told apart.** Two engines that `operator==` calls equal, with no entry
overcounted, the same name and the same flag, stay equal under the same calls, whatever the orders
of their maps: the calls throw the same exceptions, and every query answers alike. The paths, which
may be patterns, are without ties. -/
theorem equals_indistinguishable (J : JsonText) (hu : Untied fnmatch paths)
    (hpaths : ∀ k, (e.find k).isSome → paths k) (hequal : e.equals e' = true)
    (hcounts : ¬ e.Overcounted e') (hflag : e.storeAllInMemory = e'.storeAllInMemory)
    (hname : e.workflowName = e'.workflowName) {steps steps' : List (Platform × Op)}
    (hsteps : List.Forall₂ (SameCall J fnmatch paths) steps steps') (n : Nat) :
    let d := stateBefore J e steps n
    let d' := stateBefore J e' steps' n
    (d.equals d' = true ∧ d'.equals d = true) ∧
    (∀ step step', steps[n]? = some step → steps'[n]? = some step' →
      (step.2.perform J step.1 d).1 = (step'.2.perform J step'.1 d').1) ∧
    ∀ P P', P.fnmatch = fnmatch → P'.fnmatch = fnmatch → SameAnswers paths P P' d d' := by
  intro d d'
  have hstart : e.Alike paths e' :=
    ⟨Engine.overcounted_iff.mp hcounts hequal, hpaths, hflag, hname⟩
  have halike : d.Alike paths d' := hstart.steps hu hsteps n
  refine ⟨halike.equals, fun step step' hstep hstep' => ?_, fun P P' hP hP' =>
    halike.sameAnswers hu hP hP'⟩
  obtain ⟨hn, hx⟩ := List.getElem?_eq_some_iff.mp hstep
  obtain ⟨hn', hx'⟩ := List.getElem?_eq_some_iff.mp hstep'
  have hsame : SameCall J fnmatch paths step step' := by
    have hget := hsteps.get hn hn'
    rwa [List.get_eq_getElem, List.get_eq_getElem, hx, hx'] at hget
  rw [hsame.op]
  exact exn_perform J step.1 step'.1 step'.2 halike.workflowName

end Calls

/-- Two patterns of different lengths, whose producers are listed in either order. -/
def patterns (producers : List String) : List String → Engine
  | [] => {}
  | path :: paths => { patterns producers paths with
      capioClEntries := (patterns producers paths).capioClEntries.insert path { producers } }

/-- `posix`, with the other iteration order. -/
def reversed : Platform := { posix with entryOrder := ⟨List.reverse, List.reverse_perm⟩ }

/-- The patterns are entered and listed in opposite orders; `ab` takes the producers of `a*` in both
stores. -/
theorem swappedPatterns_indistinguishable :
    let steps := [(posix, Op.addConsumer "ab" "c"), (posix, .setCommitRule "ab" "never")]
    let steps' := steps.map fun step => (reversed, step.2)
    let d := stateBefore jsonLiterals (patterns ["x", "y"] ["*", "a*"]) steps 1
    let d' := stateBefore jsonLiterals (patterns ["y", "x"] ["a*", "*"]) steps' 1
    (d.equals d' = true ∧ d'.equals d = true) ∧
      ((d.getProducers posix "ab").1 = ["x", "y"] ∧ (d'.getProducers reversed "ab").1 = ["y", "x"]) ∧
      SameAnswers (· ∈ ["*", "a*", "ab"]) posix reversed d d' := by
  intro steps steps' d d'
  let paths : String → Prop := (· ∈ ["*", "a*", "ab"])
  have huntied : Untied posix.fnmatch paths := by
    have hall : ∀ g ∈ ["*", "a*", "ab"], ∀ g' ∈ ["*", "a*", "ab"], ∀ path ∈ ["*", "a*", "ab"],
        g.utf8ByteSize = g'.utf8ByteSize → g ≠ path → g' ≠ path →
          posix.fnmatch g path = true → posix.fnmatch g' path = true → g = g' := by decide +kernel
    exact fun g g' path hg hg' hpath => hall g hg g' hg' path hpath
  have hkeys : ∀ k, ((patterns ["x", "y"] ["*", "a*"]).find k).isSome → k ∈ ["*", "a*"] := by
    intro k hk
    have hlist : (patterns ["x", "y"] ["*", "a*"]).capioClEntries.keys = ["*", "a*"] := by
      decide +kernel
    exact hlist ▸ Engine.mem_keys_iff.mpr hk
  have hsets : (patterns ["x", "y"] ["*", "a*"]).All CapioCLEntry.ListSets := by
    intro k x hx
    have hentry : ∀ k ∈ ["*", "a*"], (patterns ["x", "y"] ["*", "a*"]).find k =
        some { producers := ["x", "y"] } := by decide +kernel
    have hfind := hentry k (hkeys k (by rw [hx]; rfl))
    rw [← Option.some.inj (hfind.symm.trans hx)]
    exact ⟨by decide, List.nodup_nil, .nil⟩
  have hsteps : List.Forall₂ (SameCall jsonLiterals posix.fnmatch paths) steps steps' := by
    have hwithin : ∀ step ∈ steps, step.2.Within jsonLiterals paths := by
      intro step hstep
      rcases List.mem_cons.mp hstep with rfl | hstep
      · exact ⟨fun path hpath => by rw [List.mem_singleton.mp hpath]; simp [paths], nofun⟩
      · rw [List.mem_singleton.mp hstep]
        exact ⟨fun path hpath => by rw [List.mem_singleton.mp hpath]; simp [paths], nofun⟩
    exact .cons ⟨rfl, rfl, rfl, hwithin _ (by simp [steps])⟩
      (.cons ⟨rfl, rfl, rfl, hwithin _ (by simp [steps])⟩ .nil)
  have hequal : (patterns ["x", "y"] ["*", "a*"]).equals (patterns ["y", "x"] ["a*", "*"]) = true := by
    decide +kernel
  have hcounts : ¬ (patterns ["x", "y"] ["*", "a*"]).Overcounted (patterns ["y", "x"] ["a*", "*"]) :=
    Engine.overcounted_iff.mpr (Engine.sameUpToOrder_of_listSets hsets)
  obtain ⟨hafter, -, hanswers⟩ :=
    equals_indistinguishable jsonLiterals huntied
      (fun k hk => List.mem_append_left ["ab"] (hkeys k hk)) hequal hcounts rfl rfl hsteps 1
  exact ⟨hafter, by decide +kernel, hanswers posix reversed rfl rfl⟩

end CapioCl
