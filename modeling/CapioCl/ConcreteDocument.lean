import CapioCl.Concrete
import CapioCl.Declaration

/-!
# What a concrete document builds

When no path of a document has a glob character the entry of each key is what the document says of
that key, and no order remains.

* `mem_apps_iff`, `permanent_iff`, `excluded_iff`, `storeInMemory_iff`: the lists and the flags.
* `RuleField.of_find`: the rules, when the items that name the key agree on them.
-/

namespace CapioCl

open CapioCl.Lib CapioCl.Parser

/-! ## One key -/

section
variable {P : Platform} {d : Document} {storeOnlyInMemory : Bool} {n : String} {base : Engine}
  {k : String} {entry : CapioCLEntry}

/-- The entry of a key is what the acts make of the default one. -/
theorem core_of_find (hf : Fresh n base) (hc : ∀ p ∈ d.paths, Concrete p)
    (h : (run P (d.acts storeOnlyInMemory) base).find k = some entry) :
    k ≠ "" ∧ entry.core = (effects k (d.acts storeOnlyInMemory) {}).core :=
  core_of_find_run hf.find hf.storeAll
    (fun _ hact _ hp => hc _ (path_mem_paths hact hp)) h

/-- **The applications of a key** are those whose streams name it. -/
theorem mem_apps_iff (hf : Fresh n base) (hc : ∀ p ∈ d.paths, Concrete p)
    (h : (run P (d.acts storeOnlyInMemory) base).find k = some entry) (σ : Stream) (c : String) :
    c ∈ entry.apps σ ↔ ∃ a ∈ d.apps, eraseSpaces a.name = c ∧ k ∈ a.stream σ := by
  obtain ⟨hk, hcore⟩ := core_of_find hf hc h
  have happs : ∀ x : CapioCLEntry, x.apps σ = x.core.apps σ := fun x => by cases σ <;> rfl
  have hempty : c ∉ ({} : CapioCLEntry).apps σ := by cases σ <;> exact List.not_mem_nil
  rw [happs, hcore, ← happs, mem_apps_effects, setApp_mem_acts_iff hk]
  exact or_iff_right hempty

/-- A field is the last value the acts assign to it. -/
theorem field_of_find {α : Type} (get : CapioCLEntry → α) (val : Write → Option α)
    (hcore : ∀ x, get x.core = get x)
    (hget : ∀ w entry, get (w.apply entry) = (val w).getD (get entry))
    (hf : Fresh n base) (hc : ∀ p ∈ d.paths, Concrete p)
    (h : (run P (d.acts storeOnlyInMemory) base).find k = some entry) :
    get entry =
      (Registers.last (Act.assigns val k) (d.acts storeOnlyInMemory)).getD (get {}) := by
  rw [← field_effects hget, ← hcore entry, (core_of_find hf hc h).2, hcore]

/-- What assigns a value to a field of a key. -/
theorem assigns_eq_some_iff {α : Type} {val : Write → Option α} {act : Act} {a : α} :
    act.assigns val k = some a ↔
      (∃ w, act = .set k w ∧ val w = some a) ∨
        (act = .storeAll ∧ val (.storeInMemory true) = some a) := by
  cases act with
  | set p w =>
    unfold Act.assigns
    rw [on_set]
    by_cases hkp : k = p
    · subst hkp
      simp
    · rw [if_neg hkp]
      simp [Ne.symm hkp]
  | _ => simp [Act.assigns, Act.on]

/-- A flag that one list of the document sets. -/
theorem flag_of_find (get : CapioCLEntry → Bool) (val : Write → Option Bool) (F : Bool → Write)
    {l : List String} (hcore : ∀ x, get x.core = get x)
    (hget : ∀ w entry, get (w.apply entry) = (val w).getD (get entry)) (hfalse : get {} = false)
    (hval : ∀ w b, val w = some b ↔ w = F b)
    (hstore : val (.storeInMemory true) = none)
    (hmem : ∀ b, k ≠ "" → (Act.set k (F b) ∈ d.acts storeOnlyInMemory ↔ k ∈ l ∧ b = true))
    (hf : Fresh n base) (hc : ∀ p ∈ d.paths, Concrete p)
    (h : (run P (d.acts storeOnlyInMemory) base).find k = some entry) :
    get entry = true ↔ k ∈ l := by
  have hk := (core_of_find hf hc h).1
  have hassigns : ∀ act ∈ d.acts storeOnlyInMemory, ∀ b, act.assigns val k = some b →
      k ∈ l ∧ b = true := by
    intro act hact b hb
    rcases assigns_eq_some_iff.mp hb with ⟨w, rfl, hw⟩ | ⟨-, hw⟩
    · rw [hval] at hw
      subst hw
      exact (hmem b hk).mp hact
    · rw [hstore] at hw
      exact absurd hw (by simp)
  rw [field_of_find get val hcore hget hf hc h, hfalse]
  constructor
  · intro hlast
    cases ha : Registers.last (Act.assigns val k) (d.acts storeOnlyInMemory) with
    | none =>
      rw [ha] at hlast
      exact absurd hlast (by simp)
    | some b =>
      obtain ⟨act, hact, hb⟩ := Registers.exists_of_last_eq_some ha
      exact (hassigns act hact b hb).1
  · intro hkl
    have hset : (Act.set k (F true)).assigns val k = some true :=
      assigns_eq_some_iff.mpr (Or.inl ⟨_, rfl, (hval _ _).mpr rfl⟩)
    rw [Registers.last_of_agree (a := true)
      ⟨_, (hmem true hk).mpr ⟨hkl, rfl⟩, by rw [hset]; simp⟩
      fun act hact b hb => (hassigns act hact b hb).2]
    rfl

/-- **The permanent keys** are those the document lists. -/
theorem permanent_iff (hf : Fresh n base) (hc : ∀ p ∈ d.paths, Concrete p)
    (h : (run P (d.acts storeOnlyInMemory) base).find k = some entry) :
    entry.permanent = true ↔ k ∈ d.permanent := by
  refine flag_of_find CapioCLEntry.permanent Write.permanent? Write.permanent (fun _ => rfl) (fun w x => ?_)
    rfl (fun w b => ?_) rfl (fun b hk => ?_) hf hc h
  · cases w with
    | app σ c => cases σ <;> rfl
    | _ => rfl
  · cases w <;> simp [Write.permanent?]
  · rw [set_mem_acts_iff hk]
    simp [mem_writes_iff]

/-- **The excluded keys** are those the document lists. -/
theorem excluded_iff (hf : Fresh n base) (hc : ∀ p ∈ d.paths, Concrete p)
    (h : (run P (d.acts storeOnlyInMemory) base).find k = some entry) :
    entry.excluded = true ↔ k ∈ d.exclude := by
  refine flag_of_find CapioCLEntry.excluded Write.excluded? Write.excluded (fun _ => rfl) (fun w x => ?_)
    rfl (fun w b => ?_) rfl (fun b hk => ?_) hf hc h
  · cases w with
    | app σ c => cases σ <;> rfl
    | _ => rfl
  · cases w <;> simp [Write.excluded?]
  · rw [set_mem_acts_iff hk]
    simp [mem_writes_iff]

/-- A list of `storage` assigns its value to its paths. -/
theorem last_storage (k : String) (l : List String) (b : Bool) :
    Registers.last (Act.assigns Write.storeInMemory? k)
      (l.map fun path => Act.set path (.storeInMemory b)) = if k ∈ l then some b else none := by
  have hval : ∀ path, (Act.set path (.storeInMemory b)).assigns Write.storeInMemory? k =
      if k = path then some b else none := by
    intro path
    unfold Act.assigns
    rw [on_set]
    split <;> rfl
  by_cases hk : k ∈ l
  · rw [if_pos hk]
    refine Registers.last_of_agree ⟨_, List.mem_map_of_mem hk, ?_⟩ fun act hact c hc => ?_
    · rw [hval, if_pos rfl]
      exact Option.some_ne_none b
    · obtain ⟨path, -, rfl⟩ := List.mem_map.mp hact
      rw [hval] at hc
      split at hc
      · exact (Option.some.inj hc).symm
      · exact absurd hc (by simp)
  · rw [if_neg hk, Registers.last_eq_none_iff]
    intro act hact
    obtain ⟨path, hpath, rfl⟩ := List.mem_map.mp hact
    rw [hval, if_neg]
    rintro rfl
    exact hk hpath

/-- The sections before `storage` leave the storage policy alone. -/
theorem last_before_storage (hk : k ≠ "") (d : Document) :
    Registers.last (Act.assigns Write.storeInMemory? k)
      (d.apps.flatMap AppSection.acts ++ d.flagActs) = none := by
  have hplain : d.apps.flatMap AppSection.acts ++ d.flagActs =
      Document.acts { d with memory := [], fs := [] } false := by
    unfold Document.acts Document.storageActs
    rw [if_neg Bool.false_ne_true, List.map_nil, List.map_nil, List.append_nil, List.append_nil,
      List.append_nil]
    rfl
  rw [Registers.last_eq_none_iff, hplain]
  intro act hact
  by_contra hne
  obtain ⟨b, hb⟩ := Option.ne_none_iff_exists'.mp hne
  rcases assigns_eq_some_iff.mp hb with ⟨w, rfl, hw⟩ | ⟨rfl, -⟩
  · obtain ⟨b, rfl⟩ : ∃ b, w = .storeInMemory b := by
      cases w <;> simp [Write.storeInMemory?] at hw ⊢
    rw [set_mem_acts_iff hk] at hact
    simp [mem_writes_iff] at hact
  · exact absurd (storeAll_mem_acts_iff.mp hact) Bool.false_ne_true

/-- **The keys stored in memory**: all, or those of `memory` that `fs` does not take back. -/
theorem storeInMemory_iff (hf : Fresh n base) (hc : ∀ p ∈ d.paths, Concrete p)
    (h : (run P (d.acts storeOnlyInMemory) base).find k = some entry) :
    entry.storeInMemory = true ↔
      storeOnlyInMemory = true ∨ (k ∈ d.memory ∧ k ∉ d.fs) := by
  have hk := (core_of_find hf hc h).1
  have hget : ∀ w x, (Write.apply w x).storeInMemory =
      (Write.storeInMemory? w).getD x.storeInMemory := by
    intro w x
    cases w with
    | app σ c => cases σ <;> rfl
    | _ => rfl
  rw [field_of_find CapioCLEntry.storeInMemory Write.storeInMemory? (fun _ => rfl) hget hf hc h]
  unfold Document.acts Document.storageActs
  rw [Registers.last_append, Registers.last_append, last_before_storage hk, Registers.last_append,
    last_storage, last_storage]
  cases storeOnlyInMemory with
  | true => simp [Registers.last_cons, Act.assigns, Act.on, Write.storeInMemory?]
  | false =>
    by_cases hfs : k ∈ d.fs <;> by_cases hm : k ∈ d.memory <;> simp [hfs, hm]

end

/-! ## Rules -/

/-- A field that only the streaming items set. -/
structure RuleField {α : Type} (get : CapioCLEntry → α) (val : Write → Option α)
    (ruleOf : StreamItem → α) : Prop where
  core : ∀ x, get x.core = get x
  apply : ∀ w x, get (w.apply x) = (val w).getD (get x)
  /-- An item writes its rule. -/
  writes : ∀ item, ∀ w ∈ StreamItem.writes item, ∀ a, val w = some a → a = ruleOf item
  /-- A rule an item does not write is the default. -/
  silent : ∀ item, (∀ w ∈ StreamItem.writes item, val w = none) → ruleOf item = get {}
  app : ∀ σ c, val (.app σ c) = none
  permanent : ∀ b, val (.permanent b) = none
  excluded : ∀ b, val (.excluded b) = none
  storeInMemory : ∀ b, val (.storeInMemory b) = none

/-- A field that one write sets, which is no write off the rules. -/
theorem ruleField_of_write {α : Type} {get : CapioCLEntry → α} {val : Write → Option α}
    {ruleOf : StreamItem → α} (F : α → Write) (hcore : ∀ x, get x.core = get x)
    (hval : ∀ w a, val w = some a ↔ w = F a) (hset : ∀ a x, get ((F a).apply x) = a)
    (hother : ∀ w x, val w = none → get (w.apply x) = get x) (hoff : ∀ a, ¬(F a).OffRules)
    (hwrites : ∀ item a, F a ∈ StreamItem.writes item → a = ruleOf item)
    (hsilent : ∀ item, F (ruleOf item) ∉ StreamItem.writes item → ruleOf item = get {}) :
    RuleField get val ruleOf := by
  have hnone : ∀ w : Write, w.OffRules → val w = none := by
    intro w hw
    rw [Option.eq_none_iff_forall_ne_some]
    intro a ha
    obtain rfl := (hval w a).mp ha
    exact hoff a hw
  refine ⟨hcore, fun w x => ?_, fun item w hw a ha => ?_, fun item h => ?_,
    fun σ c => hnone _ trivial, fun b => hnone _ trivial, fun b => hnone _ trivial,
    fun b => hnone _ trivial⟩
  · cases hv : val w with
    | none => exact hother w x hv
    | some a =>
      obtain rfl := (hval w a).mp hv
      exact hset a x
  · obtain rfl := (hval w a).mp ha
    exact hwrites item a hw
  · refine hsilent item fun hmem => ?_
    have hv := h _ hmem
    rw [(hval _ _).mpr rfl] at hv
    cases hv

theorem ruleField_commitRule :
    RuleField CapioCLEntry.commitRule Write.commitRule? StreamItem.commitRule := by
  refine ruleField_of_write .commitRule (fun _ => rfl) (fun w a => ?_) (fun _ _ => rfl)
    (fun w x h => ?_) (fun _ h => h) (fun item a h => ?_) (fun item h => ?_)
  · cases w <;> simp [Write.commitRule?]
  · cases w with
    | app σ c => cases σ <;> rfl
    | commitRule rule => cases h
    | _ => rfl
  · simpa [mem_writes_iff] using h
  · exact absurd (mem_writes_iff.mpr (by simp)) h

theorem ruleField_fireRule :
    RuleField CapioCLEntry.fireRule Write.fireRule? StreamItem.fireRule := by
  refine ruleField_of_write .fireRule (fun _ => rfl) (fun w a => ?_) (fun _ _ => rfl)
    (fun w x h => ?_) (fun _ h => h) (fun item a h => ?_) (fun item h => ?_)
  · cases w <;> simp [Write.fireRule?]
  · cases w with
    | app σ c => cases σ <;> rfl
    | fireRule rule => cases h
    | _ => rfl
  · simpa [mem_writes_iff] using h
  · exact absurd (mem_writes_iff.mpr (by simp)) h

theorem ruleField_closeCount :
    RuleField CapioCLEntry.commitOnCloseCount Write.closeCount? StreamItem.nClose := by
  refine ruleField_of_write .closeCount (fun _ => rfl) (fun w a => ?_) (fun _ _ => rfl)
    (fun w x h => ?_) (fun _ h => h) (fun item a h => ?_) (fun item h => ?_)
  · cases w <;> simp [Write.closeCount?]
  · cases w with
    | app σ c => cases σ <;> rfl
    | closeCount num => cases h
    | _ => rfl
  · simpa [mem_writes_iff] using h
  · exact absurd (mem_writes_iff.mpr (by simp)) h

theorem ruleField_fileDeps :
    RuleField CapioCLEntry.fileDependencies Write.fileDeps? StreamItem.fileDeps := by
  refine ruleField_of_write .fileDeps (fun _ => rfl) (fun w a => ?_) (fun _ _ => rfl)
    (fun w x h => ?_) (fun _ h => h) (fun item a h => ?_) (fun item h => ?_)
  · cases w <;> simp [Write.fileDeps?]
  · cases w with
    | app σ c => cases σ <;> rfl
    | fileDeps dependencies => cases h
    | _ => rfl
  · have hdeps : item.fileDeps ≠ [] ∧ a = item.fileDeps := by simpa [mem_writes_iff] using h
    exact hdeps.2
  · -- an item without dependencies does not write them
    by_contra hne
    exact h (mem_writes_iff.mpr (by simpa using hne))

/-- **The rules of a key** are those of the items that name it. -/
theorem RuleField.of_find {P : Platform} {d : Document} {storeOnlyInMemory : Bool} {n : String}
    {base : Engine} {k : String} {entry : CapioCLEntry} {α : Type} {get : CapioCLEntry → α}
    {val : Write → Option α} {ruleOf : StreamItem → α} (hr : RuleField get val ruleOf)
    (hf : Fresh n base) (hc : ∀ p ∈ d.paths, Concrete p)
    (h : (run P (d.acts storeOnlyInMemory) base).find k = some entry) {r : α}
    (hagree : ∀ item ∈ d.items, k ∈ item.streamingNames → ruleOf item = r)
    (hnone : (∀ item ∈ d.items, k ∉ item.streamingNames) → r = get {}) : get entry = r := by
  have hk := (core_of_find hf hc h).1
  have hitems : ∀ item, item ∈ d.items ↔ ∃ a ∈ d.apps, item ∈ a.items := fun item =>
    List.mem_flatMap
  rw [field_of_find get val hr.core hr.apply hf hc h]
  cases hlast : Registers.last (Act.assigns val k) (d.acts storeOnlyInMemory) with
  | none =>
    rw [Registers.last_eq_none_iff] at hlast
    refine Eq.symm ?_
    by_cases hnamed : ∃ item ∈ d.items, k ∈ item.streamingNames
    · obtain ⟨item, hitem, hki⟩ := hnamed
      obtain ⟨a, ha, hai⟩ := (hitems item).mp hitem
      rw [← hagree item hitem hki]
      refine hr.silent item fun w hw => ?_
      have hact : Act.set k w ∈ d.acts storeOnlyInMemory :=
        (set_mem_acts_iff hk).mpr (Or.inl ⟨a, ha, Or.inr ⟨item, hai, hki, hw⟩⟩)
      have hval := hlast _ hact
      unfold Act.assigns at hval
      rwa [on_set, if_pos rfl] at hval
    · push Not at hnamed
      exact hnone hnamed
  | some a =>
    obtain ⟨act, hact, ha⟩ := Registers.exists_of_last_eq_some hlast
    rcases assigns_eq_some_iff.mp ha with ⟨w, rfl, hw⟩ | ⟨-, hw⟩
    · have hother : ∀ v, w = v → val v = none → False := by
        rintro v rfl hv
        rw [hv] at hw
        exact absurd hw (by simp)
      rcases (set_mem_acts_iff hk).mp hact with ⟨b, hb, ⟨σ, -, hwv⟩ | ⟨item, hai, hki, hwi⟩⟩ |
        ⟨-, hwv⟩ | ⟨-, hwv⟩ | ⟨-, hwv⟩ | ⟨-, hwv⟩
      · exact (hother _ hwv (hr.app _ _)).elim
      · rw [← hagree item ((hitems item).mpr ⟨b, hb, hai⟩) hki]
        exact hr.writes item w hwi a hw
      · exact (hother _ hwv (hr.permanent _)).elim
      · exact (hother _ hwv (hr.excluded _)).elim
      · exact (hother _ hwv (hr.storeInMemory _)).elim
      · exact (hother _ hwv (hr.storeInMemory _)).elim
    · rw [hr.storeInMemory] at hw
      exact absurd hw (by simp)

end CapioCl
