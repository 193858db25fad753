import CapioCl.Declaration
import Mathlib.Logic.Relation

/-!
# The IO graph of a parsed document

Application names enter an entry by a write or by the copy a creation makes. In a run each name of a
key therefore comes from a write of that name, to the key itself or to the first key of a chain of
copies that ends at it (`mem_apps_run`). For the acts of a document the writes are its streams:
`ioGraph_complete_and_sound`.
-/

namespace CapioCl

open CapioCl.Lib CapioCl.Lib.Reading CapioCl.Parser

/-! ## Runs -/

/-- Somewhere along the run `path` is created as a copy of the entry of `g`. -/
def CopiedIn (P : Platform) (acts : List Act) (e : Engine) (g path : String) : Prop :=
  ∃ before act after, acts = before ++ act :: after ∧ Copies P (run P before e) act g path

theorem CopiedIn.fnmatch {P : Platform} {acts : List Act} {e : Engine} {g path : String}
    (h : CopiedIn P acts e g path) : P.fnmatch g path = true := by
  obtain ⟨_, _, _, -, h⟩ := h
  exact h.fnmatch

theorem CopiedIn.concat {P : Platform} {acts : List Act} {e : Engine} {g path : String}
    (h : CopiedIn P acts e g path) (act : Act) : CopiedIn P (acts ++ [act]) e g path := by
  obtain ⟨before, a, after, rfl, hc⟩ := h
  exact ⟨before, a, after ++ [act], by simp, hc⟩

/-- A chain of copies. -/
def Chain (P : Platform) (acts : List Act) (e : Engine) : String → String → Prop :=
  Relation.ReflTransGen (CopiedIn P acts e)

/-- **Where a name comes from in a run.** -/
theorem mem_apps_run {P : Platform} {σ : Stream} {e : Engine} {c : String}
    (hempty : ∀ k, e.find k = none) (acts : List Act) : ∀ p, c ∈ (run P acts e).apps σ p →
      ∃ g, g ≠ "" ∧ Act.set g (.app σ c) ∈ acts ∧ Chain P acts e g p := by
  induction acts using List.reverseRecOn with
  | nil =>
    intro p h
    rw [run_nil, Engine.apps_of_none (hempty p)] at h
    exact absurd h List.not_mem_nil
  | append_singleton acts act ih =>
    have hmono : ∀ {p q : String}, Chain P acts e p q → Chain P (acts ++ [act]) e p q :=
      fun h => Relation.ReflTransGen.mono (fun _ _ hc => CopiedIn.concat hc act) _ _ h
    intro p h
    rw [run_concat, mem_apps_perform] at h
    rcases h with h | ⟨rfl, hp⟩ | ⟨g, hcopy, h⟩
    · obtain ⟨g, hg, hw, hchain⟩ := ih p h
      exact ⟨g, hg, List.mem_append_left _ hw, hmono hchain⟩
    · exact ⟨p, hp, List.mem_append_right _ (List.mem_singleton_self _),
        Relation.ReflTransGen.refl⟩
    · obtain ⟨g', hg', hw, hchain⟩ := ih g h
      refine ⟨g', hg', List.mem_append_left _ hw, (hmono hchain).tail ?_⟩
      exact ⟨acts, act, [], rfl, hcopy⟩

/-- A name once in a list stays there. -/
theorem mem_apps_run_of_mem {P : Platform} {σ : Stream} {p c : String} (acts : List Act)
    {e : Engine} (h : c ∈ e.apps σ p) : c ∈ (run P acts e).apps σ p := by
  induction acts generalizing e with
  | nil => exact h
  | cons act acts ih => exact ih ((mem_apps_perform P σ act e p c).mpr (Or.inl h))

/-- A written name is in the list. -/
theorem mem_apps_run_of_write {P : Platform} {σ : Stream} {p c : String} {e : Engine}
    {acts : List Act} (hp : p ≠ "") (h : Act.set p (.app σ c) ∈ acts) :
    c ∈ (run P acts e).apps σ p := by
  obtain ⟨before, after, rfl⟩ := List.append_of_mem h
  rw [run_append, run_cons]
  exact mem_apps_run_of_mem after
    ((mem_apps_perform P σ _ _ p c).mpr (Or.inr (Or.inl ⟨rfl, hp⟩)))

/-- No application list repeats a name. -/
def NodupApps (e : Engine) : Prop := ∀ σ k, (e.apps σ k).Nodup

theorem NodupApps.of_empty {e : Engine} (h : ∀ k, e.find k = none) : NodupApps e := by
  intro σ k
  rw [Engine.apps_of_none (h k)]
  exact List.nodup_nil

theorem NodupApps.newFile {P : Platform} {e : Engine} (h : NodupApps e) (path : String) :
    NodupApps (e._newFile P path) := by
  intro σ k
  rw [Engine.apps_newFile]
  split
  · cases e.source P path with
    | none => exact List.nodup_nil
    | some g => exact h σ g
  · exact h σ k

theorem NodupApps.perform {P : Platform} {e : Engine} (h : NodupApps e) (act : Act) :
    NodupApps (act.perform P e) := by
  have hloop : ∀ {e' : Engine} {f : String → CapioCLEntry → CapioCLEntry},
      (∀ k, e'.find k = (e.find k).map (f k)) → (∀ σ k x, (f k x).apps σ = x.apps σ) →
      NodupApps e' := by
    intro e' f hf hblind σ k
    have heq : e'.apps σ k = e.apps σ k := by
      unfold Engine.apps
      rw [hf, Option.map_map,
        show CapioCLEntry.apps σ ∘ f k = CapioCLEntry.apps σ from funext (hblind σ k)]
    rw [heq]
    exact h σ k
  cases act with
  | create p => exact h.newFile p
  | set p w =>
    intro σ k
    have hnew := h.newFile (P := P) p σ k
    change ((e.setter P p w.apply).apps σ k).Nodup
    unfold Engine.apps at hnew ⊢
    rw [Engine.find_setter]
    split
    · cases hf : (e._newFile P p).find k with
      | none => exact List.nodup_nil
      | some entry =>
        rw [hf] at hnew
        exact nodup_apps_write w hnew
    · exact hnew
  | directories =>
    refine hloop (Engine.find_setAllDirectories P e) fun σ k x => ?_
    split <;> cases σ <;> rfl
  | storeAll =>
    refine hloop (Engine.find_setAllStoreInMemory P e) fun σ k x => ?_
    split <;> cases σ <;> rfl

theorem NodupApps.run {P : Platform} {e : Engine} (h : NodupApps e) (acts : List Act) :
    NodupApps (CapioCl.run P acts e) :=
  Registers.foldl_invariant acts (fun _ act _ hs => hs.perform act) h

/-! ## Flags -/

/-- A field that neither counting nor the two loops over all entries change. -/
structure Untouched (get : CapioCLEntry → Bool) : Prop where
  counted : ∀ x, get x.counted = get x
  directory : ∀ x, get { x with isFile := false } = get x
  stored : ∀ x, get { x with storeInMemory := true } = get x

theorem untouched_permanent : Untouched CapioCLEntry.permanent :=
  ⟨CapioCLEntry.get_counted fun _ _ _ => rfl, fun _ => rfl, fun _ => rfl⟩

theorem untouched_excluded : Untouched CapioCLEntry.excluded :=
  ⟨CapioCLEntry.get_counted fun _ _ _ => rfl, fun _ => rfl, fun _ => rfl⟩

/-- `p` is a key with the flag set. -/
def Flagged (get : CapioCLEntry → Bool) (p : String) (e : Engine) : Prop :=
  (e.find p).map get = some true

theorem Flagged.newFile {get : CapioCLEntry → Bool} (hu : Untouched get) {P : Platform}
    {p path : String} {e : Engine} (h : Flagged get p e) : Flagged get p (e._newFile P path) := by
  unfold Flagged at h ⊢
  rw [Engine.map_find_newFile hu.counted, if_neg, h]
  rintro ⟨rfl, -, hnone⟩
  rw [hnone] at h
  exact absurd h (by simp)

/-- A set flag stays set, when no write resets it. -/
theorem Flagged.perform {get : CapioCLEntry → Bool} (hu : Untouched get) {P : Platform}
    {p : String} {act : Act} {e : Engine}
    (hkeep : ∀ w, act = .set p w → ∀ x, get x = true → get (w.apply x) = true)
    (h : Flagged get p e) : Flagged get p (act.perform P e) := by
  have hloop : ∀ {e' : Engine} {f : CapioCLEntry → CapioCLEntry}, e'.find p = (e.find p).map f →
      (∀ x, get (f x) = get x) → Flagged get p e' := by
    intro e' f hf hblind
    unfold Flagged at h ⊢
    rw [hf, Option.map_map, show get ∘ f = get from funext hblind, h]
  cases act with
  | create q => exact h.newFile hu
  | set q w =>
    have hnew : Flagged get p (e._newFile P q) := h.newFile hu
    change Flagged get p (e.setter P q w.apply)
    unfold Flagged at hnew ⊢
    rw [Engine.find_setter]
    split
    · rename_i hc
      obtain ⟨rfl, -⟩ := hc
      obtain ⟨x, hx, hgx⟩ := Option.map_eq_some_iff.mp hnew
      rw [hx, Option.map_some, Option.map_some, hkeep w rfl x hgx]
    · exact hnew
  | directories =>
    refine hloop (Engine.find_setAllDirectories P e p) fun x => ?_
    split
    · rfl
    · exact hu.directory x
  | storeAll =>
    refine hloop (Engine.find_setAllStoreInMemory P e p) fun x => ?_
    split
    · rfl
    · exact hu.stored x

/-- **A flag that some act of a run sets and none resets is set.** -/
theorem flagged_run {get : CapioCLEntry → Bool} (hu : Untouched get) {P : Platform} {p : String}
    (hp : p ≠ "") {acts : List Act} {e : Engine} {w : Write}
    (hset : ∀ x, get (w.apply x) = true) (hmem : Act.set p w ∈ acts)
    (hkeep : ∀ v, Act.set p v ∈ acts → ∀ x, get x = true → get (v.apply x) = true) :
    Flagged get p (run P acts e) := by
  obtain ⟨before, after, rfl⟩ := List.append_of_mem hmem
  rw [run_append, run_cons]
  have hstart : Flagged get p ((Act.set p w).perform P (run P before e)) := by
    obtain ⟨x, hx⟩ := Option.isSome_iff_exists.mp
      (Engine.find_newFile_isSome P hp (run P before e))
    change Flagged get p ((run P before e).setter P p w.apply)
    unfold Flagged
    rw [Engine.find_setter, if_pos ⟨rfl, hp⟩, hx, Option.map_some, Option.map_some, hset]
  have hstep : ∀ s, ∀ act ∈ after, Flagged get p s → Flagged get p (act.perform P s) := by
    intro s act hact hs
    refine hs.perform hu fun v hv => hkeep v ?_
    rw [← hv]
    exact List.mem_append_right _ (List.mem_cons_of_mem _ hact)
  exact Registers.foldl_invariant after hstep hstart

/-! ## The graph of a document -/

/-- The flags of a document are only ever set. -/
theorem permanent_mem_acts {d : Document} {storeOnlyInMemory : Bool} {p : String} {w : Write}
    (hp : p ≠ "") (h : Act.set p w ∈ d.acts storeOnlyInMemory) :
    (∀ x, (w.apply x).permanent = x.permanent ∨ (w.apply x).permanent = true) ∧
      ∀ x, (w.apply x).excluded = x.excluded ∨ (w.apply x).excluded = true := by
  have hitem : ∀ item : StreamItem, w ∈ item.writes →
      (∀ x, (w.apply x).permanent = x.permanent) ∧ ∀ x, (w.apply x).excluded = x.excluded := by
    intro item hw
    unfold StreamItem.writes at hw
    simp only [List.mem_append, List.mem_cons, List.not_mem_nil, or_false, List.mem_ite_nil_right,
      List.mem_ite_nil_left] at hw
    rcases hw with ((rfl | rfl | rfl | rfl) | ⟨-, rfl⟩) | ⟨-, rfl⟩ <;> exact ⟨fun _ => rfl, fun _ => rfl⟩
  rcases (set_mem_acts_iff hp).mp h with ⟨a, -, ⟨σ, -, rfl⟩ | ⟨item, -, -, hw⟩⟩ | ⟨-, rfl⟩ |
    ⟨-, rfl⟩ | ⟨-, rfl⟩ | ⟨-, rfl⟩
  · cases σ <;> exact ⟨fun _ => Or.inl rfl, fun _ => Or.inl rfl⟩
  · exact ⟨fun x => Or.inl ((hitem item hw).1 x), fun x => Or.inl ((hitem item hw).2 x)⟩
  · exact ⟨fun _ => Or.inr rfl, fun _ => Or.inl rfl⟩
  · exact ⟨fun _ => Or.inl rfl, fun _ => Or.inr rfl⟩
  · exact ⟨fun _ => Or.inl rfl, fun _ => Or.inl rfl⟩
  · exact ⟨fun _ => Or.inl rfl, fun _ => Or.inl rfl⟩

/-- **The IO graph is complete and sound.** Each declared application is in the list of its
resolved path, and each listed application is declared at the head of a chain of copies. -/
theorem ioGraph_complete_and_sound {J : Jsoncons} {P : Platform} {doc : Json} {pre : String}
    {storeOnlyInMemory : Bool} {e : Engine}
    (h : parseDoc J P doc pre storeOnlyInMemory = .ok e) :
    (∀ σ n f, Declares doc σ n f → resolve f pre ≠ "" →
      eraseSpaces n ∈ e.apps σ (resolve f pre)) ∧
    (∀ f, Lists doc "permanent" f → (e.isPermanent P (resolve f pre)).1 = true) ∧
    (∀ f, Lists doc "exclude" f → (e.isExcluded P (resolve f pre)).1 = true) ∧
    (∃ base d, readDocument J pre doc = .ok d ∧ (∀ k, base.find k = none) ∧
      e = run P (d.acts storeOnlyInMemory) base ∧
      ∀ σ p c, c ∈ e.apps σ p → ∃ n f, Declares doc σ n f ∧ eraseSpaces n = c ∧
        Chain P (d.acts storeOnlyInMemory) base (resolve f pre) p) ∧
    ∀ σ p, (e.apps σ p).Nodup := by
  obtain ⟨hacc, -, n, base, d, -, hf, hd, rfl⟩ := exists_of_parseDoc_ok h
  have hshape := docShape_of_accepted hacc
  have hflag : ∀ {get : CapioCLEntry → Bool} (_ : Untouched get) {r : String}, r ≠ "" →
      ∀ {w : Write}, (∀ x, get (w.apply x) = true) →
      Act.set r w ∈ d.acts storeOnlyInMemory →
      (∀ v, Act.set r v ∈ d.acts storeOnlyInMemory → ∀ x, get (v.apply x) = get x ∨
        get (v.apply x) = true) →
      (Engine.query P r true get (run P (d.acts storeOnlyInMemory) base)).1 = true := by
    intro get hu r hr w hset hmem hkeep
    have hflagged : Flagged get r (run P (d.acts storeOnlyInMemory) base) :=
      flagged_run hu hr hset hmem fun v hv x hx => by
        rcases hkeep v hv x with hk | hk
        · rw [hk, hx]
        · exact hk
    obtain ⟨entry, hentry, hget⟩ := Option.map_eq_some_iff.mp hflagged
    rw [Engine.query_of_find P true get hr hentry]
    exact hget
  refine ⟨fun σ n f hdec hr => ?_, fun f hl => ?_, fun f hl => ?_,
    ⟨base, d, hd, hf.find, rfl, fun σ p c hc => ?_⟩, ?_⟩
  · obtain ⟨a, ha, rfl, hs⟩ := (mem_stream_iff hshape hd σ n _).mpr ⟨f, hdec, rfl⟩
    exact mem_apps_run_of_write hr ((setApp_mem_acts_iff hr).mpr ⟨a, ha, rfl, hs⟩)
  · by_cases hr : resolve f pre = ""
    · unfold Engine.isPermanent
      rw [hr, Engine.query_empty]
    · refine hflag untouched_permanent hr (w := .permanent true) (fun _ => rfl) ?_ fun v hv =>
        (permanent_mem_acts hr hv).1
      exact (set_mem_acts_iff hr).mpr
        (Or.inr (Or.inl ⟨(mem_permanent_iff hshape hd _).mpr ⟨f, hl, rfl⟩, rfl⟩))
  · by_cases hr : resolve f pre = ""
    · unfold Engine.isExcluded
      rw [hr, Engine.query_empty]
    · refine hflag untouched_excluded hr (w := .excluded true) (fun _ => rfl) ?_ fun v hv =>
        (permanent_mem_acts hr hv).2
      exact (set_mem_acts_iff hr).mpr
        (Or.inr (Or.inr (Or.inl ⟨(mem_exclude_iff hshape hd _).mpr ⟨f, hl, rfl⟩, rfl⟩)))
  · obtain ⟨g, hg, hw, hchain⟩ := mem_apps_run hf.find _ p hc
    obtain ⟨a, ha, rfl, hs⟩ := (setApp_mem_acts_iff hg).mp hw
    obtain ⟨f, hdec, rfl⟩ := (mem_stream_iff hshape hd σ a.name g).mp ⟨a, ha, rfl, hs⟩
    exact ⟨a.name, f, hdec, rfl, hchain⟩
  · exact (NodupApps.of_empty hf.find).run _

/-- A pattern read by one application and a file written by another. -/
def patternDocument : Json :=
  .obj [("name", .str "wf"), ("IO_Graph", .arr [
    .obj [("name", .str "post process"), ("input_stream", .arr [.str "/data/*"]),
      ("output_stream", .arr [])],
    .obj [("name", .str "simulate"), ("input_stream", .arr []),
      ("output_stream", .arr [.str "out"])]])]

theorem patternDocument_ioGraph : ∃ e, parseDoc jsoncons posix patternDocument "/data" false = .ok e ∧
    "postprocess" ∈ e.apps .input "/data/*" ∧ ∀ σ p, (e.apps σ p).Nodup := by
  obtain ⟨e, he⟩ : ∃ e, parseDoc jsoncons posix patternDocument "/data" false = .ok e :=
    exists_ok_of_thrown (by decide +kernel)
  obtain ⟨hcomplete, -, -, -, hnodup⟩ := ioGraph_complete_and_sound he
  refine ⟨e, he, ?_, hnodup⟩
  have hname : eraseSpaces "post process" = "postprocess" := by decide +kernel
  have hpath : resolve "/data/*" "/data" = "/data/*" := by decide +kernel
  have hmem := hcomplete .input "post process" "/data/*"
    ⟨_, rfl, _, List.mem_cons_self, rfl, ⟨["/data/*"], rfl, List.mem_cons_self⟩⟩
    (by rw [hpath]; decide)
  rwa [hname, hpath] at hmem

end CapioCl
