import CapioCl.Act

/-!
# Runs on concrete paths

A pattern without glob characters matches only itself. In a store whose keys are all concrete a
creation therefore copies nothing, and a run of acts on concrete paths treats each key on its own:
up to the directory counts and the kind, the entry of a key is what the writes to that key make of
the default entry (`core_view_run`).

* `field_effects`, `mem_apps_effects`: each field is a register, or a grow-only set.
-/

namespace CapioCl

open CapioCl.Lib

/-- Every key is concrete. -/
def AllConcrete (e : Engine) : Prop := ∀ k, (e.find k).isSome → Concrete k

/-- A creation copies nothing. -/
theorem source_concrete {P : Platform} {path : String} {e : Engine} (h : AllConcrete e)
    (hp : e.find path = none) : e.source P path = none := by
  rw [Engine.source_eq_none]
  intro k hk hm
  rw [(P.fnmatch_literal (h k hk)).mp hm, hp] at hk
  exact absurd hk (by simp)

theorem newEntry_concrete {P : Platform} {path : String} {e : Engine} (h : AllConcrete e)
    (hp : e.find path = none) :
    e.newEntry P path = { storeInMemory := e.storeAllInMemory } :=
  Engine.newEntry_of_none (source_concrete h hp)

theorem AllConcrete.perform {P : Platform} {act : Act} {e : Engine} (h : AllConcrete e)
    (hact : ∀ p, act.path? = some p → Concrete p) : AllConcrete (act.perform P e) := by
  intro k hk
  rcases (isSome_find_perform P act e k).mp hk with hk | ⟨hk, -⟩
  · exact h k hk
  · exact hact k hk

theorem AllConcrete.run {P : Platform} {acts : List Act} {e : Engine} (h : AllConcrete e)
    (hacts : ∀ act ∈ acts, ∀ p, act.path? = some p → Concrete p) :
    AllConcrete (CapioCl.run P acts e) :=
  Registers.foldl_invariant acts (fun _ act hact hs => hs.perform (hacts act hact)) h

/-! ## One key at a time -/

/-- The entry without what directories count and mark. -/
def CapioCLEntry.core (entry : CapioCLEntry) : CapioCLEntry :=
  { entry with directoryChildrenCount := 0, isFile := true, enableDirectoryCountUpdate := true }

@[simp] theorem core_counted (entry : CapioCLEntry) : entry.counted.core = entry.core :=
  @CapioCLEntry.get_counted _ CapioCLEntry.core (fun _ _ _ => rfl) entry

theorem core_apply (w : Write) {x y : CapioCLEntry} (h : x.core = y.core) :
    (w.apply x).core = (w.apply y).core := by
  have hself : ∀ z : CapioCLEntry, (w.apply z).core = (w.apply z.core).core := by
    intro z
    cases w with
    | app σ name => cases σ <;> rfl
    | _ => rfl
  rw [hself x, hself y, h]

/-- The entry of a key, or the one a creation would make for it. -/
def Engine.view (k : String) (e : Engine) : CapioCLEntry :=
  (e.find k).getD { storeInMemory := e.storeAllInMemory }

/-- What an act does to the entry of `k`. -/
def Act.effect (k : String) : Act → CapioCLEntry → CapioCLEntry
  | .set path write, entry => if k = path then write.apply entry else entry
  | .storeAll, entry => { entry with storeInMemory := true }
  | .create _, entry => entry
  | .directories, entry => entry

theorem effect_set (k path : String) (w : Write) (entry : CapioCLEntry) :
    (Act.set path w).effect k entry = if k = path then w.apply entry else entry := rfl

/-- What a list of acts does to the entry of `k`. -/
def effects (k : String) (acts : List Act) (entry : CapioCLEntry) : CapioCLEntry :=
  acts.foldl (fun entry act => act.effect k entry) entry

theorem core_effect (k : String) (act : Act) {x y : CapioCLEntry} (h : x.core = y.core) :
    (act.effect k x).core = (act.effect k y).core := by
  cases act with
  | create p => exact h
  | directories => exact h
  | storeAll =>
    have hself : ∀ z : CapioCLEntry, ({ z with storeInMemory := true } : CapioCLEntry).core =
        { z.core with storeInMemory := true } := fun z => rfl
    change ({ x with storeInMemory := true } : CapioCLEntry).core = _
    rw [hself, h]
    rfl
  | set p w =>
    rw [effect_set, effect_set]
    split
    · exact core_apply w h
    · exact h

theorem core_effects (k : String) (acts : List Act) {x y : CapioCLEntry} (h : x.core = y.core) :
    (effects k acts x).core = (effects k acts y).core := by
  induction acts generalizing x y with
  | nil => exact h
  | cons act acts ih => exact ih (core_effect k act h)

theorem core_view_newFile {P : Platform} {e : Engine} (h : AllConcrete e) (path k : String) :
    ((e._newFile P path).view k).core = (e.view k).core := by
  have hmap := Engine.map_find_newFile core_counted P path e k
  have hview : ∀ e : Engine, (e.view k).core =
      ((e.find k).map CapioCLEntry.core).getD { storeInMemory := e.storeAllInMemory } := by
    intro e
    unfold Engine.view
    cases e.find k <;> rfl
  rw [hview, hview, hmap, (Engine.frame_newFile P path e).2]
  split
  · rename_i hc
    obtain ⟨rfl, -, hnone⟩ := hc
    rw [newEntry_concrete h hnone, hnone]
    rfl
  · rfl

/-- **One act, seen from one key.** -/
theorem core_view_perform {P : Platform} {e : Engine} (h : AllConcrete e) (act : Act) {k : String}
    (hk : k ≠ "") : ((act.perform P e).view k).core = (act.effect k (e.view k)).core := by
  cases act with
  | create p => exact core_view_newFile h p k
  | set p w =>
    have hnew := core_view_newFile (P := P) h p k
    change ((e.setter P p w.apply).view k).core = _
    rw [effect_set]
    by_cases hkp : k = p
    · subst hkp
      obtain ⟨entry, hentry⟩ := Option.isSome_iff_exists.mp (Engine.find_newFile_isSome P hk e)
      have hset : (e.setter P k w.apply).view k = w.apply ((e._newFile P k).view k) := by
        unfold Engine.view
        rw [Engine.find_setter, if_pos ⟨rfl, hk⟩, hentry]
        rfl
      rw [if_pos rfl, hset]
      exact core_apply w hnew
    · have hset : (e.setter P p w.apply).view k = (e._newFile P p).view k := by
        unfold Engine.view
        rw [Engine.find_setter, if_neg fun hc => hkp hc.1, (Engine.frame_setter P p w.apply e).2,
          (Engine.frame_newFile P p e).2]
      rw [if_neg hkp, hset, hnew]
  | directories =>
    change ((e.setAllDirectories P).view k).core = (e.view k).core
    unfold Engine.view
    rw [Engine.find_setAllDirectories, (Engine.frame_setAllDirectories P e).2.1]
    cases e.find k with
    | none => rfl
    | some entry =>
      rw [Option.map_some, if_neg hk]
      rfl
  | storeAll =>
    change ((e.setAllStoreInMemory P).view k).core =
      ({ e.view k with storeInMemory := true } : CapioCLEntry).core
    unfold Engine.view
    rw [Engine.find_setAllStoreInMemory, (Engine.frame_setAllStoreInMemory P e).2.1]
    cases e.find k with
    | none => rfl
    | some entry =>
      rw [Option.map_some, if_neg hk]
      rfl

/-- **A run, seen from one key**: the acts on that key, one after another. -/
theorem core_view_run {P : Platform} {k : String} (hk : k ≠ "") {acts : List Act} {e : Engine}
    (h : AllConcrete e) (hacts : ∀ act ∈ acts, ∀ p, act.path? = some p → Concrete p) :
    ((run P acts e).view k).core = (effects k acts (e.view k)).core := by
  induction acts generalizing e with
  | nil => rfl
  | cons act acts ih =>
    rw [run_cons, ih (h.perform (hacts act List.mem_cons_self))
      fun a ha => hacts a (List.mem_cons_of_mem act ha)]
    exact core_effects k acts (core_view_perform h act hk)

/-! ## The fields -/

namespace Write

def commitRule? : Write → Option String
  | .commitRule rule => some rule
  | _ => none

def fireRule? : Write → Option String
  | .fireRule rule => some rule
  | _ => none

def closeCount? : Write → Option Int
  | .closeCount num => some num
  | _ => none

def fileDeps? : Write → Option (List String)
  | .fileDeps dependencies => some dependencies
  | _ => none

def permanent? : Write → Option Bool
  | .permanent value => some value
  | _ => none

def excluded? : Write → Option Bool
  | .excluded value => some value
  | _ => none

def storeInMemory? : Write → Option Bool
  | .storeInMemory value => some value
  | _ => none

end Write

/-- The write of an act to `k`. `storeAll` writes to every key. -/
def Act.on (k : String) : Act → Option Write
  | .set path write => if k = path then some write else none
  | .storeAll => some (.storeInMemory true)
  | .create _ => none
  | .directories => none

/-- What an act assigns to a field of `k`. -/
def Act.assigns {α : Type} (val : Write → Option α) (k : String) (act : Act) : Option α :=
  (act.on k).bind val

theorem on_set (k path : String) (w : Write) :
    (Act.set path w).on k = if k = path then some w else none := rfl

theorem effect_eq (k : String) (act : Act) (entry : CapioCLEntry) :
    act.effect k entry = match act.on k with
      | some w => w.apply entry
      | none => entry := by
  cases act with
  | set p w =>
    rw [effect_set, on_set]
    split <;> rfl
  | _ => rfl

/-- **A field is a register.** -/
theorem field_effects {α : Type} {get : CapioCLEntry → α} {val : Write → Option α}
    (hget : ∀ w entry, get (w.apply entry) = (val w).getD (get entry)) (k : String)
    (acts : List Act) (entry : CapioCLEntry) :
    get (effects k acts entry) =
      (Registers.last (Act.assigns val k) acts).getD (get entry) := by
  refine Registers.foldl_register (fun x act => ?_) acts entry
  rw [effect_eq]
  unfold Act.assigns
  cases act.on k with
  | none => rfl
  | some w => exact hget w x

/-- The applications of a key are a grow-only set. -/
theorem mem_apps_effects (σ : Stream) (k c : String) (acts : List Act) (entry : CapioCLEntry) :
    c ∈ (effects k acts entry).apps σ ↔
      c ∈ entry.apps σ ∨ Act.set k (.app σ c) ∈ acts := by
  have hstep : ∀ (x : CapioCLEntry) (act : Act), c ∈ (act.effect k x).apps σ ↔
      c ∈ x.apps σ ∨ act = .set k (.app σ c) := by
    intro x act
    cases act with
    | set p w =>
      rw [effect_set]
      by_cases hkp : k = p
      · subst hkp
        rw [if_pos rfl, mem_apps_write]
        simp
      · rw [if_neg hkp]
        refine (or_iff_left fun h => hkp ?_).symm
        injection h with h
        exact h.symm
    | create p => simp [Act.effect]
    | directories => simp [Act.effect]
    | storeAll =>
      cases σ <;> simp [Act.effect, CapioCLEntry.apps]
  refine (@Registers.foldl_grow Act CapioCLEntry (fun x act => act.effect k x)
    (fun x => c ∈ x.apps σ) (fun act => act = .set k (.app σ c)) hstep acts entry).trans ?_
  simp

/-- **The entry of a key after a concrete run from an empty store.** -/
theorem core_of_find_run {P : Platform} {acts : List Act} {e : Engine} {k : String}
    {entry : CapioCLEntry} (hempty : ∀ k, e.find k = none) (hs : e.storeAllInMemory = false)
    (hacts : ∀ act ∈ acts, ∀ p, act.path? = some p → Concrete p)
    (h : (run P acts e).find k = some entry) : k ≠ "" ∧
      entry.core = (effects k acts {}).core := by
  have hk : k ≠ "" := by
    have hsome := (isSome_find_run P k acts e).mp (by rw [h]; rfl)
    rw [hempty] at hsome
    exact (hsome.resolve_left (by simp)).2
  have hconc : AllConcrete e := by
    intro q hq
    rw [hempty] at hq
    exact absurd hq (by simp)
  have hview : e.view k = {} := by
    unfold Engine.view
    rw [hempty, hs]
    rfl
  have hrun := core_view_run (P := P) hk hconc hacts
  rw [hview] at hrun
  unfold Engine.view at hrun
  rw [h] at hrun
  exact ⟨hk, hrun⟩

end CapioCl
