import CapioCl.SectionEffects
import Mathlib.Algebra.Order.BigOperators.Group.Finset
import Mathlib.Algebra.Order.Group.Nat
import Mathlib.Algebra.Order.Monoid.Prod
import Mathlib.Data.Prod.Lex

/-!
# Progress

A call whose path has no entry creates it, gives up the lock and calls itself again, and by then
another thread may have removed the entry. As many calls as there are on finitely many threads, they
remove finitely often, so the calls come to an end: a thread that keeps getting its turns returns
from all its calls, whatever the other threads do in between (`calls_return`).

The measure counts, first, the removals that are left on all threads. The sections of the other
calls only add entries, so between two removals the work of a thread counts: the lists of paths it
has still to take, for `setDirectoryFileCount` and `setAllStoreInMemory` visit as many paths as there
are by then, and the sections besides.
-/

namespace CapioCl

open CapioCl.Lib CapioCl.Lib.Interleaving

/-! ## What is left to do -/

/-- The paths with an entry; no call looks for the empty one. -/
def known (e : Engine) (k : String) : Bool := k = "" || (e.find k).isSome

/-- What a task still takes: lists of paths, and sections besides. -/
abbrev Cost : Type := Nat × Nat

/-- What a call takes when its path is found, and when it is not. -/
def Op.costs : Op → String × Cost × Cost
  | .setDirectoryFileCount path _ => (path, (1, 0), (2, 0))
  | .setAllStoreInMemory => ("", (1, 1), (1, 1))
  | .setFileDeps path dependencies =>
    (path, (0, dependencies.length + 2), (0, 2 * dependencies.length + 4))
  | .addFileDependency path _ => (path, (0, 1), (0, 4))
  | .addProducer path _ => (path, (0, 1), (0, 3))
  | .addConsumer path _ => (path, (0, 1), (0, 3))
  | .setCommitRule path _ => (path, (0, 1), (0, 3))
  | .setFireRule path _ => (path, (0, 1), (0, 3))
  | .setPermanent path _ => (path, (0, 1), (0, 3))
  | .setExclude path _ => (path, (0, 1), (0, 3))
  | .setDirectory path => (path, (0, 1), (0, 3))
  | .setFile path => (path, (0, 1), (0, 3))
  | .setCommitedCloseNumber path _ => (path, (0, 1), (0, 3))
  | .setStoreFileInMemory path => (path, (0, 1), (0, 3))
  | .setStoreFileInFileSystem path => (path, (0, 1), (0, 3))
  | .ask _ path => (path, (0, 2), (0, 4))
  | _ => ("", (0, 1), (0, 1))

/-- The same for a task. -/
def Task.costs : Task → String × Cost × Cost
  | .call op => op.costs
  | .create _ => ("", (0, 1), (0, 1))
  | .write _ path _ _ => (path, (0, 1), (0, 3))
  | .permanent _ path => (path, (0, 1), (0, 3))
  | .count path _ => (path, (0, 1), (1, 1))
  | .deps path dependencies => (path, (0, 1), (0, dependencies.length + 3))
  | .storePaths => ("", (1, 0), (1, 0))
  | .finish _ => ("", (0, 1), (0, 1))

/-- What a task takes when the paths in `kn` are found. -/
def Task.work (kn : String → Bool) (t : Task) : Cost :=
  if kn t.costs.1 then t.costs.2.1 else t.costs.2.2

/-- A creation makes its path known to the tasks behind it. -/
def Task.learns (kn : String → Bool) : Task → String → Bool
  | .create path => fun k => kn k || k = path
  | _ => kn

/-- What a stack of tasks takes. -/
def work (kn : String → Bool) : List Task → Cost
  | [] => (0, 0)
  | t :: rest => t.work kn + work (t.learns kn) rest

section Work

variable {kn kn' : String → Bool}

theorem costs_le (t : Task) : t.costs.2.1 ≤ t.costs.2.2 := by
  cases t with
  | call op =>
    change op.costs.2.1 ≤ op.costs.2.2
    cases op <;> (simp [Op.costs]; try omega)
  | _ => simp [Task.costs]

theorem work_task_mono (h : ∀ k, kn k = true → kn' k = true) (t : Task) :
    t.work kn' ≤ t.work kn := by
  unfold Task.work
  by_cases hk : kn t.costs.1 = true
  · rw [if_pos hk, if_pos (h _ hk)]
  · rw [if_neg hk]
    split
    · exact costs_le t
    · exact le_rfl

theorem learns_mono (h : ∀ k, kn k = true → kn' k = true) (t : Task) (k : String) :
    t.learns kn k = true → t.learns kn' k = true := by
  cases t with
  | create path =>
    intro hk
    rcases Bool.or_eq_true_iff.mp hk with hk | hk
    · exact Bool.or_eq_true_iff.mpr (Or.inl (h k hk))
    · exact Bool.or_eq_true_iff.mpr (Or.inr hk)
  | _ => exact h k

/-- **Knowing more is less work.** -/
theorem work_mono (h : ∀ k, kn k = true → kn' k = true) (ts : List Task) :
    work kn' ts ≤ work kn ts := by
  induction ts generalizing kn kn' with
  | nil => exact le_rfl
  | cons t ts ih => exact add_le_add (work_task_mono h t) (ih (learns_mono h t))

theorem le_learns (t : Task) (k : String) (h : kn k = true) : t.learns kn k = true := by
  cases t with
  | create path => exact Bool.or_eq_true_iff.mpr (Or.inl h)
  | _ => exact h

theorem work_append_le (ts rest : List Task) : work kn (ts ++ rest) ≤ work kn ts + work kn rest := by
  induction ts generalizing kn with
  | nil => exact (zero_add _).ge
  | cons t ts ih =>
    change t.work kn + work (t.learns kn) (ts ++ rest) ≤
      t.work kn + work (t.learns kn) ts + work kn rest
    rw [add_assoc]
    refine add_le_add le_rfl (ih.trans (add_le_add le_rfl ?_))
    exact work_mono (le_learns t) rest

/-- Less work in the order of the lists first. -/
theorem toLex_add_lt {a b x y : Cost} (h : toLex a < toLex b) (hxy : x ≤ y) :
    toLex (a + x) < toLex (b + y) := by
  rw [Prod.Lex.toLex_lt_toLex] at h ⊢
  simp only [Prod.fst_add, Prod.snd_add]
  obtain ⟨h1, h2⟩ := hxy
  rcases h with h | ⟨h, h'⟩
  · exact Or.inl (by omega)
  · rcases Nat.lt_or_ge x.1 y.1 with hx | hx
    · exact Or.inl (by omega)
    · exact Or.inr ⟨by omega, by omega⟩

end Work

section Section

theorem known_of_isSome {e e' : Engine} {k : String} (h : known e k = true)
    (hk : (e.find k).isSome → (e'.find k).isSome) : known e' k = true := by
  rcases Bool.or_eq_true_iff.mp h with h | h
  · exact Bool.or_eq_true_iff.mpr (Or.inl h)
  · exact Bool.or_eq_true_iff.mpr (Or.inr (hk h))

variable {J : JsonText} {P : Platform} {t : Task} {e e' : Engine}

/-- Only removals make a known path unknown. -/
theorem known_section (J : JsonText) (P : Platform) (ht : ∀ path, t ≠ .call (.remove path))
    (k : String) (h : known e k = true) : known (t.section J P e).shared k = true := by
  have hrecord : ∀ path entry, known (e.addEntry path entry) k = true := by
    intro path entry
    refine known_of_isSome h fun hk => ?_
    rw [Engine.find_addEntry]
    split
    · rfl
    · exact hk
  have hmodify : ∀ path f, known (e.modify path f) k = true := fun path f =>
    known_of_isSome h fun hk => by rwa [Engine.isSome_find_modify]
  have hnew : ∀ path, known (e._newFile P path) k = true := fun path =>
    known_of_isSome h fun hk => (Engine.find_newFile_isSome_iff P path e k).mpr (Or.inl hk)
  have heffect := section_effect J P t e
  generalize (t.section J P e).shared = e' at heffect ⊢
  cases heffect with
  | keep => exact h
  | create path => exact hnew path
  | write => exact hmodify _ _
  | depend => exact hmodify _ _
  | storeAll => exact h
  | @whole op hcall hwhole =>
    subst hcall
    cases op with
    | add path =>
      change known (Engine.add P path _ _ _ _ _ _ _ e) k = true
      unfold Engine.add
      split
      · exact h
      · refine known_of_isSome (hnew path) fun hk => ?_
        rwa [Engine.isSome_find_modify]
    | remove path => exact absurd rfl (ht path)
    | addEntry path entry => exact hrecord path entry
    | receive datagram =>
      cases hr : (Op.receive datagram).record J e with
      | none =>
        rw [perform_receive_none J P hr]
        exact h
      | some record =>
        rw [perform_record J P hr]
        exact hrecord record.1 record.2
    | setWorkflowName => exact h
    | _ => exact hwhole.elim

/-- What the tasks behind a creation may rely on is so when their turn comes. -/
theorem known_of_learns (J : JsonText) (P : Platform) (ht : ∀ path, t ≠ .call (.remove path))
    (k : String) (h : t.learns (known e) k = true) : known (t.section J P e).shared k = true := by
  cases t with
  | create path =>
    rcases Bool.or_eq_true_iff.mp h with h | h
    · exact known_section J P ht k h
    · obtain rfl := of_decide_eq_true h
      by_cases hk : k = ""
      · exact Bool.or_eq_true_iff.mpr (Or.inl (decide_eq_true hk))
      · exact Bool.or_eq_true_iff.mpr (Or.inr (Engine.find_newFile_isSome P hk e))
  | _ => exact known_section J P ht k h

theorem known_eq_false {k : String} (h : known e k = false) : k ≠ "" ∧ e.find k = none := by
  obtain ⟨h1, h2⟩ := Bool.or_eq_false_iff.mp h
  exact ⟨of_decide_eq_false h1, Option.isSome_eq_false_iff.mp h2 |> Option.isNone_iff_eq_none.mp⟩

theorem work_of_known {kn : String → Bool} (h : kn t.costs.1 = true) : t.work kn = t.costs.2.1 :=
  if_pos h

/-- A setter that has not written its field has created the entry, or is about to. -/
theorem work_write {inside : Bool} (path : String) {w : Write} {last : Option Op} (retry : Task)
    (hpath : retry.costs.1 = path) {y : Cost} (hy : toLex ((0, 0) : Cost) < toLex y)
    (hretry : known e path = false →
      toLex ((0, if inside then 0 else 1) + retry.costs.2.1) < toLex y) :
    toLex (work (known (Section.write P inside path w last retry e).shared)
      (Section.write P inside path w last retry e).tasks) < toLex y := by
  cases hknown : known e path with
  | true =>
    have htasks : (Section.write P inside path w last retry e).tasks = [] := by
      unfold Section.write
      by_cases hp : path = ""
      · rw [if_pos hp]
        rfl
      · have hsome : (e.find path).isSome := by simpa [known, hp] using hknown
        obtain ⟨x, hx⟩ := Option.isSome_iff_exists.mp hsome
        rw [if_neg hp, hx]
        rfl
    rw [htasks]
    exact hy
  | false =>
    obtain ⟨hp, hnone⟩ := known_eq_false hknown
    have hlt := hretry hknown
    unfold Section.write
    rw [if_neg hp, hnone]
    dsimp only
    cases inside with
    | true =>
      have hnew : known (e._newFile P path) retry.costs.1 = true := by
        rw [hpath]
        exact Bool.or_eq_true_iff.mpr (Or.inr (Engine.find_newFile_isSome P hp e))
      rw [if_pos rfl]
      change toLex (retry.work _ + 0) < _
      rw [work_of_known hnew, add_zero]
      rwa [if_pos rfl, show ((0, 0) : Cost) = 0 from rfl, zero_add] at hlt
    | false =>
      have hlearned : (Task.create path).learns (known e) retry.costs.1 = true := by
        rw [hpath]
        exact Bool.or_eq_true_iff.mpr (Or.inr (decide_eq_true rfl))
      rw [if_neg Bool.false_ne_true]
      change toLex ((0, 1) + (retry.work _ + 0)) < _
      rw [work_of_known hlearned, add_zero]
      exact hlt

/-- A loop over paths takes no list of its own. -/
theorem work_loop_fst (kn : String → Bool) (paths : List String) (w : Write) (end' : Task) :
    (work kn (paths.map (fun p => .write true p w none) ++ [end'])).1 = (end'.work kn).1 := by
  induction paths with
  | nil => rfl
  | cons p paths ih =>
    change ((if kn p then ((0, 1) : Cost) else (0, 3)) +
      work kn (paths.map (fun p => .write true p w none) ++ [end'])).1 = _
    rw [Prod.fst_add, ih]
    split <;> exact Nat.zero_add _

@[simp] theorem work_create (kn : String → Bool) (path : String) :
    (Task.create path).work kn = (0, 1) := by
  unfold Task.work
  split <;> rfl

theorem work_creates (kn : String → Bool) (paths : List String) :
    work kn (paths.map .create) = (0, paths.length) := by
  induction paths generalizing kn with
  | nil => rfl
  | cons p paths ih =>
    change (Task.create p).work kn + work ((Task.create p).learns kn) (paths.map .create) = _
    rw [ih, work_create]
    simp [Nat.add_comm]

theorem cost_lt {a b : Cost} (h : a.1 < b.1 ∨ a.1 = b.1 ∧ a.2 < b.2) : toLex a < toLex b :=
  Prod.Lex.toLex_lt_toLex.mpr h

/-- A setter between its sections. -/
theorem work_write_self (P : Platform) (inside : Bool) (path : String) (w : Write)
    (last : Option Op) (e : Engine) :
    toLex (work (known (Section.write P inside path w last (.write inside path w last) e).shared)
        (Section.write P inside path w last (.write inside path w last) e).tasks) <
      toLex ((if known e path then (0, 1) else (0, 3)) : Cost) := by
  refine work_write path (.write inside path w last) rfl (cost_lt ?_) fun hk => cost_lt ?_
  · split <;> simp
  · rw [hk]
    cases inside <;> simp [Task.costs]

/-- A query that misses its entry creates it and goes on. -/
theorem work_missing {path : String} {retry : Task} {y : Cost} (hpath : retry.costs.1 = path)
    (hy : retry.costs.2.1.1 < y.1 ∨ retry.costs.2.1.1 = y.1 ∧ retry.costs.2.1.2 + 1 < y.2) :
    toLex (work (known e) [.create path, retry]) < toLex y := by
  have hlearned : (Task.create path).learns (known e) retry.costs.1 = true := by
    rw [hpath]
    exact Bool.or_eq_true_iff.mpr (Or.inr (decide_eq_true rfl))
  have hwork : work (known e) [.create path, retry] = (0, 1) + retry.costs.2.1 := by
    change (Task.create path).work _ + (retry.work _ + 0) = _
    rw [work_create, work_of_known hlearned, add_zero]
  rw [hwork]
  refine cost_lt ?_
  simp only [Prod.fst_add, Prod.snd_add]
  omega

theorem work_permanent (q : Query) (path : String) (e : Engine) :
    toLex (work (known (Section.permanent q path e).shared) (Section.permanent q path e).tasks) <
      toLex ((if known e path then (0, 1) else (0, 3)) : Cost) := by
  have hdone : toLex ((0, 0) : Cost) < toLex ((if known e path then (0, 1) else (0, 3)) : Cost) := by
    refine cost_lt ?_
    split <;> simp
  unfold Section.permanent
  split
  · exact hdone
  · rename_i hp
    split
    · exact hdone
    · rename_i hfind
      have hk : known e path = false := by simp [known, hp, hfind]
      rw [hk]
      exact work_missing rfl (Or.inr ⟨rfl, by simp [Task.costs]⟩)

/-- A query that misses its entry creates it and goes on. -/
theorem work_askMissing {q : Query} {path : String} (retry : Task)
    (hmissing : ¬ (path = "" ∨ (e.find path).isSome)) (hpath : retry.costs.1 = path)
    (h1 : retry.costs.2.1.1 = 0) (h2 : retry.costs.2.1.2 ≤ 2) :
    toLex (work (known e) [.create path, retry]) < toLex ((Task.call (.ask q path)).work (known e)) := by
  have hk : known e path = false := by simpa [known] using hmissing
  change _ < toLex (if known e path then ((0, 2) : Cost) else (0, 4))
  rw [hk]
  refine work_missing hpath (Or.inr ⟨h1, ?_⟩)
  change _ + 1 < 4
  omega

/-- The costs of a setter that goes through no other path. -/
theorem costs_of_write? {op : Op} {path : String} {w : Write} (hop : ¬ op.Loops)
    (hw : op.write? = some (path, w)) : op.costs = (path, (0, 1), (0, 3)) := by
  cases op with
  | setCommitRule p rule =>
    change (if commitRules.Valid rule then some (p, Write.commitRule rule) else none) = _ at hw
    split at hw
    · rw [← (Prod.mk.inj (Option.some.inj hw)).1]
      rfl
    · exact absurd hw nofun
  | setFireRule p rule =>
    change (if fireRules.Valid rule then some (p, Write.fireRule rule) else none) = _ at hw
    split at hw
    · rw [← (Prod.mk.inj (Option.some.inj hw)).1]
      rfl
    · exact absurd hw nofun
  | setDirectoryFileCount => exact absurd trivial hop
  | setFileDeps => exact absurd trivial hop
  | _ =>
    first
      | rw [← (Prod.mk.inj (Option.some.inj hw)).1]
        rfl
      | exact absurd hw nofun

theorem work_call (J : JsonText) (P : Platform) (op : Op) (e : Engine) :
    toLex (work (known (op.section J P e).shared) (op.section J P e).tasks) <
      toLex ((Task.call op).work (known e)) := by
  have hdone : toLex ((0, 0) : Cost) < toLex ((Task.call op).work (known e)) := by
    refine cost_lt ?_
    unfold Task.work
    split <;> cases op <;> simp [Task.costs, Op.costs]
  have hleads := op.leads_section J P e
  generalize op.section J P e = o at hleads
  cases hleads with
  | whole | created | skipped | raised | depends | answered => exact hdone
  | @write op inside path w hop hw =>
    change _ < toLex (if known e op.costs.1 then op.costs.2.1 else op.costs.2.2)
    rw [costs_of_write? hop hw]
    exact work_write_self P inside path w (some op) e
  | @marks path num =>
    refine cost_lt (Or.inl ?_)
    rw [work_loop_fst]
    unfold Task.work
    cases hk : known e path <;> simp [Task.costs, Op.costs, hk]
  | @declares path dependencies =>
    have hle := @work_append_le (known e) (dependencies.map .create) [Task.deps path dependencies]
    rw [work_creates] at hle
    refine lt_of_le_of_lt (Prod.Lex.toLex_mono hle) (cost_lt (Or.inr ?_))
    change 0 + ((Task.deps path dependencies).work (known e) + 0).1 = _ ∧
      dependencies.length + ((Task.deps path dependencies).work (known e) + 0).2 < _
    unfold Task.work
    cases hk : known e path <;>
      simp only [Task.costs, Op.costs, hk, if_true, Bool.false_eq_true, if_false, add_zero] <;>
      exact ⟨trivial, by omega⟩
  | storesAll =>
    refine cost_lt (Or.inr ?_)
    dsimp only [work]
    unfold Task.work
    split <;> split <;> simp [Task.costs, Op.costs]
  | @dependMissing path fileDependency hp hnone =>
    have hk : known e path = false := by simp [known, hp, hnone]
    refine cost_lt ?_
    simp only [work, work_create, Task.learns]
    simp [Task.work, Task.costs, Op.costs, hk]
  | answeredMissing =>
    refine cost_lt ?_
    simp only [work, work_create]
    unfold Task.work
    split <;> simp [Task.costs, Op.costs]
  | @askMissing q path hmissing =>
    exact work_askMissing (.call (.ask q path)) hmissing rfl rfl le_rfl
  | @kindMissing q path _ hmissing =>
    exact work_askMissing (.permanent q path) hmissing rfl rfl (by simp [Task.costs])

/-- **A section leaves less to do.** -/
theorem work_section (J : JsonText) (P : Platform) (t : Task) (e : Engine) :
    toLex (work (known (t.section J P e).shared) (t.section J P e).tasks) <
      toLex (t.work (known e)) := by
  cases t with
  | call op => exact work_call J P op e
  | create path =>
    rw [work_create]
    exact cost_lt (Or.inr ⟨rfl, Nat.zero_lt_one⟩)
  | write inside path w last => exact work_write_self P inside path w last e
  | permanent q path => exact work_permanent q path e
  | count path num =>
    refine work_write path (.call (.setDirectoryFileCount path num)) rfl (cost_lt ?_)
      fun hk => cost_lt ?_
    · unfold Task.work
      split <;> simp [Task.costs]
    · simp [Task.work, Task.costs, Op.costs, hk]
  | deps path dependencies =>
    refine work_write path (.call (.setFileDeps path dependencies)) rfl (cost_lt ?_)
      fun hk => cost_lt ?_
    · unfold Task.work
      split <;> simp [Task.costs]
    · simp [Task.work, Task.costs, Op.costs, hk]
  | storePaths =>
    refine cost_lt (Or.inl ?_)
    change (work (known e) ((e.getPaths P).map (fun p => .write true p (.storeInMemory true) none) ++
      [.finish .setAllStoreInMemory])).1 < _
    rw [work_loop_fst]
    unfold Task.work
    split <;> split <;> simp [Task.costs]
  | finish op =>
    refine cost_lt ?_
    unfold Task.work
    split <;> exact Or.inr ⟨rfl, Nat.zero_lt_one⟩

/-- **A turn leaves less to do**, unless it removes an entry. -/
theorem work_turn (J : JsonText) (P : Platform) (ht : ∀ path, t ≠ .call (.remove path))
    (rest : List Task) :
    toLex (work (known (t.section J P e).shared) ((t.section J P e).tasks ++ rest)) <
      toLex (work (known e) (t :: rest)) := by
  refine lt_of_le_of_lt (Prod.Lex.toLex_mono (work_append_le _ rest)) ?_
  exact toLex_add_lt (work_section J P t e) (work_mono (known_of_learns J P ht) rest)

end Section

/-! ## The removals that are left -/

/-- The calls of `remove`. -/
def Op.removes : Op → Bool
  | .remove _ => true
  | _ => false

/-- The removals a stack of tasks has still to make. -/
def removals (ts : List Task) : Nat := (ts.flatMap Task.todo).countP Op.removes

section Removals

variable {J : JsonText} {P : Platform} {t : Task} {e : Engine} (rest : List Task)

/-- A section adds no removals. -/
theorem removals_section_le (J : JsonText) (P : Platform) (t : Task) (e : Engine) :
    removals ((t.section J P e).tasks ++ rest) ≤ removals (t :: rest) := by
  unfold removals
  rw [List.flatMap_append, List.flatMap_cons, ← todo_section J P t e, List.countP_append,
    List.countP_append]
  unfold Section.todo
  rw [List.countP_append]
  omega

theorem removals_remove (J : JsonText) (P : Platform) (path : String) (e : Engine) :
    removals (((Task.call (.remove path)).section J P e).tasks ++ rest) <
      removals (.call (.remove path) :: rest) := by
  have hcons : removals (.call (.remove path) :: rest) = removals rest + 1 :=
    List.countP_cons_of_pos rfl
  rw [hcons]
  exact Nat.lt_succ_self _

end Removals

/-! ## The end of the calls -/

/-- **Every call returns.** However finitely many threads interleave, one that keeps getting its
turns returns from all its calls, those that found no entry and began again among them. -/
theorem calls_return {ι : Type} [DecidableEq ι] [Fintype ι] (J : JsonText) (e : Engine)
    (calls : ι → List LockedOp) (schedule : Nat → ι × Platform) (i : ι)
    (hturns : ∀ n, ∃ m, n ≤ m ∧ (schedule m).1 = i) :
    ∃ n, (configAlong (Task.section J) (threads e calls) schedule n).pending i = [] ∧
      (logOf i (configAlong (Task.section J) (threads e calls) schedule n)).map Return.call =
        (calls i).map LockedOp.op := by
  let rank : Config ι Task Engine Return → ℕ ×ₗ (ℕ ×ₗ ℕ) := fun c =>
    toLex (∑ j, removals (c.pending j), toLex (work (known c.shared) (c.pending i)))
  -- one turn, of any thread, from any configuration
  have hturn : ∀ (c : Config ι Task Engine Return) (j : ι) (P : Platform) (t : Task) (rest),
      c.pending j = t :: rest → rank (turn (Task.section J) c j P) ≤ rank c ∧
        (j = i → rank (turn (Task.section J) c j P) < rank c) := by
    intro c j P t rest hp
    rw [turn_of_cons hp]
    have hle : ∀ l, removals (Function.update c.pending j
        ((t.section J P c.shared).tasks ++ rest) l) ≤ removals (c.pending l) := by
      intro l
      by_cases hl : l = j
      · subst hl
        rw [Function.update_self, hp]
        exact removals_section_le rest J P t c.shared
      · rw [Function.update_of_ne hl]
    have hsum := Finset.sum_le_sum fun l (_ : l ∈ Finset.univ) => hle l
    by_cases ht : ∀ path, t ≠ .call (.remove path)
    · by_cases hi : j = i
      · subst hi
        suffices hlt : rank _ < rank c from ⟨hlt.le, fun _ => hlt⟩
        refine Prod.Lex.toLex_lt_toLex'.mpr ⟨hsum, fun _ => ?_⟩
        dsimp only
        rw [Function.update_self, hp]
        exact work_turn J P ht rest
      · refine ⟨Prod.Lex.toLex_le_toLex'.mpr ⟨hsum, fun _ => ?_⟩, fun h => absurd h hi⟩
        dsimp only
        rw [Function.update_of_ne (Ne.symm hi)]
        exact Prod.Lex.toLex_mono (work_mono (known_section J P ht) _)
    · obtain ⟨path, hpath⟩ := not_forall_not.mp ht
      subst hpath
      suffices hlt : rank _ < rank c from ⟨hlt.le, fun _ => hlt⟩
      refine Prod.Lex.toLex_lt_toLex.mpr (Or.inl ?_)
      refine Finset.sum_lt_sum (fun l _ => hle l) ⟨j, Finset.mem_univ j, ?_⟩
      dsimp only
      rw [Function.update_self, hp]
      exact removals_remove rest J P path c.shared
  obtain ⟨n, hn⟩ := @finishes ι Platform Task Engine Return _ (Task.section J) (threads e calls)
    schedule (ℕ ×ₗ (ℕ ×ₗ ℕ)) _ _ rank i
    (fun n t rest hp hi => (hturn _ _ _ t rest (hi ▸ hp)).2 hi)
    (fun n _ => by
      change rank (turn _ _ _ _) ≤ _
      cases hp : (configAlong (Task.section J) (threads e calls) schedule n).pending (schedule n).1 with
      | nil => rw [turn_of_nil hp]
      | cons t rest => exact (hturn _ _ _ t rest hp).1) hturns
  refine ⟨n, hn, ?_⟩
  have horder := returns_in_order J e calls ((List.range n).map schedule) n i
  rw [sectionsAt, ← configAlong_eq, hn] at horder
  exact (List.append_nil _).symm.trans horder

/-- Each thread has every second turn. -/
theorem setAndAsk_returns :
    ∃ n, (configAlong (Task.section jsonLiterals) (threads {} setAndAsk)
        (fun n => (decide (n % 2 = 0), posix)) n).pending true = [] ∧
      (logOf true (configAlong (Task.section jsonLiterals) (threads {} setAndAsk)
        (fun n => (decide (n % 2 = 0), posix)) n)).map Return.call =
          (setAndAsk true).map LockedOp.op :=
  calls_return jsonLiterals {} setAndAsk _ true fun n => ⟨2 * n, by omega, by simp⟩

end CapioCl
