import CapioCl.Operations

/-!
# Invariants of the store

Three invariants that the setters keep and other calls may break. `add` and the records of the
dynamic API are stored as they come: their rules are not sanitized, their lists not compared with
what is there, and the store-all flag is not looked at. For each invariant the calls that keep it
are told exactly, and with them the runs.

* `wellFormed_run_iff`: keys are nonempty and rules are rules of the language.
* `listSets_run_iff`: no list has an element twice.
* `storeAll_run_iff`: after `setAllStoreInMemory` everything is stored in memory.
-/

namespace CapioCl

open CapioCl.Lib

variable {J : JsonText} {P : Platform} {op : Op} {e : Engine}

/-! ## Rules -/

/-- The rules are rules of the language. -/
def CapioCLEntry.RulesValid (entry : CapioCLEntry) : Prop :=
  commitRules.Valid entry.commitRule ∧ fireRules.Valid entry.fireRule

/-- Keys are nonempty and rules valid. -/
structure WellFormed (e : Engine) : Prop where
  nonempty : e.find "" = none
  rules : e.All CapioCLEntry.RulesValid

theorem WellFormed.of_empty (he : e.capioClEntries = ∅) : WellFormed e := by
  refine ⟨Engine.find_of_empty he "", fun k x hx => ?_⟩
  rw [Engine.find_of_empty he] at hx
  cases hx

theorem rulesValid_invariant : EntryInvariant CapioCLEntry.RulesValid :=
  ⟨⟨Or.inr (Or.inr (Or.inr rfl)), Or.inr rfl⟩, fun _ _ _ _ _ hx => hx⟩

theorem rulesValid_apply {w : Write} (hc : ∀ rule, w = .commitRule rule → commitRules.Valid rule)
    (hf : ∀ rule, w = .fireRule rule → fireRules.Valid rule) {x : CapioCLEntry}
    (hx : x.RulesValid) : (w.apply x).RulesValid := by
  cases w with
  | commitRule rule => exact ⟨hc rule rfl, hx.2⟩
  | fireRule rule => exact ⟨hx.1, hf rule rfl⟩
  | app σ name => cases σ <;> exact hx
  | _ => exact hx

/-- The rules among the arguments of a call are rules of the language. -/
def Op.RulesGivenValid : Op → Prop
  | .add _ _ _ commitRule fireRule _ _ _ =>
    commitRules.Valid commitRule ∧ fireRules.Valid fireRule
  | .setCommitRule _ rule => commitRules.Valid rule
  | .setFireRule _ rule => fireRules.Valid rule
  | _ => True

/-- The call looks at the rule it is given. -/
def Op.Sanitizes : Op → Prop
  | .setCommitRule path _ => path ≠ ""
  | .setFireRule path _ => path ≠ ""
  | _ => False

/-- The call is given a rule that is none of the language, as an argument or in a record. -/
def Op.GivesBadRule (J : JsonText) (e : Engine) (op : Op) : Prop :=
  (∃ path entry, op.record J e = some (path, entry) ∧ ¬ entry.RulesValid) ∨ ¬ op.RulesGivenValid

/-- A record has a path and valid rules, and other rules are valid or looked at. -/
def Op.Sanitized (J : JsonText) (e : Engine) (op : Op) : Prop :=
  (∀ path entry, op.record J e = some (path, entry) → path ≠ "" ∧ entry.RulesValid) ∧
    (op.RulesGivenValid ∨ op.Sanitizes)

/-- The empty path becomes a key only through a record. -/
theorem find_empty_newFile (P : Platform) (path : String) (e : Engine) :
    (e._newFile P path).find "" = none ↔ e.find "" = none := by
  rw [← Option.not_isSome_iff_eq_none, Engine.find_newFile_isSome_iff,
    ← Option.not_isSome_iff_eq_none]
  simp only [or_iff_left_iff_imp, not_iff_not]
  rintro ⟨rfl, hne⟩
  exact absurd rfl hne

theorem find_empty_run (P : Platform) (acts : List Act) (e : Engine) :
    (run P acts e).find "" = none ↔ e.find "" = none := by
  rw [← Option.not_isSome_iff_eq_none, isSome_find_run, ← Option.not_isSome_iff_eq_none]
  simp

namespace WellFormed

theorem newFile (h : WellFormed e) (P : Platform) (path : String) :
    WellFormed (e._newFile P path) :=
  ⟨(find_empty_newFile P path e).mpr h.nonempty, rulesValid_invariant.newFile h.rules P path⟩

/-- The calls that are runs of acts write sanitized rules only. -/
theorem run (h : WellFormed e) (J : JsonText) (P : Platform) (hop : op.IsRun) :
    WellFormed (op.perform J P e).2 := by
  rw [state_perform J P hop]
  refine ⟨(find_empty_run P op.acts e).mpr h.nonempty,
    rulesValid_invariant.run P h.rules fun path w hmem x hx => ?_⟩
  obtain ⟨hc, hf, -⟩ := write_of_mem_acts hmem
  exact rulesValid_apply hc hf hx

theorem addEntry_iff (h : WellFormed e) (path : String) (entry : CapioCLEntry) :
    WellFormed (e.addEntry path entry) ↔ path ≠ "" ∧ entry.RulesValid := by
  have hrules : (e.addEntry path entry).All CapioCLEntry.RulesValid ↔ entry.RulesValid :=
    h.rules.addEntry_iff path entry
  have hempty : (e.addEntry path entry).find "" = none ↔ path ≠ "" := by
    rw [Engine.find_addEntry]
    by_cases hp : "" = path
    · rw [if_pos hp]
      exact iff_of_false nofun fun hne => hne hp.symm
    · rw [if_neg hp]
      exact iff_of_true h.nonempty (Ne.symm hp)
  constructor
  · rintro ⟨h1, h2⟩
    exact ⟨hempty.mp h1, hrules.mp h2⟩
  · rintro ⟨h1, h2⟩
    exact ⟨hempty.mpr h1, hrules.mpr h2⟩

theorem addFileDependency (h : WellFormed e) (J : JsonText) (P : Platform)
    (path fileDependency : String) :
    WellFormed ((Op.addFileDependency path fileDependency).perform J P e).2 := by
  change WellFormed (outcome e (e.addFileDependency P path fileDependency)).2
  by_cases hp : path = ""
  · unfold Engine.addFileDependency
    rw [dif_pos hp]
    exact h
  rw [Engine.addFileDependency_eq P hp]
  have hnew := h.newFile P path
  obtain ⟨x, hx⟩ := Option.isSome_iff_exists.mp (Engine.find_newFile_isSome P hp e)
  refine ⟨?_, (hnew.rules.modify_iff hx _).mpr ?_⟩
  · change (Engine.modify path _ _).find "" = none
    rw [Engine.find_modify, if_neg (Ne.symm hp)]
    exact hnew.nonempty
  · obtain ⟨hc, hf⟩ := hnew.rules path x hx
    refine ⟨?_, hf⟩
    change commitRules.Valid (if (e.find path).isSome then x.commitRule else commitRules.onFile)
    split
    · exact hc
    · exact Or.inr (Or.inl rfl)

theorem add_iff (h : WellFormed e) {path : String} (hp : path ≠ "")
    (producers consumers : List String) (commitRule fireRule : String) (permanent exclude : Bool)
    (dependencies : List String) :
    WellFormed (e.add P path producers consumers commitRule fireRule permanent exclude
      dependencies) ↔ commitRules.Valid commitRule ∧ fireRules.Valid fireRule := by
  unfold Engine.add
  rw [if_neg hp]
  have hnew := h.newFile P path
  obtain ⟨x, hx⟩ := Option.isSome_iff_exists.mp (Engine.find_newFile_isSome P hp e)
  constructor
  · exact fun h' => (hnew.rules.modify_iff hx _).mp h'.rules
  · intro hv
    refine ⟨?_, (hnew.rules.modify_iff hx _).mpr hv⟩
    rw [Engine.find_modify, if_neg (Ne.symm hp)]
    exact hnew.nonempty

theorem remove (h : WellFormed e) (path : String) : WellFormed (e.remove path) := by
  refine ⟨?_, h.rules.remove path⟩
  rw [find_remove]
  split
  · rfl
  · exact h.nonempty

theorem ask (h : WellFormed e) (P : Platform) (q : Query) (path : String) :
    WellFormed (CapioCl.ask P q path e).2 := by
  rcases state_ask P q path e with hs | hs
  · rw [hs]
    exact h
  · rw [hs]
    exact h.newFile P path

end WellFormed

/-- A rule setter throws on a wrong rule, unless its path is empty. -/
theorem throws_of_sanitizes (J : JsonText) (P : Platform) (h : op.Sanitizes)
    (hv : ¬ op.RulesGivenValid) (e : Engine) : ∃ ex, op.perform J P e = (some ex, e) := by
  cases op with
  | setCommitRule path rule =>
    obtain ⟨ex, hex⟩ := setCommitRule_error (P := P) h hv e
    exact ⟨ex, congrArg (outcome e) hex⟩
  | setFireRule path rule =>
    obtain ⟨ex, hex⟩ := setFireRule_error (P := P) h hv e
    exact ⟨ex, congrArg (outcome e) hex⟩
  | _ => exact h.elim

/-- Any other call does not throw. -/
theorem not_throws {J : JsonText} {P : Platform} (h : ¬ op.Sanitizes) {e : Engine} {ex : Exn} :
    op.perform J P e ≠ (some ex, e) := by
  intro hex
  have hthrown : (op.perform J P e).1 = some ex := congrArg Prod.fst hex
  cases op with
  | setCommitRule path rule =>
    have hp : path = "" := not_not.mp h
    change (outcome e (e.setCommitRule P path rule)).1 = some ex at hthrown
    unfold Engine.setCommitRule at hthrown
    rw [if_pos hp] at hthrown
    exact absurd hthrown nofun
  | setFireRule path rule =>
    have hp : path = "" := not_not.mp h
    change (outcome e (e.setFireRule P path rule)).1 = some ex at hthrown
    unfold Engine.setFireRule at hthrown
    rw [if_pos hp] at hthrown
    exact absurd hthrown nofun
  | receive datagram =>
    change (outcome e (CapioCl.receive J datagram e)).1 = some ex at hthrown
    rw [receive_eq] at hthrown
    exact absurd hthrown nofun
  | addFileDependency path dependency =>
    change (outcome e (e.addFileDependency P path dependency)).1 = some ex at hthrown
    by_cases hp : path = ""
    · unfold Engine.addFileDependency at hthrown
      rw [dif_pos hp] at hthrown
      exact absurd hthrown nofun
    · rw [Engine.addFileDependency_eq P hp] at hthrown
      exact absurd hthrown nofun
  | _ => exact absurd hthrown nofun

/-- A record comes with no other rule. -/
theorem given_of_record {record : String × CapioCLEntry} (h : op.record J e = some record) :
    op.RulesGivenValid ∧ ¬ op.Sanitizes := by
  cases op with
  | addEntry path entry => exact ⟨trivial, id⟩
  | receive datagram => exact ⟨trivial, id⟩
  | _ => exact absurd h nofun

/-- Without a record the state stays well formed exactly if the given rules are valid or looked
at; only `add` stores others. -/
theorem wellFormed_state_iff (h : WellFormed e) (J : JsonText) (P : Platform)
    (hr : op.record J e = none) : WellFormed (op.perform J P e).2 ↔
      (∀ path producers consumers commitRule fireRule permanent exclude dependencies,
        op = .add path producers consumers commitRule fireRule permanent exclude dependencies →
          path = "" ∨ op.RulesGivenValid) := by
  by_cases hrun : op.IsRun
  · refine iff_of_true (h.run J P hrun) ?_
    rintro _ _ _ _ _ _ _ _ rfl
    exact hrun.elim
  cases op with
  | add path producers consumers commitRule fireRule permanent exclude dependencies =>
    by_cases hp : path = ""
    · refine iff_of_true ?_ ?_
      · change WellFormed (e.add P path producers consumers commitRule fireRule permanent exclude
          dependencies)
        unfold Engine.add
        rw [if_pos hp]
        exact h
      · rintro p _ _ _ _ _ _ _ heq
        injection heq with heq
        exact Or.inl (heq ▸ hp)
    · refine (h.add_iff hp producers consumers commitRule fireRule permanent exclude
        dependencies).trans ⟨fun hv _ _ _ _ _ _ _ _ _ => Or.inr hv, fun hv => ?_⟩
      exact (hv _ _ _ _ _ _ _ _ rfl).resolve_left hp
  | addEntry path entry => exact absurd hr nofun
  | receive datagram =>
    rw [perform_receive_none J P hr]
    exact iff_of_true h nofun
  | remove path => exact iff_of_true (h.remove path) nofun
  | addFileDependency path dependency =>
    exact iff_of_true (h.addFileDependency J P path dependency) nofun
  | setWorkflowName name => exact iff_of_true ⟨h.nonempty, h.rules⟩ nofun
  | ask q path => exact iff_of_true (h.ask P q path) nofun
  | _ => exact absurd trivial hrun

/-- **Which calls keep a store well formed** and reject a wrong rule. -/
theorem wellFormed_perform_iff (h : WellFormed e) (J : JsonText) (P : Platform) (op : Op) :
    (WellFormed (op.perform J P e).2 ∧
      (op.GivesBadRule J e → ∃ ex, op.perform J P e = (some ex, e))) ↔ op.Sanitized J e := by
  cases hr : op.record J e with
  | some record =>
    obtain ⟨path, entry⟩ := record
    obtain ⟨hgiven, -⟩ := given_of_record hr
    have hvalid : op.Sanitized J e ↔ path ≠ "" ∧ entry.RulesValid := by
      unfold Op.Sanitized
      simp [hr, hgiven]
    have hbad : op.GivesBadRule J e ↔ ¬ entry.RulesValid := by
      unfold Op.GivesBadRule
      simp [hr, hgiven]
    rw [perform_record J P hr, h.addEntry_iff, hvalid, hbad]
    exact ⟨fun h => h.1, fun h => ⟨h, fun hn => absurd h.2 hn⟩⟩
  | none =>
    have hvalid : op.Sanitized J e ↔ op.RulesGivenValid ∨ op.Sanitizes := by
      unfold Op.Sanitized
      simp [hr]
    have hbad : op.GivesBadRule J e ↔ ¬ op.RulesGivenValid := by
      unfold Op.GivesBadRule
      simp [hr]
    rw [wellFormed_state_iff h J P hr, hvalid, hbad]
    by_cases hgiven : op.RulesGivenValid
    · exact iff_of_true ⟨fun _ _ _ _ _ _ _ _ _ => Or.inr hgiven, fun hn => absurd hgiven hn⟩
        (Or.inl hgiven)
    by_cases hsan : op.Sanitizes
    · refine iff_of_true ⟨?_, fun _ => throws_of_sanitizes J P hsan hgiven e⟩ (Or.inr hsan)
      rintro _ _ _ _ _ _ _ _ rfl
      exact hsan.elim
    · refine iff_of_false (fun hboth => ?_) fun hor => hor.elim hgiven hsan
      obtain ⟨ex, hex⟩ := hboth.2 hgiven
      exact not_throws hsan hex

/-- **Well-formed rules along a run.** From an empty engine every state is well formed and every
call rejects a wrong rule exactly when no call of the run hands an unchecked rule, or a record
without a path, to `add`, or a wrong rule to a setter on the empty path. -/
theorem wellFormed_run_iff (J : JsonText) (he : e.capioClEntries = ∅)
    (steps : List (Platform × Op)) :
    ((∀ n, WellFormed (stateBefore J e steps n)) ∧
      ∀ n (step : Platform × Op), steps[n]? = some step →
        step.2.GivesBadRule J (stateBefore J e steps n) →
          ∃ ex, step.2.perform J step.1 (stateBefore J e steps n) =
            (some ex, stateBefore J e steps n)) ↔
      ∀ n (step : Platform × Op), steps[n]? = some step →
        step.2.Sanitized J (stateBefore J e steps n) := by
  have hstart := WellFormed.of_empty he
  constructor
  · rintro ⟨hwell, hthrow⟩ n step hstep
    have hnext := hwell (n + 1)
    rw [stateBefore_succ hstep] at hnext
    exact (wellFormed_perform_iff (hwell n) J step.1 step.2).mp ⟨hnext, hthrow n step hstep⟩
  · intro hsan
    have hwell : ∀ n, WellFormed (stateBefore J e steps n) :=
      Runs.always (performStep J) hstart fun n step hstep hs => by
        rw [Runs.stateAt_succ _ hstep]
        exact ((wellFormed_perform_iff hs J step.1 step.2).mpr (hsan n step hstep)).1
    exact ⟨hwell, fun n step hstep =>
      ((wellFormed_perform_iff (hwell n) J step.1 step.2).mpr (hsan n step hstep)).2⟩

/-- `add` stores a rule that is none. -/
theorem unsanitizedAdd_not_wellFormed : ¬ ∀ steps : List (Platform × Op),
    (∀ n, WellFormed (stateBefore jsonLiterals {} steps n)) ∧
      ∀ n (step : Platform × Op), steps[n]? = some step →
        step.2.GivesBadRule jsonLiterals (stateBefore jsonLiterals {} steps n) →
          ∃ ex, step.2.perform jsonLiterals step.1 (stateBefore jsonLiterals {} steps n) =
            (some ex, stateBefore jsonLiterals {} steps n) := by
  intro h
  obtain ⟨hwell, -⟩ := h [(posix, .add "f" ["a"] [] "at_once" fireRules.update false false [])]
  have hstored : (Engine.add posix "f" ["a"] [] "at_once" fireRules.update false false [] {}).find
      "f" = some { producers := ["a"], commitRule := "at_once" } := by decide +kernel
  exact absurd ((hwell 1).rules "f" _ hstored).1 (by decide)

/-- A declared and a received file. -/
def sanitizedCalls : List (Platform × Op) :=
  [(posix, .setCommitRule "f" commitRules.onClose),
    (posix, .addEntry "g" { commitRule := commitRules.onFile })]

theorem sanitizedCalls_wellFormed : ({} : Engine).capioClEntries = ∅ ∧
    ((∀ n, WellFormed (stateBefore jsonLiterals {} sanitizedCalls n)) ∧
      ∀ n (step : Platform × Op), sanitizedCalls[n]? = some step →
        step.2.GivesBadRule jsonLiterals (stateBefore jsonLiterals {} sanitizedCalls n) →
          ∃ ex, step.2.perform jsonLiterals step.1 (stateBefore jsonLiterals {} sanitizedCalls n) =
            (some ex, stateBefore jsonLiterals {} sanitizedCalls n)) := by
  refine ⟨rfl, (wellFormed_run_iff jsonLiterals rfl sanitizedCalls).mpr fun n step hstep => ?_⟩
  rcases List.mem_cons.mp (List.mem_of_getElem? hstep) with rfl | hstep
  · exact ⟨nofun, Or.inl (Or.inl rfl)⟩
  · rw [List.mem_singleton.mp hstep]
    refine ⟨fun path entry hr => ?_, Or.inl trivial⟩
    obtain ⟨rfl, rfl⟩ := Prod.mk.inj (Option.some.inj hr)
    exact ⟨by decide, Or.inr (Or.inl rfl), Or.inr rfl⟩

/-! ## Lists -/

/-- No two elements are the same path. -/
def PathSet (paths : List String) : Prop := paths.Pairwise fun p q => samePath p q = false

/-- No list of the entry has an element twice. -/
structure CapioCLEntry.ListSets (entry : CapioCLEntry) : Prop where
  producers : entry.producers.Nodup
  consumers : entry.consumers.Nodup
  fileDependencies : PathSet entry.fileDependencies

/-- The lists of two entries have no element in common. -/
structure CapioCLEntry.Apart (x y : CapioCLEntry) : Prop where
  producers : ∀ a ∈ x.producers, ∀ b ∈ y.producers, a ≠ b
  consumers : ∀ a ∈ x.consumers, ∀ b ∈ y.consumers, a ≠ b
  fileDependencies : ∀ p ∈ x.fileDependencies, ∀ q ∈ y.fileDependencies, samePath p q = false

theorem listSets_invariant : EntryInvariant CapioCLEntry.ListSets :=
  ⟨⟨List.nodup_nil, List.nodup_nil, List.Pairwise.nil⟩,
    fun _ _ _ _ _ hx => ⟨hx.producers, hx.consumers, hx.fileDependencies⟩⟩

theorem pathSet_appendNewPath {paths : List String} (h : PathSet paths) (path : String) :
    PathSet (appendNewPath paths path) := by
  unfold appendNewPath
  split
  · exact h
  · rename_i hnew
    refine List.pairwise_append.mpr ⟨h, List.pairwise_singleton _ _, fun p hp q hq => ?_⟩
    rw [List.mem_singleton.mp hq, Bool.eq_false_iff]
    exact fun hsame => hnew (List.any_eq_true.mpr ⟨p, hp, samePath_symm hsame⟩)

/-- A merged entry has sets exactly if both have and they are apart. -/
theorem listSets_add_iff {x y : CapioCLEntry} (hx : x.ListSets) :
    (x + y).ListSets ↔ y.ListSets ∧ x.Apart y := by
  constructor
  · rintro ⟨h1, h2, h3⟩
    obtain ⟨-, p2, p3⟩ := List.nodup_append.mp h1
    obtain ⟨-, c2, c3⟩ := List.nodup_append.mp h2
    obtain ⟨-, d2, d3⟩ := List.pairwise_append.mp h3
    exact ⟨⟨p2, c2, d2⟩, p3, c3, d3⟩
  · rintro ⟨⟨p2, c2, d2⟩, p3, c3, d3⟩
    exact ⟨List.nodup_append.mpr ⟨hx.producers, p2, p3⟩,
      List.nodup_append.mpr ⟨hx.consumers, c2, c3⟩,
      List.pairwise_append.mpr ⟨hx.fileDependencies, d2, d3⟩⟩

theorem listSets_apply {w : Write} (hw : ∀ dependencies, w = .fileDeps dependencies →
    PathSet dependencies) {x : CapioCLEntry} (hx : x.ListSets) : (w.apply x).ListSets := by
  cases w with
  | app σ name =>
    cases σ with
    | input => exact ⟨hx.producers, nodup_appendNew hx.consumers, hx.fileDependencies⟩
    | output => exact ⟨nodup_appendNew hx.producers, hx.consumers, hx.fileDependencies⟩
  | fileDeps dependencies => exact ⟨hx.producers, hx.consumers, hw dependencies rfl⟩
  | _ => exact ⟨hx.producers, hx.consumers, hx.fileDependencies⟩

/-- The lists among the arguments that are stored as they come are sets. -/
def Op.ListsGivenSets : Op → Prop
  | .add path producers consumers _ _ _ _ dependencies =>
    path = "" ∨ (producers.Nodup ∧ consumers.Nodup ∧ PathSet dependencies)
  | .setFileDeps path dependencies => path = "" ∨ PathSet dependencies
  | _ => True

/-- The lists of a record are sets apart from those of the entry it is merged into, and the lists
given to `add` and `setFileDeps` are sets. -/
def Op.KeepsSets (J : JsonText) (e : Engine) (op : Op) : Prop :=
  (∀ path entry, op.record J e = some (path, entry) →
    entry.ListSets ∧ ∀ old, e.find path = some old → old.Apart entry) ∧ op.ListsGivenSets

theorem listSets_addEntry_iff (h : e.All CapioCLEntry.ListSets) (path : String)
    (entry : CapioCLEntry) : (e.addEntry path entry).All CapioCLEntry.ListSets ↔
      entry.ListSets ∧ ∀ old, e.find path = some old → old.Apart entry := by
  rw [h.addEntry_iff]
  cases hold : e.find path with
  | none =>
    rw [Option.getD_none, CapioCLEntry.default_add]
    simp
  | some old =>
    rw [Option.getD_some, listSets_add_iff (h path old hold)]
    simp

/-- `setFileDeps` stores its list. -/
theorem listSets_setFileDeps_iff (h : e.All CapioCLEntry.ListSets) (J : JsonText) (P : Platform)
    (path : String) (dependencies : List String) :
    ((Op.setFileDeps path dependencies).perform J P e).2.All CapioCLEntry.ListSets ↔
      (path = "" ∨ PathSet dependencies) := by
  have hrun : (Op.setFileDeps path dependencies).IsRun := trivial
  rw [state_perform J P hrun]
  change (run P (Engine.fileDepsActs path dependencies) e).All CapioCLEntry.ListSets ↔ _
  unfold Engine.fileDepsActs
  by_cases hnone : path = "" ∨ dependencies = []
  · rw [if_pos hnone]
    refine iff_of_true h (hnone.imp id ?_)
    rintro rfl
    exact List.Pairwise.nil
  · rw [if_neg hnone, run_concat]
    rw [not_or] at hnone
    have hcreated : (run P (dependencies.map .create) e).All CapioCLEntry.ListSets :=
      listSets_invariant.run P h fun p w hmem => by
        obtain ⟨d, -, hd⟩ := List.mem_map.mp hmem
        exact absurd hd (by simp)
    obtain ⟨x, hx, hiff⟩ := listSets_invariant.setter_iff hcreated P hnone.1
      (Write.fileDeps dependencies).apply
    refine hiff.trans ?_
    rw [or_iff_right hnone.1]
    exact ⟨fun h => h.fileDependencies, fun h => ⟨hx.producers, hx.consumers, h⟩⟩

theorem listSets_add_op_iff (h : e.All CapioCLEntry.ListSets) (J : JsonText) (P : Platform)
    (path : String) (producers consumers : List String) (commitRule fireRule : String)
    (permanent exclude : Bool) (dependencies : List String) :
    ((Op.add path producers consumers commitRule fireRule permanent exclude
      dependencies).perform J P e).2.All CapioCLEntry.ListSets ↔
      (path = "" ∨ (producers.Nodup ∧ consumers.Nodup ∧ PathSet dependencies)) := by
  change (e.add P path producers consumers commitRule fireRule permanent exclude
    dependencies).All CapioCLEntry.ListSets ↔ _
  unfold Engine.add
  by_cases hp : path = ""
  · rw [if_pos hp]
    exact iff_of_true h (Or.inl hp)
  · rw [if_neg hp, or_iff_right hp]
    obtain ⟨x, hx⟩ := Option.isSome_iff_exists.mp (Engine.find_newFile_isSome P hp e)
    rw [(listSets_invariant.newFile h P path).modify_iff hx]
    exact ⟨fun h => ⟨h.producers, h.consumers, h.fileDependencies⟩, fun h => ⟨h.1, h.2.1, h.2.2⟩⟩

theorem listSets_addFileDependency (h : e.All CapioCLEntry.ListSets) (J : JsonText)
    (P : Platform) (path fileDependency : String) :
    ((Op.addFileDependency path fileDependency).perform J P e).2.All CapioCLEntry.ListSets := by
  change (outcome e (e.addFileDependency P path fileDependency)).2.All _
  by_cases hp : path = ""
  · unfold Engine.addFileDependency
    rw [dif_pos hp]
    exact h
  · rw [Engine.addFileDependency_eq P hp]
    have hnew := listSets_invariant.newFile h P path
    obtain ⟨x, hx⟩ := Option.isSome_iff_exists.mp (Engine.find_newFile_isSome P hp e)
    have hsets := hnew path x hx
    refine (hnew.modify_iff hx _).mpr ?_
    exact ⟨hsets.producers, hsets.consumers,
      pathSet_appendNewPath hsets.fileDependencies fileDependency⟩

/-- **Which calls keep the lists sets.** -/
theorem listSets_perform_iff (h : e.All CapioCLEntry.ListSets) (J : JsonText) (P : Platform)
    (op : Op) : (op.perform J P e).2.All CapioCLEntry.ListSets ↔ op.KeepsSets J e := by
  cases hr : op.record J e with
  | some record =>
    obtain ⟨path, entry⟩ := record
    have hgiven : op.ListsGivenSets := by
      cases op with
      | addEntry => trivial
      | receive => trivial
      | _ => exact absurd hr nofun
    unfold Op.KeepsSets
    rw [perform_record J P hr, listSets_addEntry_iff h, and_iff_left hgiven, hr]
    simp
  | none =>
    have hkeeps : op.KeepsSets J e ↔ op.ListsGivenSets := by
      unfold Op.KeepsSets
      simp [hr]
    rw [hkeeps]
    by_cases hdeps : ∃ path dependencies, op = .setFileDeps path dependencies
    · obtain ⟨path, dependencies, rfl⟩ := hdeps
      exact listSets_setFileDeps_iff h J P path dependencies
    by_cases hrun : op.IsRun
    · refine iff_of_true ?_ ?_
      · rw [state_perform J P hrun]
        refine listSets_invariant.run P h fun path w hmem x hx => listSets_apply ?_ hx
        intro dependencies hw
        exact absurd ⟨path, dependencies, (write_of_mem_acts hmem).2.2.1 dependencies hw⟩ hdeps
      · cases op with
        | add => exact hrun.elim
        | setFileDeps path dependencies => exact absurd ⟨path, dependencies, rfl⟩ hdeps
        | _ => trivial
    cases op with
    | add path producers consumers commitRule fireRule permanent exclude dependencies =>
      exact listSets_add_op_iff h J P path producers consumers commitRule fireRule permanent
        exclude dependencies
    | addEntry path entry => exact absurd hr nofun
    | receive datagram =>
      rw [perform_receive_none J P hr]
      exact iff_of_true h trivial
    | remove path => exact iff_of_true (h.remove path) trivial
    | addFileDependency path dependency =>
      exact iff_of_true (listSets_addFileDependency h J P path dependency) trivial
    | setWorkflowName name => exact iff_of_true h trivial
    | ask q path =>
      refine iff_of_true ?_ trivial
      change (CapioCl.ask P q path e).2.All _
      rcases state_ask P q path e with hs | hs
      · rw [hs]
        exact h
      · rw [hs]
        exact listSets_invariant.newFile h P path
    | _ => exact absurd trivial hrun

/-- **Lists are sets along a run** exactly when each call of it keeps them in the state it is made
in: lists that are stored as they come are sets, and records bring no element that is there. -/
theorem listSets_run_iff (J : JsonText) (he : e.capioClEntries = ∅)
    (steps : List (Platform × Op)) :
    (∀ n, (stateBefore J e steps n).All CapioCLEntry.ListSets) ↔
      ∀ n (step : Platform × Op), steps[n]? = some step →
        step.2.KeepsSets J (stateBefore J e steps n) := by
  have hstart : e.All CapioCLEntry.ListSets := by
    intro k x hx
    unfold Engine.find at hx
    rw [he] at hx
    exact absurd hx nofun
  refine @Runs.always_iff _ _ (performStep J) e steps _ (fun s step => step.2.KeepsSets J s)
    hstart fun n step hstep hs => ?_
  rw [Runs.stateAt_succ _ hstep]
  exact listSets_perform_iff hs J step.1 step.2

/-- The same record twice. -/
theorem repeatedRecord_not_listSets : ¬ ∀ steps : List (Platform × Op),
    ∀ n, (stateBefore jsonLiterals {} steps n).All CapioCLEntry.ListSets := by
  intro h
  have hsets := h [(posix, .addEntry "f" { producers := ["a"] }),
    (posix, .addEntry "f" { producers := ["a"] })] 2
  have hmerged : ((Engine.addEntry "f" { producers := ["a"] } {}).addEntry "f"
      { producers := ["a"] }).find "f" = some { producers := ["a", "a"] } := by decide +kernel
  exact absurd (hsets "f" _ hmerged).producers (by decide)

theorem sanitizedCalls_listSets : ({} : Engine).capioClEntries = ∅ ∧
    ∀ n, (stateBefore jsonLiterals {} sanitizedCalls n).All CapioCLEntry.ListSets := by
  refine ⟨rfl, (listSets_run_iff jsonLiterals rfl sanitizedCalls).mpr fun n step hstep => ?_⟩
  rcases List.mem_cons.mp (List.mem_of_getElem? hstep) with rfl | hstep
  · exact ⟨nofun, trivial⟩
  · rw [List.mem_singleton.mp hstep]
    refine ⟨fun path entry hr => ?_, trivial⟩
    obtain ⟨rfl, rfl⟩ := Prod.mk.inj (Option.some.inj hr)
    exact ⟨⟨List.nodup_nil, List.nodup_nil, List.Pairwise.nil⟩, fun _ _ => ⟨nofun, nofun, nofun⟩⟩

/-! ## Store all in memory -/

/-- The store-all flag is set, and the keys that are not stored in memory satisfy `X`. -/
structure StoredBut (X : String → Prop) (e : Engine) : Prop where
  flag : e.storeAllInMemory = true
  stored : ∀ k x, e.find k = some x → x.storeInMemory = false → X k

namespace StoredBut

variable {X : String → Prop}

theorem mono {Y : String → Prop} (h : StoredBut X e) (hXY : ∀ k, X k → Y k) : StoredBut Y e :=
  ⟨h.flag, fun k x hx hfalse => hXY k (h.stored k x hx hfalse)⟩

/-- A new entry is stored in memory, whatever it is a copy of. -/
theorem newFile (h : StoredBut X e) (P : Platform) (path : String) :
    StoredBut X (e._newFile P path) := by
  refine ⟨(Engine.frame_newFile P path e).2.trans h.flag, fun k x hx hfalse => ?_⟩
  have hmap := Engine.map_find_newFile
    (@CapioCLEntry.get_counted _ CapioCLEntry.storeInMemory fun _ _ _ => rfl) P path e k
  rw [hx, Option.map_some, hfalse] at hmap
  split at hmap
  · have hnew : (e.newEntry P path).storeInMemory = true := by
      cases hg : e.source P path with
      | none =>
        rw [Engine.newEntry_of_none hg]
        exact h.flag
      | some g =>
        obtain ⟨data, -, hdata⟩ := Engine.newEntry_of_source hg
        rw [hdata, h.flag]
        rfl
    rw [hnew] at hmap
    exact absurd hmap (by simp)
  · obtain ⟨y, hy, hfalse'⟩ := Option.map_eq_some_iff.mp hmap.symm
    exact h.stored k y hy hfalse'

theorem modify (h : StoredBut X e) {path : String} {write : CapioCLEntry → CapioCLEntry}
    (hw : ∀ x, (write x).storeInMemory = false → x.storeInMemory = false ∨ X path) :
    StoredBut X (e.modify path write) := by
  refine ⟨h.flag, fun k x hx hfalse => ?_⟩
  rw [Engine.find_modify] at hx
  split at hx
  · rename_i hk
    subst hk
    obtain ⟨y, hy, rfl⟩ := Option.map_eq_some_iff.mp hx
    exact (hw y hfalse).elim (h.stored k y hy) id
  · exact h.stored k x hx hfalse

theorem perform (h : StoredBut X e) (P : Platform) {act : Act}
    (hact : ∀ path, act = .set path (.storeInMemory false) → X path) :
    StoredBut X (act.perform P e) := by
  cases act with
  | create path => exact h.newFile P path
  | set path w =>
    change StoredBut X (e.setter P path w.apply)
    by_cases hp : path = ""
    · rw [hp, Engine.setter_empty]
      exact h
    · rw [Engine.setter_eq P hp]
      refine (h.newFile P path).modify fun x hfalse => ?_
      cases w with
      | storeInMemory value =>
        cases value with
        | true => exact absurd hfalse (by simp [Write.apply])
        | false => exact Or.inr (hact path rfl)
      | app σ name => cases σ <;> exact Or.inl hfalse
      | _ => exact Or.inl hfalse
  | directories =>
    refine ⟨(Engine.frame_setAllDirectories P e).2.1.trans h.flag, fun k x hx hfalse => ?_⟩
    change (e.setAllDirectories P).find k = some x at hx
    rw [Engine.find_setAllDirectories] at hx
    obtain ⟨y, hy, rfl⟩ := Option.map_eq_some_iff.mp hx
    refine h.stored k y hy ?_
    split at hfalse <;> exact hfalse
  | storeAll =>
    refine ⟨(Engine.frame_setAllStoreInMemory P e).2.1, fun k x hx hfalse => ?_⟩
    change (e.setAllStoreInMemory P).find k = some x at hx
    rw [Engine.find_setAllStoreInMemory] at hx
    obtain ⟨y, hy, rfl⟩ := Option.map_eq_some_iff.mp hx
    split at hfalse
    · exact h.stored k y hy hfalse
    · exact absurd hfalse (by simp)

theorem run (P : Platform) {acts : List Act} {e : Engine} (h : StoredBut X e)
    (hacts : ∀ path, Act.set path (.storeInMemory false) ∈ acts → X path) :
    StoredBut X (CapioCl.run P acts e) := by
  induction acts generalizing e with
  | nil => exact h
  | cons act acts ih =>
    rw [run_cons]
    refine ih (h.perform P fun path hact => hacts path ?_) fun path hmem =>
      hacts path (List.mem_cons_of_mem act hmem)
    rw [hact]
    exact List.mem_cons_self

theorem addEntry (h : StoredBut X e) {path : String} {entry : CapioCLEntry}
    (hnew : e.find path = none → entry.storeInMemory = true ∨ X path) :
    StoredBut X (e.addEntry path entry) := by
  refine ⟨(Engine.frame_addEntry path entry e).2.trans h.flag, fun k x hx hfalse => ?_⟩
  rw [Engine.find_addEntry] at hx
  split at hx
  · rename_i hk
    subst hk
    obtain rfl := Option.some.inj hx
    cases hold : e.find k with
    | none =>
      rw [hold, Option.getD_none, CapioCLEntry.default_add] at hfalse
      refine (hnew hold).resolve_left ?_
      rw [hfalse]
      exact Bool.false_ne_true
    | some old =>
      rw [hold, Option.getD_some] at hfalse
      exact h.stored k old hold (Bool.or_eq_false_iff.mp hfalse).1
  · exact h.stored k x hx hfalse

theorem remove (h : StoredBut X e) (path : String) : StoredBut X (e.remove path) := by
  refine ⟨?_, fun k x hx hfalse => ?_⟩
  · unfold Engine.remove
    split <;> exact h.flag
  · rw [find_remove] at hx
    split at hx
    · exact absurd hx (by simp)
    · exact h.stored k x hx hfalse

/-- **A call keeps everything in memory**, but for the path of `setStoreFileInFileSystem` and a
record for a path without an entry. -/
theorem perform_op (h : StoredBut X e) (J : JsonText) (P : Platform) (op : Op)
    (hfs : ∀ path, op = .setStoreFileInFileSystem path → X path)
    (hrecord : ∀ path entry, op.record J e = some (path, entry) → e.find path = none →
      entry.storeInMemory = true ∨ X path) : StoredBut X (op.perform J P e).2 := by
  cases hr : op.record J e with
  | some record =>
    obtain ⟨path, entry⟩ := record
    rw [perform_record J P hr]
    exact h.addEntry (hrecord path entry hr)
  | none =>
    by_cases hrun : op.IsRun
    · rw [state_perform J P hrun]
      exact run P h fun path hmem => hfs path ((write_of_mem_acts hmem).2.2.2 rfl)
    cases op with
    | add path producers consumers commitRule fireRule permanent exclude dependencies =>
      change StoredBut X (e.add P path producers consumers commitRule fireRule permanent exclude
        dependencies)
      unfold Engine.add
      split
      · exact h
      · exact (h.newFile P path).modify fun x hfalse => Or.inl hfalse
    | addEntry path entry => exact absurd hr nofun
    | receive datagram =>
      rw [perform_receive_none J P hr]
      exact h
    | remove path => exact h.remove path
    | addFileDependency path dependency =>
      change StoredBut X (outcome e (e.addFileDependency P path dependency)).2
      by_cases hp : path = ""
      · unfold Engine.addFileDependency
        rw [dif_pos hp]
        exact h
      · rw [Engine.addFileDependency_eq P hp]
        exact (h.newFile P path).modify fun x hfalse => Or.inl hfalse
    | setWorkflowName name => exact ⟨h.flag, h.stored⟩
    | ask q path =>
      change StoredBut X (CapioCl.ask P q path e).2
      rcases state_ask P q path e with hs | hs
      · rw [hs]
        exact h
      · rw [hs]
        exact h.newFile P path
    | _ => exact absurd trivial hrun

end StoredBut

/-- `setStoreFileInFileSystem(path)` is among the first `n` calls. -/
def MovedToFileSystem (steps : List (Platform × Op)) (n : Nat) (path : String) : Prop :=
  ∃ m < n, ∃ P, steps[m]? = some (P, .setStoreFileInFileSystem path)

/-- **Store-all-in-memory along a run.** After `setAllStoreInMemory` every key stays in memory
unless it is moved to the file system, exactly if the empty path had no entry outside memory and
every record for a path without an entry is itself stored in memory. -/
theorem storeAll_run_iff (J : JsonText) (P : Platform) (e : Engine)
    (steps : List (Platform × Op)) :
    (∀ n k x, (stateBefore J (e.setAllStoreInMemory P) steps n).find k = some x →
      x.storeInMemory = true ∨ MovedToFileSystem steps n k) ↔
      (∀ x, e.find "" = some x → x.storeInMemory = true) ∧
        ∀ n (step : Platform × Op), steps[n]? = some step → ∀ path entry,
          step.2.record J (stateBefore J (e.setAllStoreInMemory P) steps n) = some (path, entry) →
          (stateBefore J (e.setAllStoreInMemory P) steps n).find path = none →
            entry.storeInMemory = true ∨ MovedToFileSystem steps n path := by
  constructor
  · intro h
    refine ⟨fun x hx => ?_, fun n step hstep path entry hr hnone => ?_⟩
    · have hzero := h 0 "" x (by
        rw [stateBefore_zero, Engine.find_setAllStoreInMemory, hx]
        rfl)
      refine hzero.resolve_right ?_
      rintro ⟨m, hm, -⟩
      omega
    · have hnext := h (n + 1) path entry (by
        rw [stateBefore_succ hstep, perform_record J step.1 hr, Engine.find_addEntry,
          if_pos rfl, hnone, Option.getD_none, CapioCLEntry.default_add])
      refine hnext.imp id ?_
      rintro ⟨m, hm, P', hm'⟩
      refine ⟨m, ?_, P', hm'⟩
      -- the record itself moves nothing to the file system
      have hne : m ≠ n := by
        rintro rfl
        obtain rfl := Option.some.inj (hstep.symm.trans hm')
        exact absurd hr nofun
      omega
  · rintro ⟨hempty, hsteps⟩
    have hkept : ∀ n, StoredBut (MovedToFileSystem steps n)
        (stateBefore J (e.setAllStoreInMemory P) steps n) := by
      intro n
      induction n with
      | zero =>
        rw [stateBefore_zero]
        refine ⟨(Engine.frame_setAllStoreInMemory P e).2.1, fun k x hx hfalse => ?_⟩
        rw [Engine.find_setAllStoreInMemory] at hx
        obtain ⟨y, hy, rfl⟩ := Option.map_eq_some_iff.mp hx
        split at hfalse
        · rename_i hk
          rw [hk] at hy
          rw [hempty y hy] at hfalse
          exact absurd hfalse (by simp)
        · exact absurd hfalse (by simp)
      | succ n ih =>
        have hmono : ∀ k, MovedToFileSystem steps n k → MovedToFileSystem steps (n + 1) k := by
          rintro k ⟨m, hm, hmoved⟩
          exact ⟨m, by omega, hmoved⟩
        cases hstep : steps[n]? with
        | none =>
          rw [stateBefore_of_none hstep]
          exact ih.mono hmono
        | some step =>
          rw [stateBefore_succ hstep]
          refine (ih.mono hmono).perform_op J step.1 step.2 ?_ fun path entry hr hnone =>
            (hsteps n step hstep path entry hr hnone).imp id (hmono path)
          intro path hop
          exact ⟨n, by omega, step.1, by rw [hstep, ← hop]⟩
    intro n k x hx
    cases hstored : x.storeInMemory with
    | true => exact Or.inl rfl
    | false => exact Or.inr ((hkept n).stored k x hx hstored)

/-- A record for a new path stays out of memory. -/
theorem receivedRecord_not_stored : ¬ ∀ steps : List (Platform × Op),
    ∀ n k x, (stateBefore jsonLiterals (Engine.setAllStoreInMemory posix {}) steps n).find k = some x →
      x.storeInMemory = true ∨ MovedToFileSystem steps n k := by
  intro h
  have hstored : ((Engine.setAllStoreInMemory posix {}).addEntry "f" {}).find "f" = some {} := by
    decide +kernel
  rcases h [(posix, .addEntry "f" {})] 1 "f" {} hstored with hmem | ⟨m, hm, P, hmoved⟩
  · exact absurd hmem (by decide)
  · obtain rfl : m = 0 := by omega
    exact absurd hmoved nofun

end CapioCl
