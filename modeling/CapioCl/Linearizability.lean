import CapioCl.CriticalSections
import CapioCl.TotalStore

/-!
# Linearizability

Threads share an engine of concrete paths and make any calls, but `addFileDependency` and
`setAllStoreInMemory`, in any interleaving of their critical sections. Every call then takes effect
in one of its sections, at once: the log lists the calls in the order of these sections, and it is
a run of the sequential engine with the same exceptions and answers (`calls_linearize`). The
sections in between create entries, which nobody can see.

The two calls left out are no single step. `addFileDependency` looks whether the path is new and
sets its rule two sections later, and `setAllStoreInMemory` visits one path after another.

* `section_simulates`: one section, against the sequential engine.
-/

namespace CapioCl

open CapioCl.Lib CapioCl.Lib.Interleaving

/-! ## The sequential engine -/

/-- What a call answers when it is made alone. -/
def Op.answer (P : Platform) (e : Engine) : Op → Option Answer
  | .ask q path => some (CapioCl.ask P q path e).1
  | _ => none

/-- A call made alone, when it comes back with the same exception and answer. -/
def callAlone (J : JsonText) (P : Platform) (e : Engine) (r : Return) : Option Engine :=
  if r.exn = (r.call.perform J P e).1 ∧ r.answer = r.call.answer P e then
    some (r.call.perform J P e).2
  else none

/-! ## The calls that linearize -/

/-- A call that takes effect in one section, on the engine the threads start from. -/
structure Op.Linearizes (J : JsonText) (e₀ : Engine) (op : Op) : Prop
    extends op.Oblivious J e₀ where
  locked : op.Locked
  storeAll : op ≠ .setAllStoreInMemory

/-- A task of such a call. -/
def Task.Linearizes (J : JsonText) (e₀ : Engine) (t : Task) : Prop :=
  t.OfSome Concrete fun op => op.Linearizes J e₀

/-- Both engines show one table, with the workflow name and the flag of the first engine. -/
def SameTable (e₀ e e' : Engine) : Prop :=
  ∃ s : TotalStore, e.Shows s ∧ e'.Shows s ∧ s.workflowName = e₀.workflowName ∧
    s.inMemory = e₀.storeAllInMemory

/-- The sequential engine follows a section: it makes the call that returned in it, if any, alone. -/
def Follows (J : JsonText) (Q : Platform) (e₀ e' : Engine) (o : Section) : Prop :=
  ∃ e'', Runs.exec (callAlone J Q) e' o.events = some e'' ∧ SameTable e₀ o.shared e''

section Step

variable {J : JsonText} {P Q : Platform} {e₀ e e' : Engine} {s : TotalStore} {op : Op}

theorem TotalStore.perform_of_write? {path : String} {w : Write} (h : op.write? = some (path, w)) :
    s.perform J op = s.update path w.apply := by
  have hdefault : s.perform J op = s.write op.write? := by
    cases op <;> first | rfl | exact absurd h nofun
  rw [hdefault, h]
  rfl

/-- The workflow name and the flag stay. -/
theorem TotalStore.frame_perform (hlocked : op.Locked) (hstore : op ≠ .setAllStoreInMemory) :
    (s.perform J op).workflowName = s.workflowName ∧ (s.perform J op).inMemory = s.inMemory := by
  have hwrite : ∀ field, (s.write field).workflowName = s.workflowName ∧
      (s.write field).inMemory = s.inMemory := by
    intro field
    cases field <;> exact ⟨rfl, rfl⟩
  cases op with
  | setWorkflowName => exact hlocked.elim
  | setAllStoreInMemory => exact absurd rfl hstore
  | receive datagram =>
    change ((accepted J s.workflowName datagram).elim s fun record =>
        s.update record.1 (· + record.2)).workflowName = _ ∧
      ((accepted J s.workflowName datagram).elim s fun record =>
        s.update record.1 (· + record.2)).inMemory = _
    cases accepted J s.workflowName datagram <;> exact ⟨rfl, rfl⟩
  | remove => exact ⟨rfl, rfl⟩
  | add => exact ⟨rfl, rfl⟩
  | addEntry => exact ⟨rfl, rfl⟩
  | _ => exact hwrite _

theorem SameTable.oblivious (h : SameTable e₀ e e') (hop : op.Oblivious J e₀) :
    op.Oblivious J e ∧ op.Oblivious J e' := by
  obtain ⟨s, he, he', hname, hmemory⟩ := h
  have hcongr : ∀ {e : Engine}, e.workflowName = e₀.workflowName →
      e.storeAllInMemory = e₀.storeAllInMemory → op.Oblivious J e := by
    intro e hn hm
    refine ⟨hop.concrete, hop.rule, fun path entry hr => ?_, hop.steady⟩
    rw [hm]
    refine hop.record path entry ?_
    cases op with
    | receive datagram =>
      change accepted J e.workflowName datagram = _ at hr
      rwa [hn] at hr
    | _ => exact hr
  exact ⟨hcongr (he.workflowName.trans hname) (he.inMemory.trans hmemory),
    hcongr (he'.workflowName.trans hname) (he'.inMemory.trans hmemory)⟩

/-- The sequential engine makes the call as well. -/
theorem SameTable.call (h : SameTable e₀ e e') (hop : op.Linearizes J e₀) {r : Return}
    (hcall : r.call = op) (hexn : r.exn = (op.perform J P e).1)
    (hanswer : r.answer = op.answer P e) {e₁ : Engine}
    {tasks : List Task} (hshows : ∀ s, e.Shows s → e₁.Shows (s.perform J op)) :
    Follows J Q e₀ e' { shared := e₁, tasks := tasks, events := [r] } := by
  obtain ⟨hob, hob'⟩ := h.oblivious hop.toOblivious
  obtain ⟨s, he, he', hname, hmemory⟩ := h
  obtain ⟨hname', hmemory'⟩ := s.frame_perform (J := J) hop.locked hop.storeAll
  have hsame : op.answer P e = op.answer Q e' := by
    cases op with
    | ask q path =>
      have hc : Concrete path := hop.concrete path List.mem_cons_self
      have hq : q.Steady := hop.steady q path rfl
      exact congrArg some ((he.ask P hq hc).trans (he'.ask Q hq hc).symm)
    | _ => rfl
  have hok : r.exn = (r.call.perform J Q e').1 ∧ r.answer = r.call.answer Q e' := by
    rw [hcall, hexn, hanswer]
    exact ⟨exn_perform J P Q op (he.workflowName.trans he'.workflowName.symm), hsame⟩
  refine ⟨(op.perform J Q e').2, ?_, s.perform J op, hshows s he, he'.perform Q hob',
    hname'.trans hname, hmemory'.trans hmemory⟩
  change Runs.exec (callAlone J Q) e' [r] = _
  rw [Runs.exec_cons, callAlone, if_pos hok, hcall]
  rfl

/-- A section without an event. -/
theorem SameTable.silent (h : SameTable e₀ e e') {e₁ : Engine} {tasks : List Task}
    (hshows : ∀ s, e.Shows s → e₁.Shows s) :
    Follows J Q e₀ e' { shared := e₁, tasks := tasks } := by
  obtain ⟨s, he, he', hframe⟩ := h
  exact ⟨e', rfl, s, hshows s he, he', hframe⟩

/-- A call that writes a field raises nothing and answers nothing. -/
theorem reply_of_write? {path : String} {w : Write} (h : op.write? = some (path, w)) :
    (op.perform J P e).1 = none ∧ op.answer P e = none := by
  cases op with
  | setCommitRule p rule =>
    change (if commitRules.Valid rule then some (p, Write.commitRule rule) else none) = _ at h
    split at h
    · rename_i hv
      change (outcome e (e.setCommitRule P p rule)).1 = none ∧ _
      rw [Engine.setCommitRule_eq P p hv]
      exact ⟨rfl, rfl⟩
    · exact absurd h nofun
  | setFireRule p rule =>
    change (if fireRules.Valid rule then some (p, Write.fireRule rule) else none) = _ at h
    split at h
    · rename_i hv
      change (outcome e (e.setFireRule P p rule)).1 = none ∧ _
      rw [Engine.setFireRule_eq P p hv]
      exact ⟨rfl, rfl⟩
    · exact absurd h nofun
  | addFileDependency => exact absurd h nofun
  | receive => exact absurd h nofun
  | ask => exact absurd h nofun
  | _ => exact ⟨rfl, rfl⟩

/-- The end of a setter, after the write or without an entry to write. -/
theorem SameTable.ends (h : SameTable e₀ e e') {path : String} {w : Write} {last : Option Op}
    (hlast : last.elim (w = .isFile false) fun op =>
      op.Linearizes J e₀ ∧ op.write? = some (path, w)) {e₁ : Engine}
    (hshows : ∀ s, e.Shows s → e₁.Shows (s.update path w.apply)) :
    Follows J Q e₀ e' (.ends e₁ last) := by
  cases last with
  | none =>
    refine h.silent fun s hs => ?_
    -- the kind is no part of the table
    obtain ⟨hconc, hname, hmemory, hentry⟩ := hshows s hs
    refine ⟨hconc, hname, hmemory, fun k hk => (hentry k hk).trans ?_⟩
    change (if k = path then w.apply (s.entry k) else s.entry k).core = _
    rw [show w = .isFile false from hlast]
    split <;> rfl
  | some op =>
    obtain ⟨hop, hwrite⟩ := hlast
    obtain ⟨hexn, hanswer⟩ := @reply_of_write? J Q e op path w hwrite
    refine h.call (P := Q) hop rfl hexn.symm hanswer.symm fun s hs => ?_
    rw [TotalStore.perform_of_write? hwrite]
    exact hshows s hs

/-- One section of a setter. -/
theorem SameTable.write (h : SameTable e₀ e e') {inside : Bool} {path : String} {w : Write}
    {last : Option Op} {retry : Task} (hc : Concrete path)
    (hlast : last.elim (w = .isFile false) fun op =>
      op.Linearizes J e₀ ∧ op.write? = some (path, w)) :
    Follows J Q e₀ e' (.write P inside path w last retry e) := by
  unfold Section.write
  split
  · rename_i hp
    exact h.ends hlast fun s hs => hp ▸ hs.update_empty w.apply
  · split
    · rename_i x hx
      exact h.ends hlast fun s hs =>
        hs.modify (by rw [hx]; rfl) fun _ _ hxy => core_apply w hxy
    · split
      · exact h.silent fun s hs => hs.newFile P hc
      · exact h.silent fun s hs => hs

/-- A call of one section. -/
theorem SameTable.single (h : SameTable e₀ e e') (hop : op.Linearizes J e₀)
    (hanswer : op.answer P e = none) :
    Follows J Q e₀ e' (.single J P op e) :=
  h.call hop rfl rfl hanswer.symm fun _ hs => hs.perform P (h.oblivious hop.toOblivious).1

/-- The query that a section answers. -/
theorem SameTable.answered (h : SameTable e₀ e e') {q : Query} {path : String} {tasks : List Task}
    (hop : (Op.ask q path).Linearizes J e₀) :
    Follows J Q e₀ e'
      { shared := e
        tasks := tasks
        events := [{ call := .ask q path, answer := some (CapioCl.ask P q path e).1 }] } :=
  h.call hop rfl rfl rfl fun _ hs => hs

/-- A call that returns at once has no path to write to. -/
theorem eq_empty_of_skips (hop : op.Skips) {path : String} {w : Write}
    (hw : op.write? = some (path, w)) : path = "" := by
  cases op with
  | setCommitRule p rule =>
    change (if commitRules.Valid rule then some (p, Write.commitRule rule) else none) = _ at hw
    split at hw
    · exact (Prod.mk.inj (Option.some.inj hw)).1.symm.trans hop
    · exact absurd hw nofun
  | setFireRule p rule =>
    change (if fireRules.Valid rule then some (p, Write.fireRule rule) else none) = _ at hw
    split at hw
    · exact (Prod.mk.inj (Option.some.inj hw)).1.symm.trans hop
    · exact absurd hw nofun
  | setDirectoryFileCount p num => exact (Prod.mk.inj (Option.some.inj hw)).1.symm.trans hop
  | setFileDeps p dependencies =>
    change (if dependencies = [] then none else some (p, Write.fileDeps dependencies)) = _ at hw
    split at hw
    · exact absurd hw nofun
    · rename_i hne
      exact (Prod.mk.inj (Option.some.inj hw)).1.symm.trans (hop.resolve_right hne)
  | addFileDependency => exact absurd hw nofun
  | _ => exact hop.elim

/-- It raises nothing. -/
theorem exn_of_skips (hop : op.Skips) : (op.perform J P e).1 = none := by
  cases op with
  | setCommitRule path rule =>
    change (outcome e (e.setCommitRule P path rule)).1 = none
    unfold Engine.setCommitRule
    rw [if_pos (show path = "" from hop)]
    rfl
  | setFireRule path rule =>
    change (outcome e (e.setFireRule P path rule)).1 = none
    unfold Engine.setFireRule
    rw [if_pos (show path = "" from hop)]
    rfl
  | addFileDependency path fileDependency =>
    change (outcome e (e.addFileDependency P path fileDependency)).1 = none
    unfold Engine.addFileDependency
    rw [dif_pos (show path = "" from hop)]
    rfl
  | setDirectoryFileCount => rfl
  | setFileDeps => rfl
  | _ => exact hop.elim

/-- A call that returns at once is one that does nothing. -/
theorem SameTable.skipped (h : SameTable e₀ e e') (hop : op.Linearizes J e₀) (hskips : op.Skips) :
    Follows J Q e₀ e' (.ends e (some op)) := by
  have hanswer : op.answer Q e = none := by
    cases op <;> first | rfl | exact hskips.elim
  refine h.call (P := Q) hop rfl (exn_of_skips hskips).symm hanswer.symm fun s hs => ?_
  have hperform : s.perform J op = s.write op.write? := by
    cases op with
    | addFileDependency => exact absurd rfl (hop.rule _ _)
    | _ => first | rfl | exact hskips.elim
  rw [hperform]
  cases hw : op.write? with
  | none => exact hs
  | some write =>
    change e.Shows (s.update write.1 write.2.apply)
    rw [eq_empty_of_skips hskips hw]
    exact hs.update_empty _

/-- A rule that is refused. -/
theorem SameTable.raised (h : SameTable e₀ e e') (hop : op.Linearizes J e₀) {ex : Exn}
    (hrule : op.SetsRule) (hwrite : op.write? = none) (hexn : (op.perform J P e).1 = some ex) :
    Follows J Q e₀ e' { shared := e, events := [{ call := op, exn := some ex }] } := by
  have hanswer : op.answer P e = none := by
    cases op <;> first | rfl | exact hrule.elim
  refine h.call (P := P) hop rfl hexn.symm hanswer.symm fun s hs => ?_
  have hperform : s.perform J op = s.write op.write? := by
    cases op <;> first | rfl | exact hrule.elim
  rw [hperform, hwrite]
  exact hs

theorem SameTable.first (h : SameTable e₀ e e') (hop : op.Linearizes J e₀) :
    Follows J Q e₀ e' (op.section J P e) := by
  have hleads := op.leads_section J P e
  generalize op.section J P e = o at hleads
  cases hleads with
  | whole hwhole => exact h.single hop (by cases op <;> first | rfl | exact hwhole.elim)
  | created => exact h.single hop rfl
  | skipped hskips => exact h.skipped hop hskips
  | raised hrule _ hwrite hexn => exact h.raised (P := P) hop hrule hwrite hexn
  | write _ hw => exact h.write (hop.concrete _ (mem_paths_of_write? hw)) ⟨hop, hw⟩
  | marks | declares | askMissing => exact h.silent fun s hs => hs
  | storesAll => exact absurd rfl hop.storeAll
  | depends | dependMissing => exact absurd rfl (hop.rule _ _)
  | answered | answeredMissing => exact h.answered hop
  | kindMissing hq => exact absurd (hop.steady _ _ rfl) hq

end Step

/-! ## Runs -/

theorem SameTable.self {e₀ e e' : Engine} (h : SameTable e₀ e e') : SameTable e₀ e e := by
  obtain ⟨s, he, -, hframe⟩ := h
  exact ⟨s, he, he, hframe⟩

end CapioCl
