import CapioCl.Lib.Interleaving
import CapioCl.TotalStore

/-!
# Critical sections

The public calls on an engine that several threads share, the thread of the dynamic API among them.
A call takes `_shared_mutex` once or several times: it looks for the entry of its path, and when
there is none it creates it, in the same section or in one of its own, releases the lock and calls
itself again (`Engine.cpp:222-900`). Between two sections of a call other threads run theirs.

A `Task` is where a call stands between two sections, `Task.section` what its next section does, and
`Return` what a call came back with. Two calls are left out of the threads (`Op.Locked`) because
they touch the store outside the lock: `getDirectoryFileCount`, which calls `_newFile` without it,
and `setWorkflowName`, whose name the thread of the dynamic API reads without it.

* `Op.leads_section`: what the first section of a call can be.
* `todo_section`, `of_section`: what a section leaves to do.
-/

namespace CapioCl

open CapioCl.Lib CapioCl.Lib.Interleaving

/-- The calls that touch the store in critical sections only. -/
def Op.Locked : Op → Prop
  | .setWorkflowName _ => False
  | .ask .getDirectoryFileCount _ => False
  | _ => True

instance : DecidablePred Op.Locked := fun op => by
  cases op with
  | setWorkflowName => exact isFalse id
  | ask q path => cases q <;> first | exact isTrue trivial | exact isFalse id
  | _ => exact isTrue trivial

/-- A call a thread may make. -/
structure LockedOp where
  op : Op
  locked : op.Locked

/-- What a call came back with. -/
structure Return where
  call : Op
  exn : Option Exn := none
  answer : Option Answer := none
  deriving DecidableEq

/-- Where a call stands between two critical sections. -/
inductive Task where
  /-- at its beginning -/
  | call (op : Op)
  /-- before a section with `_newFile` alone -/
  | create (path : String)
  /-- in a setter, before it looks for the entry of `path`; `inside` tells that it creates the entry
  in the section that misses it, `last` the call that returns when the field is written -/
  | write (inside : Bool) (path : String) (w : Write) (last : Option Op)
  /-- in `isFile` or `isDirectory`, after the creation -/
  | permanent (q : Query) (path : String)
  /-- in `setDirectoryFileCount`, after the loop -/
  | count (path : String) (num : Int)
  /-- in `setFileDeps`, after the loop -/
  | deps (path : String) (dependencies : List String)
  /-- in `setAllStoreInMemory`, after the flag was raised -/
  | storePaths
  /-- at its end -/
  | finish (op : Op)
  deriving DecidableEq

/-- What a critical section does. -/
abbrev Section := Outcome Task Engine Return

namespace Section

/-- The end of a call, if it is one. -/
def ends (e : Engine) (last : Option Op) : Section :=
  { shared := e, events := last.toList.map fun op => { call := op } }

/-- A setter writes the entry of `path`, or creates it and goes on with `retry`. -/
def write (P : Platform) (inside : Bool) (path : String) (w : Write) (last : Option Op)
    (retry : Task) (e : Engine) : Section :=
  if path = "" then ends e last
  else
    match e.find path with
    | some _ => ends (e.modify path w.apply) last
    | none =>
      if inside then { shared := e._newFile P path, tasks := [retry] }
      else { shared := e, tasks := [.create path, retry] }

/-- A query reads the entry of `path`, or creates it and asks again. -/
def ask (P : Platform) (q : Query) (path : String) (e : Engine) : Section :=
  let answered : Return := { call := .ask q path, answer := some (CapioCl.ask P q path e).1 }
  if path = "" ∨ (e.find path).isSome then { shared := e, events := [answered] }
  else { shared := e, tasks := [.create path, .call (.ask q path)] }

/-- `isFile` and `isDirectory` go on with `isPermanent`. -/
def askKind (P : Platform) (q : Query) (path : String) (e : Engine) : Section :=
  let answered : Return := { call := .ask q path, answer := some (CapioCl.ask P q path e).1 }
  if path = "" ∨ (e.find path).isSome then { shared := e, events := [answered] }
  else { shared := e, tasks := [.create path, .permanent q path] }

/-- `isProducer` and `isConsumer` create the entry when no pattern has the application. -/
def askApp (P : Platform) (q : Query) (path : String) (e : Engine) : Section :=
  let answer := (CapioCl.ask P q path e).1
  let answered : Return := { call := .ask q path, answer := some answer }
  if answer = .flag true then { shared := e, events := [answered] }
  else { shared := e, tasks := [.create path], events := [answered] }

/-- `isFile` returns what `isPermanent` does, and `isDirectory` the opposite of `isFile`. -/
def answeredKind (q : Query) (path : String) (permanent : Bool) : Return :=
  { call := .ask q path
    answer := some (.flag (if q = .isDirectory then !permanent else permanent)) }

/-- The `isPermanent` of `isFile` and `isDirectory`. -/
def permanent (q : Query) (path : String) (e : Engine) : Section :=
  if path = "" then { shared := e, events := [answeredKind q path true] }
  else
    match e.find path with
    | some entry => { shared := e, events := [answeredKind q path entry.permanent] }
    | none => { shared := e, tasks := [.create path, .permanent q path] }

/-- A call of one section. -/
def single (J : JsonText) (P : Platform) (op : Op) (e : Engine) : Section :=
  { shared := (op.perform J P e).2, events := [{ call := op, exn := (op.perform J P e).1 }] }

/-- `addFileDependency`, which on a new path sets the rule before it calls itself again. -/
def addFileDependency (path fileDependency : String) (e : Engine) : Section :=
  let op := Op.addFileDependency path fileDependency
  if path = "" then ends e (some op)
  else
    match e.find path with
    | some _ => ends (e.modify path fun entry =>
        { entry with fileDependencies := appendNewPath entry.fileDependencies fileDependency })
        (some op)
    | none =>
      { shared := e
        tasks := [.create path, .write false path (.commitRule commitRules.onFile) none, .call op] }

end Section

/-- The first section of a call. -/
def Op.section (J : JsonText) (P : Platform) (op : Op) (e : Engine) : Section :=
  let set (inside : Bool) (path : String) (w : Write) : Section :=
    Section.write P inside path w (some op) (.write inside path w (some op)) e
  match op with
  | .addProducer path producer => set false path (.app .output (eraseSpaces producer))
  | .addConsumer path consumer => set false path (.app .input (eraseSpaces consumer))
  | .setCommitRule path rule =>
    if path = "" then .ends e (some op)
    else
      match commitRules.sanitize rule with
      | .ok commit => set false path (.commitRule commit)
      | .error ex => { shared := e, events := [{ call := op, exn := some ex }] }
  | .setFireRule path rule =>
    if path = "" then .ends e (some op)
    else
      match fireRules.sanitize rule with
      | .ok fire => set true path (.fireRule fire)
      | .error ex => { shared := e, events := [{ call := op, exn := some ex }] }
  | .setPermanent path value => set true path (.permanent value)
  | .setExclude path value => set true path (.excluded value)
  | .setDirectory path => set true path (.isFile false)
  | .setFile path => set true path (.isFile true)
  | .setCommitedCloseNumber path num => set true path (.closeCount num)
  | .setStoreFileInMemory path => set true path (.storeInMemory true)
  | .setStoreFileInFileSystem path => set true path (.storeInMemory false)
  | .setDirectoryFileCount path num =>
    if path = "" then .ends e (some op)
    else
      { shared := e
        tasks := (e.getPaths P).map (fun p => .write true p (.isFile false) none) ++
          [.count path num] }
  | .setFileDeps path dependencies =>
    if path = "" ∨ dependencies = [] then .ends e (some op)
    else { shared := e, tasks := dependencies.map .create ++ [.deps path dependencies] }
  | .setAllStoreInMemory =>
    { shared := { e with storeAllInMemory := true }, tasks := [.storePaths] }
  | .addFileDependency path fileDependency => .addFileDependency path fileDependency e
  | .ask q path =>
    match q with
    | .isFile => .askKind P q path e
    | .isDirectory => .askKind P q path e
    | .isProducer _ => .askApp P q path e
    | .isConsumer _ => .askApp P q path e
    | _ => .ask P q path e
  | .newFile _ => .single J P op e
  | .remove _ => .single J P op e
  | .add .. => .single J P op e
  | .addEntry .. => .single J P op e
  | .receive _ => .single J P op e
  | .setWorkflowName _ => .single J P op e

/-- The next section of a call. -/
def Task.section (J : JsonText) (P : Platform) : Task → Engine → Section
  | .call op, e => op.section J P e
  | .create path, e => { shared := e._newFile P path }
  | .write inside path w last, e => .write P inside path w last (.write inside path w last) e
  | .permanent q path, e => .permanent q path e
  | .count path num, e =>
    let op := Op.setDirectoryFileCount path num
    .write P true path (.fileCount num) (some op) (.call op) e
  | .deps path dependencies, e =>
    let op := Op.setFileDeps path dependencies
    .write P true path (.fileDeps dependencies) (some op) (.call op) e
  | .storePaths, e =>
    { shared := e
      tasks := (e.getPaths P).map (fun p => .write true p (.storeInMemory true) none) ++
        [.finish .setAllStoreInMemory] }
  | .finish op, e => .ends e (some op)

/-- The calls that hold the lock from their beginning to their end and write whole entries. -/
def Op.Whole : Op → Prop
  | .add .. | .addEntry .. | .receive _ | .remove _ | .setWorkflowName _ => True
  | _ => False

/-- The calls that return at once. -/
def Op.Skips : Op → Prop
  | .setCommitRule path _ => path = ""
  | .setFireRule path _ => path = ""
  | .setDirectoryFileCount path _ => path = ""
  | .setFileDeps path dependencies => path = "" ∨ dependencies = []
  | .addFileDependency path _ => path = ""
  | _ => False

/-- The setters that sanitize. -/
def Op.SetsRule : Op → Prop
  | .setCommitRule .. | .setFireRule .. => True
  | _ => False

/-- The setters that go through other paths first. -/
def Op.Loops : Op → Prop
  | .setDirectoryFileCount .. | .setFileDeps .. => True
  | _ => False

/-- What the first section of a call can be, with what it finds. -/
inductive Op.Leads (J : JsonText) (P : Platform) (e : Engine) : Op → Section → Prop
  | whole {op} (hop : op.Whole) : Leads J P e op (.single J P op e)
  | created {path} : Leads J P e (.newFile path) (.single J P (.newFile path) e)
  | skipped {op} (hop : op.Skips) : Leads J P e op (.ends e (some op))
  | raised {op ex} (hop : op.SetsRule) (hskips : ¬ op.Skips) (hwrite : op.write? = none)
      (hexn : (op.perform J P e).1 = some ex) :
      Leads J P e op { shared := e, events := [{ call := op, exn := some ex }] }
  | write {op inside path w} (hop : ¬ op.Loops) (hw : op.write? = some (path, w)) :
      Leads J P e op
        (.write P inside path w (some op) (.write inside path w (some op)) e)
  | marks {path num} : Leads J P e (.setDirectoryFileCount path num)
      { shared := e
        tasks := (e.getPaths P).map (fun p => .write true p (.isFile false) none) ++
          [.count path num] }
  | declares {path dependencies} (hne : dependencies ≠ []) :
      Leads J P e (.setFileDeps path dependencies)
        { shared := e, tasks := dependencies.map .create ++ [.deps path dependencies] }
  | storesAll : Leads J P e .setAllStoreInMemory
      { shared := { e with storeAllInMemory := true }, tasks := [.storePaths] }
  | depends {path fileDependency} (hfound : (e.find path).isSome) :
      Leads J P e (.addFileDependency path fileDependency)
        (.ends (e.modify path fun entry =>
          { entry with fileDependencies := appendNewPath entry.fileDependencies fileDependency })
          (some (.addFileDependency path fileDependency)))
  | dependMissing {path fileDependency} (hp : path ≠ "") (hnone : e.find path = none) :
      Leads J P e (.addFileDependency path fileDependency)
        { shared := e
          tasks := [.create path, .write false path (.commitRule commitRules.onFile) none,
            .call (.addFileDependency path fileDependency)] }
  | answered {q path} : Leads J P e (.ask q path)
      { shared := e
        events := [{ call := .ask q path, answer := some (CapioCl.ask P q path e).1 }] }
  | answeredMissing {q path} : Leads J P e (.ask q path)
      { shared := e
        tasks := [.create path]
        events := [{ call := .ask q path, answer := some (CapioCl.ask P q path e).1 }] }
  | askMissing {q path} (hmissing : ¬ (path = "" ∨ (e.find path).isSome)) :
      Leads J P e (.ask q path)
        { shared := e, tasks := [.create path, .call (.ask q path)] }
  | kindMissing {q path} (hq : ¬ q.Steady) (hmissing : ¬ (path = "" ∨ (e.find path).isSome)) :
      Leads J P e (.ask q path)
        { shared := e, tasks := [.create path, .permanent q path] }

section Leads

variable {J : JsonText} {P : Platform} {e : Engine}

/-- A query answers, or misses its entry. -/
theorem Op.leads_ask (q : Query) (path : String) :
    Op.Leads J P e (.ask q path) ((Op.ask q path).section J P e) := by
  have hask : Op.Leads J P e (.ask q path) (.ask P q path e) := by
    unfold Section.ask
    dsimp only
    split
    · exact .answered
    · exact .askMissing ‹_›
  have hkind : ¬ q.Steady → Op.Leads J P e (.ask q path) (.askKind P q path e) := by
    intro hq
    unfold Section.askKind
    dsimp only
    split
    · exact .answered
    · exact .kindMissing hq ‹_›
  have happ : Op.Leads J P e (.ask q path) (.askApp P q path e) := by
    unfold Section.askApp
    dsimp only
    split
    · exact .answered
    · exact .answeredMissing
  cases q with
  | isFile => exact hkind id
  | isDirectory => exact hkind id
  | isProducer => exact happ
  | isConsumer => exact happ
  | _ => exact hask

/-- **What the first section of a call can do.** -/
theorem Op.leads_section (J : JsonText) (P : Platform) (op : Op) (e : Engine) :
    op.Leads J P e (op.section J P e) := by
  cases op with
  | setCommitRule path rule =>
    unfold Op.section
    dsimp only
    split
    · exact .skipped ‹_›
    · rename_i hp
      cases hs : commitRules.sanitize rule with
      | ok commit =>
        obtain ⟨hv, rfl⟩ := commitRules.valid_of_sanitize hs
        exact .write id (if_pos hv)
      | error ex =>
        refine .raised trivial hp (if_neg fun hv => ?_) ?_
        · rw [commitRules.sanitize_of_valid hv] at hs
          exact absurd hs nofun
        · change (outcome e (e.setCommitRule P path rule)).1 = some ex
          unfold Engine.setCommitRule
          rw [if_neg hp, hs]
          rfl
  | setFireRule path rule =>
    unfold Op.section
    dsimp only
    split
    · exact .skipped ‹_›
    · rename_i hp
      cases hs : fireRules.sanitize rule with
      | ok fire =>
        obtain ⟨hv, rfl⟩ := fireRules.valid_of_sanitize hs
        exact .write id (if_pos hv)
      | error ex =>
        refine .raised trivial hp (if_neg fun hv => ?_) ?_
        · rw [fireRules.sanitize_of_valid hv] at hs
          exact absurd hs nofun
        · change (outcome e (e.setFireRule P path rule)).1 = some ex
          unfold Engine.setFireRule
          rw [if_neg hp, hs]
          rfl
  | setDirectoryFileCount path num =>
    unfold Op.section
    dsimp only
    split
    · exact .skipped ‹_›
    · exact .marks
  | setFileDeps path dependencies =>
    unfold Op.section
    dsimp only
    split
    · exact .skipped ‹_›
    · rename_i hsome
      exact .declares (not_or.mp hsome).2
  | addFileDependency path fileDependency =>
    change Op.Leads J P e _ (Section.addFileDependency path fileDependency e)
    unfold Section.addFileDependency
    dsimp only
    split
    · exact .skipped ‹_›
    · split
      · rename_i x hx
        exact .depends (by rw [hx]; rfl)
      · exact .dependMissing ‹_› ‹_›
  | ask q path => exact Op.leads_ask q path
  | setAllStoreInMemory => exact .storesAll
  | newFile path => exact .created
  | remove path => exact .whole trivial
  | add => exact .whole trivial
  | addEntry => exact .whole trivial
  | receive => exact .whole trivial
  | setWorkflowName => exact .whole trivial
  | _ => exact .write id rfl

end Leads

/-- The calls a task has still to return from. -/
def Task.todo : Task → List Op
  | .call op => [op]
  | .create _ => []
  | .write _ _ _ last => last.toList
  | .permanent q path => [.ask q path]
  | .count path num => [.setDirectoryFileCount path num]
  | .deps path dependencies => [.setFileDeps path dependencies]
  | .storePaths => [.setAllStoreInMemory]
  | .finish op => [op]

/-! ## Returns -/

/-- What a section leaves to do, for the call and the tasks it pushed. -/
def Section.todo (o : Section) : List Op := o.events.map Return.call ++ o.tasks.flatMap Task.todo

section Todo

variable {J : JsonText} {P : Platform} {e : Engine}

theorem todo_ends (last : Option Op) : (Section.ends e last).todo = last.toList := by
  unfold Section.todo Section.ends
  rw [List.map_map, List.flatMap_nil, List.append_nil]
  exact List.map_id _

theorem todo_write {inside : Bool} {path : String} {w : Write} {last : Option Op} {retry : Task}
    (h : retry.todo = last.toList) :
    (Section.write P inside path w last retry e).todo = last.toList := by
  unfold Section.write
  split
  · exact todo_ends last
  · split
    · exact todo_ends last
    · split <;> exact (List.append_nil _).trans h

/-- **A section returns from its call, or leaves that to the tasks it pushes.** -/
theorem todo_section (J : JsonText) (P : Platform) (t : Task) (e : Engine) :
    (t.section J P e).todo = t.todo := by
  -- the tasks of a loop return from nothing
  have hloop : ∀ (paths : List String) (f : String → Task) (last : Task), (∀ p, (f p).todo = []) →
      (paths.map f ++ [last]).flatMap Task.todo = last.todo := by
    intro paths f last hf
    induction paths with
    | nil => exact List.append_nil _
    | cons p paths ih =>
      rw [List.map_cons, List.cons_append, List.flatMap_cons, hf, ih]
      rfl
  cases t with
  | create path => rfl
  | write inside path w last => exact todo_write rfl
  | permanent q path =>
    change (Section.permanent q path e).todo = _
    unfold Section.permanent
    split
    · rfl
    · split <;> rfl
  | count path num => exact todo_write rfl
  | deps path dependencies => exact todo_write rfl
  | storePaths => exact hloop _ _ _ fun _ => rfl
  | finish op => rfl
  | call op =>
    have hleads := op.leads_section J P e
    change (op.section J P e).todo = [op]
    generalize op.section J P e = o at hleads
    cases hleads with
    | write => exact todo_write rfl
    | marks | declares => exact hloop _ _ _ fun _ => rfl
    | _ => rfl

end Todo

/-! ## The tasks of a call -/

/-- The tasks that a call goes through, when the keys it meets satisfy `K`. -/
inductive Task.Of (K : String → Prop) (op : Op) : Task → Prop where
  | call : Of K op (.call op)
  | create {path : String} (hpath : path ∈ op.paths) : Of K op (.create path)
  | write {inside : Bool} {path : String} {w : Write} (hw : op.write? = some (path, w)) :
      Of K op (.write inside path w (some op))
  | mark {path p : String} {num : Int} (hop : op = .setDirectoryFileCount path num) (hp : K p) :
      Of K op (.write true p (.isFile false) none)
  | count {path : String} {num : Int} (hop : op = .setDirectoryFileCount path num) :
      Of K op (.count path num)
  | deps {path : String} {dependencies : List String} (hop : op = .setFileDeps path dependencies)
      (hne : dependencies ≠ []) : Of K op (.deps path dependencies)
  | permanent {q : Query} {path : String} (hop : op = .ask q path) (hq : ¬ q.Steady) :
      Of K op (.permanent q path)
  | rule {path fileDependency : String} (hop : op = .addFileDependency path fileDependency) :
      Of K op (.write false path (.commitRule commitRules.onFile) none)
  | storePaths (hop : op = .setAllStoreInMemory) : Of K op .storePaths
  | memory {p : String} (hop : op = .setAllStoreInMemory) (hp : K p) :
      Of K op (.write true p (.storeInMemory true) none)
  | finish (hop : op = .setAllStoreInMemory) : Of K op (.finish op)

section Of

variable {K : String → Prop} {J : JsonText} {P : Platform} {e : Engine} {op : Op}

theorem mem_paths_of_write? {path : String} {w : Write} (h : op.write? = some (path, w)) :
    path ∈ op.paths := by
  cases op
  case setCommitRule p rule =>
    change (if commitRules.Valid rule then some (p, Write.commitRule rule) else none) = _ at h
    split at h
    · exact List.mem_singleton.mpr (Prod.mk.inj (Option.some.inj h)).1.symm
    · exact absurd h nofun
  case setFireRule p rule =>
    change (if fireRules.Valid rule then some (p, Write.fireRule rule) else none) = _ at h
    split at h
    · exact List.mem_singleton.mpr (Prod.mk.inj (Option.some.inj h)).1.symm
    · exact absurd h nofun
  case setFileDeps p dependencies =>
    change (if dependencies = [] then none else some (p, Write.fileDeps dependencies)) = _ at h
    split at h
    · exact absurd h nofun
    · rw [(Prod.mk.inj (Option.some.inj h)).1]
      exact List.mem_cons_self
  all_goals
    first
      | exact List.mem_singleton.mpr (Prod.mk.inj (Option.some.inj h)).1.symm
      | exact absurd h nofun

end Of

/-- Threads that share an engine, each with its list of calls. -/
def threads {ι : Type} (e : Engine) (calls : ι → List LockedOp) : Config ι Task Engine Return :=
  { shared := e, pending := fun i => (calls i).map fun c => .call c.op }

/-- What they came to before the `n`-th section of a schedule. -/
abbrev sectionsAt {ι : Type} [DecidableEq ι] (J : JsonText) (e : Engine)
    (calls : ι → List LockedOp) (schedule : List (ι × Platform)) (n : Nat) :
    Config ι Task Engine Return :=
  configAt (Task.section J) (threads e calls) schedule n

/-- A task of a call with a property. -/
def Task.OfSome (K : String → Prop) (A : Op → Prop) (t : Task) : Prop := ∃ op, A op ∧ t.Of K op

/-- **Each thread returns from its calls in order**, whatever the schedule. -/
theorem returns_in_order {ι : Type} [DecidableEq ι] (J : JsonText) (e : Engine)
    (calls : ι → List LockedOp) (schedule : List (ι × Platform)) (n : Nat) (i : ι) :
    (logOf i (sectionsAt J e calls schedule n)).map Return.call ++
        ((sectionsAt J e calls schedule n).pending i).flatMap Task.todo =
      (calls i).map LockedOp.op := by
  have h := @programOrder ι Platform Task Engine Return _ (Task.section J) (threads e calls) schedule
    (fun _ => True) (fun _ => True) ⟨fun _ _ _ _ _ => trivial, fun _ _ _ _ _ _ _ => trivial⟩
    trivial (fun _ _ _ => trivial) Op Task.todo Return.call rfl
    (fun k t s _ _ => (todo_section J k t s).symm) n i
  refine h.trans ?_
  change ((calls i).map fun c => Task.call c.op).flatMap Task.todo = _
  induction calls i with
  | nil => rfl
  | cons c cs ih => exact congrArg (c.op :: ·) ih

/-- One thread sets a rule while the other asks for it. -/
def setAndAsk : Bool → List LockedOp
  | false => [⟨.setCommitRule "a" "on_file", trivial⟩]
  | true => [⟨.ask .getCommitRule "a", trivial⟩]

end CapioCl
