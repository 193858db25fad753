import Mathlib.Data.List.Forall2
import Mathlib.Data.List.Induction

/-!
# Runs of a machine

A machine takes one input after another. `stateAt step s inputs n` is its state before the `n`-th
input. An invariant that the good inputs keep and the others break holds along a run exactly when
every input of the run is good (`always_iff`); `always` is the half that needs no breaking. `related` is
about two machines that take related inputs.

A partial machine may be unable to take an event: `exec step s events` is the state after all of
them, if each could happen. `exec_induction` proves a relation between the events so far and the
state, `exec_preserves` a property of the state alone.
-/

namespace CapioCl.Lib.Runs

variable {σ ι : Type} (step : σ → ι → σ)

/-- The state before the `n`-th input. -/
def stateAt (s : σ) (inputs : List ι) (n : Nat) : σ := (inputs.take n).foldl step s

variable {s : σ} {inputs : List ι}

@[simp] theorem stateAt_zero : stateAt step s inputs 0 = s := by
  unfold stateAt
  rw [List.take_zero, List.foldl_nil]

theorem stateAt_succ {n : Nat} {a : ι} (h : inputs[n]? = some a) :
    stateAt step s inputs (n + 1) = step (stateAt step s inputs n) a := by
  unfold stateAt
  rw [List.take_add_one, h, Option.toList_some, List.foldl_append, List.foldl_cons,
    List.foldl_nil]

theorem stateAt_of_none {n : Nat} (h : inputs[n]? = none) :
    stateAt step s inputs (n + 1) = stateAt step s inputs n := by
  unfold stateAt
  rw [List.take_add_one, h, Option.toList_none, List.append_nil]

/-- After the last input. -/
theorem stateAt_of_length_le {n : Nat} (h : inputs.length ≤ n) :
    stateAt step s inputs n = inputs.foldl step s := by
  unfold stateAt
  rw [List.take_of_length_le h]

/-- What every step relates, a run relates. -/
theorem stateAt_rel {R : σ → σ → Prop} (hrefl : ∀ s, R s s)
    (htrans : ∀ s t u, R s t → R t u → R s u) (hstep : ∀ s a, R s (step s a)) {m n : Nat}
    (h : m ≤ n) : R (stateAt step s inputs m) (stateAt step s inputs n) := by
  induction h with
  | refl => exact hrefl _
  | @step n h ih =>
    cases hn : inputs[n]? with
    | none =>
      rw [stateAt_of_none step hn]
      exact ih
    | some a =>
      rw [stateAt_succ step hn]
      exact htrans _ _ _ ih (hstep _ a)

/-- **An invariant along a run.** It holds throughout when each input keeps it. -/
theorem always {I : σ → Prop} (h0 : I s)
    (hstep : ∀ n a, inputs[n]? = some a → I (stateAt step s inputs n) →
      I (stateAt step s inputs (n + 1))) (n : Nat) : I (stateAt step s inputs n) := by
  induction n with
  | zero =>
    rw [stateAt_zero]
    exact h0
  | succ n ih =>
    cases h : inputs[n]? with
    | none =>
      rw [stateAt_of_none step h]
      exact ih
    | some a => exact hstep n a h ih

/-- **A relation between the inputs so far and the state.** -/
theorem always_past {I : List ι → σ → Prop} (h0 : I [] s)
    (hstep : ∀ n a, inputs[n]? = some a → I (inputs.take n) (stateAt step s inputs n) →
      I (inputs.take n ++ [a]) (step (stateAt step s inputs n) a)) (n : Nat) :
    I (inputs.take n) (stateAt step s inputs n) := by
  induction n with
  | zero =>
    rw [stateAt_zero, List.take_zero]
    exact h0
  | succ n ih =>
    cases h : inputs[n]? with
    | none =>
      rw [stateAt_of_none step h, List.take_add_one, h, Option.toList_none, List.append_nil]
      exact ih
    | some a =>
      rw [stateAt_succ step h, List.take_add_one, h, Option.toList_some]
      exact hstep n a h ih

/-- **The inputs that keep an invariant.** When an input keeps the invariant exactly if it is good,
the invariant holds throughout a run exactly if all its inputs are. -/
theorem always_iff {I : σ → Prop} {Good : σ → ι → Prop} (h0 : I s)
    (hstep : ∀ n a, inputs[n]? = some a → I (stateAt step s inputs n) →
      (I (stateAt step s inputs (n + 1)) ↔ Good (stateAt step s inputs n) a)) :
    (∀ n, I (stateAt step s inputs n)) ↔
      ∀ n a, inputs[n]? = some a → Good (stateAt step s inputs n) a :=
  ⟨fun h n a ha => (hstep n a ha (h n)).mp (h (n + 1)),
    fun h => always step h0 fun n a ha hs => (hstep n a ha hs).mpr (h n a ha)⟩

/-- **Two machines side by side.** What related inputs keep between two states, two runs keep. -/
theorem related {τ κ : Type} {step' : τ → κ → τ} {R : σ → τ → Prop} {Q : ι → κ → Prop} {t : τ}
    {inputs' : List κ} (h0 : R s t) (hinputs : List.Forall₂ Q inputs inputs')
    (hstep : ∀ s t a b, R s t → Q a b → R (step s a) (step' t b)) (n : Nat) :
    R (stateAt step s inputs n) (stateAt step' t inputs' n) := by
  have hfold : Relator.LiftFun R (Relator.LiftFun Q R) step step' :=
    fun s t hst a b hab => hstep s t a b hst hab
  exact List.rel_foldl hfold h0 (List.forall₂_take n hinputs)

/-! ## Partial machines -/

section Exec

variable {ε : Type} (step : σ → ε → Option σ) {s t : σ} {events : List ε}

/-- The state after a list of events, when every event could happen. -/
def exec (s : σ) (events : List ε) : Option σ := events.foldlM step s

@[simp] theorem exec_nil : exec step s [] = some s := rfl

theorem exec_cons {e : ε} :
    exec step s (e :: events) = (step s e).bind fun m => exec step m events := rfl

theorem exec_append_iff {events' : List ε} : exec step s (events ++ events') = some t ↔
    ∃ m, exec step s events = some m ∧ exec step m events' = some t := by
  unfold exec
  rw [List.foldlM_append, Option.bind_eq_bind, Option.bind_eq_some_iff]

theorem exec_concat_iff {e : ε} : exec step s (events ++ [e]) = some t ↔
    ∃ m, exec step s events = some m ∧ step m e = some t := by
  rw [exec_append_iff]
  refine exists_congr fun m => and_congr_right fun _ => ?_
  rw [exec_cons, Option.bind_eq_some_iff]
  simp

/-- **A relation between the events so far and the state.** -/
theorem exec_induction {I : List ε → σ → Prop} {Good : ε → Prop} (h0 : I [] s)
    (hstep : ∀ past m e t, I past m → Good e → step m e = some t → I (past ++ [e]) t)
    (hgood : ∀ e ∈ events, Good e) (h : exec step s events = some t) : I events t := by
  induction events using List.reverseRecOn generalizing t with
  | nil =>
    cases h
    exact h0
  | append_singleton past e ih =>
    obtain ⟨m, hm, he⟩ := (exec_concat_iff step).mp h
    have hpast : ∀ e' ∈ past, Good e' := fun e' he' => hgood e' (List.mem_append_left _ he')
    exact hstep past m e t (ih hpast hm) (hgood e (by simp)) he

/-- **A property that every event keeps.** -/
theorem exec_preserves {P : σ → Prop} (hstep : ∀ m e t, P m → step m e = some t → P t)
    (h0 : P s) (h : exec step s events = some t) : P t :=
  exec_induction (I := fun _ m => P m) step h0
    (fun _ m e t hm (_ : True) he => hstep m e t hm he) (fun _ _ => trivial) h

end Exec

end CapioCl.Lib.Runs
