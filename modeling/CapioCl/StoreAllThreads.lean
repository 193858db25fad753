import CapioCl.SectionEffects

/-!
# Storing everything in memory while other threads run

`setAllStoreInMemory` raises the flag, takes the list of paths and then visits one path after
another, each in a section of its own (`Engine.cpp:779-790`). Other threads may create, write and
remove entries in between, and none of them is missed: an entry created after the flag is stored in
memory from the start, and an entry that is older is on the list. Once the call has returned, only
the paths that some thread moves to the file system can be outside memory (`storeAll_threads`).
-/

namespace CapioCl

open CapioCl.Lib CapioCl.Lib.Interleaving

/-- The call stores a path in the file system: `setStoreFileInFileSystem`, or a record. -/
def Op.Moves (J : JsonText) (e₀ : Engine) (op : Op) (k : String) : Prop :=
  op = .setStoreFileInFileSystem k ∨
    ∃ entry, op.record J e₀ = some (k, entry) ∧ entry.storeInMemory = false

/-- The task that stores a path in memory, on behalf of `setAllStoreInMemory`. -/
abbrev Task.storePath (k : String) : Task := .write true k (.storeInMemory true) none

section Section

variable {J : JsonText} {P : Platform} {t : Task} {e e₀ : Engine} {K : String → Prop} {op : Op}
  {X : String → Prop}

/-- Only `setStoreFileInFileSystem` writes this value. -/
theorem fileSystem_of_write? {path : String}
    (h : op.write? = some (path, .storeInMemory false)) : op = .setStoreFileInFileSystem path := by
  cases op
  case setCommitRule p rule =>
    exact absurd h (by unfold Op.write?; dsimp only; split <;> simp)
  case setFireRule p rule =>
    exact absurd h (by unfold Op.write?; dsimp only; split <;> simp)
  case setFileDeps p dependencies =>
    exact absurd h (by unfold Op.write?; dsimp only; split <;> simp)
  all_goals simp [Op.write?] at h
  rw [h]

/-- **A section keeps what is stored in memory**, but for the paths its call moves. -/
theorem storedBut_section (P : Platform) (h : StoredBut X e)
    (hname : e.workflowName = e₀.workflowName) (hof : t.Of K op)
    (hmoves : ∀ k, op.Moves J e₀ k → X k) : StoredBut X (t.section J P e).shared := by
  have heffect := section_effect J P t e
  generalize (t.section J P e).shared = e' at heffect ⊢
  cases heffect with
  | keep => exact h
  | create path => exact h.newFile P path
  | @write path w hw hfound =>
    refine h.modify fun x hfalse => ?_
    cases w with
    | storeInMemory value =>
      cases value with
      | true => exact absurd hfalse (by simp [Write.apply])
      | false =>
        rcases write?_of hof hw with hown | heq | heq | heq
        · exact Or.inr (hmoves path (Or.inl (fileSystem_of_write? hown)))
        · exact absurd heq (by simp)
        · exact absurd heq (by simp)
        · exact absurd heq (by simp)
    | app σ name => cases σ <;> exact Or.inl hfalse
    | _ => exact Or.inl hfalse
  | depend => exact h.modify fun x hfalse => Or.inl hfalse
  | storeAll => exact ⟨rfl, h.stored⟩
  | @whole op' ht hwhole =>
    subst ht
    obtain rfl := op_of_call hof
    refine h.perform_op J P op' ?_ fun path entry hr _ => ?_
    · rintro path rfl
      exact hwhole.elim
    · cases hentry : entry.storeInMemory with
      | true => exact Or.inl rfl
      | false => exact Or.inr (hmoves path (Or.inr ⟨entry, record_congr hname ▸ hr, hentry⟩))

/-- The flag is never lowered. -/
theorem flag_section (P : Platform) (h : e.storeAllInMemory = true) (hof : t.Of K op) :
    (t.section J P e).shared.storeAllInMemory = true :=
  (@storedBut_section J t e e K op (fun _ => True) P ⟨h, fun _ _ _ _ => trivial⟩ rfl hof
    fun _ _ => trivial).flag

end Section

/-! ## The thread that stores everything -/

/-- How far a thread has got with `setAllStoreInMemory`: after the flag it is raised, and before the
end every entry outside memory is still on the list. -/
structure Covers (X : String → Prop) (ts : List Task) (e : Engine) : Prop where
  flag : Task.storePaths ∈ ts → e.storeAllInMemory = true
  list : ∀ before after, ts = before ++ .finish .setAllStoreInMemory :: after →
    StoredBut (fun k => X k ∨ Task.storePath k ∈ before) e

section Thread

variable {J : JsonText} {P : Platform} {t : Task} {rest : List Task} {e e₀ : Engine}
  {K : String → Prop} {op : Op} {X : String → Prop}

/-- The sections of other threads do not break it. -/
theorem Covers.other {ts : List Task} (h : Covers X ts e) (P : Platform)
    (hname : e.workflowName = e₀.workflowName) (hof : t.Of K op)
    (hmoves : ∀ k, op.Moves J e₀ k → X k) : Covers X ts (t.section J P e).shared := by
  refine ⟨fun hmem => flag_section P (h.flag hmem) hof, fun before after hts => ?_⟩
  exact storedBut_section P (h.list before after hts) hname hof fun k hk => Or.inl (hmoves k hk)

/-- The end of the call, behind tasks that do not end it. -/
theorem finish_behind {tasks before after : List Task}
    (hnot : Task.finish .setAllStoreInMemory ∉ tasks)
    (h : tasks ++ rest = before ++ .finish .setAllStoreInMemory :: after) :
    ∃ before', before = tasks ++ before' ∧
      rest = before' ++ .finish .setAllStoreInMemory :: after := by
  rcases List.append_eq_append_iff.mp h with ⟨before', hb, hr⟩ | ⟨c, ht, hr⟩
  · exact ⟨before', hb, hr⟩
  · cases c with
    | nil =>
      rw [List.append_nil] at ht
      exact ⟨[], by rw [List.append_nil, ht], hr.symm⟩
    | cons t c =>
      obtain ⟨rfl, -⟩ := List.cons.inj hr
      exact absurd (ht ▸ List.mem_append_right before List.mem_cons_self) hnot

/-- A path that was visited is stored in memory, or has no entry. -/
theorem Covers.storePath {p : String} (h : Covers X (.storePath p :: rest) e) (P : Platform)
    (hname : e.workflowName = e₀.workflowName) (hof : (Task.storePath p).Of K op)
    (hmoves : ∀ k, op.Moves J e₀ k → X k) (hempty : X "") :
    Covers X (((Task.storePath p).section J P e).tasks ++ rest)
      ((Task.storePath p).section J P e).shared := by
  have hstay : ∀ {before after}, rest = before ++ .finish .setAllStoreInMemory :: after →
      StoredBut (fun k => X k ∨ Task.storePath k ∈ Task.storePath p :: before)
        ((Task.storePath p).section J P e).shared := fun {before after} hrest =>
    storedBut_section P (h.list (_ :: before) after (by rw [hrest]; rfl)) hname hof
      fun k hk => Or.inl (hmoves k hk)
  have hflag : ∀ {tasks}, Task.storePaths ∉ tasks → Task.storePaths ∈ tasks ++ rest →
      ((Task.storePath p).section J P e).shared.storeAllInMemory = true := fun hnot hmem =>
    flag_section P (h.flag (List.mem_cons_of_mem _ ((List.mem_append.mp hmem).resolve_left hnot)))
      hof
  change Covers X ((Section.write P true p (.storeInMemory true) none _ e).tasks ++ rest)
    (Section.write P true p (.storeInMemory true) none _ e).shared
  change ∀ {before after}, _ → StoredBut _
    (Section.write P true p (.storeInMemory true) none _ e).shared at hstay
  change ∀ {tasks}, _ → _ →
    (Section.write P true p (.storeInMemory true) none _ e).shared.storeAllInMemory = true at hflag
  -- visited: `p` is stored in memory, and is dropped from the list
  have hdone : ∀ {e' : Engine}, (Section.write P true p (.storeInMemory true) none
        (Task.storePath p) e).shared = e' →
      (∀ x, e'.find p = some x → x.storeInMemory = false → X p) → Covers X ([] ++ rest) e' := by
    rintro e' rfl hvisited
    refine ⟨hflag List.not_mem_nil, fun before after hts => ?_⟩
    obtain ⟨hf, hstored⟩ := hstay hts
    refine ⟨hf, fun k x hx hfalse => ?_⟩
    rcases hstored k x hx hfalse with hX | hmem
    · exact Or.inl hX
    · rcases List.mem_cons.mp hmem with heq | hmem
      · obtain rfl : k = p := by simpa using heq
        exact Or.inl (hvisited x hx hfalse)
      · exact Or.inr hmem
  by_cases hp : p = ""
  · have htasks : (Section.write P true p (.storeInMemory true) none (Task.storePath p) e).tasks =
        [] := by
      unfold Section.write
      rw [if_pos hp]
      rfl
    rw [htasks]
    exact hdone rfl fun _ _ _ => hp ▸ hempty
  cases hfound : e.find p with
  | some x =>
    have hwritten : Section.write P true p (.storeInMemory true) none (Task.storePath p) e =
        .ends (e.modify p (Write.storeInMemory true).apply) none := by
      unfold Section.write
      rw [if_neg hp, hfound]
    have htasks : (Section.write P true p (.storeInMemory true) none (Task.storePath p) e).tasks =
        [] := by
      rw [hwritten]
      rfl
    rw [htasks]
    refine hdone rfl fun y hy hfalse => ?_
    rw [hwritten] at hy
    change (e.modify p _).find p = some y at hy
    rw [Engine.find_modify, if_pos rfl, hfound] at hy
    rw [← Option.some.inj hy] at hfalse
    exact absurd hfalse (by simp [Write.apply])
  | none =>
    have htasks : (Section.write P true p (.storeInMemory true) none (Task.storePath p) e).tasks =
        [.storePath p] := by
      unfold Section.write
      rw [if_neg hp, hfound]
      rfl
    rw [htasks]
    refine ⟨hflag (by simp), fun before after hts => ?_⟩
    obtain ⟨before', rfl, hrest⟩ := finish_behind (by simp) hts
    exact hstay hrest

end Thread

end CapioCl
