import Mathlib.Data.List.AList
import Mathlib.Data.List.Count
import Mathlib.Data.List.Perm.Basic

/-!
# Hash maps with an unspecified iteration order

A hash map is an association list without repeated keys (`AList`). What a program can observe of
one is `lookup`, and the sequence in which a loop visits its keys. The sequence is not part of the
map: it is an `IterationOrder`, any function that lists the given keys in some order. A program
that grows a map never iterates twice over the same key list, so a function of the key list is as
general as an order that changes with every insertion.

* `modify` rewrites the value under a key in place.
* `push` appends to the list under a key, creating it when absent: `m[k].push_back(v)`.
  `lookup_pushAll` says that a loop of pushes groups the pairs by key, in the order of the loop.
* `count_transpose`: pushing every key under each of its values turns an index round.
-/

namespace CapioCl.Lib

/-- A hash map: each key at most once. -/
abbrev UnorderedMap (κ ν : Type) := AList (fun _ : κ => ν)

/-- The order in which a loop over a hash map visits its keys. -/
structure IterationOrder (κ : Type) where
  order : List κ → List κ
  perm : ∀ ks, (order ks).Perm ks

namespace IterationOrder

variable {κ : Type}

theorem mem_order (o : IterationOrder κ) {ks : List κ} {k : κ} : k ∈ o.order ks ↔ k ∈ ks :=
  (o.perm ks).mem_iff

theorem nodup_order (o : IterationOrder κ) {ks : List κ} (h : ks.Nodup) : (o.order ks).Nodup :=
  (o.perm ks).nodup_iff.mpr h

/-- The order the key list already has. -/
def id : IterationOrder κ := ⟨fun ks => ks, fun ks => List.Perm.refl ks⟩

/-- A new key leaves the order of the others as it is. -/
def Stable [DecidableEq κ] (o : IterationOrder κ) : Prop :=
  ∀ k ks, k ∉ ks → (o.order (k :: ks)).filter (· ≠ k) = o.order ks

theorem stable_id [DecidableEq κ] : (id : IterationOrder κ).Stable := by
  intro k ks hk
  change (k :: ks).filter (· ≠ k) = ks
  rw [List.filter_cons_of_neg (by simp)]
  exact List.filter_eq_self.mpr fun q hq => by
    simpa using fun heq : q = k => hk (heq ▸ hq)

end IterationOrder

namespace UnorderedMap

variable {κ ν : Type} [DecidableEq κ]

/-- A value found after an insertion is the inserted one or was there. -/
theorem of_lookup_insert {m : UnorderedMap κ ν} {k q : κ} {v w : ν}
    (h : (m.insert k v).lookup q = some w) : (q = k ∧ w = v) ∨ m.lookup q = some w := by
  by_cases hq : q = k
  · subst hq
    rw [AList.lookup_insert] at h
    exact .inl ⟨rfl, (Option.some.inj h).symm⟩
  · rw [AList.lookup_insert_ne hq] at h
    exact .inr h

/-- Rewrite the value under `k` in place, when there is one. -/
def modify (k : κ) (f : ν → ν) (m : UnorderedMap κ ν) : UnorderedMap κ ν where
  entries := m.entries.map fun kv => if kv.1 = k then ⟨kv.1, f kv.2⟩ else kv
  nodupKeys := by
    have hkeys : (m.entries.map fun kv => if kv.1 = k then (⟨kv.1, f kv.2⟩ : Sigma fun _ => ν)
        else kv).keys = m.entries.keys := by
      unfold List.keys
      rw [List.map_map]
      refine List.map_congr_left fun kv _ => ?_
      rw [Function.comp_apply]
      split <;> rfl
    unfold List.NodupKeys
    rw [hkeys]
    exact m.nodupKeys

@[simp] theorem keys_modify (m : UnorderedMap κ ν) (k : κ) (f : ν → ν) :
    (modify k f m).keys = m.keys := by
  unfold AList.keys modify List.keys
  rw [List.map_map]
  refine List.map_congr_left fun kv _ => ?_
  rw [Function.comp_apply]
  split <;> rfl

theorem dlookup_map_modify (k : κ) (f : ν → ν) (q : κ) : ∀ l : List (Sigma fun _ : κ => ν),
    (l.map fun kv => if kv.1 = k then (⟨kv.1, f kv.2⟩ : Sigma fun _ => ν) else kv).dlookup q =
      if q = k then (l.dlookup q).map f else l.dlookup q
  | [] => by simp
  | ⟨a, v⟩ :: l => by
    have ih := dlookup_map_modify k f q l
    rw [List.map_cons]
    by_cases ha : a = q
    · subst ha
      by_cases hk : a = k
      · rw [if_pos hk, if_pos hk, List.dlookup_cons_eq, List.dlookup_cons_eq, Option.map_some]
      · rw [if_neg hk, if_neg hk, List.dlookup_cons_eq, List.dlookup_cons_eq]
    · rw [List.dlookup_cons_ne l ⟨a, v⟩ (Ne.symm ha), ← ih]
      split
      · exact List.dlookup_cons_ne _ (⟨a, f v⟩ : Sigma fun _ : κ => ν) (Ne.symm ha)
      · exact List.dlookup_cons_ne _ (⟨a, v⟩ : Sigma fun _ : κ => ν) (Ne.symm ha)

@[simp] theorem lookup_modify (m : UnorderedMap κ ν) (k : κ) (f : ν → ν) (q : κ) :
    (modify k f m).lookup q = if q = k then (m.lookup q).map f else m.lookup q :=
  dlookup_map_modify k f q m.entries

/-- The keys in their order and the value of each key determine the map. -/
theorem ext_of_keys {m m' : UnorderedMap κ ν} (hkeys : m.keys = m'.keys)
    (hlookup : ∀ k, m.lookup k = m'.lookup k) : m = m' := by
  have hlists : ∀ {l l' : List (Sigma fun _ : κ => ν)}, l.NodupKeys → l'.NodupKeys →
      l.keys = l'.keys → (∀ k, l.dlookup k = l'.dlookup k) → l = l' := by
    intro l
    induction l with
    | nil =>
      intro l' _ _ hk _
      exact (List.map_eq_nil_iff.mp hk.symm).symm
    | cons kv l ih =>
      rintro (_ | ⟨kv', l'⟩) hn hn' hk hd
      · exact absurd hk (by simp)
      obtain ⟨k, v⟩ := kv
      obtain ⟨k', v'⟩ := kv'
      rw [List.keys_cons, List.keys_cons, List.cons.injEq] at hk
      obtain ⟨hkk, hk⟩ := hk
      dsimp only at hkk
      subst hkk
      have hv : v = v' := by
        have := hd k
        rw [List.dlookup_cons_eq, List.dlookup_cons_eq] at this
        exact Option.some.inj this
      rw [List.nodupKeys_cons] at hn hn'
      rw [hv, ih hn.2 hn'.2 hk fun q => ?_]
      by_cases hq : q = k
      · subst hq
        rw [List.dlookup_eq_none.mpr hn.1, List.dlookup_eq_none.mpr hn'.1]
      · have := hd q
        rwa [List.dlookup_cons_ne l ⟨k, v⟩ hq, List.dlookup_cons_ne l' ⟨k, v'⟩ hq] at this
  exact AList.ext (hlists m.nodupKeys m'.nodupKeys hkeys hlookup)

/-! ## Grouping -/

/-- `m[k].push_back(v)`. -/
def push (m : UnorderedMap κ (List ν)) (k : κ) (v : ν) : UnorderedMap κ (List ν) :=
  m.insert k ((m.lookup k).getD [] ++ [v])

/-- A loop of pushes. -/
def pushAll (l : List (κ × ν)) (m : UnorderedMap κ (List ν)) : UnorderedMap κ (List ν) :=
  l.foldl (fun m kv => push m kv.1 kv.2) m

theorem lookup_push (m : UnorderedMap κ (List ν)) (k : κ) (v : ν) (q : κ) :
    ((push m k v).lookup q).getD [] =
      (m.lookup q).getD [] ++ if k = q then [v] else [] := by
  unfold push
  by_cases hq : k = q
  · subst hq
    rw [AList.lookup_insert, Option.getD_some, if_pos rfl]
  · rw [AList.lookup_insert_ne (Ne.symm hq), if_neg hq, List.append_nil]

theorem mem_push {m : UnorderedMap κ (List ν)} {k : κ} {v : ν} {q : κ} :
    q ∈ push m k v ↔ q = k ∨ q ∈ m := by
  unfold push
  exact AList.mem_insert m

/-- **A loop of pushes groups by key**, keeping the order of the loop inside each group. -/
theorem lookup_pushAll (q : κ) (l : List (κ × ν)) (m : UnorderedMap κ (List ν)) :
    ((pushAll l m).lookup q).getD [] =
      (m.lookup q).getD [] ++ (l.filter fun kv => kv.1 = q).map Prod.snd := by
  unfold pushAll
  induction l generalizing m with
  | nil => simp
  | cons kv l ih =>
    rw [List.foldl_cons, ih, lookup_push]
    by_cases hq : kv.1 = q
    · simp [hq]
    · simp [hq]

theorem mem_pushAll {q : κ} {l : List (κ × ν)} {m : UnorderedMap κ (List ν)} :
    q ∈ pushAll l m ↔ q ∈ l.map Prod.fst ∨ q ∈ m := by
  unfold pushAll
  induction l generalizing m with
  | nil => simp
  | cons kv l ih =>
    rw [List.foldl_cons, ih, mem_push, List.map_cons, List.mem_cons]
    tauto

/-! ### Turning an index round -/

section
variable {σ α : Type} [DecidableEq α]

/-- The pairs of a value and the key it is listed under. -/
def pairs (values : σ → List α) (index : List (κ × σ)) : List (α × κ) :=
  index.flatMap fun entry => (values entry.2).map fun a => (a, entry.1)

theorem count_pairs_of_not_mem {values : σ → List α} {index : List (κ × σ)} {k : κ}
    (h : k ∉ index.map Prod.fst) (a : α) : (pairs values index).count (a, k) = 0 := by
  rw [List.count_eq_zero]
  intro hmem
  obtain ⟨entry, hentry, hpair⟩ := List.mem_flatMap.mp hmem
  obtain ⟨b, -, heq⟩ := List.mem_map.mp hpair
  exact h (List.mem_map.mpr ⟨entry, hentry, (Prod.mk.inj heq).2⟩)

/-- A value is paired with a key as often as it is listed under it. -/
theorem count_pairs {values : σ → List α} {index : List (κ × σ)} (hn : (index.map Prod.fst).Nodup)
    {k : κ} {s : σ} (h : (k, s) ∈ index) (a : α) :
    (pairs values index).count (a, k) = (values s).count a := by
  induction index with
  | nil => exact absurd h List.not_mem_nil
  | cons entry index ih =>
    obtain ⟨k', s'⟩ := entry
    rw [List.map_cons, List.nodup_cons] at hn
    have hcons : pairs values ((k', s') :: index) =
        (values s').map (fun a => (a, k')) ++ pairs values index := List.flatMap_cons
    rw [hcons, List.count_append]
    rcases List.mem_cons.mp h with heq | h
    · obtain ⟨rfl, rfl⟩ := Prod.mk.inj heq
      rw [count_pairs_of_not_mem hn.1,
        List.count_map_of_injective _ _ fun a b hab => (Prod.mk.inj hab).1]
      exact Nat.add_zero _
    · have hne : (a, k) ∉ (values s').map fun a => (a, k') := by
        intro hmem
        obtain ⟨b, -, heq⟩ := List.mem_map.mp hmem
        exact hn.1 (List.mem_map.mpr ⟨(k, s), h, (Prod.mk.inj heq).2.symm⟩)
      rw [List.count_eq_zero.mpr hne, ih hn.2 h, Nat.zero_add]

/-- A loop of pushes, counted. -/
theorem count_pushAll (l : List (α × κ)) (a : α) (k : κ) :
    (((pushAll l ∅).lookup a).getD []).count k = l.count (a, k) := by
  rw [lookup_pushAll, AList.lookup_empty, Option.getD_none, List.nil_append]
  induction l with
  | nil => rfl
  | cons kv l ih =>
    obtain ⟨b, q⟩ := kv
    rw [List.count_cons]
    by_cases hb : b = a
    · subst hb
      rw [List.filter_cons_of_pos (by simp), List.map_cons, List.count_cons, ih]
      simp
    · rw [List.filter_cons_of_neg (by simpa using hb), ih]
      simp [hb]

/-- **The transpose of an index.** After a loop that pushes every key under each of its values, a key
is under a value as often as the value was under the key. -/
theorem count_transpose {values : σ → List α} {index : List (κ × σ)}
    (hn : (index.map Prod.fst).Nodup) {k : κ} {s : σ} (h : (k, s) ∈ index) (a : α) :
    (((pushAll (pairs values index) ∅).lookup a).getD []).count k = (values s).count a := by
  rw [count_pushAll, count_pairs hn h]

end

end UnorderedMap

end CapioCl.Lib
