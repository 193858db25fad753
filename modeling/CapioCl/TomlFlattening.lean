import CapioCl.Configuration
import CapioCl.Lib.Reading
import CapioCl.Lib.Registers

/-!
# A TOML document as configuration entries

`load_config_to_memory` writes every leaf of a document under the path of its keys, joined by dots
(`configuration.cpp:8-35`). Three things come between a leaf and its dotted path: a float, a date or
an array is read through the null result of `as_integer`; a first key that is empty is taken for the
missing prefix of the root table, so the path loses its dot; and a quoted key may contain a dot, so
two paths may join to one key.

* `loadConfigToMemory_eq`: the recursion is one loop over the leaves.
* `load_faithful_iff`: these three are all that can go wrong.
-/

namespace CapioCl

open CapioCl.Lib CapioCl.Lib.Reading

namespace Toml

/-- The text of a string, boolean or integer leaf. -/
def text? : Toml → Option String
  | .string s => some s
  | .boolean b => some (if b then "true" else "false")
  | .integer n => some (toString n)
  | .table _ => none
  | .other => none

/-- The leaves of a table, with their key paths. -/
def leaves : List (String × Toml) → List (List String × Toml)
  | [] => []
  | (key, .table tbl) :: rest =>
    (leaves tbl).map (fun leaf => (key :: leaf.1, leaf.2)) ++ leaves rest
  | (key, value) :: rest => ([key], value) :: leaves rest

/-- No key occurs twice in a table. -/
def DistinctKeys : List (String × Toml) → Prop
  | [] => True
  | (key, .table tbl) :: rest => key ∉ rest.map Prod.fst ∧ DistinctKeys tbl ∧ DistinctKeys rest
  | (key, _) :: rest => key ∉ rest.map Prod.fst ∧ DistinctKeys rest

theorem leaves_leaf {key : String} {value : Toml} {rest : List (String × Toml)}
    (h : ∀ tbl, value = .table tbl → False) :
    leaves ((key, value) :: rest) = ([key], value) :: leaves rest := by
  rw [leaves]
  exact h

/-- The keys of a path, joined by dots. -/
def dottedPath : List String → String
  | [] => ""
  | [key] => key
  | key :: rest => key ++ "." ++ dottedPath rest

/-- The key a leaf is stored under. -/
def storedKey (path : List String) : String := path.foldl Configuration.fullKey ""

end Toml

namespace Configuration

open Toml

/-- One leaf, below a prefix. -/
def storeLeaf (pre : String) (map : Configuration) (leaf : List String × Toml) :
    Except Exn Configuration :=
  match leaf.2.text? with
  | some text => .ok (map.insert (leaf.1.foldl fullKey pre) text)
  | none => .error .undefined

theorem foldlM_storeLeaf_cons (pre key : String) (ls : List (List String × Toml))
    (map : Configuration) :
    (ls.map fun leaf => (key :: leaf.1, leaf.2)).foldlM (storeLeaf pre) map =
      ls.foldlM (storeLeaf (fullKey pre key)) map := by
  rw [List.foldlM_map]
  rfl

/-- **`load_config_to_memory` is a loop over the leaves.** -/
theorem loadConfigToMemory_eq (tbl : List (String × Toml)) (pre : String) (map : Configuration) :
    loadConfigToMemory tbl pre map = (leaves tbl).foldlM (storeLeaf pre) map := by
  induction tbl using leaves.induct generalizing pre map with
  | case1 =>
    unfold loadConfigToMemory leaves
    rfl
  | case2 key tbl rest ihTbl ihRest =>
    unfold loadConfigToMemory leaves
    rw [List.foldlM_append, foldlM_storeLeaf_cons, ihTbl]
    exact congrArg (_ >>= ·) (funext fun map' => ihRest pre map')
  | case3 key value rest hleaf ih =>
    cases value with
    | table tbl => exact absurd rfl (hleaf tbl)
    | other =>
      unfold loadConfigToMemory leaves
      rfl
    | _ =>
      unfold loadConfigToMemory leaves
      exact ih pre _

/-- The leaves that can be stored, stored one after another. -/
def storeAll (ls : List (List String × Toml)) (map : Configuration) : Configuration :=
  ls.foldl (fun map leaf => map.insert (storedKey leaf.1) (leaf.2.text?.getD "")) map

theorem foldlM_storeLeaf_ok {ls : List (List String × Toml)} (h : ∀ leaf ∈ ls, leaf.2.text? ≠ none)
    (map : Configuration) : ls.foldlM (storeLeaf "") map = .ok (storeAll ls map) := by
  induction ls generalizing map with
  | nil => rfl
  | cons leaf ls ih =>
    rw [List.forall_mem_cons] at h
    obtain ⟨text, htext⟩ := Option.ne_none_iff_exists'.mp h.1
    have hstep : storeLeaf "" map leaf = .ok (map.insert (storedKey leaf.1) (leaf.2.text?.getD "")) := by
      unfold storeLeaf
      rw [htext]
      rfl
    rw [List.foldlM_cons, hstep, ok_bind, ih h.2]
    rfl

/-- A leaf without a text is where the loop ends. -/
theorem foldlM_storeLeaf_error {ls : List (List String × Toml)} {leaf : List String × Toml}
    (hmem : leaf ∈ ls) (h : leaf.2.text? = none) (map : Configuration) :
    ls.foldlM (storeLeaf "") map = .error .undefined := by
  induction ls generalizing map with
  | nil => exact absurd hmem List.not_mem_nil
  | cons leaf' ls ih =>
    rw [List.foldlM_cons]
    cases htext : leaf'.2.text? with
    | none =>
      have hstep : storeLeaf "" map leaf' = .error .undefined := by
        unfold storeLeaf
        rw [htext]
      rw [hstep, error_bind]
    | some text =>
      have hstep : storeLeaf "" map leaf' = .ok (map.insert (storedKey leaf'.1) text) := by
        unfold storeLeaf
        rw [htext]
        rfl
      rw [hstep, ok_bind]
      refine ih ?_ _
      rcases List.mem_cons.mp hmem with rfl | hmem
      · rw [h] at htext
        cases htext
      · exact hmem

/-- What a leaf assigns to a key. -/
def assigned (key : String) (leaf : List String × Toml) : Option String :=
  if storedKey leaf.1 = key then some (leaf.2.text?.getD "") else none

/-- **A key holds what the last of its leaves assigns**, or what it held. -/
theorem lookup_storeAll (key : String) (ls : List (List String × Toml)) (map : Configuration) :
    (storeAll ls map).lookup key = (Registers.last (assigned key) ls).or (map.lookup key) := by
  have hstep : ∀ (map : Configuration) (leaf : List String × Toml),
      (map.insert (storedKey leaf.1) (leaf.2.text?.getD "")).lookup key =
        ((assigned key leaf).map some).getD (map.lookup key) := by
    intro map leaf
    unfold assigned
    by_cases hk : storedKey leaf.1 = key
    · rw [if_pos hk, ← hk, AList.lookup_insert]
      rfl
    · rw [if_neg hk, AList.lookup_insert_ne (Ne.symm hk)]
      rfl
  have hlast : Registers.last (fun leaf => (assigned key leaf).map some) ls =
      (Registers.last (assigned key) ls).map some := by
    induction ls with
    | nil => rfl
    | cons leaf ls ih =>
      rw [Registers.last_cons, Registers.last_cons, ih]
      cases Registers.last (assigned key) ls <;> rfl
  unfold storeAll
  rw [@Registers.foldl_register _ Configuration _ _ (fun map => map.lookup key) _ hstep, hlast]
  cases Registers.last (assigned key) ls <;> rfl

end Configuration

/-! ## Key paths -/

namespace Toml

/-- The first key of a leaf is a key of the table. -/
theorem head_of_mem_leaves {tbl : List (String × Toml)} {leaf : List String × Toml}
    (h : leaf ∈ leaves tbl) : ∃ key rest, leaf.1 = key :: rest ∧ key ∈ tbl.map Prod.fst := by
  induction tbl using leaves.induct with
  | case1 =>
    unfold leaves at h
    cases h
  | case2 key tbl rest ihTbl ihRest =>
    unfold leaves at h
    rcases List.mem_append.mp h with h | h
    · obtain ⟨leaf', -, rfl⟩ := List.mem_map.mp h
      exact ⟨key, leaf'.1, rfl, List.mem_cons_self⟩
    · obtain ⟨k, ks, hpath, hk⟩ := ihRest h
      exact ⟨k, ks, hpath, List.mem_cons_of_mem _ hk⟩
  | case3 key value rest hleaf ih =>
    rw [leaves_leaf hleaf] at h
    rcases List.mem_cons.mp h with rfl | h
    · exact ⟨key, [], rfl, List.mem_cons_self⟩
    · obtain ⟨k, ks, hpath, hk⟩ := ih h
      exact ⟨k, ks, hpath, List.mem_cons_of_mem _ hk⟩

/-- A path leads to one leaf. -/
theorem leaf_unique {tbl : List (String × Toml)} (hkeys : DistinctKeys tbl)
    {leaf leaf' : List String × Toml} (h : leaf ∈ leaves tbl) (h' : leaf' ∈ leaves tbl)
    (hpath : leaf.1 = leaf'.1) : leaf = leaf' := by
  -- the first keys of two leaves in different entries differ
  have hfirst : ∀ {key : String} {path : List String} {rest : List (String × Toml)}
      {x : List String × Toml}, key ∉ rest.map Prod.fst → x ∈ leaves rest → key :: path ≠ x.1 := by
    intro key path rest x hkey hx heq
    obtain ⟨k, ks, hx, hk⟩ := head_of_mem_leaves hx
    obtain ⟨rfl, -⟩ := List.cons.inj (heq.trans hx)
    exact hkey hk
  induction tbl using leaves.induct generalizing leaf leaf' with
  | case1 =>
    unfold leaves at h
    cases h
  | case2 key tbl rest ihTbl ihRest =>
    unfold DistinctKeys at hkeys
    unfold leaves at h h'
    rcases List.mem_append.mp h with h | h <;> rcases List.mem_append.mp h' with h' | h'
    · obtain ⟨x, hx, rfl⟩ := List.mem_map.mp h
      obtain ⟨x', hx', rfl⟩ := List.mem_map.mp h'
      rw [ihTbl hkeys.2.1 hx hx' (List.cons.inj hpath).2]
    · obtain ⟨x, -, rfl⟩ := List.mem_map.mp h
      exact absurd hpath (hfirst hkeys.1 h')
    · obtain ⟨x, -, rfl⟩ := List.mem_map.mp h'
      exact absurd hpath.symm (hfirst hkeys.1 h)
    · exact ihRest hkeys.2.2 h h' hpath
  | case3 key value rest hleaf ih =>
    have hkeys' : key ∉ rest.map Prod.fst ∧ DistinctKeys rest := by
      rw [DistinctKeys] at hkeys
      · exact hkeys
      · exact hleaf
    rw [leaves_leaf hleaf] at h h'
    rcases List.mem_cons.mp h with rfl | h <;> rcases List.mem_cons.mp h' with rfl | h'
    · rfl
    · exact absurd hpath (hfirst hkeys'.1 h')
    · exact absurd hpath.symm (hfirst hkeys'.1 h)
    · exact ih hkeys'.2 h h' hpath

/-- A leaf has no text only when it is a float, a date or an array. -/
theorem text?_eq_none_iff {tbl : List (String × Toml)} {leaf : List String × Toml}
    (h : leaf ∈ leaves tbl) : leaf.2.text? = none ↔ leaf.2 = .other := by
  induction tbl using leaves.induct generalizing leaf with
  | case1 =>
    unfold leaves at h
    cases h
  | case2 key tbl rest ihTbl ihRest =>
    unfold leaves at h
    rcases List.mem_append.mp h with h | h
    · obtain ⟨x, hx, rfl⟩ := List.mem_map.mp h
      exact @ihTbl x hx
    · exact ihRest h
  | case3 key value rest hleaf ih =>
    rw [leaves_leaf hleaf] at h
    rcases List.mem_cons.mp h with rfl | h
    · cases value with
      | table tbl => exact absurd rfl (hleaf tbl)
      | other => exact iff_of_true rfl rfl
      | _ => exact iff_of_false (by simp [text?]) (by simp)
    · exact ih h

/-- No empty key stands before another. -/
def Rooted (path : List String) : Prop := ∀ rest, path = "" :: rest → rest = []

theorem foldl_fullKey {pre : String} (hpre : pre ≠ "") (path : List String) :
    path.foldl Configuration.fullKey pre = dottedPath (pre :: path) := by
  induction path generalizing pre with
  | nil => rfl
  | cons key path ih =>
    have hkey : Configuration.fullKey pre key = pre ++ "." ++ key := if_neg hpre
    have hne : pre ++ "." ++ key ≠ "" := by
      intro h
      rw [String.append_eq_empty_iff, String.append_eq_empty_iff] at h
      exact hpre h.1.1
    have hdotted : dottedPath (pre :: key :: path) = pre ++ "." ++ dottedPath (key :: path) := rfl
    rw [List.foldl_cons, hkey, ih hne, hdotted]
    cases path with
    | nil => rfl
    | cons k path =>
      change pre ++ "." ++ key ++ "." ++ dottedPath (k :: path) = _
      rw [show dottedPath (key :: k :: path) = key ++ "." ++ dottedPath (k :: path) from rfl]
      simp only [String.append_assoc]

/-- The key of a path is its dotted path, but for an empty first key. -/
theorem storedKey_of_rooted {path : List String} (h : Rooted path) :
    storedKey path = dottedPath path := by
  cases path with
  | nil => rfl
  | cons key rest =>
    by_cases hkey : key = ""
    · subst hkey
      obtain rfl := h rest rfl
      rfl
    · have hfold := foldl_fullKey hkey rest
      unfold storedKey
      rw [List.foldl_cons]
      exact hfold

theorem storedKey_empty_cons (rest : List String) : storedKey ("" :: rest) = storedKey rest := rfl

theorem storedKey_length_le (path : List String) :
    (storedKey path).length ≤ (dottedPath path).length := by
  induction path with
  | nil => exact le_refl _
  | cons key rest ih =>
    by_cases h : Rooted (key :: rest)
    · rw [storedKey_of_rooted h]
    · unfold Rooted at h
      push Not at h
      obtain ⟨rest', heq, hne⟩ := h
      obtain ⟨rfl, rfl⟩ := List.cons.inj heq
      obtain ⟨k, ks, rfl⟩ := List.exists_cons_of_ne_nil hne
      rw [storedKey_empty_cons]
      have hdotted : dottedPath ("" :: k :: ks) = "" ++ "." ++ dottedPath (k :: ks) := rfl
      rw [hdotted, String.length_append]
      omega

/-- An empty first key shortens the key of a longer path. -/
theorem storedKey_length_lt {path : List String} (h : ¬ Rooted path) :
    (storedKey path).length < (dottedPath path).length := by
  unfold Rooted at h
  push Not at h
  obtain ⟨rest, rfl, hne⟩ := h
  obtain ⟨k, ks, rfl⟩ := List.exists_cons_of_ne_nil hne
  have hle := storedKey_length_le (k :: ks)
  have hdotted : dottedPath ("" :: k :: ks) = "" ++ "." ++ dottedPath (k :: ks) := rfl
  have hone : ("" ++ "." : String).length = 1 := rfl
  rw [storedKey_empty_cons, hdotted, String.length_append, hone]
  omega

end Toml

/-! ## Loading -/

namespace Configuration

open Toml

/-- The document is in the configuration: every leaf under its dotted path, the other keys as they
were, and no two paths under one key. -/
structure Flattened (tbl : List (String × Toml)) (config config' : Configuration) : Prop where
  stored : ∀ leaf ∈ leaves tbl, ∀ text, leaf.2.text? = some text →
    config'.lookup (dottedPath leaf.1) = some text
  others : ∀ key, (∀ leaf ∈ leaves tbl, dottedPath leaf.1 ≠ key) →
    config'.lookup key = config.lookup key
  apart : ∀ leaf ∈ leaves tbl, ∀ leaf' ∈ leaves tbl, leaf.1 ≠ leaf'.1 →
    storedKey leaf.1 ≠ storedKey leaf'.1

/-- A load that throws the exception of the configuration, or flattens the document. Any other
outcome is a crash. -/
def Faithful (tbl : List (String × Toml)) (config : Configuration)
    (result : Except Exn Configuration) : Prop :=
  (∃ msg, result = .error (.configurationException msg)) ∨
    ∃ config', result = .ok config' ∧ Flattened tbl config config'

/-- A document of strings, booleans and integers, no path of which begins with an empty key or shares
its dotted form with another. -/
structure Plain (tbl : List (String × Toml)) : Prop where
  scalars : ∀ leaf ∈ leaves tbl, leaf.2 ≠ .other
  rooted : ∀ leaf ∈ leaves tbl, Rooted leaf.1
  apart : ∀ leaf ∈ leaves tbl, ∀ leaf' ∈ leaves tbl, dottedPath leaf.1 = dottedPath leaf'.1 →
    leaf.1 = leaf'.1

section
variable {P : Platform} {path : String} {tbl : List (String × Toml)}

theorem load_eq (hp : path ≠ "") (hparse : P.parseToml path = .ok tbl) (config : Configuration) :
    load P path config = (leaves tbl).foldlM (storeLeaf "") config := by
  unfold load
  rw [if_neg hp, hparse]
  exact loadConfigToMemory_eq tbl "" config

/-- What a plain document assigns to a key. -/
theorem assigned_iff (h : Plain tbl) {leaf : List String × Toml} (hmem : leaf ∈ leaves tbl)
    {key text : String} : assigned key leaf = some text ↔
      dottedPath leaf.1 = key ∧ leaf.2.text? = some text := by
  obtain ⟨t, ht⟩ := Option.ne_none_iff_exists'.mp
    (mt (text?_eq_none_iff hmem).mp (h.scalars leaf hmem))
  unfold assigned
  rw [storedKey_of_rooted (h.rooted leaf hmem), ht]
  split
  · rename_i hk
    rw [and_iff_right hk]
    rfl
  · rename_i hk
    exact iff_of_false (by simp) fun hc => hk hc.1

/-- **A plain document is flattened.** -/
theorem flattened_of_plain (hkeys : DistinctKeys tbl) (h : Plain tbl) (config : Configuration) :
    Flattened tbl config (storeAll (leaves tbl) config) where
  stored leaf hmem text htext := by
    have hlast : Registers.last (assigned (dottedPath leaf.1)) (leaves tbl) = some text := by
      refine Registers.last_of_agree ⟨leaf, hmem, ?_⟩ fun leaf' hmem' text' hassigned => ?_
      · rw [(assigned_iff h hmem).mpr ⟨rfl, htext⟩]
        exact Option.some_ne_none text
      · obtain ⟨hpath, htext'⟩ := (assigned_iff h hmem').mp hassigned
        rw [leaf_unique hkeys hmem' hmem (h.apart leaf' hmem' leaf hmem hpath)] at htext'
        exact Option.some.inj (htext'.symm.trans htext)
    rw [lookup_storeAll, hlast]
    rfl
  others key hkey := by
    have hlast : Registers.last (assigned key) (leaves tbl) = none := by
      rw [Registers.last_eq_none_iff]
      intro leaf hmem
      rw [Option.eq_none_iff_forall_ne_some]
      exact fun text htext => hkey leaf hmem ((assigned_iff h hmem).mp htext).1
    rw [lookup_storeAll, hlast]
    rfl
  apart leaf hmem leaf' hmem' hne := by
    rw [storedKey_of_rooted (h.rooted leaf hmem), storedKey_of_rooted (h.rooted leaf' hmem')]
    exact fun heq => hne (h.apart leaf hmem leaf' hmem' heq)

/-- In an empty configuration only dotted paths get a value, so an unrooted path would need a shorter
unrooted one. -/
theorem rooted_of_flattened {config : Configuration}
    (h : Flattened tbl ∅ (storeAll (leaves tbl) config)) {leaf : List String × Toml}
    (hmem : leaf ∈ leaves tbl) : Rooted leaf.1 := by
  induction hn : (dottedPath leaf.1).length using Nat.strong_induction_on generalizing leaf with
  | _ n ih =>
    by_contra hbad
    have hlt := storedKey_length_lt hbad
    -- the key of the leaf has a value
    have hvalue : (storeAll (leaves tbl) config).lookup (storedKey leaf.1) ≠ none := by
      rw [lookup_storeAll]
      intro hnone
      have hlast := (Registers.last_eq_none_iff _ _).mp (Option.or_eq_none_iff.mp hnone).1 leaf hmem
      unfold assigned at hlast
      rw [if_pos rfl] at hlast
      cases hlast
    obtain ⟨leaf', hmem', hdotted⟩ : ∃ leaf' ∈ leaves tbl, dottedPath leaf'.1 = storedKey leaf.1 := by
      by_contra hnone
      push Not at hnone
      rw [h.others _ hnone] at hvalue
      exact hvalue rfl
    have hrooted := ih (dottedPath leaf'.1).length (by rw [hdotted]; omega) hmem' rfl
    have hsame : leaf.1 = leaf'.1 := by
      by_contra hne
      exact h.apart leaf hmem leaf' hmem' hne (by rw [storedKey_of_rooted hrooted, hdotted])
    exact hbad (hsame ▸ hrooted)

end

/-- **When a TOML document is flattened faithfully**: when it is plain. -/
theorem load_faithful_iff (P : Platform) (path : String) (tbl : List (String × Toml))
    (hp : path ≠ "") (hparse : P.parseToml path = .ok tbl) (hkeys : DistinctKeys tbl) :
    (∀ config, Faithful tbl config (load P path config)) ↔ Plain tbl := by
  have htexts : (∀ leaf ∈ leaves tbl, leaf.2 ≠ .other) ↔ ∀ leaf ∈ leaves tbl, leaf.2.text? ≠ none :=
    forall₂_congr fun leaf hmem => not_congr (text?_eq_none_iff hmem).symm
  constructor
  · intro h
    have hload := h ∅
    rw [load_eq hp hparse] at hload
    have hscalars : ∀ leaf ∈ leaves tbl, leaf.2.text? ≠ none := by
      intro leaf hmem hnone
      rw [foldlM_storeLeaf_error hmem hnone] at hload
      rcases hload with ⟨msg, hmsg⟩ | ⟨config', hconfig', -⟩
      · cases hmsg
      · cases hconfig'
    rw [foldlM_storeLeaf_ok hscalars] at hload
    rcases hload with ⟨msg, hmsg⟩ | ⟨config', hconfig', hflat⟩
    · cases hmsg
    obtain rfl := Except.ok.inj hconfig'
    have hrooted : ∀ leaf ∈ leaves tbl, Rooted leaf.1 := fun _ hmem => rooted_of_flattened hflat hmem
    refine ⟨htexts.mpr hscalars, hrooted, fun leaf hmem leaf' hmem' heq => ?_⟩
    by_contra hne
    refine hflat.apart leaf hmem leaf' hmem' hne ?_
    rw [storedKey_of_rooted (hrooted leaf hmem), storedKey_of_rooted (hrooted leaf' hmem'), heq]
  · intro h config
    rw [load_eq hp hparse, foldlM_storeLeaf_ok (htexts.mp h.scalars)]
    exact Or.inr ⟨_, rfl, flattened_of_plain hkeys h config⟩

/-- The platform on which every file holds one document. -/
def withToml (tbl : List (String × Toml)) : Platform := { posix with parseToml := fun _ => .ok tbl }

/-- A name, and a table with two backends and their parameters. -/
def monitorToml : List (String × Toml) :=
  [("name", .string "wf"),
    ("monitor", .table
      [("filesystem", .table [("enabled", .boolean false)]),
        ("mcast", .table [("enabled", .boolean true), ("delay_ms", .integer 300)])])]

theorem leaves_monitorToml : leaves monitorToml =
    [(["name"], .string "wf"), (["monitor", "filesystem", "enabled"], .boolean false),
      (["monitor", "mcast", "enabled"], .boolean true),
      (["monitor", "mcast", "delay_ms"], .integer 300)] := by
  simp [monitorToml, leaves]

/-- The document over the defaults. -/
theorem monitorToml_faithful :
    Faithful monitorToml (loadDefaults ∅)
      (load (withToml monitorToml) "capio.toml" (loadDefaults ∅)) := by
  refine (load_faithful_iff (withToml monitorToml) "capio.toml" monitorToml (by decide) rfl
    (by simp [monitorToml, DistinctKeys])).mpr ?_ _
  refine ⟨?_, ?_, ?_⟩ <;> rw [leaves_monitorToml]
  · simp
  · simp [Rooted]
  · decide +kernel

/-- A float. -/
def floatToml : List (String × Toml) := [("timeout", .other)]

/-- `"a.b" = 1`, and `b = 2` in the table `a`. -/
def dottedToml : List (String × Toml) := [("a.b", .integer 1), ("a", .table [("b", .integer 2)])]

/-- A float dereferences a null pointer, and a quoted key with a dot takes the key of another leaf. -/
theorem floatToml_not_faithful :
    load (withToml floatToml) "capio.toml" ∅ = .error .undefined ∧
      ¬ Faithful floatToml ∅ (load (withToml floatToml) "capio.toml" ∅) ∧
      ¬ Faithful dottedToml ∅ (load (withToml dottedToml) "capio.toml" ∅) := by
  have hfloat : load (withToml floatToml) "capio.toml" ∅ = .error .undefined := by
    unfold load
    rw [if_neg (by decide)]
    change loadConfigToMemory floatToml "" ∅ = _
    unfold floatToml loadConfigToMemory
    rfl
  refine ⟨hfloat, ?_, ?_⟩
  · rw [hfloat]
    rintro (⟨msg, hmsg⟩ | ⟨config', hconfig', -⟩)
    · cases hmsg
    · cases hconfig'
  · have hleaves : leaves dottedToml = [(["a.b"], .integer 1), (["a", "b"], .integer 2)] := by
      simp [dottedToml, leaves]
    have hload : load (withToml dottedToml) "capio.toml" ∅ =
        (leaves dottedToml).foldlM (storeLeaf "") ∅ := load_eq (by decide) rfl ∅
    rw [hload]
    rintro (⟨msg, hmsg⟩ | ⟨config', -, hflat⟩)
    · rw [hleaves] at hmsg
      cases hmsg
    · refine hflat.apart (["a.b"], .integer 1) ?_ (["a", "b"], .integer 2) ?_ (by simp) (by decide)
      · rw [hleaves]
        exact List.mem_cons_self
      · rw [hleaves]
        exact List.mem_cons_of_mem _ List.mem_cons_self

end Configuration

end CapioCl
