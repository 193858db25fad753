import CapioCl.Document

/-!
# Documents rewritten member by member

Two documents with the same keys, their values related key by key. When the relations keep the
shape of each value they keep the shape of the document (`DocShape.of_members`), and the document
is accepted by the same schema (`Accepted.of_members`).
-/

namespace CapioCl

open CapioCl.Lib CapioCl.Lib.Json CapioCl.Parser

/-- A string. -/
def IsStr (v : Json) : Prop := ∃ s, v = .str s

/-- An array of strings. -/
def IsStrs (v : Json) : Prop := ∃ l, v = Json.strs l

/-- An array of values that meet `S`. -/
def IsArrayOf (S : Json → Prop) (v : Json) : Prop := ∃ xs, v = .arr xs ∧ ∀ x ∈ xs, S x

theorem exists_isStr {j : Json} {k : String} :
    (∃ v, j.get? k = some v ∧ IsStr v) ↔ ∃ s, j.get? k = some (.str s) := by
  constructor
  · rintro ⟨_, hv, s, rfl⟩
    exact ⟨s, hv⟩
  · rintro ⟨s, hv⟩
    exact ⟨_, hv, s, rfl⟩

theorem exists_isStrs {j : Json} {k : String} :
    (∃ v, j.get? k = some v ∧ IsStrs v) ↔ ∃ l, j.get? k = some (Json.strs l) := by
  constructor
  · rintro ⟨_, hv, l, rfl⟩
    exact ⟨l, hv⟩
  · rintro ⟨l, hv⟩
    exact ⟨_, hv, l, rfl⟩

variable {R : String → Json → Json → Prop} {j j' : Json}

theorem AppShape.of_members (h : AppShape j) (hm : Members R j j')
    (hname : Keeps IsStr (R "name")) (hinputs : Keeps IsStrs (R "input_stream"))
    (houtputs : Keeps IsStrs (R "output_stream"))
    (hstreaming : Keeps (IsArrayOf fun item => streamingItem item = true) (R "streaming")) :
    AppShape j' where
  object := Schema.typeObject_of_members hm
  known := (Schema.noAdditionalProperties_members hm _).trans h.known
  name := exists_isStr.mp (hm.required hname (exists_isStr.mpr h.name))
  inputs := exists_isStrs.mp (hm.required hinputs (exists_isStrs.mpr h.inputs))
  outputs := exists_isStrs.mp (hm.required houtputs (exists_isStrs.mpr h.outputs))
  streaming := hm.optional hstreaming h.streaming

theorem StorageShape.of_members (h : StorageShape j) (hm : Members R j j')
    (hmemory : Keeps IsStrs (R "memory")) (hfs : Keeps IsStrs (R "fs")) : StorageShape j' where
  object := Schema.typeObject_of_members hm
  known := (Schema.noAdditionalProperties_members hm _).trans h.known
  memory := hm.optional hmemory h.memory
  fs := hm.optional hfs h.fs

theorem DocShape.of_members (h : DocShape j) (hm : Members R j j')
    (hname : Keeps IsStr (R "name")) (hgraph : Keeps (IsArrayOf AppShape) (R "IO_Graph"))
    (haliases : Keeps (fun v => aliasesSchema v = true) (R "aliases"))
    (hpermanent : Keeps IsStrs (R "permanent")) (hexclude : Keeps IsStrs (R "exclude"))
    (hpolicies : Keeps (fun v => homeNodePoliciesSchema v = true) (R "home_node_policies"))
    (hstorage : Keeps StorageShape (R "storage")) : DocShape j' where
  object := Schema.typeObject_of_members hm
  name := exists_isStr.mp (hm.required hname (exists_isStr.mpr h.name))
  ioGraph := by
    obtain ⟨apps, happs, hshape⟩ := h.ioGraph
    obtain ⟨v, hv, apps', rfl, hshape'⟩ := hm.required hgraph ⟨_, happs, apps, rfl, hshape⟩
    exact ⟨apps', hv, hshape'⟩
  aliases := hm.optional haliases h.aliases
  permanent := hm.optional hpermanent h.permanent
  exclude := hm.optional hexclude h.exclude
  policies := hm.optional hpolicies h.policies
  storage := hm.optional hstorage h.storage

/-- **The schema that accepts a document accepts it rewritten**, when its header stays. -/
theorem Accepted.of_members {J : Jsoncons} (h : Accepted J j) (hm : Members R j j')
    (hshape : DocShape j → DocShape j') (hversion : ∀ v v', R "version" v v' → v' = v)
    (hconf : ∀ v v', R "configuration" v v' → v' = v) : Accepted J j' := by
  have hrelease : release J j' = release J j := by
    unfold release
    rw [hm.get?_eq hversion]
  rcases h with ⟨hr, hs⟩ | ⟨hr, hs⟩
  · obtain ⟨hd, hadd⟩ := (schemaV1_iff j).mp hs
    refine Or.inl ⟨hrelease.trans hr, (schemaV1_iff j').mpr ⟨hshape hd, ?_⟩⟩
    rw [Schema.noAdditionalProperties_members hm, hadd]
  · obtain ⟨hd, hv, hc, hadd⟩ := (schemaV1_1_iff j).mp hs
    refine Or.inr ⟨hrelease.trans hr, (schemaV1_1_iff j').mpr ⟨hshape hd, ?_, ?_, ?_⟩⟩
    · rwa [hm.get?_eq hversion]
    · rwa [hm.get?_eq hconf]
    · rw [Schema.noAdditionalProperties_members hm, hadd]

theorem ConfigurationLoads.of_members {P : Platform} (h : ConfigurationLoads P j)
    (hm : Members R j j') (hconf : ∀ v v', R "configuration" v v' → v' = v) :
    ConfigurationLoads P j' := by
  intro path hpath
  rw [hm.get?_eq hconf] at hpath
  exact h path hpath

end CapioCl
