import CapioCl.Basic
import CapioCl.Lib.JsonSchema

/-!
# The JSON schemas of the language

`schema/v1.json` and `schema/v1.1.json`, keyword by keyword and in their order. The definitions
`streaming_name_rule` and `streaming_dirname_rule` and the subschemas of the properties are the
same text in both files; the top level is transcribed twice.

`streamingNameRule_iff` and `streamingDirnameRule_iff` say what an accepted streaming item is,
`streamingItem_iff` that `oneOf` accepts exactly these.
-/

namespace CapioCl

open CapioCl.Lib Lib.Schema

/-! ## Streaming items -/

/-- `on_close(:[0-9]+)?` -/
def onCloseExpr : RegularExpression Char :=
  Pattern.lit commitRules.onClose *
    Pattern.opt (Pattern.lit ":" * Pattern.many (Pattern.oneOfChars "0123456789".toList))

/-- `^(on_close(:[0-9]+)?|on_file|on_termination)$` -/
def committedNamePattern : Pattern where
  re := onCloseExpr + (Pattern.lit commitRules.onFile + Pattern.lit commitRules.onTermination)
  atEnd := true

/-- `^(on_close(:[0-9]+)?|on_file|on_n_files|on_termination)$` -/
def committedDirnamePattern : Pattern where
  re := onCloseExpr + (Pattern.lit commitRules.onFile +
    (Pattern.lit commitRules.onNFiles + Pattern.lit commitRules.onTermination))
  atEnd := true

/-- `^rule` -/
def rulePrefix (rule : String) : Pattern := ⟨Pattern.lit rule, false⟩

/-- The condition on `committed` and what it then requires. -/
def committedRequires (rule key : String) : Schema :=
  ifThen (all [properties [("committed", pattern (rulePrefix rule))], required ["committed"]])
    (required [key])

/-- The properties after the first one, of both kinds of item. -/
def ruleProperties (committed : Pattern) : List (String × Schema) :=
  [("committed", all [typeString, pattern committed]),
   ("mode", all [typeString, enum [fireRules.update, fireRules.noUpdate]]),
   ("file_deps", arrayOf typeString),
   ("n_files", typeInteger)]

/-- `#/definitions/streaming_name_rule` -/
def streamingNameRule : Schema :=
  all [typeObject,
    properties (("name", arrayOf typeString) :: ruleProperties committedNamePattern),
    required ["name"],
    noAdditionalProperties ["name", "committed", "mode", "file_deps", "n_files"],
    committedRequires commitRules.onFile "file_deps"]

/-- `#/definitions/streaming_dirname_rule` -/
def streamingDirnameRule : Schema :=
  all [typeObject,
    properties (("dirname", arrayOf typeString) :: ruleProperties committedDirnamePattern),
    required ["dirname"],
    noAdditionalProperties ["dirname", "committed", "mode", "file_deps", "n_files"],
    allOf [committedRequires commitRules.onFile "file_deps",
      committedRequires commitRules.onNFiles "n_files"]]

/-- `oneOf` over the two definitions. -/
def streamingItem : Schema := oneOf [streamingNameRule, streamingDirnameRule]

/-! ### The text of `committed` -/

/-- The texts of `committed`: a rule, or `on_close` with a count. -/
def Committed (rules : List String) (t : String) : Prop :=
  t ∈ rules ∨ ∃ ds, Digits ds ∧ t = commitRules.onClose ++ (":" ++ ds)

def nameRules : List String :=
  [commitRules.onClose, commitRules.onFile, commitRules.onTermination]

def dirnameRules : List String :=
  [commitRules.onClose, commitRules.onFile, commitRules.onNFiles, commitRules.onTermination]

theorem mem_digitChars_iff (c : Char) : c ∈ "0123456789".toList ↔ c.isDigit = true := by
  constructor
  · intro h
    have hall : "0123456789".toList.all Char.isDigit = true := by decide
    exact List.all_eq_true.mp hall c h
  · intro h
    simp only [Char.isDigit, Bool.and_eq_true, decide_eq_true_eq, ge_iff_le,
      UInt32.le_iff_toNat_le] at h
    obtain ⟨h1, h2⟩ := h
    have h48 : 48 ≤ c.toNat := h1
    have h57 : c.toNat ≤ 57 := h2
    have hall : ∀ n < 58, 48 ≤ n → Char.ofNat n ∈ "0123456789".toList := by decide
    rw [← Char.ofNat_toNat c]
    exact hall c.toNat (by omega) h48

theorem digits_ofList_iff (u : List Char) :
    (u ≠ [] ∧ ∀ c ∈ u, c ∈ "0123456789".toList) ↔ Digits (String.ofList u) := by
  unfold Digits
  simp only [String.toList_ofList, mem_digitChars_iff]

open RegularExpression in
theorem onCloseExpr_rmatch_iff (w : List Char) : onCloseExpr.rmatch w = true ↔
    w = commitRules.onClose.toList ∨
      ∃ ds, Digits ds ∧ w = (commitRules.onClose ++ (":" ++ ds)).toList := by
  unfold onCloseExpr Pattern.opt
  rw [mul_rmatch_iff]
  simp only [add_rmatch_iff, one_rmatch_iff, mul_rmatch_iff, Pattern.lit_rmatch_iff,
    Pattern.many_oneOfChars_rmatch_iff, digits_ofList_iff]
  constructor
  · rintro ⟨t, u, rfl, rfl, ⟨c, ds, rfl, rfl, hds⟩ | rfl⟩
    · refine Or.inr ⟨String.ofList ds, hds, ?_⟩
      simp only [String.toList_append, String.toList_ofList]
    · exact Or.inl (List.append_nil _)
  · rintro (rfl | ⟨ds, hds, rfl⟩)
    · exact ⟨_, [], (List.append_nil _).symm, rfl, Or.inr rfl⟩
    · refine ⟨_, ":".toList ++ ds.toList, ?_, rfl, Or.inl ⟨_, ds.toList, rfl, rfl, ?_⟩⟩
      · rw [String.toList_append, String.toList_append]
      · rwa [String.ofList_toList]

theorem committedNamePattern_iff (t : String) :
    committedNamePattern.test t = true ↔ Committed nameRules t := by
  unfold Pattern.test committedNamePattern Committed nameRules
  simp only [if_true, RegularExpression.add_rmatch_iff, onCloseExpr_rmatch_iff,
    Pattern.lit_rmatch_iff, String.toList_inj, List.mem_cons, List.not_mem_nil, or_false]
  exact or_right_comm

theorem committedDirnamePattern_iff (t : String) :
    committedDirnamePattern.test t = true ↔ Committed dirnameRules t := by
  unfold Pattern.test committedDirnamePattern Committed dirnameRules
  simp only [if_true, RegularExpression.add_rmatch_iff, onCloseExpr_rmatch_iff,
    Pattern.lit_rmatch_iff, String.toList_inj, List.mem_cons, List.not_mem_nil, or_false]
  exact or_right_comm

/-- A file is not committed by its number of files. -/
theorem onNFiles_not_committed : ¬ Committed nameRules commitRules.onNFiles := by
  rintro (h | ⟨ds, -, h⟩)
  · exact absurd h (by decide)
  · have h3 := congrArg (fun s : String => s.toList[3]?) h
    simp only [String.toList_append] at h3
    rw [List.getElem?_append_left (by decide)] at h3
    exact absurd h3 (by decide)

theorem Committed.mono {rules rules' : List String} (h : ∀ r ∈ rules, r ∈ rules') {t : String}
    (ht : Committed rules t) : Committed rules' t :=
  ht.imp_left (h t)

/-- A rule that has no count begins no other text of `committed`. -/
theorem prefix_committed_iff {rule t : String} (hr : rule = commitRules.onFile ∨
    rule = commitRules.onNFiles) (ht : Committed dirnameRules t) :
    (rulePrefix rule).test t = true ↔ t = rule := by
  unfold rulePrefix
  rw [Pattern.test_lit_prefix]
  have hclose : ∀ u : List Char, ¬ rule.toList <+: commitRules.onClose.toList ++ u := by
    intro u hu
    have h4 : rule.toList[3]? = (commitRules.onClose.toList ++ u)[3]? := by
      obtain ⟨v, hv⟩ := hu
      rw [← hv, List.getElem?_append_left (by rcases hr with rfl | rfl <;> decide)]
    rw [List.getElem?_append_left (by decide)] at h4
    rcases hr with rfl | rfl <;> exact absurd h4 (by decide)
  constructor
  · intro h
    rcases ht with ht | ⟨ds, -, rfl⟩
    · have hall : ∀ r ∈ [commitRules.onFile, commitRules.onNFiles], ∀ u ∈ dirnameRules,
          r.toList <+: u.toList → u = r := by decide
      exact hall rule (by rcases hr with rfl | rfl <;> decide) t ht h
    · rw [String.toList_append] at h
      exact absurd h (hclose _)
  · rintro rfl
    exact List.prefix_rfl

/-! ### Accepted items -/

/-- What an accepted item is, by the key of its paths and its plain commit rules. -/
structure ItemShape (kind : String) (rules : List String) (j : Json) : Prop where
  object : typeObject j = true
  known : noAdditionalProperties [kind, "committed", "mode", "file_deps", "n_files"] j = true
  paths : ∃ l, j.get? kind = some (Json.strs l)
  committed : ∀ v, j.get? "committed" = some v → ∃ t, v = .str t ∧ Committed rules t
  mode : ∀ v, j.get? "mode" = some v → ∃ r, v = .str r ∧ fireRules.Valid r
  fileDeps : ∀ v, j.get? "file_deps" = some v → ∃ l, v = Json.strs l
  nFiles : ∀ v, j.get? "n_files" = some v → typeInteger v = true
  onFile : j.get? "committed" = some (.str commitRules.onFile) →
    ∃ v, j.get? "file_deps" = some v
  onNFiles : j.get? "committed" = some (.str commitRules.onNFiles) →
    ∃ v, j.get? "n_files" = some v

theorem committedRequires_iff {rule key : String} {j : Json} (hr : rule = commitRules.onFile ∨
    rule = commitRules.onNFiles) (hj : typeObject j = true)
    (hc : ∀ v, j.get? "committed" = some v → ∃ t, v = .str t ∧ Committed dirnameRules t) :
    committedRequires rule key j = true ↔
      (j.get? "committed" = some (.str rule) → ∃ v, j.get? key = some v) := by
  unfold committedRequires
  simp only [ifThen_iff, all_iff, properties_iff, required_iff hj, List.forall_mem_cons,
    List.not_mem_nil, false_imp_iff, implies_true, and_true]
  refine imp_congr_left ?_
  constructor
  · rintro ⟨hp, v, hv⟩
    obtain ⟨t, rfl, ht⟩ := hc v hv
    rw [hv, (prefix_committed_iff hr ht).mp (hp _ hv)]
  · intro h
    refine ⟨fun v hv => ?_, _, h⟩
    obtain ⟨t, rfl, ht⟩ := hc v hv
    rw [hv] at h
    obtain rfl := Json.str.inj (Option.some.inj h)
    exact (prefix_committed_iff hr ht).mpr rfl

theorem typeString_and {q : Schema} {v : Json} :
    all [typeString, q] v = true ↔ ∃ t, v = .str t ∧ q (.str t) = true := by
  simp only [all_iff, List.forall_mem_cons, List.not_mem_nil, false_imp_iff, implies_true,
    and_true, typeString_iff]
  constructor
  · rintro ⟨⟨t, rfl⟩, h⟩
    exact ⟨t, rfl, h⟩
  · rintro ⟨t, rfl, h⟩
    exact ⟨⟨t, rfl⟩, h⟩

theorem enum_mode_iff (r : String) :
    enum [fireRules.update, fireRules.noUpdate] (.str r) = true ↔ fireRules.Valid r := by
  unfold enum fireRules.Valid
  simp only [List.contains_cons, List.contains_nil, Bool.or_eq_true, beq_iff_eq, Bool.or_false]
  exact or_comm

/-- The properties of an item, given those of its paths. -/
theorem properties_item_iff {kind : String} {p : Pattern} {j : Json} :
    properties ((kind, arrayOf typeString) :: ruleProperties p) j = true ↔
      (∀ v, j.get? kind = some v → ∃ l, v = Json.strs l) ∧
      (∀ v, j.get? "committed" = some v → ∃ t, v = .str t ∧ p.test t = true) ∧
      (∀ v, j.get? "mode" = some v → ∃ r, v = .str r ∧ fireRules.Valid r) ∧
      (∀ v, j.get? "file_deps" = some v → ∃ l, v = Json.strs l) ∧
      ∀ v, j.get? "n_files" = some v → typeInteger v = true := by
  unfold ruleProperties
  simp only [properties_iff, List.forall_mem_cons, List.not_mem_nil, false_imp_iff, implies_true,
    and_true, arrayOf_string_iff, typeString_and, enum_mode_iff]
  rfl

theorem streamingNameRule_iff (j : Json) :
    streamingNameRule j = true ↔ ItemShape "name" nameRules j := by
  unfold streamingNameRule
  simp only [all_iff, List.forall_mem_cons, List.not_mem_nil, false_imp_iff, implies_true,
    and_true, properties_item_iff, committedNamePattern_iff]
  constructor
  · rintro ⟨hj, ⟨hk, hc, hm, hd, hn⟩, hreq, hadd, hif⟩
    rw [required_iff hj] at hreq
    obtain ⟨v, hv⟩ := hreq "name" List.mem_cons_self
    obtain ⟨l, rfl⟩ := hk v hv
    have hc' : ∀ v, j.get? "committed" = some v → ∃ t, v = .str t ∧ Committed dirnameRules t :=
      fun v hv => (hc v hv).imp fun t ht => ⟨ht.1, ht.2.mono (by decide)⟩
    refine ⟨hj, hadd, ⟨l, hv⟩, hc, hm, hd, hn, (committedRequires_iff (Or.inl rfl) hj hc').mp hif,
      fun h => ?_⟩
    obtain ⟨t, ht, hct⟩ := hc _ h
    obtain rfl := Json.str.inj ht
    exact absurd hct onNFiles_not_committed
  · intro h
    have hc' : ∀ v, j.get? "committed" = some v → ∃ t, v = .str t ∧ Committed dirnameRules t :=
      fun v hv => (h.committed v hv).imp fun t ht => ⟨ht.1, ht.2.mono (by decide)⟩
    refine ⟨h.object, ⟨fun v hv => ?_, h.committed, h.mode, h.fileDeps, h.nFiles⟩, ?_, h.known,
      (committedRequires_iff (Or.inl rfl) h.object hc').mpr h.onFile⟩
    · obtain ⟨l, hl⟩ := h.paths
      exact ⟨l, Option.some.inj (hv.symm.trans hl)⟩
    · rw [required_iff h.object]
      intro k hk
      obtain ⟨l, hl⟩ := h.paths
      rw [List.mem_singleton.mp hk]
      exact ⟨_, hl⟩

theorem streamingDirnameRule_iff (j : Json) :
    streamingDirnameRule j = true ↔ ItemShape "dirname" dirnameRules j := by
  unfold streamingDirnameRule allOf
  simp only [all_iff, List.forall_mem_cons, List.not_mem_nil, false_imp_iff, implies_true,
    and_true, properties_item_iff, committedDirnamePattern_iff]
  constructor
  · rintro ⟨hj, ⟨hk, hc, hm, hd, hn⟩, hreq, hadd, hif, hif'⟩
    rw [required_iff hj] at hreq
    obtain ⟨v, hv⟩ := hreq "dirname" List.mem_cons_self
    obtain ⟨l, rfl⟩ := hk v hv
    exact ⟨hj, hadd, ⟨l, hv⟩, hc, hm, hd, hn, (committedRequires_iff (Or.inl rfl) hj hc).mp hif,
      (committedRequires_iff (Or.inr rfl) hj hc).mp hif'⟩
  · intro h
    refine ⟨h.object, ⟨fun v hv => ?_, h.committed, h.mode, h.fileDeps, h.nFiles⟩, ?_, h.known,
      (committedRequires_iff (Or.inl rfl) h.object h.committed).mpr h.onFile,
      (committedRequires_iff (Or.inr rfl) h.object h.committed).mpr h.onNFiles⟩
    · obtain ⟨l, hl⟩ := h.paths
      exact ⟨l, Option.some.inj (hv.symm.trans hl)⟩
    · rw [required_iff h.object]
      intro k hk
      obtain ⟨l, hl⟩ := h.paths
      rw [List.mem_singleton.mp hk]
      exact ⟨_, hl⟩

/-- **An accepted item is of one of the two kinds**, and no item is of both. -/
theorem streamingItem_iff (j : Json) : streamingItem j = true ↔
    ItemShape "name" nameRules j ∨ ItemShape "dirname" dirnameRules j := by
  have hexcl : ¬ (ItemShape "name" nameRules j ∧ ItemShape "dirname" dirnameRules j) := by
    rintro ⟨h, h'⟩
    obtain ⟨l, hl⟩ := h.paths
    rw [get?_of_noAdditionalProperties h'.known (by decide)] at hl
    exact absurd hl (by simp)
  rw [← streamingNameRule_iff, ← streamingDirnameRule_iff] at hexcl ⊢
  unfold streamingItem oneOf
  cases hn : streamingNameRule j <;> cases hd : streamingDirnameRule j <;>
    simp_all

/-! ## The subschemas of the top level -/

def aliasesSchema : Schema :=
  arrayOf (all [typeObject,
    properties [("group_name", typeString), ("files", arrayOf typeString)],
    required ["group_name", "files"],
    noAdditionalProperties ["group_name", "files"]])

/-- The items of `IO_Graph`. -/
def appSchema : Schema :=
  all [typeObject,
    properties [("name", typeString), ("input_stream", arrayOf typeString),
      ("output_stream", arrayOf typeString), ("streaming", arrayOf streamingItem)],
    required ["name", "input_stream", "output_stream"],
    noAdditionalProperties ["name", "input_stream", "output_stream", "streaming"]]

def homeNodePoliciesSchema : Schema :=
  all [typeObject,
    properties [("create", arrayOf typeString), ("hashing", arrayOf typeString),
      ("manual", arrayOf (all [typeObject,
        properties [("name", arrayOf typeString), ("app_node", typeString)],
        required ["name", "app_node"],
        noAdditionalProperties ["name", "app_node"]]))],
    noAdditionalProperties ["create", "hashing", "manual"]]

def storageSchema : Schema :=
  all [typeObject,
    properties [("memory", arrayOf typeString), ("fs", arrayOf typeString)],
    noAdditionalProperties ["memory", "fs"]]

/-! ## The two schemas -/

/-- `schema/v1.json` -/
def schemaV1 : Schema :=
  all [typeObject,
    properties [("name", typeString), ("aliases", aliasesSchema), ("IO_Graph", arrayOf appSchema),
      ("permanent", arrayOf typeString), ("exclude", arrayOf typeString),
      ("home_node_policies", homeNodePoliciesSchema), ("storage", storageSchema)],
    required ["name", "IO_Graph"],
    noAdditionalProperties ["name", "aliases", "IO_Graph", "permanent", "exclude",
      "home_node_policies", "storage"]]

/-- `schema/v1.1.json` -/
def schemaV1_1 : Schema :=
  all [typeObject,
    properties [("version", typeNumber), ("configuration", typeString), ("name", typeString),
      ("aliases", aliasesSchema), ("IO_Graph", arrayOf appSchema),
      ("permanent", arrayOf typeString), ("exclude", arrayOf typeString),
      ("home_node_policies", homeNodePoliciesSchema), ("storage", storageSchema)],
    required ["name", "IO_Graph", "version"],
    noAdditionalProperties ["version", "configuration", "name", "aliases", "IO_Graph",
      "permanent", "exclude", "home_node_policies", "storage"]]

/-! ### Accepted documents -/

/-- An optional array of strings. -/
def OptionalStrs (j : Json) (k : String) : Prop := ∀ v, j.get? k = some v → ∃ l, v = Json.strs l

/-- What an accepted item of `IO_Graph` is. -/
structure AppShape (j : Json) : Prop where
  object : typeObject j = true
  known : noAdditionalProperties ["name", "input_stream", "output_stream", "streaming"] j = true
  name : ∃ n, j.get? "name" = some (.str n)
  inputs : ∃ l, j.get? "input_stream" = some (Json.strs l)
  outputs : ∃ l, j.get? "output_stream" = some (Json.strs l)
  streaming : ∀ v, j.get? "streaming" = some v →
    ∃ xs, v = .arr xs ∧ ∀ x ∈ xs, streamingItem x = true

theorem appSchema_iff (j : Json) : appSchema j = true ↔ AppShape j := by
  unfold appSchema
  simp only [all_iff, properties_iff, List.forall_mem_cons, List.not_mem_nil, false_imp_iff,
    implies_true, and_true, arrayOf_string_iff, typeString_iff]
  constructor
  · rintro ⟨hj, ⟨hn, hi, ho, hs⟩, hreq, hadd⟩
    rw [required_iff hj] at hreq
    simp only [List.forall_mem_cons, List.not_mem_nil, false_imp_iff, implies_true,
      and_true] at hreq
    obtain ⟨⟨n, hn'⟩, ⟨i, hi'⟩, ⟨o, ho'⟩⟩ := hreq
    obtain ⟨n, rfl⟩ := hn n hn'
    obtain ⟨i, rfl⟩ := hi i hi'
    obtain ⟨o, rfl⟩ := ho o ho'
    exact ⟨hj, hadd, ⟨n, hn'⟩, ⟨i, hi'⟩, ⟨o, ho'⟩, fun v hv => arrayOf_iff.mp (hs v hv)⟩
  · intro h
    obtain ⟨n, hn⟩ := h.name
    obtain ⟨i, hi⟩ := h.inputs
    obtain ⟨o, ho⟩ := h.outputs
    refine ⟨h.object, ⟨fun v hv => ?_, fun v hv => ?_, fun v hv => ?_, fun v hv => ?_⟩, ?_,
      h.known⟩
    · exact ⟨n, Option.some.inj (hv.symm.trans hn)⟩
    · exact ⟨i, Option.some.inj (hv.symm.trans hi)⟩
    · exact ⟨o, Option.some.inj (hv.symm.trans ho)⟩
    · exact arrayOf_iff.mpr (h.streaming v hv)
    · rw [required_iff h.object]
      simp only [List.forall_mem_cons, List.not_mem_nil, false_imp_iff, implies_true, and_true]
      exact ⟨⟨_, hn⟩, ⟨_, hi⟩, ⟨_, ho⟩⟩

/-- What an accepted `storage` is. -/
structure StorageShape (j : Json) : Prop where
  object : typeObject j = true
  known : noAdditionalProperties ["memory", "fs"] j = true
  memory : OptionalStrs j "memory"
  fs : OptionalStrs j "fs"

theorem storageSchema_iff (j : Json) : storageSchema j = true ↔ StorageShape j := by
  unfold storageSchema
  simp only [all_iff, properties_iff, List.forall_mem_cons, List.not_mem_nil, false_imp_iff,
    implies_true, and_true, arrayOf_string_iff]
  constructor
  · rintro ⟨hj, ⟨hm, hf⟩, hadd⟩
    exact ⟨hj, hadd, hm, hf⟩
  · intro h
    exact ⟨h.object, ⟨h.memory, h.fs⟩, h.known⟩

/-- What an accepted document is, whatever the version. -/
structure DocShape (j : Json) : Prop where
  object : typeObject j = true
  name : ∃ n, j.get? "name" = some (.str n)
  ioGraph : ∃ apps, j.get? "IO_Graph" = some (.arr apps) ∧ ∀ app ∈ apps, AppShape app
  aliases : ∀ v, j.get? "aliases" = some v → aliasesSchema v = true
  permanent : OptionalStrs j "permanent"
  exclude : OptionalStrs j "exclude"
  policies : ∀ v, j.get? "home_node_policies" = some v → homeNodePoliciesSchema v = true
  storage : ∀ v, j.get? "storage" = some v → StorageShape v

/-- The keys of a version 1 document. -/
def keysV1 : List String :=
  ["name", "aliases", "IO_Graph", "permanent", "exclude", "home_node_policies", "storage"]

/-- The keys of a version 1.1 document. -/
def keysV1_1 : List String :=
  ["version", "configuration", "name", "aliases", "IO_Graph", "permanent", "exclude",
    "home_node_policies", "storage"]

theorem schemaV1_iff (j : Json) : schemaV1 j = true ↔
    DocShape j ∧ noAdditionalProperties keysV1 j = true := by
  unfold schemaV1 keysV1
  simp only [all_iff, properties_iff, List.forall_mem_cons, List.not_mem_nil, false_imp_iff,
    implies_true, and_true, arrayOf_string_iff, typeString_iff, storageSchema_iff]
  constructor
  · rintro ⟨hj, ⟨hn, ha, hg, hp, he, hh, hs⟩, hreq, hadd⟩
    rw [required_iff hj] at hreq
    simp only [List.forall_mem_cons, List.not_mem_nil, false_imp_iff, implies_true,
      and_true] at hreq
    obtain ⟨⟨n, hn'⟩, ⟨g, hg'⟩⟩ := hreq
    obtain ⟨n, rfl⟩ := hn n hn'
    obtain ⟨apps, rfl, happs⟩ := arrayOf_iff.mp (hg g hg')
    exact ⟨⟨hj, ⟨n, hn'⟩, ⟨apps, hg', fun app h => (appSchema_iff app).mp (happs app h)⟩, ha, hp,
      he, hh, hs⟩, hadd⟩
  · rintro ⟨h, hadd⟩
    obtain ⟨n, hn⟩ := h.name
    obtain ⟨apps, hg, happs⟩ := h.ioGraph
    refine ⟨h.object, ⟨fun v hv => ?_, h.aliases, fun v hv => ?_, h.permanent, h.exclude,
      h.policies, h.storage⟩, ?_, hadd⟩
    · exact ⟨n, Option.some.inj (hv.symm.trans hn)⟩
    · rw [Option.some.inj (hv.symm.trans hg), arrayOf_iff]
      exact ⟨apps, rfl, fun app h => (appSchema_iff app).mpr (happs app h)⟩
    · rw [required_iff h.object]
      simp only [List.forall_mem_cons, List.not_mem_nil, false_imp_iff, implies_true, and_true]
      exact ⟨⟨_, hn⟩, ⟨_, hg⟩⟩

theorem schemaV1_1_iff (j : Json) : schemaV1_1 j = true ↔
    DocShape j ∧ (∃ v, j.get? "version" = some v ∧ typeNumber v = true) ∧
      (∀ v, j.get? "configuration" = some v → ∃ path, v = .str path) ∧
      noAdditionalProperties keysV1_1 j = true := by
  unfold schemaV1_1 keysV1_1
  simp only [all_iff, properties_iff, List.forall_mem_cons, List.not_mem_nil, false_imp_iff,
    implies_true, and_true, arrayOf_string_iff, typeString_iff, storageSchema_iff]
  constructor
  · rintro ⟨hj, ⟨hv, hc, hn, ha, hg, hp, he, hh, hs⟩, hreq, hadd⟩
    rw [required_iff hj] at hreq
    simp only [List.forall_mem_cons, List.not_mem_nil, false_imp_iff, implies_true,
      and_true] at hreq
    obtain ⟨⟨n, hn'⟩, ⟨g, hg'⟩, ⟨v, hv'⟩⟩ := hreq
    obtain ⟨n, rfl⟩ := hn n hn'
    obtain ⟨apps, rfl, happs⟩ := arrayOf_iff.mp (hg g hg')
    exact ⟨⟨hj, ⟨n, hn'⟩, ⟨apps, hg', fun app h => (appSchema_iff app).mp (happs app h)⟩, ha, hp,
      he, hh, hs⟩, ⟨v, hv', hv v hv'⟩, hc, hadd⟩
  · rintro ⟨h, ⟨v, hv, hnum⟩, hc, hadd⟩
    obtain ⟨n, hn⟩ := h.name
    obtain ⟨apps, hg, happs⟩ := h.ioGraph
    refine ⟨h.object, ⟨fun v' hv' => ?_, hc, fun v hv => ?_, h.aliases, fun v hv => ?_,
      h.permanent, h.exclude, h.policies, h.storage⟩, ?_, hadd⟩
    · rwa [Option.some.inj (hv'.symm.trans hv)]
    · exact ⟨n, Option.some.inj (hv.symm.trans hn)⟩
    · rw [Option.some.inj (hv.symm.trans hg), arrayOf_iff]
      exact ⟨apps, rfl, fun app h => (appSchema_iff app).mpr (happs app h)⟩
    · rw [required_iff h.object]
      simp only [List.forall_mem_cons, List.not_mem_nil, false_imp_iff, implies_true, and_true]
      exact ⟨⟨_, hn⟩, ⟨_, hg⟩, ⟨_, hv⟩⟩

end CapioCl
