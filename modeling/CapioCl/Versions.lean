import CapioCl.Document
import CapioCl.Serializer

/-!
# The two versions of the language

A version 1.1 document is a version 1 document with a `version` key, and perhaps a
`configuration`. Without the latter the two versions mean the same: the schemas accept the same
documents, the parsers build the same store, and the serializers write the same document.

The parsers set the engine up differently: `parse_v1` registers the default backends twice. The
store does not depend on it (`SameStore.run`).

A document that states version 1.0 goes to the parser of version 1, whose schema knows no `version`
key (`explicitV1_rejected`).
-/

namespace CapioCl

open CapioCl.Lib CapioCl.Lib.Reading CapioCl.Parser CapioCl.Serializer

/-- The document with `version = 1.1` added. -/
def withVersion : Json → Json
  | .obj ms => .obj (("version", .num 11 1) :: ms)
  | j => j

theorem get?_withVersion {doc : Json} {k : String} (hk : k ≠ "version") :
    (withVersion doc).get? k = doc.get? k := by
  cases doc with
  | obj ms =>
    change (("version", Json.num 11 1) :: ms).lookup k = ms.lookup k
    rw [List.lookup_cons]
    have hb : (k == "version") = false := by simpa using hk
    rw [hb]
  | _ => rfl

theorem typeObject_withVersion (doc : Json) :
    Schema.typeObject (withVersion doc) = Schema.typeObject doc := by
  cases doc <;> rfl

/-! ## The schemas -/

/-- The shape of a document reads the shared keys only. -/
theorem DocShape.congr {doc doc' : Json}
    (hobj : Schema.typeObject doc' = Schema.typeObject doc)
    (h : ∀ k ∈ keysV1, doc'.get? k = doc.get? k) (hd : DocShape doc) : DocShape doc' := by
  have hname := h "name" (by decide)
  have hgraph := h "IO_Graph" (by decide)
  have haliases := h "aliases" (by decide)
  have hpermanent := h "permanent" (by decide)
  have hexclude := h "exclude" (by decide)
  have hpolicies := h "home_node_policies" (by decide)
  have hstorage := h "storage" (by decide)
  refine ⟨hobj.trans hd.object, ?_, ?_, fun v hv => ?_, fun v hv => ?_, fun v hv => ?_,
    fun v hv => ?_, fun v hv => ?_⟩
  · rw [hname]
    exact hd.name
  · rw [hgraph]
    exact hd.ioGraph
  · exact hd.aliases v (haliases.symm.trans hv)
  · exact hd.permanent v (hpermanent.symm.trans hv)
  · exact hd.exclude v (hexclude.symm.trans hv)
  · exact hd.policies v (hpolicies.symm.trans hv)
  · exact hd.storage v (hstorage.symm.trans hv)

theorem noAdditional_withVersion {doc : Json} (hv : doc.get? "version" = none)
    (hc : doc.get? "configuration" = none) :
    Schema.noAdditionalProperties keysV1_1 (withVersion doc) =
      Schema.noAdditionalProperties keysV1 doc := by
  cases doc with
  | obj ms =>
    change (("version", Json.num 11 1) :: ms).all (fun m => keysV1_1.contains m.1) =
      ms.all fun m => keysV1.contains m.1
    rw [List.all_cons, show keysV1_1.contains "version" = true by decide, Bool.true_and]
    rw [Bool.eq_iff_iff, List.all_eq_true, List.all_eq_true]
    refine forall₂_congr fun m hm => ?_
    have hkey : ∀ k, (Json.obj ms).get? k = none → m.1 ≠ k := by
      intro k hk hmk
      rw [Json.get?_obj, List.lookup_eq_none_iff] at hk
      have hne := hk m hm
      rw [hmk] at hne
      simp at hne
    have hver := hkey "version" hv
    have hconf := hkey "configuration" hc
    unfold keysV1 keysV1_1
    simp only [List.contains_cons, beq_eq_false_iff_ne.mpr hver, beq_eq_false_iff_ne.mpr hconf,
      Bool.false_or]
  | _ => rfl

theorem schemaV1_1_withVersion {doc : Json} (hv : doc.get? "version" = none)
    (hc : doc.get? "configuration" = none) : schemaV1_1 (withVersion doc) = schemaV1 doc := by
  have hkeys : ∀ k ∈ keysV1, (withVersion doc).get? k = doc.get? k := fun k hk =>
    get?_withVersion fun h => absurd (h ▸ hk) (by decide)
  have hobj := typeObject_withVersion doc
  rw [Bool.eq_iff_iff, schemaV1_1_iff, schemaV1_iff, noAdditional_withVersion hv hc]
  constructor
  · rintro ⟨hd, -, -, hadd⟩
    exact ⟨hd.congr hobj.symm fun k hk => (hkeys k hk).symm, hadd⟩
  · rintro ⟨hd, hadd⟩
    obtain ⟨ms, rfl⟩ := Schema.typeObject_iff.mp hd.object
    refine ⟨hd.congr hobj hkeys, ⟨.num 11 1, rfl, rfl⟩, fun v hcv => ?_, hadd⟩
    rw [get?_withVersion (by decide), hc] at hcv
    exact absurd hcv (by simp)

/-! ## The parsers -/

/-- Reading a document reads the shared keys only. -/
theorem readDocument_congr (J : Jsoncons) (pre : String) {doc doc' : Json}
    (h : ∀ k ∈ keysV1, doc'.get? k = doc.get? k) :
    readDocument J pre doc' = readDocument J pre doc := by
  have hmember : ∀ k ∈ keysV1, doc'.member k = doc.member k := fun k hk => by
    unfold Json.member
    rw [h k hk]
  have hcontains : ∀ k ∈ keysV1, doc'.contains k = doc.contains k := fun k hk => by
    unfold Json.contains
    rw [h k hk]
  unfold readDocument readStorage optionalPaths paths range
  simp only [hmember "IO_Graph" (by decide), hmember "permanent" (by decide),
    hmember "exclude" (by decide), hmember "storage" (by decide),
    hcontains "permanent" (by decide), hcontains "exclude" (by decide),
    hcontains "storage" (by decide)]

/-- The same exception, or engines with the same name and the same store. -/
def SameOutcome (x y : Except Exn Engine) : Prop :=
  (∃ ex, x = .error ex ∧ y = .error ex) ∨
    ∃ e e', x = .ok e ∧ y = .ok e' ∧ e.workflowName = e'.workflowName ∧ SameStore e e'

theorem parsers_agree (J : Jsoncons) (P : Platform) {doc : Json}
    (hv : doc.get? "version" = none) (hc : doc.get? "configuration" = none) (pre : String)
    (storeOnlyInMemory : Bool) :
    SameOutcome (parseV1 J P doc pre storeOnlyInMemory)
      (parseV1_1 J P (withVersion doc) pre storeOnlyInMemory) := by
  have hkeys : ∀ k ∈ keysV1, (withVersion doc).get? k = doc.get? k := fun k hk =>
    get?_withVersion fun h => absurd (h ▸ hk) (by decide)
  have hname := hkeys "name" (by decide)
  rcases parseV1_eq J P doc with ⟨hrej, heq⟩ | ⟨hacc, n, base, hn, hf, heq⟩
  · rcases parseV1_1_eq J P (withVersion doc) with ⟨-, heq'⟩ | ⟨hacc, -⟩
    · exact Or.inl ⟨_, heq pre storeOnlyInMemory, heq' pre storeOnlyInMemory⟩
    · rw [schemaV1_1_withVersion hv hc, hrej] at hacc
      exact absurd hacc Bool.false_ne_true
  · rcases parseV1_1_eq J P (withVersion doc) with ⟨hrej, -⟩ | ⟨-, n', hn', hcase⟩
    · rw [schemaV1_1_withVersion hv hc, hacc] at hrej
      exact absurd hrej (by decide)
    · have hnn : n' = n := Json.str.inj (Option.some.inj (hn'.symm.trans (hname.trans hn)))
      subst hnn
      rcases hcase with ⟨-, base', hf', heq'⟩ | ⟨-, path, ex, hpath, -⟩
      · rw [heq, heq', readDocument_congr J pre hkeys]
        cases readDocument J pre doc with
        | error ex => exact Or.inl ⟨ex, rfl, rfl⟩
        | ok d =>
          have hbase : SameStore base base' :=
            ⟨hf.storeAll.trans hf'.storeAll.symm, hf.entries.trans hf'.entries.symm⟩
          have hwf : ∀ e : Engine, (run P (d.acts storeOnlyInMemory) e).workflowName =
              e.workflowName := fun e => congrArg (fun h => h.2.2) (header_run P _ e)
          refine Or.inr ⟨_, _, rfl, rfl, ?_, hbase.run P _⟩
          rw [hwf, hwf, hf.name, hf'.name]
      · rw [get?_withVersion (by decide), hc] at hpath
        exact absurd hpath (by simp)

/-! ## The serializers -/

theorem document_version (O : DumpOrders) (e : Engine) :
    document O e [("version", .num 11 1)] = (document O e []).map withVersion := by
  unfold document
  cases ioGraphOf O e <;> rfl

/-- The same exception, or files that differ in the version key. -/
def SameDump (filename : String) (files : Files) (x y : Except Exn Files) : Prop :=
  (∃ ex, x = .error ex ∧ y = .error ex) ∨
    ∃ doc, x = .ok (Function.update files filename (some (.json doc))) ∧
      y = .ok (Function.update files filename (some (.json (withVersion doc))))

theorem serializers_agree (P : Platform) (O : DumpOrders) (e : Engine) (filename : String)
    (files : Files) :
    SameDump filename files (serializeV1 P O e filename files)
      (serializeV1_1 P O e filename files) := by
  unfold serializeV1 serializeV1_1
  rw [document_version]
  cases document O e [] with
  | error ex => exact Or.inl ⟨ex, rfl, rfl⟩
  | ok doc =>
    rw [map_ok, ok_bind, ok_bind]
    unfold write
    by_cases hw : P.writable filename
    · rw [if_pos hw, if_pos hw]
      exact Or.inr ⟨doc, rfl, rfl⟩
    · rw [if_neg hw, if_neg hw]
      exact Or.inl ⟨_, rfl, rfl⟩

/-- **The two versions agree**, in what they accept, in what they build and in what they write. -/
theorem versions_agree (J : Jsoncons) (P : Platform) :
    (∀ doc, doc.get? "version" = none → doc.get? "configuration" = none →
      schemaV1 doc = schemaV1_1 (withVersion doc) ∧
        ∀ pre storeOnlyInMemory, SameOutcome (parseV1 J P doc pre storeOnlyInMemory)
          (parseV1_1 J P (withVersion doc) pre storeOnlyInMemory)) ∧
      ∀ O e filename files, SameDump filename files (serializeV1 P O e filename files)
        (serializeV1_1 P O e filename files) :=
  ⟨fun _ hv hc => ⟨(schemaV1_1_withVersion hv hc).symm, parsers_agree J P hv hc⟩,
    serializers_agree P⟩

/-- An application that writes one file. -/
def oneFileDocument : Json :=
  .obj [("name", .str "wf"), ("IO_Graph", .arr [.obj [("name", .str "app"),
    ("input_stream", .arr []), ("output_stream", .arr [.str "f"])]])]

theorem oneFileDocument_versions_agree :
    oneFileDocument.get? "version" = none ∧ oneFileDocument.get? "configuration" = none ∧
      SameOutcome (parseV1 jsoncons posix oneFileDocument "" false)
        (parseV1_1 jsoncons posix (withVersion oneFileDocument) "" false) :=
  ⟨rfl, rfl, ((versions_agree jsoncons posix).1 oneFileDocument rfl rfl).2 "" false⟩

/-! ## An explicit version 1.0 -/

/-- `doc'` is `doc` with a version added. -/
structure AddsVersion (version doc doc' : Json) : Prop where
  absent : doc.get? "version" = none
  added : doc'.get? "version" = some version
  others : ∀ k, k ≠ "version" → doc'.get? k = doc.get? k

/-- `doc'` is accepted like `doc`, with the same workflow name and equal entries. -/
def ReadsAs (J : Jsoncons) (P : Platform) (doc doc' : Json) (pre : String)
    (storeOnlyInMemory : Bool) : Prop :=
  ∀ e, parseDoc J P doc pre storeOnlyInMemory = .ok e →
    ∃ e', parseDoc J P doc' pre storeOnlyInMemory = .ok e' ∧ e'.workflowName = e.workflowName ∧
      ∀ k, e'.find k = e.find k

/-- The dispatcher chooses `parse_v1`, and its schema rejects the version key. -/
theorem parseDoc_of_release {J : Jsoncons} {P : Platform} {doc version : Json}
    (hv : doc.get? "version" = some version) (hrelease : J.asString version = versionV1)
    (pre : String) (storeOnlyInMemory : Bool) : parseDoc J P doc pre storeOnlyInMemory =
      .error (.parserException "JSON validation failed!") := by
  have hr : release J doc = versionV1 := by
    unfold release
    rw [hv]
    exact hrelease
  have hschema : schemaV1 doc ≠ true := by
    intro h
    have hnone := Schema.get?_of_noAdditionalProperties ((schemaV1_iff doc).mp h).2
      (k := "version") (by decide)
    rw [hv] at hnone
    cases hnone
  unfold parseDoc
  rw [if_pos hr]
  rcases parseV1_eq J P doc with ⟨-, heq⟩ | ⟨h, -⟩
  · exact heq pre storeOnlyInMemory
  · exact absurd h hschema

/-- **An explicit version 1.0 is always rejected**, as a string and as a number. -/
theorem explicitV1_rejected (J : Jsoncons) (P : Platform) (version doc doc' : Json) (pre : String)
    (storeOnlyInMemory : Bool) (e : Engine)
    (h : parseDoc J P doc pre storeOnlyInMemory = .ok e) (hadd : AddsVersion version doc doc')
    (hversion : version = .str versionV1 ∨ version = .num 10 1)
    (hnum : J.asString (.num 10 1) = versionV1) :
    ¬ ReadsAs J P doc doc' pre storeOnlyInMemory ∧
      parseDoc J P doc' pre storeOnlyInMemory =
        .error (.parserException "JSON validation failed!") := by
  have hrelease : J.asString version = versionV1 := by
    rcases hversion with rfl | rfl
    · exact J.asString_str versionV1
    · exact hnum
  have hreject := @parseDoc_of_release J P doc' version hadd.added hrelease pre storeOnlyInMemory
  refine ⟨fun hreads => ?_, hreject⟩
  obtain ⟨e', he', -⟩ := hreads e h
  rw [hreject] at he'
  cases he'

/-- `oneFileDocument` with a version. -/
def versionedDocument (version : Json) : Json :=
  .obj [("version", version), ("name", .str "wf"), ("IO_Graph", .arr [.obj [("name", .str "app"),
    ("input_stream", .arr []), ("output_stream", .arr [.str "f"])]])]

theorem addsVersion_versionedDocument (version : Json) :
    AddsVersion version oneFileDocument (versionedDocument version) where
  absent := rfl
  added := rfl
  others k hk := by
    have hcons : versionedDocument version = .obj (("version", version) ::
        [("name", .str "wf"), ("IO_Graph", .arr [.obj [("name", .str "app"),
          ("input_stream", .arr []), ("output_stream", .arr [.str "f"])]])]) := rfl
    rw [hcons, Json.get?_obj, Json.lookup_cons_if, if_neg hk]
    rfl

theorem exists_parse_oneFileDocument :
    ∃ e, parseDoc jsoncons posix oneFileDocument "" false = .ok e :=
  exists_ok_of_thrown (by decide +kernel)

/-- The number 1.0. -/
theorem numberV1_rejected :
    ¬ ReadsAs jsoncons posix oneFileDocument (versionedDocument (.num 10 1)) "" false := by
  obtain ⟨e, he⟩ := exists_parse_oneFileDocument
  exact (explicitV1_rejected jsoncons posix (.num 10 1) oneFileDocument _ "" false e he
    (addsVersion_versionedDocument _) (Or.inr rfl) (by decide +kernel)).1

/-- The string 1.0. -/
theorem stringV1_not_read : ∃ e, parseDoc jsoncons posix oneFileDocument "" false = .ok e ∧
    AddsVersion (.str versionV1) oneFileDocument (versionedDocument (.str versionV1)) ∧
    ¬ ∃ e', parseDoc jsoncons posix (versionedDocument (.str versionV1)) "" false = .ok e' := by
  obtain ⟨e, he⟩ := exists_parse_oneFileDocument
  refine ⟨e, he, addsVersion_versionedDocument _, ?_⟩
  rintro ⟨e', he'⟩
  have hreject := @parseDoc_of_release jsoncons posix (versionedDocument (.str versionV1))
    (.str versionV1) rfl rfl "" false
  rw [hreject] at he'
  cases he'

end CapioCl
