import CapioCl.DumpDocument
import CapioCl.StoreInvariants

/-!
# Which dumps are readable

The setters keep the rules inside the language, and the serializer writes any engine. Its own
parser reads the document back unless an entry with producers is a file committed on its number of
files, which the schemas refuse, or has a close count that `std::stoi` does not take
(`dump_readable_iff`).
-/

namespace CapioCl

open CapioCl.Lib CapioCl.Lib.Reading CapioCl.Parser CapioCl.Serializer

/-- The close count is an `int`, and a file without one is not committed on its number of files. -/
structure CapioCLEntry.Dumpable (entry : CapioCLEntry) : Prop where
  closeCount : entry.commitOnCloseCount ≤ intMax
  kind : ¬(entry.commitOnCloseCount ≤ 0 ∧ entry.commitRule = commitRules.onNFiles ∧
    entry.isFile = true)

theorem committed_of_valid {rule : String} (h : commitRules.Valid rule) {entry : CapioCLEntry} :
    Committed (kindRules entry) rule ↔ ¬(rule = commitRules.onNFiles ∧ entry.isFile = true) := by
  unfold kindRules
  by_cases hfile : entry.isFile = true
  · rw [if_pos hfile]
    constructor
    · rintro hc ⟨rfl, -⟩
      exact onNFiles_not_committed hc
    · intro hnot
      refine .inl ?_
      rcases h with rfl | rfl | rfl | rfl
      · decide
      · decide
      · exact absurd ⟨rfl, hfile⟩ hnot
      · decide
  · rw [if_neg hfile]
    refine iff_of_true (.inl ?_) fun h => hfile h.2
    rcases h with rfl | rfl | rfl | rfl <;> decide

/-- The item of an entry is accepted and read back exactly if the entry is dumpable. -/
theorem dumpable_iff (J : Jsoncons) (path : String) {entry : CapioCLEntry}
    (hrules : entry.RulesValid) (hfiles : InLong entry.directoryChildrenCount) :
    (streamingItem (streamingItemOf path entry) = true ∧
      ItemReadable J (streamingItemOf path entry)) ↔ entry.Dumpable := by
  rw [streamingItem_dump_iff, committed_dump_iff, itemReadable_dump_iff J path hrules.1 hfiles,
    committed_of_valid hrules.1, and_iff_left hrules.2]
  constructor
  · rintro ⟨hkind, hcount⟩
    refine ⟨hcount, fun ⟨hle, hbad⟩ => ?_⟩
    cases hkind with
    | inl hpos => omega
    | inr hnot => exact hnot hbad
  · rintro ⟨hcount, hkind⟩
    refine ⟨?_, hcount⟩
    by_cases hpos : 0 < entry.commitOnCloseCount
    · exact .inl hpos
    · exact .inr fun hbad => hkind ⟨by omega, hbad⟩

/-- A dump is written, its document accepted, and parsed back with any prefix and flag. -/
def DumpsReadably (J : Jsoncons) (P : Platform) (O : DumpOrders) (e : Engine)
    (filename version : String) (files : Files) : Prop :=
  ∃ doc files', dump P O e filename version files = .ok files' ∧
    files' filename = some (.json doc) ∧ Accepted J doc ∧
    ∀ pre storeOnlyInMemory, ∃ e', parse J P files' filename pre storeOnlyInMemory = .ok e'

/-- A dump is readable when its document is accepted and read. -/
theorem dumpsReadably_iff (J : Jsoncons) {P : Platform} (O : DumpOrders) (e : Engine)
    {filename version : String} (files : Files) (hne : filename ≠ "")
    (hw : P.writable filename = true) (hv : version = versionV1 ∨ version = versionV1_1) :
    ∃ apps, DumpGraph O e apps ∧ (DumpsReadably J P O e filename version files ↔
      schemaV1 (dumpDoc O e apps) = true ∧ DocReadable J (dumpDoc O e apps)) := by
  obtain ⟨apps, doc, files', -, hg, hdoc, hdump, hfile, hparse⟩ := exists_dump J O e files hne hw hv
  refine ⟨apps, hg, ?_⟩
  constructor
  · rintro ⟨doc', files'', hdump', hfile', hacc, hall⟩
    obtain rfl := Except.ok.inj (hdump.symm.trans hdump')
    obtain rfl : doc = doc' := by
      rw [hfile, Option.some_inj] at hfile'
      exact FileContent.json.inj hfile'
    have hschema := hdoc.accepted.mp hacc
    refine ⟨hschema, ?_⟩
    obtain ⟨e', he'⟩ := hall "" false
    rw [hparse] at he'
    obtain ⟨-, -, n, base, d, -, -, hread, -⟩ := exists_of_parseDoc_ok he'
    rw [hdoc.read] at hread
    rcases readDocument_outcome J "" ((schemaV1_iff _).mp hschema).1 with ⟨h, -⟩ | ⟨-, ex, hex, -⟩
    · exact h
    · rw [hread] at hex
      cases hex
  · rintro ⟨hschema, hreadable⟩
    have hacc := hdoc.accepted.mpr hschema
    refine ⟨doc, files', hdump, hfile, hacc, fun pre storeOnlyInMemory => ?_⟩
    rw [hparse]
    rcases parseDoc_cases J P doc with ⟨h, -⟩ | ⟨-, -, n, base, -, -, h⟩ | ⟨-, h, -⟩
    · exact absurd hacc h
    · rw [h, hdoc.read]
      rcases readDocument_outcome J pre ((schemaV1_iff _).mp hschema).1 with
        ⟨-, d, hd, -⟩ | ⟨hnot, -⟩
      · rw [hd]
        exact ⟨_, rfl⟩
      · exact absurd hreadable hnot
    · exact absurd hdoc.configuration h

/-- A well-formed engine is dumped readably exactly if its produced entries are dumpable. -/
theorem WellFormed.dumpsReadably_iff (J : Jsoncons) {P : Platform} (O : DumpOrders) {e : Engine}
    (h : WellFormed e) (hlong : e.All fun x => InLong x.directoryChildrenCount)
    {filename version : String} (files : Files) (hne : filename ≠ "")
    (hw : P.writable filename = true) (hv : version = versionV1 ∨ version = versionV1_1) :
    DumpsReadably J P O e filename version files ↔
      ∀ path entry, Produced e path entry → entry.Dumpable := by
  obtain ⟨apps, hg, hiff⟩ := CapioCl.dumpsReadably_iff J O e files hne hw hv
  rw [hiff, schemaV1_dumpDoc_iff hg, docReadable_dump_iff hg, ← forall_and]
  refine forall_congr' fun path => ?_
  rw [← forall_and]
  refine forall_congr' fun entry => ?_
  rw [← imp_and]
  refine imp_congr_right fun hp => ?_
  exact dumpable_iff J path (h.rules path entry hp.1) (hlong path entry hp.1)

/-- The calls of the setters and of `newFile` keep rules valid. -/
theorem wellFormed_of_setters (J : JsonText) {e : Engine} (he : e.capioClEntries = ∅)
    {steps : List (Platform × Op)} (hsteps : ∀ step ∈ steps, step.2.IsRun) :
    WellFormed (steps.foldl (performStep J) e) := by
  rw [← Runs.stateAt_of_length_le (performStep J) le_rfl]
  refine Runs.always (performStep J) (WellFormed.of_empty he) (fun n step hn hs => ?_) steps.length
  rw [Runs.stateAt_succ _ hn]
  exact hs.run J step.1 (hsteps step (List.mem_of_getElem? hn))

/-- **When a dump is readable by its own parser.** An engine made from an empty one by `newFile`
and setters, whose counts are longs, is written, accepted and read back in either version if and
only if every entry with a producer has a close count that is an `int` and, without one, is not a
file committed on its number of files. -/
theorem dump_readable_iff (J : JsonText) {P : Platform} (O : DumpOrders) {e : Engine}
    (he : e.capioClEntries = ∅) {steps : List (Platform × Op)}
    (hsteps : ∀ step ∈ steps, step.2.IsRun)
    (hlong : (steps.foldl (performStep J) e).All fun x => InLong x.directoryChildrenCount)
    {filename version : String} (files : Files) (hne : filename ≠ "")
    (hw : P.writable filename = true) (hv : version = versionV1 ∨ version = versionV1_1) :
    DumpsReadably J.toJsoncons P O (steps.foldl (performStep J) e) filename version files ↔
      ∀ path entry, Produced (steps.foldl (performStep J) e) path entry → entry.Dumpable := by
  exact (wellFormed_of_setters J he hsteps).dumpsReadably_iff J.toJsoncons O hlong files hne hw hv

/-- A produced file that is committed on its number of files. -/
def filesRuleOnFile : List (Platform × Op) :=
  [(posix, .addProducer "f" "app"), (posix, .setCommitRule "f" commitRules.onNFiles)]

/-- A produced file with some closes. -/
def closesOfFile : List (Platform × Op) :=
  [(posix, .addProducer "f" "app"), (posix, .setCommitedCloseNumber "f" 2)]

/-- An engine with one key. -/
theorem all_of_keys {e : Engine} {k : String} {entry : CapioCLEntry} {I : CapioCLEntry → Prop}
    (hkeys : e.capioClEntries.keys = [k]) (hf : e.find k = some entry) (hI : I entry) :
    e.All I := by
  intro k' x hx
  have hmem : k' ∈ e.capioClEntries.keys := Engine.mem_keys_iff.mpr (by rw [hx]; rfl)
  rw [hkeys, List.mem_singleton] at hmem
  subst hmem
  rw [hf, Option.some_inj] at hx
  exact hx ▸ hI

/-- The schemas refuse the dump of a file committed on its number of files. -/
theorem filesRuleOnFile_not_readable : (∀ step ∈ filesRuleOnFile, step.2.IsRun) ∧
    ¬DumpsReadably jsonLiterals.toJsoncons posix insertionOrder
      (filesRuleOnFile.foldl (performStep jsonLiterals) {}) "wf.json" versionV1 fun _ => none := by
  have hsteps : ∀ step ∈ filesRuleOnFile, step.2.IsRun := by
    intro step hstep
    simp only [filesRuleOnFile, List.mem_cons, List.not_mem_nil, or_false] at hstep
    obtain rfl | rfl := hstep <;> trivial
  have hfind : (filesRuleOnFile.foldl (performStep jsonLiterals) {}).find "f" = some
      { producers := ["app"], commitRule := commitRules.onNFiles } := by decide +kernel
  refine ⟨hsteps, fun h => ?_⟩
  have hlong : (filesRuleOnFile.foldl (performStep jsonLiterals) {}).All fun x =>
      InLong x.directoryChildrenCount := all_of_keys (by decide +kernel) hfind (by decide)
  have hall := ((wellFormed_of_setters jsonLiterals rfl hsteps).dumpsReadably_iff _ _ hlong _
    (by decide) (by decide) (.inl rfl)).mp h
  exact (hall "f" _ ⟨hfind, by decide⟩).kind (by decide)

/-- The dump of a file with two closes is read back. -/
theorem closesOfFile_readable : DumpsReadably jsonLiterals.toJsoncons posix insertionOrder
    (closesOfFile.foldl (performStep jsonLiterals) {}) "wf.json" versionV1_1 fun _ => none := by
  have hsteps : ∀ step ∈ closesOfFile, step.2.IsRun := by
    intro step hstep
    simp only [closesOfFile, List.mem_cons, List.not_mem_nil, or_false] at hstep
    obtain rfl | rfl := hstep <;> trivial
  have hfind : (closesOfFile.foldl (performStep jsonLiterals) {}).find "f" = some
      { producers := ["app"], commitOnCloseCount := 2 } := by decide +kernel
  have hkeys : (closesOfFile.foldl (performStep jsonLiterals) {}).capioClEntries.keys = ["f"] := by
    decide +kernel
  refine (dump_readable_iff jsonLiterals insertionOrder rfl hsteps
    (all_of_keys hkeys hfind (by decide)) _ (by decide) (by decide) (.inr rfl)).mpr ?_
  intro path entry hp
  exact all_of_keys hkeys hfind (I := CapioCLEntry.Dumpable) ⟨by decide, by decide⟩ path entry hp.1

end CapioCl
