import CapioCl.Concrete
import CapioCl.DumpDocument
import CapioCl.Kinds
import CapioCl.Operations

/-!
# Files without a producer after a dump

The streaming items of a dump are those of the files with a producer. The parser finds the other
keys in the streams, the dependencies and the lists, creates them with the rules of a new entry,
and leaves their kind to the order in which the paths come. So a key without a producer keeps its
rules exactly if they are those of a new entry, and its kind if the order of the dump happens to
give it: `unproduced_roundTrip_iff`.
-/

namespace CapioCl

open CapioCl.Lib CapioCl.Lib.Reading CapioCl.Parser CapioCl.Serializer

/-! ## The mentions of a dump -/

/-- The application of a producer, as read back. -/
def producerSection (O : DumpOrders) (e : Engine) (name : String) : AppSection where
  name := name
  inputs := appPaths .input O e name
  outputs := appPaths .output O e name
  items := (appPaths .output O e name).map fun path => itemOf path ((e.find path).getD {})

/-- The application of a mere consumer, as read back. -/
def consumerSection (O : DumpOrders) (e : Engine) (name : String) : AppSection where
  name := name
  inputs := appPaths .input O e name
  outputs := []
  items := []

/-- The sections of a dump. -/
def dumped (O : DumpOrders) (e : Engine) : Document where
  apps := (producerNames O e).map (producerSection O e) ++
    (consumerNames O e).map (consumerSection O e)
  permanent := pathsWhere (·.permanent) O e
  exclude := pathsWhere (·.excluded) O e
  memory := pathsWhere (·.storeInMemory) O e
  fs := pathsWhere (fun entry => !entry.storeInMemory) O e

/-- The paths of an engine in the order in which a parse of its dump comes by them, with the
places where it turns every entry into a directory. -/
def dumpMentions (O : DumpOrders) (e : Engine) : List Mention := mentions ((dumped O e).acts false)

theorem mentions_append (acts acts' : List Act) :
    mentions (acts ++ acts') = mentions acts ++ mentions acts' := List.filterMap_append

theorem mentions_flatMap {α : Type} (f : α → List Act) (xs : List α) :
    mentions (xs.flatMap f) = (xs.map fun x => mentions (f x)).flatten := by
  induction xs with
  | nil => rfl
  | cons x xs ih => rw [List.flatMap_cons, mentions_append, ih, List.map_cons, List.flatten_cons]

/-- The mentions of an item are its path, its dependencies, and all entries if it has a count. -/
theorem mentions_item_congr {item item' : StreamItem}
    (hnames : item.streamingNames = item'.streamingNames) (hdeps : item.fileDeps = item'.fileDeps)
    (hfiles : item.nFiles = item'.nFiles) : mentions item.acts = mentions item'.acts := by
  have hpath : ∀ path, mentions (item.pathActs path) = mentions (item'.pathActs path) := by
    intro path
    unfold StreamItem.pathActs
    rw [hdeps, hfiles, mentions_append, mentions_append, mentions_append, mentions_append]
    rfl
  unfold StreamItem.acts
  rw [mentions_flatMap, mentions_flatMap, hnames]
  exact congrArg List.flatten (List.map_congr_left fun path _ => hpath path)

theorem mentions_app_congr {a a' : AppSection} (hin : a.inputs = a'.inputs)
    (hout : a.outputs = a'.outputs)
    (hitems : (a.items.map fun item => mentions item.acts) =
      a'.items.map fun item => mentions item.acts) : mentions a.acts = mentions a'.acts := by
  have htouch : ∀ (w w' : Write) (l : List String),
      mentions (l.flatMap (touch w)) = mentions (l.flatMap (touch w')) := by
    intro w w' l
    rw [mentions_flatMap, mentions_flatMap]
    rfl
  unfold AppSection.acts AppSection.streamActs
  simp only [mentions_append]
  rw [hin, hout, htouch (.app .input (eraseSpaces a.name)) (.app .input (eraseSpaces a'.name)),
    htouch (.app .output (eraseSpaces a.name)) (.app .output (eraseSpaces a'.name)),
    mentions_flatMap StreamItem.acts, mentions_flatMap StreamItem.acts, hitems]

theorem mentions_acts_congr {d d' : Document} {storeOnlyInMemory : Bool}
    (happs : (d.apps.map fun a => mentions a.acts) = d'.apps.map fun a => mentions a.acts)
    (hp : d.permanent = d'.permanent) (he : d.exclude = d'.exclude) (hm : d.memory = d'.memory)
    (hf : d.fs = d'.fs) : mentions (d.acts storeOnlyInMemory) = mentions (d'.acts false) := by
  have hlast : mentions (if storeOnlyInMemory = true then [Act.storeAll] else []) = [] := by
    cases storeOnlyInMemory <;> rfl
  unfold Document.acts Document.flagActs Document.storageActs
  simp only [mentions_append, hlast, hp, he, hm, hf]
  rw [mentions_flatMap AppSection.acts, mentions_flatMap AppSection.acts, happs]
  rfl

/-- A list read one by one, seen through functions that agree on what is read. -/
theorem map_of_mapM {α β γ κ : Type} {f : α → Except Exn β} {j : κ → α} {g : β → γ} {h : κ → γ}
    {names : List κ} {ys : List β} (hread : (names.map j).mapM f = .ok ys)
    (hfg : ∀ n ∈ names, ∀ y, f (j n) = .ok y → g y = h n) : ys.map g = names.map h := by
  rw [mapM_eq_ok_iff, List.forall₂_map_left_iff] at hread
  induction hread with
  | nil => rfl
  | cons hy _ ih =>
    rw [List.map_cons, List.map_cons, hfg _ List.mem_cons_self _ hy,
      ih fun n hn => hfg n (List.mem_cons_of_mem _ hn)]

/-- An accepted text is read as `on_file` when it is the rule of an entry without close count. -/
theorem readRule_onFile_iff {path : String} {entry : CapioCLEntry} {rule : String} {count : Int}
    (hacc : streamingItem (streamingItemOf path entry) = true)
    (hread : readRule (committedText entry) = .ok (rule, count)) : rule = commitRules.onFile ↔
      ¬0 < entry.commitOnCloseCount ∧ entry.commitRule = commitRules.onFile := by
  have hclose : ∀ ds, committedText entry = commitRules.onClose ++ (":" ++ ds) →
      rule = commitRules.onClose := by
    intro ds hds
    rw [hds, readRule_count] at hread
    obtain ⟨n, -, hn⟩ := map_eq_ok_iff.mp hread
    exact (Prod.mk.inj hn).1.symm
  by_cases hpos : 0 < entry.commitOnCloseCount
  · rw [hclose _ (committedText_of_pos hpos)]
    exact iff_of_false (by decide) fun hc => hc.1 hpos
  · rw [and_iff_right hpos]
    have htext : committedText entry = entry.commitRule := committedText_of_nonpos hpos
    rcases ((streamingItem_dump_iff path entry).mp hacc).1 with hmem | ⟨ds, -, hds⟩
    · have hdir : committedText entry ∈ dirnameRules := by
        have hall : ∀ r ∈ nameRules, r ∈ dirnameRules := by decide
        unfold kindRules at hmem
        split at hmem
        · exact hall _ hmem
        · exact hmem
      rw [readRule_rule hdir] at hread
      rw [← (Prod.mk.inj (Except.ok.inj hread)).1, htext]
    · rw [hclose ds hds, ← htext, hds]
      refine iff_of_false (by decide) fun hc => onClose_count_not_valid ds ?_
      rw [hc]
      exact valid_of_mem_dirnameRules (by decide)

/-- An accepted item is read with the path, the dependencies and the count of `itemOf`. -/
theorem readStreamItem_kind {J : Jsoncons} {path : String} {entry : CapioCLEntry}
    {item : StreamItem} (hacc : streamingItem (streamingItemOf path entry) = true)
    (hfiles : InLong entry.directoryChildrenCount)
    (h : readStreamItem J "" (streamingItemOf path entry) = .ok item) :
    item.streamingNames = (itemOf path entry).streamingNames ∧
      item.fileDeps = (itemOf path entry).fileDeps ∧
      item.nFiles = (itemOf path entry).nFiles := by
  obtain ⟨-, hnames, hc, -, hn⟩ := readStreamItem_inv h
  rw [contains_name] at hnames hn
  refine ⟨Except.ok.inj (hnames.symm.trans (paths_kind J path entry)), ?_, ?_⟩
  · obtain ⟨committed, hm, hr, hd⟩ := (readCommitted_inv hc).resolve_right fun habsent =>
      absurd (Json.contains_iff.mpr ⟨_, get?_committed path entry⟩) (by simp [habsent.1])
    rw [Json.member_of_get? (get?_committed path entry), liftJson_ok] at hm
    rw [← Except.ok.inj hm, J.asString_str] at hr
    have hrule := readRule_onFile_iff hacc hr
    unfold itemOf
    dsimp only
    rcases readFileDeps_inv hd with ⟨hon, hd⟩ | ⟨hon, hnil⟩
    · obtain ⟨hpos, honFile⟩ := hrule.mp hon
      rw [paths_file_deps] at hd
      rw [if_neg hpos, if_pos honFile]
      exact (Except.ok.inj hd).symm
    · rw [hnil]
      split
      · rfl
      · rename_i hpos
        rw [if_neg fun honFile => hon (hrule.mpr ⟨hpos, honFile⟩)]
  · exact Except.ok.inj (hn.symm.trans (readNFiles_dump J path hfiles))

theorem stream_of_read {J : Jsoncons} {app : Json} {a : AppSection} {σ : Stream}
    {l : List String} (ha : readApp J "" app = .ok a) (hl : app.get? σ.key = some (Json.strs l)) :
    a.stream σ = l := by
  have hpaths := (readApp_inv ha).2.1 σ
  rw [paths_strs J "" hl] at hpaths
  simpa only [resolve_empty, List.map_id'] using (Except.ok.inj hpaths).symm

theorem mentions_producer {J : Jsoncons} {O : DumpOrders} {e : Engine}
    (hacc : ∀ p entry, Produced e p entry → streamingItem (streamingItemOf p entry) = true)
    (hlong : e.All fun x => InLong x.directoryChildrenCount) {n : String} {a : AppSection}
    (ha : readApp J "" (producerAt O e n) = .ok a) :
    mentions a.acts = mentions (producerSection O e n).acts := by
  have hin : a.stream .input = appPaths .input O e n := stream_of_read ha rfl
  have hout : a.stream .output = appPaths .output O e n := stream_of_read ha rfl
  have hread := readItems_producerAt_iff.mp (readApp_inv ha).2.2
  refine mentions_app_congr hin hout ?_
  unfold producerSection
  rw [List.map_map]
  refine map_of_mapM hread fun p hp item hitem => ?_
  obtain ⟨entry, hpe⟩ := exists_produced (mem_appPaths.mp hp)
  unfold itemAt at hitem
  rw [Function.comp_apply, hpe.1]
  rw [hpe.1] at hitem
  obtain ⟨h1, h2, h3⟩ := readStreamItem_kind (hacc p entry hpe) (hlong p entry hpe.1) hitem
  exact mentions_item_congr h1 h2 h3

theorem mentions_consumer {J : Jsoncons} {O : DumpOrders} {e : Engine} {n : String}
    {a : AppSection} (ha : readApp J "" (consumerAt O e n) = .ok a) :
    mentions a.acts = mentions (consumerSection O e n).acts := by
  have hin : a.stream .input = appPaths .input O e n := stream_of_read ha rfl
  have hout : a.stream .output = [] := stream_of_read ha rfl
  have hnil : a.items = [] := (Except.ok.inj (readApp_inv ha).2.2).symm
  refine mentions_app_congr hin hout ?_
  rw [hnil]
  rfl

/-- **The parse of a dump comes by the paths in the order of the dump.** -/
theorem mentions_of_read {J : Jsoncons} {O : DumpOrders} {e : Engine} {apps : List Json}
    {d : Document} (happs : ioGraphOf O e = .ok apps) (hg : DumpGraph O e apps)
    (hacc : schemaV1 (dumpDoc O e apps) = true)
    (hlong : e.All fun x => InLong x.directoryChildrenCount)
    (hread : readDocument J "" (dumpDoc O e apps) = .ok d) (storeOnlyInMemory : Bool) :
    mentions (d.acts storeOnlyInMemory) = dumpMentions O e := by
  have hd : ReadDump J O e d := readDump_of_ok hg ((schemaV1_iff _).mp hacc).1 hread
  have hitems : ∀ p entry, Produced e p entry → streamingItem (streamingItemOf p entry) = true :=
    (schemaV1_dumpDoc_iff hg).mp hacc
  refine mentions_acts_congr ?_ hd.permanent hd.exclude hd.memory hd.fs
  obtain ⟨apps', hrange, has, -, -, -⟩ := readDocument_inv hread
  have hgraph : (dumpDoc O e apps).get? "IO_Graph" = some (.arr apps) := rfl
  obtain rfl := Except.ok.inj ((range_arr hgraph).symm.trans hrange)
  rw [← Except.ok.inj ((ioGraphOf_eq O e).symm.trans happs), List.mapM_append] at has
  obtain ⟨producers, hps, has⟩ := bind_eq_ok_iff.mp has
  obtain ⟨consumers, hcs, has⟩ := bind_eq_ok_iff.mp has
  have happend : producers ++ consumers = d.apps := Except.ok.inj has
  rw [← happend, List.map_append, map_of_mapM hps fun n _ a ha => mentions_producer hitems hlong ha,
    map_of_mapM hcs fun n _ a ha => mentions_consumer ha]
  unfold dumped
  rw [List.map_append, List.map_map, List.map_map]
  rfl

/-! ## The round trip -/

/-- The rules and the kind of the two entries are the same. -/
structure SameRulesAndKind (entry entry' : CapioCLEntry) : Prop where
  commitRule : entry'.commitRule = entry.commitRule
  fireRule : entry'.fireRule = entry.fireRule
  closeCount : entry'.commitOnCloseCount = entry.commitOnCloseCount
  fileDeps : entry'.fileDependencies = entry.fileDependencies
  isFile : entry'.isFile = entry.isFile

/-- The rules of the entry are those of a new one, and the dump gives the path its kind. -/
structure Reproduced (P : Platform) (O : DumpOrders) (e : Engine) (path : String)
    (entry : CapioCLEntry) : Prop where
  nonempty : path ≠ ""
  commitRule : entry.commitRule = commitRules.onTermination
  fireRule : entry.fireRule = fireRules.update
  closeCount : entry.commitOnCloseCount = 0
  fileDeps : entry.fileDependencies = []
  kind : entry.isFile = false ↔ Marked P (dumpMentions O e) path

/-- The parse of a dump describes the files with a producer and no others. -/
theorem kindStore_of_read {J : Jsoncons} {P : Platform} {O : DumpOrders} {e base : Engine}
    {d : Document} (hconcrete : AllConcrete e) (hd : ReadDump J O e d)
    (hbase : base.capioClEntries = ∅) (storeOnlyInMemory : Bool) :
    KindStore P (fun q => ∀ x, ¬Produced e q x) (mentions (d.acts storeOnlyInMemory))
      (run P (d.acts storeOnlyInMemory) base) := by
  refine KindStore.run hbase (fun g q _ hm hne x hx => ?_) fun q w hq hne hmem => ?_
  · have hg : Concrete g := hconcrete g (by rw [hx.1]; rfl)
    exact hne ((P.fnmatch_literal hg).mp hm)
  · rcases (set_mem_acts_iff hne).mp hmem with ⟨a, ha, ⟨σ, -, rfl⟩ | ⟨item, hi, hqi, -⟩⟩ |
      ⟨-, rfl⟩ | ⟨-, rfl⟩ | ⟨-, rfl⟩ | ⟨-, rfl⟩
    · trivial
    · obtain ⟨p, x, hpx, hitem⟩ := hd.items item (List.mem_flatMap.mpr ⟨a, ha, hi⟩)
      rw [(readStreamItem_dump_inv hitem).1, List.mem_singleton] at hqi
      exact absurd (hqi ▸ hpx) (hq x)
    all_goals trivial

/-- **When the rules of a file without a producer survive** a dump and a parse. -/
theorem unproduced_roundTrip_iff {J : Jsoncons} {P : Platform} {O : DumpOrders} {e e' : Engine}
    {filename version : String} {files files' : Files} (hconcrete : AllConcrete e)
    (hlong : e.All fun x => InLong x.directoryChildrenCount)
    (hdump : dump P O e filename version files = .ok files') {storeOnlyInMemory : Bool}
    (hparse : parse J P files' filename "" storeOnlyInMemory = .ok e') {k : String}
    {entry : CapioCLEntry} (hk : e.find k = some entry) (hproducers : entry.producers = []) :
    (∃ entry', e'.find k = some entry' ∧ SameRulesAndKind entry entry') ↔
      Reproduced P O e k entry := by
  obtain ⟨apps, n, base, d, happs, hg, hacc, hfresh, hread, rfl⟩ := parse_dump_inv hdump hparse
  have hd : ReadDump J O e d := readDump_of_ok hg ((schemaV1_iff _).mp hacc).1 hread
  have hstore := kindStore_of_read (P := P) hconcrete hd hfresh.entries storeOnlyInMemory
  rw [mentions_of_read happs hg hacc hlong hread] at hstore
  have hunproduced : ∀ x, ¬Produced e k x := by
    rintro x ⟨hx, hne⟩
    rw [hk, Option.some_inj] at hx
    exact hne (hx ▸ hproducers)
  constructor
  · rintro ⟨entry', hentry', hsame⟩
    obtain ⟨h1, h2, h3, h4, -⟩ := hstore.bare k entry' hunproduced hentry'
    refine ⟨(hstore.isSome_find.mp (by rw [hentry']; rfl)).2, hsame.commitRule ▸ h1,
      hsame.fireRule ▸ h2, hsame.closeCount ▸ h3, hsame.fileDeps ▸ h4, ?_⟩
    rw [← hsame.isFile]
    exact hstore.kind k entry' hunproduced hentry'
  · intro h
    have hlisted : k ∈ d.memory ∨ k ∈ d.fs := by
      rw [hd.memory, hd.fs, mem_pathsWhere, mem_pathsWhere]
      cases hs : entry.storeInMemory with
      | true => exact .inl ⟨entry, hk, hs⟩
      | false => exact .inr ⟨entry, hk, by rw [hs]; rfl⟩
    have hsome : ((run P (d.acts storeOnlyInMemory) base).find k).isSome := by
      refine (isSome_find_run P k _ base).mpr (.inr ⟨?_, h.nonempty⟩)
      rcases hlisted with hm | hf
      · exact ⟨_, (set_mem_acts_iff h.nonempty).mpr (.inr (.inr (.inr (.inl ⟨hm, rfl⟩)))), rfl⟩
      · exact ⟨_, (set_mem_acts_iff h.nonempty).mpr (.inr (.inr (.inr (.inr ⟨hf, rfl⟩)))), rfl⟩
    obtain ⟨entry', hentry'⟩ := Option.isSome_iff_exists.mp hsome
    obtain ⟨h1, h2, h3, h4, -⟩ := hstore.bare k entry' hunproduced hentry'
    have hkind : entry'.isFile = false ↔ entry.isFile = false :=
      (hstore.kind k entry' hunproduced hentry').trans h.kind.symm
    refine ⟨entry', hentry', h1.trans h.commitRule.symm, h2.trans h.fireRule.symm,
      h3.trans h.closeCount.symm, h4.trans h.fileDeps.symm, ?_⟩
    cases hf : entry.isFile with
    | true => simpa [hf] using hkind
    | false => exact hkind.mpr hf

/-- A file with nothing but a commit rule. -/
def closedFile : Engine :=
  [(posix, Op.setCommitRule "f" commitRules.onClose)].foldl (performStep jsonLiterals) {}

/-- The commit rule of such a file is lost. -/
theorem closedFile_loses : ∃ files' e' entry,
    dump posix insertionOrder closedFile "wf.json" versionV1 (fun _ => none) = .ok files' ∧
    parse jsoncons posix files' "wf.json" "" false = .ok e' ∧ AllConcrete closedFile ∧
    closedFile.find "f" = some entry ∧ entry.producers = [] ∧
    ¬∃ entry', e'.find "f" = some entry' ∧ SameRulesAndKind entry entry' := by
  obtain ⟨files', e', hdump, hparse⟩ := exists_parse posix insertionOrder closedFile
    "wf.json" versionV1 (fun _ => none) (by decide +kernel)
  have hf : ((dump posix insertionOrder closedFile "wf.json" versionV1 fun _ => none).bind
      fun files' => (parse jsoncons posix files' "wf.json" "" false).map fun e' =>
        (e'.find "f").map (·.commitRule)) = .ok (some commitRules.onTermination) := by
    decide +kernel
  have hconcrete : AllConcrete closedFile := by
    intro k hk
    have hkeys : closedFile.capioClEntries.keys = ["f"] := by decide +kernel
    rw [← Engine.mem_keys_iff, hkeys, List.mem_singleton] at hk
    rw [hk]
    decide +kernel
  refine ⟨files', e', { commitRule := commitRules.onClose }, hdump, hparse, hconcrete,
    by decide +kernel, rfl, ?_⟩
  rintro ⟨entry', hentry', hsame⟩
  have hrule : (e'.find "f").map (·.commitRule) = some commitRules.onTermination :=
    map_roundTrip hdump hparse hf
  rw [hentry', Option.map_some, Option.some_inj, hsame.commitRule] at hrule
  exact absurd hrule (by decide)

/-- A directory that the dump names before the file in it. -/
def directoryFirst : Engine where
  workflowName := "wf"
  capioClEntries := AList.insert "d" { isFile := false } (AList.insert "d/f" {} ∅)

theorem find_directoryFirst {k : String} {entry : CapioCLEntry}
    (h : directoryFirst.find k = some entry) : Concrete k ∧ entry.directoryChildrenCount = 0 := by
  rcases UnorderedMap.of_lookup_insert h with ⟨rfl, rfl⟩ | h
  · exact ⟨by decide +kernel, rfl⟩
  · rcases UnorderedMap.of_lookup_insert h with ⟨rfl, rfl⟩ | h
    · exact ⟨by decide +kernel, rfl⟩
    · cases h

/-- Such a directory stays one. -/
theorem directoryFirst_keeps : ∃ files' e' entry',
    dump posix insertionOrder directoryFirst "wf.json" versionV1 (fun _ => none) = .ok files' ∧
    parse jsoncons posix files' "wf.json" "" false = .ok e' ∧ e'.find "d" = some entry' ∧
    SameRulesAndKind { isFile := false } entry' := by
  obtain ⟨files', e', hdump, hparse⟩ := exists_parse posix insertionOrder directoryFirst
    "wf.json" versionV1 (fun _ => none) (by decide +kernel)
  have hconcrete : AllConcrete directoryFirst := by
    intro k hk
    obtain ⟨entry, hentry⟩ := Option.isSome_iff_exists.mp hk
    exact (find_directoryFirst hentry).1
  have hlong : directoryFirst.All fun x => InLong x.directoryChildrenCount := by
    intro k entry hentry
    rw [(find_directoryFirst hentry).2]
    decide
  have hmentions : dumpMentions insertionOrder directoryFirst =
      [.path "d"] ++ [.path "d/f"] := by decide +kernel
  have hmarked : Marked posix (dumpMentions insertionOrder directoryFirst) "d" := by
    rw [hmentions]
    exact .child (by decide) (by decide) (by decide +kernel) (.inl ⟨by decide, by decide⟩)
  have hd : directoryFirst.find "d" = some { isFile := false } := by decide +kernel
  obtain ⟨entry', hentry', hsame⟩ :=
    (unproduced_roundTrip_iff hconcrete hlong hdump hparse hd rfl).mpr
      ⟨by decide, rfl, rfl, rfl, rfl, iff_of_true rfl hmarked⟩
  exact ⟨files', e', entry', hdump, hparse, hentry', hsame⟩

end CapioCl
