import CapioCl.DumpDocument
import CapioCl.IoGraph

/-!
# The IO graph of patterns after a dump

The keys of an engine may be patterns of each other. Parsing its dump writes every application of
every key again, so none is lost. A key created while a longest matching pattern is already there
starts as a copy of that pattern, with the applications it has at that moment, and keeps them.
Which ones these are depends on the order of the dump (`Inherits`); they are applications of
patterns that overlap the key (`ioGraph_roundTrip`).
-/

namespace CapioCl

open CapioCl.Lib CapioCl.Lib.Reading CapioCl.Parser CapioCl.Serializer

/-! ## Inherited names -/

/-- Somewhere along the run `path` is created, and `c` comes with the copied entry. -/
def Inherits (P : Platform) (acts : List Act) (e : Engine) (σ : Stream) (c path : String) : Prop :=
  ∃ before act after g, acts = before ++ act :: after ∧ Copies P (run P before e) act g path ∧
    c ∈ (run P before e).apps σ g

theorem Inherits.concat {P : Platform} {acts : List Act} {e : Engine} {σ : Stream}
    {c path : String} (h : Inherits P acts e σ c path) (act : Act) :
    Inherits P (acts ++ [act]) e σ c path := by
  obtain ⟨before, a, after, g, rfl, hcopy, hc⟩ := h
  exact ⟨before, a, after ++ [act], g, by simp, hcopy, hc⟩

/-- A run inherits a name along its acts or with its last one. -/
theorem inherits_concat_iff {P : Platform} {acts : List Act} {act : Act} {e : Engine} {σ : Stream}
    {c path : String} : Inherits P (acts ++ [act]) e σ c path ↔ Inherits P acts e σ c path ∨
      ∃ g, Copies P (run P acts e) act g path ∧ c ∈ (run P acts e).apps σ g := by
  constructor
  · rintro ⟨before, a, after, g, heq, hcopy, hc⟩
    induction after using List.reverseRecOn with
    | nil =>
      obtain ⟨rfl, ha⟩ := List.append_inj' heq rfl
      obtain rfl := (List.cons.inj ha).1
      exact .inr ⟨g, hcopy, hc⟩
    | append_singleton after last _ =>
      have heq' : acts ++ [act] = (before ++ a :: after) ++ [last] := by simpa using heq
      obtain ⟨rfl, -⟩ := List.append_inj' heq' rfl
      exact .inl ⟨before, a, after, g, rfl, hcopy, hc⟩
  · rintro (h | ⟨g, hcopy, hc⟩)
    · exact h.concat act
    · exact ⟨acts, act, [], g, rfl, hcopy, hc⟩

/-- **The names of a key after a run**: those it had, those written to it, and those inherited. -/
theorem mem_apps_run_iff (P : Platform) (σ : Stream) (e : Engine) (p c : String)
    (acts : List Act) : c ∈ (run P acts e).apps σ p ↔
      c ∈ e.apps σ p ∨ (Act.set p (.app σ c) ∈ acts ∧ p ≠ "") ∨ Inherits P acts e σ c p := by
  induction acts using List.reverseRecOn with
  | nil => simp [Inherits, run_nil]
  | append_singleton acts act ih =>
    have hmem : Act.set p (.app σ c) ∈ acts ++ [act] ↔
        Act.set p (.app σ c) ∈ acts ∨ act = .set p (.app σ c) := by
      rw [List.mem_append, List.mem_singleton, eq_comm]
    rw [run_concat, mem_apps_perform, ih, hmem, inherits_concat_iff, or_and_right, or_assoc,
      or_or_or_comm]

/-! ## Overlapping paths -/

/-- `g` and `k` are different paths that the dump names, and `g` is a pattern for `k`. -/
def Overlaps (P : Platform) (e : Engine) (g k : String) : Prop :=
  Named e g ∧ Named e k ∧ g ≠ k ∧ P.fnmatch g k = true

section
variable {J : Jsoncons} {P : Platform} {O : DumpOrders} {e base : Engine} {d : Document}
  {storeOnlyInMemory : Bool}

/-- The parse of a dump copies only along overlapping paths. -/
theorem CopiedIn.overlaps (hd : ReadDump J O e d) (hbase : ∀ k, base.find k = none)
    {g k : String} (h : CopiedIn P (d.acts storeOnlyInMemory) base g k) : Overlaps P e g k := by
  obtain ⟨before, act, after, hacts, hpath, -, hnew, hsource⟩ := h
  have hnamed : ∀ {a : Act} {p : String}, a ∈ d.acts storeOnlyInMemory → a.path? = some p →
      Named e p := fun ha hp => hd.named (path_mem_paths ha hp)
  obtain ⟨hg, hmatch, -, -⟩ := Engine.source_eq_some hsource
  refine ⟨?_, ?_, ?_, hmatch⟩
  · rcases (isSome_find_run P g before base).mp hg with hold | ⟨⟨a, ha, hp⟩, -⟩
    · rw [hbase] at hold
      cases hold
    · exact hnamed (hacts ▸ List.mem_append_left _ ha) hp
  · exact hnamed (hacts ▸ List.mem_append_right _ List.mem_cons_self) hpath
  · rintro rfl
    rw [hnew] at hg
    cases hg

/-- The parse of a dump writes the applications of the engine. -/
theorem written_iff (hd : ReadDump J O e d)
    (hnames : ∀ σ k, ∀ c ∈ e.apps σ k, NoSpaces c) {σ : Stream} {k c : String} (hk : k ≠ "") :
    Act.set k (.app σ c) ∈ d.acts storeOnlyInMemory ↔ c ∈ e.apps σ k := by
  rw [setApp_mem_acts_iff hk]
  constructor
  · rintro ⟨a, ha, rfl, hmem⟩
    have hname : a.name ∈ e.apps σ k := (hd.streams σ a.name k).mp ⟨a, ha, rfl, hmem⟩
    rwa [eraseSpaces_of_noSpaces (hnames σ k a.name hname)]
  · intro hc
    obtain ⟨a, ha, rfl, hmem⟩ := (hd.streams σ c k).mpr hc
    exact ⟨a, ha, eraseSpaces_of_noSpaces (hnames σ k a.name hc), hmem⟩

end

/-- **The IO graph after a dump and a parse**, whatever patterns the keys are and in whatever order
the maps are iterated. A key has the applications it had and those it inherits in the parse. The
latter are applications of paths that reach it through overlapping patterns, so a key that has all
of these already keeps its producers and consumers exactly. -/
theorem ioGraph_roundTrip {J : Jsoncons} {P : Platform} {O : DumpOrders} {e e' : Engine}
    {filename version : String} {files files' : Files} (hempty : e.find "" = none)
    (hnames : ∀ σ k, ∀ c ∈ e.apps σ k, NoSpaces c)
    (hdump : dump P O e filename version files = .ok files') {storeOnlyInMemory : Bool}
    (hparse : parse J P files' filename "" storeOnlyInMemory = .ok e') :
    (∃ apps base d, DumpGraph O e apps ∧ (∀ k, base.find k = none) ∧
      readDocument J "" (dumpDoc O e apps) = .ok d ∧ e' = run P (d.acts storeOnlyInMemory) base ∧
      ∀ σ k c, c ∈ e'.apps σ k ↔
        c ∈ e.apps σ k ∨ Inherits P (d.acts storeOnlyInMemory) base σ c k) ∧
    (∀ σ k c, c ∈ e'.apps σ k →
      ∃ g, Relation.ReflTransGen (Overlaps P e) g k ∧ c ∈ e.apps σ g) ∧
    ∀ σ k, (∀ g, Relation.ReflTransGen (Overlaps P e) g k → e.apps σ g ⊆ e.apps σ k) →
      ∀ c, c ∈ e'.apps σ k ↔ c ∈ e.apps σ k := by
  obtain ⟨apps, n, base, d, -, hg, hschema, hfresh, hread, rfl⟩ := parse_dump_inv hdump hparse
  have hd : ReadDump J O e d := readDump_of_ok hg ((schemaV1_iff _).mp hschema).1 hread
  have hne : ∀ {σ : Stream} {k c : String}, c ∈ e.apps σ k → k ≠ "" := by
    rintro σ k c hc rfl
    have hsome := Engine.isSome_of_mem_apps hc
    rw [hempty] at hsome
    cases hsome
  have hgraph : ∀ σ k c, c ∈ (run P (d.acts storeOnlyInMemory) base).apps σ k ↔
      c ∈ e.apps σ k ∨ Inherits P (d.acts storeOnlyInMemory) base σ c k := by
    intro σ k c
    have hold : c ∉ base.apps σ k := by
      rw [Engine.apps_of_none (hfresh.find k)]
      exact List.not_mem_nil
    rw [mem_apps_run_iff, or_iff_right hold]
    refine or_congr_left ⟨fun ⟨hset, hk⟩ => (written_iff hd hnames hk).mp hset, fun hc => ?_⟩
    exact ⟨(written_iff hd hnames (hne hc)).mpr hc, hne hc⟩
  have hreach : ∀ σ k c, c ∈ (run P (d.acts storeOnlyInMemory) base).apps σ k →
      ∃ g, Relation.ReflTransGen (Overlaps P e) g k ∧ c ∈ e.apps σ g := by
    intro σ k c hc
    obtain ⟨g, hgne, hset, hchain⟩ := mem_apps_run hfresh.find _ k hc
    refine ⟨g, ?_, (written_iff hd hnames hgne).mp hset⟩
    exact Relation.ReflTransGen.mono (fun _ _ h => h.overlaps hd hfresh.find) _ _ hchain
  refine ⟨⟨apps, base, d, hg, hfresh.find, hread, rfl, hgraph⟩, hreach, fun σ k hall c => ?_⟩
  constructor
  · intro hc
    obtain ⟨g, hg, hcg⟩ := hreach σ k c hc
    exact hall g hg hcg
  · exact fun hc => (hgraph σ k c).mpr (.inl hc)

/-- A file and a pattern that matches it, written by `a`. -/
def starEngine (producers : List String) : Engine where
  workflowName := "wf"
  capioClEntries := AList.insert "x" { producers := producers }
    (AList.insert "*" { producers := ["a"] } ∅)

theorem find_starEngine {producers : List String} {k : String} {entry : CapioCLEntry}
    (h : (starEngine producers).find k = some entry) :
    (k = "x" ∧ entry = { producers := producers }) ∨ (k = "*" ∧ entry = { producers := ["a"] }) := by
  rcases UnorderedMap.of_lookup_insert h with h | h
  · exact .inl h
  · rcases UnorderedMap.of_lookup_insert h with h | h
    · exact .inr h
    · cases h

/-- The file has its producers, the pattern has `a`, and nothing is read. -/
theorem mem_apps_starEngine {producers : List String} {σ : Stream} {k c : String}
    (h : c ∈ (starEngine producers).apps σ k) : σ = .output ∧ (c ∈ producers ∨ c = "a") := by
  obtain ⟨entry, hentry, h⟩ := Engine.exists_of_mem_apps h
  obtain ⟨-, rfl⟩ | ⟨-, rfl⟩ := find_starEngine hentry
  · cases σ with
    | input => exact absurd h List.not_mem_nil
    | output => exact ⟨rfl, .inl h⟩
  · cases σ with
    | input => exact absurd h List.not_mem_nil
    | output => exact ⟨rfl, .inr (List.mem_singleton.mp h)⟩

/-- A file that `a` does not write is written by `a` after the round trip. -/
theorem starEngine_gains : (∀ k entry, (starEngine ["b"]).find k = some entry →
      entry.producers ≠ []) ∧
    ∃ files' e', dump posix insertionOrder (starEngine ["b"]) "wf.json" versionV1 (fun _ => none) =
        .ok files' ∧
      parse jsoncons posix files' "wf.json" "" false = .ok e' ∧
      "a" ∈ e'.apps .output "x" ∧ "a" ∉ (starEngine ["b"]).apps .output "x" := by
  constructor
  · intro k entry h
    obtain ⟨-, rfl⟩ | ⟨-, rfl⟩ := find_starEngine h <;> exact List.cons_ne_nil _ _
  · obtain ⟨files', e', hdump, hparse⟩ := exists_parse posix insertionOrder (starEngine ["b"])
      "wf.json" versionV1 (fun _ => none) (by decide +kernel)
    have hx : ((dump posix insertionOrder (starEngine ["b"]) "wf.json" versionV1
        fun _ => none).bind fun files' => (parse jsoncons posix files' "wf.json" "" false).map
          fun e' => e'.apps .output "x") = .ok ["a", "b"] := by decide +kernel
    have happs : e'.apps .output "x" = ["a", "b"] := map_roundTrip hdump hparse hx
    refine ⟨files', e', hdump, hparse, ?_, by decide +kernel⟩
    rw [happs]
    exact List.mem_cons_self

/-- A file that the pattern adds nothing to. -/
theorem starEngine_keeps : ∃ files' e',
    dump posix insertionOrder (starEngine ["b", "a"]) "wf.json" versionV1 (fun _ => none) =
      .ok files' ∧
    parse jsoncons posix files' "wf.json" "" false = .ok e' ∧
    ∀ c, c ∈ e'.apps .output "x" ↔ c ∈ ["b", "a"] := by
  obtain ⟨files', e', hdump, hparse⟩ := exists_parse posix insertionOrder (starEngine ["b", "a"])
    "wf.json" versionV1 (fun _ => none) (by decide +kernel)
  have hab : ∀ {σ : Stream} {k c : String}, c ∈ (starEngine ["b", "a"]).apps σ k →
      c ∈ (starEngine ["b", "a"]).apps .output "x" := by
    intro σ k c hc
    obtain ⟨-, hc | rfl⟩ := mem_apps_starEngine hc
    · exact hc
    · decide
  have hnames : ∀ σ k, ∀ c ∈ (starEngine ["b", "a"]).apps σ k, NoSpaces c := by
    intro σ k c hc
    have hmem : c ∈ ["b", "a"] := hab hc
    have hall : ∀ c ∈ ["b", "a"], NoSpaces c := by decide +kernel
    exact hall c hmem
  obtain ⟨-, -, hkeeps⟩ := ioGraph_roundTrip (by decide +kernel) hnames hdump hparse
  exact ⟨files', e', hdump, hparse, hkeeps .output "x" fun g _ _ hc => hab hc⟩

end CapioCl
