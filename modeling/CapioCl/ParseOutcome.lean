import CapioCl.Document

/-!
# The outcomes of a parse

`Parser::parse` documents one exception, `ParserException`. Other exceptions leave it: jsoncons
throws its own on malformed text, the configuration and the multicast backend throw theirs, and
after validation `std::stoi` and `as<int64_t>` may still fail, because the schema bounds neither the
digits of `on_close:n` nor `n_files`.

* `parse_json_outcome`: the outcome on a document, case by case.
* `parse_total_iff`: exactly when a parse ends in an engine or a `ParserException`, and accepts
  what the schema accepts.
-/

namespace CapioCl

open CapioCl.Lib CapioCl.Lib.Reading CapioCl.Parser

/-- The configuration key names a TOML file that `CapioClConfiguration::load` reads. -/
def LoadableToml (P : Platform) (doc : Json) : Prop :=
  ∀ path, doc.get? "configuration" = some (.str path) → ∃ c, Configuration.load P path ∅ = .ok c

/-- No exception but the documented one, and none on an accepted document. -/
def TotalOn (J : Jsoncons) (P : Platform) (files : Files) (source pre : String)
    (storeOnlyInMemory : Bool) : Prop :=
  ((∃ e, parse J P files source pre storeOnlyInMemory = .ok e) ∨
    ∃ msg, parse J P files source pre storeOnlyInMemory = .error (.parserException msg)) ∧
  ∀ doc, source ≠ "" → files source = some (.json doc) → Accepted J doc → LoadableToml P doc →
    ∃ e, parse J P files source pre storeOnlyInMemory = .ok e

/-- The inputs on which no conversion fails. -/
def Convertible (J : Jsoncons) (P : Platform) (files : Files) (source : String) : Prop :=
  source = "" ∨ files source = none ∨ ∃ doc, files source = some (.json doc) ∧
    (Accepted J doc → ConfigurationLoads P doc ∧ DocReadable J doc)

/-! ## Exceptions that are not the parser's -/

theorem loadConfigToMemory_error {msg : String} : ∀ (tbl : List (String × Toml)) (pre : String)
    (map : Configuration), Configuration.loadConfigToMemory tbl pre map ≠
      .error (.parserException msg)
  | [], pre, map => by simp [Configuration.loadConfigToMemory]
  | (key, .table tbl) :: rest, pre, map => by
    intro h
    rw [Configuration.loadConfigToMemory] at h
    rcases bind_eq_error h with h | ⟨map', -, h⟩
    · exact loadConfigToMemory_error tbl _ map h
    · exact loadConfigToMemory_error rest pre map' h
  | (key, .string s) :: rest, pre, map => by
    rw [Configuration.loadConfigToMemory]
    exact loadConfigToMemory_error rest pre _
  | (key, .boolean b) :: rest, pre, map => by
    rw [Configuration.loadConfigToMemory]
    exact loadConfigToMemory_error rest pre _
  | (key, .integer n) :: rest, pre, map => by
    rw [Configuration.loadConfigToMemory]
    exact loadConfigToMemory_error rest pre _
  | (key, .other) :: rest, pre, map => by
    rw [Configuration.loadConfigToMemory]
    simp

theorem load_error {P : Platform} {path : String} {ex : Exn}
    (h : Configuration.load P path ∅ = .error ex) (msg : String) : ex ≠ .parserException msg := by
  rintro rfl
  unfold Configuration.load at h
  split at h
  · exact absurd (Except.error.inj h) (by simp)
  · split at h
    · exact absurd (Except.error.inj h) (by simp)
    · exact loadConfigToMemory_error _ _ _ h

theorem getParameter_error {c : Configuration} {key : String} {ex : Exn}
    (h : c.getParameter key = .error ex) (msg : String) : ex ≠ .parserException msg := by
  rintro rfl
  unfold Configuration.getParameter at h
  split at h
  · exact absurd h (by simp)
  · exact absurd (Except.error.inj h) (by simp)

theorem getIntParameter_error {c : Configuration} {key : String} {ex : Exn}
    (h : c.getIntParameter key = .error ex) (msg : String) : ex ≠ .parserException msg := by
  unfold Configuration.getIntParameter at h
  split at h
  · rcases stoi_error h with rfl | rfl <;> simp
  · rw [← Except.error.inj h]
    simp

theorem multicastBackend_error {c : Configuration} {ex : Exn}
    (h : Engine.multicastBackend c = .error ex) (msg : String) : ex ≠ .parserException msg := by
  unfold Engine.multicastBackend at h
  split at h
  · rw [map_eq_error_iff] at h
    unfold multicastMonitor at h
    rcases bind_eq_error h with h | ⟨_, -, h⟩
    · exact getParameter_error h msg
    rcases bind_eq_error h with h | ⟨_, -, h⟩
    · exact getIntParameter_error h msg
    rcases bind_eq_error h with h | ⟨_, -, h⟩
    · exact getParameter_error h msg
    rcases bind_eq_error h with h | ⟨_, -, h⟩
    · exact getIntParameter_error h msg
    rcases bind_eq_error h with h | ⟨_, -, h⟩
    · exact getIntParameter_error h msg
    · exact absurd h (by simp)
  · exact absurd h (by simp)

theorem ReadError.not_parser {ex : Exn} (h : ReadError ex) (msg : String) :
    ex ≠ .parserException msg := by
  rcases h with rfl | rfl <;> simp

/-! ## The outcome on a document -/

/-- **The outcome on a document.** What the schema rejects raises a `ParserException`. What it
accepts is parsed when the configuration loads and the document can be read, and raises another
exception otherwise. -/
theorem parse_json_outcome (J : Jsoncons) (P : Platform) {files : Files} {source : String}
    {doc : Json} (hs : source ≠ "") (hf : files source = some (.json doc)) (pre : String)
    (storeOnlyInMemory : Bool) :
    (¬ Accepted J doc ∧ ∃ msg, parse J P files source pre storeOnlyInMemory =
      .error (.parserException msg)) ∨
    (Accepted J doc ∧ ConfigurationLoads P doc ∧ DocReadable J doc ∧
      ∃ e, parse J P files source pre storeOnlyInMemory = .ok e) ∨
    (Accepted J doc ∧ ¬ (ConfigurationLoads P doc ∧ DocReadable J doc) ∧
      ∃ ex, parse J P files source pre storeOnlyInMemory = .error ex ∧
        ∀ msg, ex ≠ .parserException msg) := by
  rw [parse_json hs hf]
  rcases parseDoc_cases J P doc with ⟨hrej, msg, heq⟩ | ⟨hacc, hconf, n, base, -, -, heq⟩ |
    ⟨hacc, hconf, path, ex, -, herr, heq⟩
  · exact Or.inl ⟨hrej, msg, heq pre storeOnlyInMemory⟩
  · rw [heq]
    rcases readDocument_outcome J pre (docShape_of_accepted hacc) with
      ⟨hgood, d, hd, -⟩ | ⟨hbad, ex, hex, her⟩
    · exact Or.inr (Or.inl ⟨hacc, hconf, hgood, _, by rw [hd]; rfl⟩)
    · exact Or.inr (Or.inr ⟨hacc, fun h => hbad h.2, ex, by rw [hex]; rfl, her.not_parser⟩)
  · refine Or.inr (Or.inr ⟨hacc, fun h => hconf h.1, ex, heq pre storeOnlyInMemory, ?_⟩)
    rcases herr with herr | ⟨c, -, herr⟩
    · exact load_error herr
    · exact multicastBackend_error herr

/-- **Exactly when a parse is total.** -/
theorem parse_total_iff (J : Jsoncons) (P : Platform) (files : Files) (source pre : String)
    (storeOnlyInMemory : Bool) :
    TotalOn J P files source pre storeOnlyInMemory ↔ Convertible J P files source := by
  unfold TotalOn Convertible
  by_cases hs : source = ""
  · refine iff_of_true ⟨Or.inr ⟨"Empty source file name!", ?_⟩,
      fun _ hne => absurd hs hne⟩ (Or.inl hs)
    unfold parse
    rw [if_pos hs]
  · cases hf : files source with
    | none =>
      refine iff_of_true ⟨Or.inr ⟨"Failed to open file!", ?_⟩, fun _ _ h => absurd h (by simp)⟩
        (Or.inr (Or.inl rfl))
      unfold parse
      rw [if_neg hs, hf]
    | some content =>
      cases content with
      | malformed =>
        have hparse : parse J P files source pre storeOnlyInMemory = .error .serError := by
          unfold parse
          rw [if_neg hs, hf]
        refine iff_of_false ?_ ?_
        · rintro ⟨⟨e, he⟩ | ⟨msg, he⟩, -⟩
          · exact absurd (hparse.symm.trans he) (by simp)
          · exact absurd (hparse.symm.trans he) (by simp)
        · rintro (h | h | ⟨doc, h, -⟩)
          · exact hs h
          · exact absurd h (by simp)
          · exact absurd h (by simp)
      | json doc =>
        rcases parse_json_outcome J P hs hf pre storeOnlyInMemory with
          ⟨hrej, msg, he⟩ | ⟨hacc, hconf, hgood, e, he⟩ | ⟨hacc, hbad, ex, he, hex⟩
        · refine iff_of_true ⟨Or.inr ⟨msg, he⟩, fun doc' _ h hacc => ?_⟩
            (Or.inr (Or.inr ⟨doc, rfl, fun hacc => absurd hacc hrej⟩))
          obtain rfl := FileContent.json.inj (Option.some.inj h)
          exact absurd hacc hrej
        · exact iff_of_true ⟨Or.inl ⟨e, he⟩, fun _ _ _ _ _ => ⟨e, he⟩⟩
            (Or.inr (Or.inr ⟨doc, rfl, fun _ => ⟨hconf, hgood⟩⟩))
        · refine iff_of_false ?_ ?_
          · rintro ⟨⟨e, he'⟩ | ⟨msg, he'⟩, -⟩
            · exact absurd (he.symm.trans he') (by simp)
            · exact hex msg (Except.error.inj (he.symm.trans he'))
          · rintro (h | h | ⟨doc', h, hall⟩)
            · exact hs h
            · exact absurd h (by simp)
            · obtain rfl := FileContent.json.inj (Option.some.inj h)
              exact hbad (hall hacc)

/-- A file committed after `INT_MAX + 1` closes. -/
def closeCountDocument : Json :=
  .obj [("name", .str "wf"), ("IO_Graph", .arr [.obj [("name", .str "app"),
    ("input_stream", .arr []), ("output_stream", .arr [.str "f"]),
    ("streaming", .arr [.obj [("name", .arr [.str "f"]),
      ("committed", .str "on_close:2147483648")]])]])]

/-- The schema accepts it, and `std::stoi` throws `std::out_of_range`. -/
theorem closeCountDocument_not_total :
    ¬ TotalOn jsoncons posix (fun _ => some (.json closeCountDocument)) "wf.json" "" false := by
  have hthrown : thrown (parse jsoncons posix (fun _ => some (.json closeCountDocument)) "wf.json"
      "" false) = some (.outOfRange "stoi") := by decide +kernel
  rintro ⟨⟨e, he⟩ | ⟨msg, he⟩, -⟩
  · rw [he] at hthrown
    exact absurd hthrown (by simp [thrown])
  · rw [he] at hthrown
    exact absurd hthrown (by simp [thrown])

end CapioCl
