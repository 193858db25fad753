import CapioCl.Api
import CapioCl.EntryField

/-!
# Entries as JSON

`CapioCLEntry::toJson` and `fromJson` (`Engine.cpp:942-998`). The encoder assigns the twelve members
one after another, the decoder asks for them one after another and leaves the default where one is
missing. `fromJson_eq_ok_iff` says so field by field, which is all that is used of it.

`to_string` is the parameter `print`. Of jsoncons it is assumed that it reads back the text it
printed, and that a boolean is read as itself.

* `entryJson_roundTrip`: the codec, also with members deleted.
* `dynamicRule_keeps_iff`: what a received rule leaves of the fields it does not mention.
-/

namespace CapioCl

open CapioCl.Lib CapioCl.Lib.Reading

/-! ## Writing (`Engine.cpp:976-998`) -/

/-- The object that `toJson` builds. -/
def CapioCLEntry.members (entry : CapioCLEntry) : List (String × Json) :=
  let j := Json.put "producers" (Json.strs entry.producers) []
  let j := Json.put "consumers" (Json.strs entry.consumers) j
  let j := Json.put "file_dependencies" (Json.strs entry.fileDependencies) j
  let j := Json.put "commit_rule" (.str entry.commitRule) j
  let j := Json.put "fire_rule" (.str entry.fireRule) j
  let j := Json.put "directory_children_count" (.num entry.directoryChildrenCount 0) j
  let j := Json.put "commit_on_close_count" (.num entry.commitOnCloseCount 0) j
  let j := Json.put "enable_directory_count_update" (.bool entry.enableDirectoryCountUpdate) j
  let j := Json.put "store_in_memory" (.bool entry.storeInMemory) j
  let j := Json.put "permanent" (.bool entry.permanent) j
  let j := Json.put "excluded" (.bool entry.excluded) j
  Json.put "is_file" (.bool entry.isFile) j

/-- `CapioCLEntry::toJson`. -/
def CapioCLEntry.toJson (print : Json → String) (entry : CapioCLEntry) : String :=
  print (.obj entry.members)

/-! ## Field by field -/

namespace EntryField

/-- How a field is written. -/
def encode : (field : EntryField) → field.Value → Json
  | .producers => Json.strs
  | .consumers => Json.strs
  | .fileDependencies => Json.strs
  | .commitRule => Json.str
  | .fireRule => Json.str
  | .directoryChildrenCount => fun n => Json.num n 0
  | .commitOnCloseCount => fun n => Json.num n 0
  | .enableDirectoryCountUpdate => Json.bool
  | .storeInMemory => Json.bool
  | .permanent => Json.bool
  | .excluded => Json.bool
  | .isFile => Json.bool

/-- How a field is read. -/
def decode (J : JsonText) : (field : EntryField) → Json → Except Json.Error field.Value
  | .producers => J.strings
  | .consumers => J.strings
  | .fileDependencies => J.strings
  | .commitRule => J.string
  | .fireRule => J.string
  | .directoryChildrenCount => J.long
  | .commitOnCloseCount => J.long
  | .enableDirectoryCountUpdate => J.bool
  | .storeInMemory => J.bool
  | .permanent => J.bool
  | .excluded => J.bool
  | .isFile => J.bool

/-- What the decoder makes of a field: the member, or the default. -/
def read (J : JsonText) (ms : List (String × Json)) (field : EntryField) :
    Except Json.Error field.Value :=
  (ms.lookup field.key).elim (.ok (field.get {})) (field.decode J)

/-- The values a field can have in the program: counts are of type `long`. -/
def InRange : (field : EntryField) → field.Value → Prop
  | .directoryChildrenCount => InLong
  | .commitOnCloseCount => InLong
  | .producers | .consumers | .fileDependencies | .commitRule | .fireRule => fun _ => True
  | .enableDirectoryCountUpdate | .storeInMemory | .permanent | .excluded | .isFile => fun _ => True

theorem decode_encode {J : JsonText} (hbool : ∀ b, J.asBool (.bool b) = some b)
    (field : EntryField) {value : field.Value} (h : field.InRange value) :
    field.decode J (field.encode value) = .ok value := by
  have hstrings : ∀ l : List String, J.strings (Json.strs l) = .ok l := by
    intro l
    change Except.ok ((l.map Json.str).map J.asString) = _
    rw [List.map_map, show J.asString ∘ Json.str = id from funext J.asString_str, List.map_id]
  have hstring : ∀ s, J.string (.str s) = .ok s := fun s => congrArg Except.ok (J.asString_str s)
  have hlong : ∀ n, InLong n → J.long (.num n 0) = .ok n := by
    intro n hn
    unfold JsonText.long
    rw [J.asInt64_num n hn, Option.elim_some]
  have hflag : ∀ b, J.bool (.bool b) = .ok b := by
    intro b
    unfold JsonText.bool
    rw [hbool, Option.elim_some]
  cases field with
  | producers => exact hstrings value
  | consumers => exact hstrings value
  | fileDependencies => exact hstrings value
  | commitRule => exact hstring value
  | fireRule => exact hstring value
  | directoryChildrenCount => exact hlong value h
  | commitOnCloseCount => exact hlong value h
  | enableDirectoryCountUpdate => exact hflag value
  | storeInMemory => exact hflag value
  | permanent => exact hflag value
  | excluded => exact hflag value
  | isFile => exact hflag value

/-- Each member of the object is its field, written. -/
theorem lookup_members (field : EntryField) (entry : CapioCLEntry) :
    entry.members.lookup field.key = some (field.encode (field.get entry)) := by
  unfold CapioCLEntry.members
  simp only [Json.lookup_put]
  cases field <;> rfl

end EntryField

theorem stringsOf_obj (J : JsonText) (ms : List (String × Json)) (key : String) :
    J.stringsOf (.obj ms) key = (ms.lookup key).elim (.ok []) J.strings := by
  unfold JsonText.stringsOf Json.contains Json.member
  rw [Json.get?_obj]
  cases ms.lookup key <;> rfl

theorem getValueOr_eq_elim {α : Type} (as : Json → Except Json.Error α) (key : String) (default : α)
    (ms : List (String × Json)) :
    (Json.obj ms).getValueOr as key default = (ms.lookup key).elim (.ok default) as := by
  unfold Json.getValueOr
  dsimp only
  cases ms.lookup key <;> rfl

/-- **What `fromJson` reads**: each field from its member, or the default. -/
theorem fromJson_eq_ok_iff {J : JsonText} {text : String} {ms : List (String × Json)}
    (h : J.parse text.toByteArray.data.toList = some (.obj ms)) {entry : CapioCLEntry} :
    CapioCLEntry.fromJson J text = .ok entry ↔
      ∀ field : EntryField, field.read J ms = .ok (field.get entry) := by
  have hparse : J.parseText text.toByteArray.data.toList = .ok (.obj ms) := by
    unfold JsonText.parseText
    rw [h, Option.elim_some]
  unfold CapioCLEntry.fromJson
  rw [hparse, ok_bind]
  simp only [stringsOf_obj, getValueOr_eq_elim, bind_eq_ok_iff, pure_eq_ok, Except.ok.injEq]
  constructor
  · rintro ⟨x1, h1, x2, h2, x3, h3, x4, h4, x5, h5, x6, h6, x7, h7, x8, h8, x9, h9, x10, h10, x11,
      h11, x12, h12, rfl⟩ field
    cases field <;> assumption
  · intro hread
    exact ⟨_, hread .producers, _, hread .consumers, _, hread .fileDependencies,
      _, hread .commitRule, _, hread .fireRule, _, hread .directoryChildrenCount,
      _, hread .commitOnCloseCount, _, hread .enableDirectoryCountUpdate, _, hread .storeInMemory,
      _, hread .permanent, _, hread .excluded, _, hread .isFile, rfl⟩

/-! ## The round trip -/

/-- jsoncons reads back what it printed. -/
def Lossless (J : JsonText) (print : Json → String) (j : Json) : Prop :=
  J.parse (print j).toByteArray.data.toList = some j

theorem read_members {J : JsonText} (hbool : ∀ b, J.asBool (.bool b) = some b)
    {entry : CapioCLEntry} (hrange : ∀ field : EntryField, field.InRange (field.get entry))
    (deleted : List String) (field : EntryField) :
    field.read J (Json.without deleted entry.members) =
      .ok (if field.key ∈ deleted then field.get {} else field.get entry) := by
  unfold EntryField.read
  rw [Json.lookup_without, EntryField.lookup_members]
  by_cases hf : field.key ∈ deleted
  · rw [if_pos hf, if_pos hf, Option.elim_none]
  · rw [if_neg hf, if_neg hf, Option.elim_some]
    exact EntryField.decode_encode hbool field (hrange field)

theorem inRange_of_counts {entry : CapioCLEntry} (hcount : InLong entry.directoryChildrenCount)
    (hclose : InLong entry.commitOnCloseCount) (field : EntryField) :
    field.InRange (field.get entry) := by
  cases field
  case directoryChildrenCount => exact hcount
  case commitOnCloseCount => exact hclose
  all_goals exact trivial

/-- **Entries survive the trip through JSON.** Reading what `toJson` wrote gives the entry back; with
any members deleted, the fields that remain are kept and the others have their defaults. -/
theorem entryJson_roundTrip (J : JsonText) (print : Json → String)
    (hbool : ∀ b, J.asBool (.bool b) = some b) (entry : CapioCLEntry)
    (hcount : InLong entry.directoryChildrenCount) (hclose : InLong entry.commitOnCloseCount) :
    (Lossless J print (.obj entry.members) →
      CapioCLEntry.fromJson J (entry.toJson print) = .ok entry) ∧
    ∀ deleted, Lossless J print (.obj (Json.without deleted entry.members)) →
      ∃ rest, CapioCLEntry.fromJson J (print (.obj (Json.without deleted entry.members))) =
          .ok rest ∧
        ∀ field : EntryField,
          field.get rest = if field.key ∈ deleted then field.get {} else field.get entry := by
  have hread := read_members hbool (inRange_of_counts hcount hclose)
  constructor
  · intro hprint
    refine (fromJson_eq_ok_iff hprint).mpr fun field => ?_
    have hall := hread [] field
    have hwithout : Json.without [] entry.members = entry.members :=
      List.filter_eq_self.mpr fun m _ => by simp
    rw [hwithout, if_neg List.not_mem_nil] at hall
    exact hall
  · intro deleted hprint
    let rest := EntryField.entryOf fun field =>
      if field.key ∈ deleted then field.get {} else field.get entry
    refine ⟨rest, (fromJson_eq_ok_iff hprint).mpr fun field => ?_, EntryField.get_entryOf _⟩
    rw [hread deleted field, EntryField.get_entryOf]

/-- A string between quotes, with the two escapes it cannot do without. -/
def quoted (s : String) : String :=
  let escape (c : Char) : List Char := if c = '"' ∨ c = '\\' then ['\\', c] else [c]
  String.ofList ('"' :: s.toList.flatMap escape ++ ['"'])

mutual

/-- `to_string()` on values without control characters. -/
def compact : Json → String
  | .null => "null"
  | .bool b => if b then "true" else "false"
  | .num m s => decimal m s
  | .str s => quoted s
  | .arr items => "[" ++ compactItems items ++ "]"
  | .obj ms => "\x7b" ++ compactMembers ms ++ "\x7d"

def compactItems : List Json → String
  | [] => ""
  | [j] => compact j
  | j :: j' :: items => compact j ++ "," ++ compactItems (j' :: items)

def compactMembers : List (String × Json) → String
  | [] => ""
  | [(k, j)] => quoted k ++ ":" ++ compact j
  | (k, j) :: m :: ms => quoted k ++ ":" ++ compact j ++ "," ++ compactMembers (m :: ms)

end

example : CapioCLEntry.toJson compact {} =
    "\x7b\"commit_on_close_count\":0,\"commit_rule\":\"on_termination\",\"consumers\":[]," ++
      "\"directory_children_count\":0,\"enable_directory_count_update\":true," ++
      "\"excluded\":false,\"file_dependencies\":[],\"fire_rule\":\"update\"," ++
      "\"is_file\":true,\"permanent\":false,\"producers\":[],\"store_in_memory\":false\x7d" := by
  decide +kernel

/-- jsoncons on the literals and on the text of one more document. -/
def readerOf (j : Json) : JsonText where
  toJsoncons := jsoncons
  parse text :=
    if text = (compact j).toByteArray.data.toList then some j else jsonLiterals.parse text
  asBool := jsonLiterals.asBool

theorem lossless_readerOf (j : Json) : Lossless (readerOf j) compact j := if_pos rfl

/-- An entry with a value other than the default in every field but one. -/
def closedPair : CapioCLEntry where
  producers := ["bbbbb"]
  consumers := ["aaaaa"]
  fileDependencies := ["cccc"]
  commitRule := commitRules.onClose
  directoryChildrenCount := 12
  commitOnCloseCount := 10
  enableDirectoryCountUpdate := false
  storeInMemory := true
  permanent := true
  excluded := true
  isFile := false

theorem closedPair_roundTrip :
    CapioCLEntry.fromJson (readerOf (.obj closedPair.members)) (closedPair.toJson compact) =
        .ok closedPair ∧
      ∃ rest, CapioCLEntry.fromJson
          (readerOf (.obj (Json.without ["commit_rule", "is_file"] closedPair.members)))
          (compact (.obj (Json.without ["commit_rule", "is_file"] closedPair.members))) =
            .ok rest ∧
        ∀ field : EntryField, field.get rest =
          if field.key ∈ ["commit_rule", "is_file"] then field.get {} else field.get closedPair := by
  have hcount : InLong closedPair.directoryChildrenCount := by decide
  have hclose : InLong closedPair.commitOnCloseCount := by decide
  exact ⟨(entryJson_roundTrip _ compact (fun _ => rfl) closedPair hcount hclose).1
      (lossless_readerOf _),
    (entryJson_roundTrip _ compact (fun _ => rfl) closedPair hcount hclose).2 _
      (lossless_readerOf _)⟩

/-! ## Rules that mention some fields -/

/-- The sum of an entry and a rule keeps a field whose default the rule has, except for the two
rules. -/
theorem get_add_of_default {x rule : CapioCLEntry} {field : EntryField}
    (hdefault : field.get rule = field.get {}) (hcommit : field ≠ .commitRule)
    (hfire : field ≠ .fireRule) : field.get (x + rule) = field.get x := by
  cases field with
  | producers => exact (congrArg (x.producers ++ ·) hdefault).trans (List.append_nil _)
  | consumers => exact (congrArg (x.consumers ++ ·) hdefault).trans (List.append_nil _)
  | fileDependencies =>
    exact (congrArg (x.fileDependencies ++ ·) hdefault).trans (List.append_nil _)
  | directoryChildrenCount =>
    exact (congrArg (x.directoryChildrenCount + ·) hdefault).trans (Int.add_zero _)
  | commitOnCloseCount =>
    exact (congrArg (x.commitOnCloseCount + ·) hdefault).trans (Int.add_zero _)
  | enableDirectoryCountUpdate =>
    exact (congrArg (x.enableDirectoryCountUpdate && ·) hdefault).trans (Bool.and_true _)
  | storeInMemory => exact (congrArg (x.storeInMemory || ·) hdefault).trans (Bool.or_false _)
  | permanent => exact (congrArg (x.permanent || ·) hdefault).trans (Bool.or_false _)
  | excluded => exact (congrArg (x.excluded || ·) hdefault).trans (Bool.or_false _)
  | isFile => exact (congrArg (x.isFile && ·) hdefault).trans (Bool.and_true _)
  | commitRule => exact absurd rfl hcommit
  | fireRule => exact absurd rfl hfire

/-- **What a rule leaves alone.** After `add(path, fromJson(J))` on a key, the fields that `J` does
not mention have the values they had, exactly if a commit rule that `J` does not mention was
`on_termination` and a fire rule that it does not mention was `update`. -/
theorem dynamicRule_keeps_iff (J : JsonText) (e : Engine) {path text : String}
    {ms : List (String × Json)} {old rule : CapioCLEntry} (hold : e.find path = some old)
    (hparse : J.parse text.toByteArray.data.toList = some (.obj ms))
    (hrule : CapioCLEntry.fromJson J text = .ok rule) :
    (∃ entry, (e.addEntry path rule).find path = some entry ∧
      ∀ field : EntryField, ms.lookup field.key = none → field.get entry = field.get old) ↔
    (ms.lookup "commit_rule" = none → old.commitRule = commitRules.onTermination) ∧
      (ms.lookup "fire_rule" = none → old.fireRule = fireRules.update) := by
  have hdefault : ∀ field : EntryField, ms.lookup field.key = none →
      field.get rule = field.get {} := by
    intro field hfield
    have hread := (fromJson_eq_ok_iff hparse).mp hrule field
    unfold EntryField.read at hread
    rw [hfield, Option.elim_none] at hread
    exact (Except.ok.inj hread).symm
  have hfind : (e.addEntry path rule).find path = some (old + rule) := by
    rw [Engine.find_addEntry, if_pos rfl, hold, Option.getD_some]
  constructor
  · rintro ⟨entry, hentry, hkeep⟩
    obtain rfl := Option.some.inj (hfind.symm.trans hentry)
    constructor
    · intro habsent
      exact (hkeep .commitRule habsent).symm.trans (hdefault .commitRule habsent)
    · intro habsent
      exact (hkeep .fireRule habsent).symm.trans (hdefault .fireRule habsent)
  · rintro ⟨hcommit, hfire⟩
    refine ⟨_, hfind, fun field habsent => ?_⟩
    by_cases hc : field = .commitRule
    · subst hc
      exact (hdefault .commitRule habsent).trans (hcommit habsent).symm
    by_cases hf : field = .fireRule
    · subst hf
      exact (hdefault .fireRule habsent).trans (hfire habsent).symm
    exact get_add_of_default (hdefault field habsent) hc hf

/-- A rule that mentions a producer. -/
def producerRule : Json := .obj [("producers", Json.strs ["app"])]

theorem fromJson_producerRule :
    CapioCLEntry.fromJson (readerOf producerRule) (compact producerRule) =
      .ok { producers := ["app"] } := by
  refine (fromJson_eq_ok_iff (lossless_readerOf producerRule)).mpr fun field => ?_
  cases field <;> rfl

/-- A store with an entry that has the default rules, and other values elsewhere. -/
def pairStore : Engine :=
  { capioClEntries := (∅ : UnorderedMap String CapioCLEntry).insert "f"
      { closedPair with commitRule := commitRules.onTermination } }

theorem pairStore_keepsFields :
    ∃ entry, (pairStore.addEntry "f" { producers := ["app"] }).find "f" = some entry ∧
      ∀ field : EntryField, [("producers", Json.strs ["app"])].lookup field.key = none →
        field.get entry = field.get { closedPair with commitRule := commitRules.onTermination } := by
  have hold : pairStore.find "f" =
      some { closedPair with commitRule := commitRules.onTermination } := by decide +kernel
  exact (dynamicRule_keeps_iff (readerOf producerRule) _ hold (lossless_readerOf producerRule)
    fromJson_producerRule).mpr ⟨fun _ => rfl, fun _ => rfl⟩

/-- A store whose file is committed on close. -/
def onCloseFile : Engine :=
  { capioClEntries := (∅ : UnorderedMap String CapioCLEntry).insert "f"
      { commitRule := commitRules.onClose } }

/-- The rule mentions no commit rule, and the file loses its own. -/
theorem onCloseFile_losesRule :
    CapioCLEntry.fromJson (readerOf producerRule) (compact producerRule) =
        .ok { producers := ["app"] } ∧
      [("producers", Json.strs ["app"])].lookup EntryField.commitRule.key = none ∧
      (onCloseFile.find "f").map CapioCLEntry.commitRule = some commitRules.onClose ∧
      ((onCloseFile.addEntry "f" { producers := ["app"] }).find "f").map CapioCLEntry.commitRule =
        some commitRules.onTermination :=
  ⟨fromJson_producerRule, rfl, by decide +kernel, by decide +kernel⟩

end CapioCl
