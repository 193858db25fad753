import CapioCl.Act
import CapioCl.Lib.Reading
import CapioCl.Parser

/-!
# The dynamic API

Rules that arrive over the network (`api.cpp:58-99`, `Engine.cpp:255-265`, `942-1024`). A datagram
is a JSON object with a path, a workflow name and, as text, an entry; `CapioCLEntry::fromJson`
reads the entry and `Engine::add` puts it in the store, merged with the entry that is there. The
loop catches the exceptions of jsoncons.

* `accepted_iff`: which datagrams change the store.
* `CapioCLEntry.add_assoc`, `CapioCLEntry.default_add`: merging is associative, and the default
  entry is neutral on the left.
* `serverLoop_merges`: the loop is a fold of merges, and raises nothing.
-/

namespace CapioCl

open CapioCl.Lib CapioCl.Lib.Reading

/-! ## Merging (`Engine.cpp:1000-1030`) -/

/-- `CapioCLEntry::operator+=`, and `operator+` on a copy. -/
def CapioCLEntry.plus (this rhs : CapioCLEntry) : CapioCLEntry where
  producers := this.producers ++ rhs.producers
  consumers := this.consumers ++ rhs.consumers
  fileDependencies := this.fileDependencies ++ rhs.fileDependencies
  directoryChildrenCount := this.directoryChildrenCount + rhs.directoryChildrenCount
  commitOnCloseCount := this.commitOnCloseCount + rhs.commitOnCloseCount
  enableDirectoryCountUpdate := this.enableDirectoryCountUpdate && rhs.enableDirectoryCountUpdate
  storeInMemory := this.storeInMemory || rhs.storeInMemory
  permanent := this.permanent || rhs.permanent
  excluded := this.excluded || rhs.excluded
  isFile := this.isFile && rhs.isFile
  commitRule := rhs.commitRule
  fireRule := rhs.fireRule

instance : Add CapioCLEntry := ⟨CapioCLEntry.plus⟩

namespace CapioCLEntry

theorem add_def (x y : CapioCLEntry) : x + y = x.plus y := rfl

theorem add_assoc (x y z : CapioCLEntry) : x + y + z = x + (y + z) := by
  simp only [add_def, plus, List.append_assoc, Int.add_assoc, Bool.and_assoc, Bool.or_assoc]

theorem default_add (x : CapioCLEntry) : {} + x = x := by
  simp only [add_def, plus, List.nil_append, Int.zero_add, Bool.true_and, Bool.false_or]

/-- The sum of some entries, from a first one. -/
def sum (x : CapioCLEntry) (ys : List CapioCLEntry) : CapioCLEntry := ys.foldl (· + ·) x

theorem sum_append (x : CapioCLEntry) (ys zs : List CapioCLEntry) :
    sum x (ys ++ zs) = sum (sum x ys) zs := List.foldl_append

theorem add_sum (x y : CapioCLEntry) : ∀ zs : List CapioCLEntry,
    x + sum y zs = sum (x + y) zs
  | [] => rfl
  | z :: zs => by
    have ih := add_sum x (y + z) zs
    rw [← add_assoc] at ih
    exact ih

/-- A group of entries counts as its own sum. -/
theorem sum_group (x : CapioCLEntry) {ys : List CapioCLEntry} (h : ys ≠ []) :
    sum x ys = x + sum {} ys := by
  obtain ⟨y, ys, rfl⟩ := List.exists_cons_of_ne_nil h
  have hfirst : sum {} (y :: ys) = sum y ys := by
    change sum ({} + y) ys = sum y ys
    rw [default_add]
  rw [hfirst, add_sum]
  rfl

/-- **Any grouping has the same sum.** -/
theorem sum_groups : ∀ (x : CapioCLEntry) {groups : List (List CapioCLEntry)},
    (∀ group ∈ groups, group ≠ []) → sum x groups.flatten = sum x (groups.map (sum {}))
  | _, [], _ => rfl
  | x, group :: groups, h => by
    rw [List.flatten_cons, sum_append, sum_group x (h group List.mem_cons_self),
      sum_groups _ fun g hg => h g (List.mem_cons_of_mem group hg)]
    rfl

end CapioCLEntry

namespace Engine

/-- `Engine::add(path, entry)`. -/
def addEntry (path : String) (entry : CapioCLEntry) (e : Engine) : Engine :=
  match e.find path with
  | none => { e with capioClEntries := e.capioClEntries.insert path entry }
  | some _ => e.modify path (· + entry)

/-- The record a path has, or the one it gets from the default entry. -/
theorem find_addEntry (path : String) (entry : CapioCLEntry) (e : Engine) (k : String) :
    (e.addEntry path entry).find k =
      if k = path then some ((e.find path).getD {} + entry) else e.find k := by
  unfold addEntry
  cases h : e.find path with
  | none =>
    rw [Option.getD_none, CapioCLEntry.default_add]
    by_cases hk : k = path
    · subst hk
      rw [if_pos rfl]
      exact AList.lookup_insert _
    · rw [if_neg hk]
      exact AList.lookup_insert_ne hk
  | some x =>
    dsimp only
    rw [find_modify, Option.getD_some]
    by_cases hk : k = path
    · rw [if_pos hk, if_pos hk, hk, h, Option.map_some]
    · rw [if_neg hk, if_neg hk]

theorem frame_addEntry (path : String) (entry : CapioCLEntry) (e : Engine) :
    (e.addEntry path entry).header = e.header ∧
      (e.addEntry path entry).storeAllInMemory = e.storeAllInMemory := by
  unfold addEntry
  split <;> exact ⟨rfl, rfl⟩

end Engine

/-! ## Reading an entry (`Engine.cpp:942-974`) -/

/-- jsoncons on texts: what the server takes from it besides the conversions of the parser. -/
structure JsonText extends Jsoncons where
  /-- `json::parse`; `none` when it throws -/
  parse : List UInt8 → Option Json
  /-- `as<bool>()`; `none` when it throws -/
  asBool : Json → Option Bool

namespace JsonText

variable (J : JsonText)

/-- `json::parse`, or its exception. -/
def parseText (text : List UInt8) : Except Json.Error Json :=
  (J.parse text).elim (.error .syntaxError) .ok

/-- `as<std::string>()`. -/
def string (j : Json) : Except Json.Error String := .ok (J.asString j)

/-- `as<long>()`. -/
def long (j : Json) : Except Json.Error Int := (J.asInt64 j).elim (.error .notAnInteger) .ok

/-- `as<bool>()`. -/
def bool (j : Json) : Except Json.Error Bool := (J.asBool j).elim (.error .notABool) .ok

/-- `as<std::vector<std::string>>()`, and the loop over `array_range()`. -/
def strings (j : Json) : Except Json.Error (List String) := do
  let items ← j.arrayRange
  return items.map J.asString

/-- The list under a key, `[]` when the key is missing. -/
def stringsOf (j : Json) (key : String) : Except Json.Error (List String) :=
  if j.contains key then do
    let list ← j.member key
    J.strings list
  else .ok []

end JsonText

/-- jsoncons on the texts `null`, `true` and `false`. -/
def jsonLiterals : JsonText where
  toJsoncons := jsoncons
  parse text :=
    if text = "null".toByteArray.data.toList then some .null
    else if text = "true".toByteArray.data.toList then some (.bool true)
    else if text = "false".toByteArray.data.toList then some (.bool false)
    else none
  asBool
    | .bool b => some b
    | .num m s => some (m.tdiv (10 ^ s) ≠ 0)
    | _ => none

/-- `CapioCLEntry::fromJson`. -/
def CapioCLEntry.fromJson (J : JsonText) (text : String) : Except Json.Error CapioCLEntry := do
  let j ← J.parseText text.toByteArray.data.toList
  let entry : CapioCLEntry := {}
  let producers ← J.stringsOf j "producers"
  let consumers ← J.stringsOf j "consumers"
  let fileDependencies ← J.stringsOf j "file_dependencies"
  let commitRule ← j.getValueOr J.string "commit_rule" entry.commitRule
  let fireRule ← j.getValueOr J.string "fire_rule" entry.fireRule
  let directoryChildrenCount ←
    j.getValueOr J.long "directory_children_count" entry.directoryChildrenCount
  let commitOnCloseCount ← j.getValueOr J.long "commit_on_close_count" entry.commitOnCloseCount
  let enableDirectoryCountUpdate ←
    j.getValueOr J.bool "enable_directory_count_update" entry.enableDirectoryCountUpdate
  let storeInMemory ← j.getValueOr J.bool "store_in_memory" entry.storeInMemory
  let permanent ← j.getValueOr J.bool "permanent" entry.permanent
  let excluded ← j.getValueOr J.bool "excluded" entry.excluded
  let isFile ← j.getValueOr J.bool "is_file" entry.isFile
  return { producers, consumers, fileDependencies, commitRule, fireRule, directoryChildrenCount,
           commitOnCloseCount, enableDirectoryCountUpdate, storeInMemory, permanent, excluded,
           isFile }

/-! ## The loop (`api.cpp:58-99`) -/

/-- What `json::parse(buffer)` sees of a datagram: `recvfrom` takes at most `RECV_BUF_SIZE - 1`
bytes, and the text ends at the first zero byte. -/
def cString (datagram : List UInt8) : List UInt8 := (datagram.take 65534).takeWhile (· ≠ 0)

/-- The `try` block of the loop: the call of `Engine::add`, or `none` for `continue`. -/
def serverBody (J : JsonText) (wfName : String) (datagram : List UInt8) :
    Except Json.Error (Option (String × CapioCLEntry)) := do
  let data ← J.parseText (cString datagram)
  let path ← data.getValueOr J.string "path" ""
  if path = "" then return none
  let workflowName ← data.getValueOr J.string "workflow_name" ""
  if workflowName = "" then return none
  let jsonEntry ← data.getValueOr J.string "CapioClEntry" ""
  if jsonEntry = "" then return none
  let rule ← CapioCLEntry.fromJson J jsonEntry
  if workflowName = wfName then return some (path, rule)
  return none

/-- One turn of the loop. An empty datagram is skipped, an exception of jsoncons is printed. -/
def receive (J : JsonText) (datagram : List UInt8) (e : Engine) : Except Exn Engine :=
  if datagram = [] then .ok e
  else
    match liftJson (serverBody J e.workflowName datagram) with
    | .ok none => .ok e
    | .ok (some (path, rule)) => .ok (e.addEntry path rule)
    | .error (.jsonError _) => .ok e
    | .error ex => .error ex

/-- `server`, on the datagrams it receives. -/
def server (J : JsonText) : List (List UInt8) → Engine → Except Exn Engine
  | [], e => .ok e
  | datagram :: datagrams, e => do
    let e ← receive J datagram e
    server J datagrams e

/-! ## Which datagrams change the store -/

/-- The text of a member, empty when it is missing. -/
def JsonText.text (J : JsonText) (data : Json) (key : String) : String :=
  ((data.get? key).map J.asString).getD ""

/-- The datagram is an object with a nonempty path, the engine's workflow name and an entry that
`fromJson` reads. -/
structure Accepts (J : JsonText) (wfName : String) (datagram : List UInt8) (path : String)
    (rule : CapioCLEntry) : Prop where
  nonempty : datagram ≠ []
  object : ∃ ms, J.parse (cString datagram) = some (.obj ms) ∧
    J.text (.obj ms) "path" = path ∧ J.text (.obj ms) "workflow_name" = wfName ∧
    J.text (.obj ms) "CapioClEntry" ≠ "" ∧
    CapioCLEntry.fromJson J (J.text (.obj ms) "CapioClEntry") = .ok rule
  path_ne : path ≠ ""
  workflowName_ne : wfName ≠ ""

/-- The call the loop makes for a datagram, if any. -/
def accepted (J : JsonText) (wfName : String) (datagram : List UInt8) :
    Option (String × CapioCLEntry) :=
  if datagram = [] then none
  else
    match serverBody J wfName datagram with
    | .ok call => call
    | .error _ => none

theorem getValueOr_obj (J : JsonText) (ms : List (String × Json)) (key : String) :
    (Json.obj ms).getValueOr J.string key "" = .ok (J.text (.obj ms) key) := by
  unfold Json.getValueOr JsonText.text
  rw [Json.get?_obj]
  dsimp only
  cases ms.lookup key <;> rfl

/-- The `try` block on an object. -/
theorem serverBody_obj (J : JsonText) (wfName : String) {datagram : List UInt8}
    {ms : List (String × Json)} (h : J.parse (cString datagram) = some (.obj ms)) :
    serverBody J wfName datagram =
      if J.text (.obj ms) "path" = "" then .ok none
      else if J.text (.obj ms) "workflow_name" = "" then .ok none
      else if J.text (.obj ms) "CapioClEntry" = "" then .ok none
      else (CapioCLEntry.fromJson J (J.text (.obj ms) "CapioClEntry")).map fun rule =>
        if J.text (.obj ms) "workflow_name" = wfName then some (J.text (.obj ms) "path", rule)
        else none := by
  have hparse : J.parseText (cString datagram) = .ok (.obj ms) := by
    unfold JsonText.parseText
    rw [h, Option.elim_some]
  unfold serverBody
  rw [hparse]
  simp only [ok_bind, getValueOr_obj, pure_eq_ok]
  split
  · rfl
  split
  · rfl
  split
  · rfl
  cases CapioCLEntry.fromJson J (J.text (.obj ms) "CapioClEntry") with
  | error ex => rfl
  | ok rule =>
    rw [ok_bind, map_ok]
    split <;> rfl

/-- A text that is not an object makes no call. -/
theorem serverBody_not_obj (J : JsonText) (wfName : String) {datagram : List UInt8}
    (h : ∀ ms, J.parse (cString datagram) ≠ some (.obj ms)) {call : String × CapioCLEntry} :
    serverBody J wfName datagram ≠ .ok (some call) := by
  unfold serverBody JsonText.parseText
  cases hparse : J.parse (cString datagram) with
  | none =>
    rw [Option.elim_none, error_bind]
    exact nofun
  | some data =>
    rw [Option.elim_some, ok_bind]
    cases data with
    | obj ms => exact absurd hparse (h ms)
    | null =>
      intro hbody
      change Except.ok none = _ at hbody
      exact absurd hbody (by simp)
    | _ =>
      intro hbody
      change Except.error Json.Error.notAnObject = _ at hbody
      exact absurd hbody (by simp)

/-- **Which datagrams make a call**, and which one. -/
theorem accepted_iff (J : JsonText) (wfName : String) {datagram : List UInt8} {path : String}
    {rule : CapioCLEntry} :
    accepted J wfName datagram = some (path, rule) ↔ Accepts J wfName datagram path rule := by
  have hbody : accepted J wfName datagram = some (path, rule) ↔
      datagram ≠ [] ∧ serverBody J wfName datagram = .ok (some (path, rule)) := by
    unfold accepted
    by_cases hd : datagram = []
    · rw [if_pos hd]
      exact iff_of_false nofun fun h => h.1 hd
    · rw [if_neg hd]
      cases serverBody J wfName datagram with
      | error ex => exact iff_of_false nofun fun h => absurd h.2 (by simp)
      | ok call => simp [hd]
  rw [hbody]
  constructor
  · rintro ⟨hd, h⟩
    by_cases hobj : ∃ ms, J.parse (cString datagram) = some (.obj ms)
    · obtain ⟨ms, hms⟩ := hobj
      rw [serverBody_obj J wfName hms] at h
      split_ifs at h with hp hw hc hname
      · exact absurd h (by simp)
      · exact absurd h (by simp)
      · exact absurd h (by simp)
      · obtain ⟨r, hr, hcall⟩ := map_eq_ok_iff.mp h
        obtain ⟨rfl, rfl⟩ := Prod.mk.inj (Option.some.inj hcall)
        refine ⟨hd, ⟨ms, hms, rfl, hname, hc, hr⟩, hp, ?_⟩
        rw [← hname]
        exact hw
      · obtain ⟨r, -, hcall⟩ := map_eq_ok_iff.mp h
        exact absurd hcall (by simp)
    · exact absurd h (serverBody_not_obj J wfName (not_exists.mp hobj))
  · rintro ⟨hd, ⟨ms, hms, rfl, rfl, hc, hr⟩, hp, hw⟩
    refine ⟨hd, ?_⟩
    rw [serverBody_obj J _ hms, if_neg hp, if_neg hw, if_neg hc, hr, map_ok, if_pos rfl]

/-- **One turn of the loop** makes the accepted call, or nothing; it raises nothing. -/
theorem receive_eq (J : JsonText) (datagram : List UInt8) (e : Engine) :
    receive J datagram e = .ok (match accepted J e.workflowName datagram with
      | some (path, rule) => e.addEntry path rule
      | none => e) := by
  unfold receive accepted
  by_cases hd : datagram = []
  · rw [if_pos hd, if_pos hd]
  · rw [if_neg hd, if_neg hd]
    rcases serverBody J e.workflowName datagram with ex | (_ | call) <;> rfl

/-! ## The loop as a fold -/

/-- The rules of `path` among the accepted ones, in order. -/
def rulesFor (J : JsonText) (wfName path : String) (datagrams : List (List UInt8)) :
    List CapioCLEntry :=
  (datagrams.filterMap (accepted J wfName)).filterMap fun call =>
    if call.1 = path then some call.2 else none

theorem rulesFor_cons_none {J : JsonText} {wfName : String} {datagram : List UInt8}
    (h : accepted J wfName datagram = none) (path : String) (datagrams : List (List UInt8)) :
    rulesFor J wfName path (datagram :: datagrams) = rulesFor J wfName path datagrams := by
  unfold rulesFor
  rw [List.filterMap_cons_none h]

theorem rulesFor_cons_some {J : JsonText} {wfName p : String} {rule : CapioCLEntry}
    {datagram : List UInt8} (h : accepted J wfName datagram = some (p, rule)) (path : String)
    (datagrams : List (List UInt8)) :
    rulesFor J wfName path (datagram :: datagrams) =
      if p = path then rule :: rulesFor J wfName path datagrams
      else rulesFor J wfName path datagrams := by
  unfold rulesFor
  rw [List.filterMap_cons_some h, List.filterMap_cons]
  dsimp only
  by_cases hp : p = path
  · rw [if_pos hp, if_pos hp]
  · rw [if_neg hp, if_neg hp]

/-- An entry after some rules: unchanged when there are none, else their sum from the entry or
from the default one. -/
def plusRules (entry : Option CapioCLEntry) : List CapioCLEntry → Option CapioCLEntry
  | [] => entry
  | rule :: rules => some (CapioCLEntry.sum (entry.getD {}) (rule :: rules))

theorem plusRules_cons (entry : Option CapioCLEntry) (rule : CapioCLEntry)
    (rules : List CapioCLEntry) :
    plusRules entry (rule :: rules) = plusRules (some (entry.getD {} + rule)) rules := by
  cases rules <;> rfl

/-- The loop returns, and merges into each path its rules. -/
theorem server_merges (J : JsonText) (datagrams : List (List UInt8)) (e : Engine) :
    ∃ e', server J datagrams e = .ok e' ∧ e'.header = e.header ∧
      e'.storeAllInMemory = e.storeAllInMemory ∧
      ∀ path, e'.find path =
        plusRules (e.find path) (rulesFor J e.workflowName path datagrams) := by
  induction datagrams generalizing e with
  | nil => exact ⟨e, rfl, rfl, rfl, fun _ => rfl⟩
  | cons datagram datagrams ih =>
    unfold server
    rw [receive_eq, ok_bind]
    cases hacc : accepted J e.workflowName datagram with
    | none =>
      obtain ⟨e', he', hh, hs, hfind⟩ := ih e
      refine ⟨e', he', hh, hs, fun path => ?_⟩
      rw [hfind, rulesFor_cons_none hacc]
    | some call =>
      obtain ⟨p, rule⟩ := call
      obtain ⟨e', he', hh, hs, hfind⟩ := ih (e.addEntry p rule)
      obtain ⟨hframe, hstore⟩ := Engine.frame_addEntry p rule e
      have hname : (e.addEntry p rule).workflowName = e.workflowName :=
        congrArg (fun h => h.2.2) hframe
      refine ⟨e', he', hh.trans hframe, hs.trans hstore, fun path => ?_⟩
      rw [hfind, hname, rulesFor_cons_some hacc, Engine.find_addEntry]
      by_cases hp : path = p
      · subst hp
        rw [if_pos rfl, if_pos rfl, plusRules_cons]
      · rw [if_neg hp, if_neg (Ne.symm hp)]

/-- **The dynamic API is an exact, atomic fold.** An accepted datagram makes its call, any other
leaves the engine as it was, and none raises anything out of the loop. After any datagrams each
path has its entry plus its accepted rules in order; the sum is associative with the default entry
neutral on the left, so rules may be merged in any grouping. -/
theorem serverLoop_merges (J : JsonText) :
    (∀ datagram e,
      (∃ path rule, Accepts J e.workflowName datagram path rule ∧
        receive J datagram e = .ok (e.addEntry path rule)) ∨
      ((∀ path rule, ¬ Accepts J e.workflowName datagram path rule) ∧
        receive J datagram e = .ok e)) ∧
    (∀ wfName datagram path rule, accepted J wfName datagram = some (path, rule) ↔
      Accepts J wfName datagram path rule) ∧
    (∀ datagrams e, ∃ e', server J datagrams e = .ok e' ∧ e'.header = e.header ∧
      e'.storeAllInMemory = e.storeAllInMemory ∧
      ∀ path, e'.find path =
        plusRules (e.find path) (rulesFor J e.workflowName path datagrams)) ∧
    (∀ x y z : CapioCLEntry, x + y + z = x + (y + z)) ∧
    (∀ x : CapioCLEntry, {} + x = x) ∧
    ∀ entry (groups : List (List CapioCLEntry)), (∀ group ∈ groups, group ≠ []) →
      plusRules entry groups.flatten = plusRules entry (groups.map (CapioCLEntry.sum {})) := by
  refine ⟨fun datagram e => ?_, fun wfName datagram path rule => accepted_iff J wfName,
    server_merges J, CapioCLEntry.add_assoc, CapioCLEntry.default_add, fun entry groups h => ?_⟩
  · rw [receive_eq]
    cases hacc : accepted J e.workflowName datagram with
    | none =>
      refine Or.inr ⟨fun path rule hcon => ?_, rfl⟩
      rw [(accepted_iff J e.workflowName).mpr hcon] at hacc
      exact absurd hacc (by simp)
    | some call => exact Or.inl ⟨call.1, call.2, (accepted_iff J e.workflowName).mp hacc, rfl⟩
  · cases groups with
    | nil => rfl
    | cons group groups =>
      obtain ⟨rule, rules, rfl⟩ := List.exists_cons_of_ne_nil (h group List.mem_cons_self)
      exact congrArg some (CapioCLEntry.sum_groups (entry.getD {}) h)

end CapioCl
