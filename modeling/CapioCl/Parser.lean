import CapioCl.Act
import CapioCl.Schema

/-!
# The parser

`Parser::parse` and the two version parsers (`Parser.cpp`, `parsers/v1.cpp`, `parsers/v1.1.cpp`).
The two version parsers differ in how they set the engine up; the loops over the sections are the
same text and are modelled once.

A file is what jsoncons makes of its text (`FileContent`). `Jsoncons` holds the two conversions of
the library that are not plain access. A version parser reads the file a second time and finds the
same value, so it takes the value.
-/

namespace CapioCl

open CapioCl.Lib

/-- The range of a `long`. -/
def InLong (n : Int) : Prop := -2 ^ 63 ≤ n ∧ n < 2 ^ 63

instance (n : Int) : Decidable (InLong n) := inferInstanceAs (Decidable (_ ∧ _))

/-- The conversions of jsoncons. -/
structure Jsoncons where
  /-- `as<std::string>()` -/
  asString : Json → String
  /-- `as<int64_t>()`; `none` when it throws -/
  asInt64 : Json → Option Int
  asString_str : ∀ s, asString (.str s) = s
  asString_version : asString (.num 11 1) = versionV1_1
  asInt64_num : ∀ n, InLong n → asInt64 (.num n 0) = some n

/-- `m / 10 ^ s` in decimal notation. -/
def decimal (m : Int) (s : Nat) : String :=
  let digits := (toString m.natAbs).toList
  let padded := List.replicate (s + 1 - digits.length) '0' ++ digits
  let whole := String.ofList (padded.take (padded.length - s))
  let text := if s = 0 then whole
    else whole ++ "." ++ String.ofList (padded.drop (padded.length - s))
  if m < 0 then "-" ++ text else text

theorem decimal_version : decimal 11 1 = versionV1_1 := by decide +kernel

/-- jsoncons on scalars. -/
def jsoncons : Jsoncons where
  asString
    | .str s => s
    | .num m s => decimal m s
    | .bool b => if b then "true" else "false"
    | .null => "null"
    | .arr _ => "[]"
    | .obj _ => "\x7b\x7d"
  asInt64
    | .num m s => let n := m.tdiv (10 ^ s); if InLong n then some n else none
    | _ => none
  asString_str := fun _ => rfl
  asString_version := decimal_version
  asInt64_num := fun n hn => by
    change (if InLong (n.tdiv (10 ^ 0)) then some (n.tdiv (10 ^ 0)) else none) = some n
    rw [Int.pow_zero, Int.tdiv_one, if_pos hn]

/-- The text of a file, as jsoncons reads it. -/
inductive FileContent where
  | malformed
  | json (doc : Json)

/-- The files that can be opened. -/
abbrev Files := String → Option FileContent

namespace Parser

/-- `Parser::resolve`. -/
def resolve (path pre : String) : String :=
  if pre = "" then path
  else if isAbsolute path then path
  else join pre path

/-- `Parser::validate_json`. -/
def validateJson (doc : Json) (schema : Schema) : Except Exn Unit :=
  if schema doc then .ok () else .error (.parserException "JSON validation failed!")

/-- `j[key].array_range()`. -/
def range (j : Json) (key : String) : Except Exn (List Json) :=
  liftJson (j.member key >>= Json.arrayRange)

/-- The resolved paths of `j[key]`. -/
def paths (J : Jsoncons) (pre : String) (j : Json) (key : String) : Except Exn (List String) :=
  (range j key).map fun items => items.map fun itm => resolve (J.asString itm) pre

/-! ## Streaming (`v1.cpp:50-134`) -/

/-- The local variables of the loop over `streaming`. -/
structure StreamItem where
  isFile : Bool
  streamingNames : List String
  fileDeps : List String
  commitRule : String
  fireRule : String
  nClose : Int
  nFiles : Int
  deriving Repr, DecidableEq

/-- `committed` before and after the first colon, if there is one. -/
def splitColon (committed : String) : Option (String × String) :=
  match committed.toList.dropWhile (· != ':') with
  | [] => none
  | _ :: count => some (String.ofList (committed.toList.takeWhile (· != ':')), String.ofList count)

/-- The commit rule and the close count of a `committed`. -/
def readRule (committed : String) : Except Exn (String × Int) :=
  match splitColon committed with
  | some (rule, countStr) => (stoi countStr).map fun nClose => (rule, nClose)
  | none => .ok (committed, 0)

def readFileDeps (J : Jsoncons) (pre : String) (item : Json) (commitRule : String) :
    Except Exn (List String) :=
  if commitRule = commitRules.onFile then paths J pre item "file_deps" else .ok []

/-- The commit rule, the close count and the dependencies. -/
def readCommitted (J : Jsoncons) (pre : String) (item : Json) :
    Except Exn (String × Int × List String) :=
  if item.contains "committed" then do
    let committed := J.asString (← liftJson (item.member "committed"))
    let (commitRule, nClose) ← readRule committed
    let fileDeps ← readFileDeps J pre item commitRule
    return (commitRule, nClose, fileDeps)
  else .ok (commitRules.onTermination, 0, [])

def readMode (J : Jsoncons) (item : Json) : Except Exn String :=
  if item.contains "mode" then (liftJson (item.member "mode")).map J.asString
  else .ok fireRules.noUpdate

def readNFiles (J : Jsoncons) (item : Json) (isFile : Bool) : Except Exn Int :=
  if item.contains "n_files" && !isFile then do
    match J.asInt64 (← liftJson (item.member "n_files")) with
    | some n => .ok n
    | none => .error (.jsonError .notAnInteger)
  else .ok 0

def readStreamItem (J : Jsoncons) (pre : String) (item : Json) : Except Exn StreamItem := do
  let isFile := item.contains "name"
  let streamingNames ← paths J pre item (if isFile then "name" else "dirname")
  let (commitRule, nClose, fileDeps) ← readCommitted J pre item
  let fireRule ← readMode J item
  let nFiles ← readNFiles J item isFile
  return { isFile, streamingNames, fileDeps, commitRule, fireRule, nClose, nFiles }

/-- The body of the loop over `streaming_names`. -/
def applyStreamItem (P : Platform) (item : StreamItem) (e : Engine) (path : String) :
    Except Exn Engine := do
  let e := if item.nFiles ≠ 0 then e.setDirectoryFileCount P path item.nFiles else e
  let e := if item.isFile then e.setFile P path else e.setDirectory P path
  let e ← e.setCommitRule P path item.commitRule
  let e ← e.setFireRule P path item.fireRule
  let e := e.setCommitedCloseNumber P path item.nClose
  return e.setFileDeps P path item.fileDeps

/-- The body of the loop over `streaming`. -/
def parseStreamItem (J : Jsoncons) (P : Platform) (pre : String) (e : Engine) (item : Json) :
    Except Exn Engine := do
  let item ← readStreamItem J pre item
  item.streamingNames.foldlM (applyStreamItem P item) e

/-! ## Applications (`v1.cpp:29-135`) -/

/-- The body of the loops over `input_stream` (`addConsumer`) and `output_stream`
(`addProducer`). -/
def parseStream (J : Jsoncons) (P : Platform) (pre : String)
    (add : Platform → String → String → Engine → Engine × String) (s : Engine × String)
    (itm : Json) : Engine × String :=
  let filePath := resolve (J.asString itm) pre
  add P filePath s.2 (s.1.newFile P filePath)

/-- The body of the loop over `IO_Graph`. `addConsumer` and `addProducer` strip the name in
place. -/
def parseApp (J : Jsoncons) (P : Platform) (pre : String) (e : Engine) (app : Json) :
    Except Exn Engine := do
  let appName := J.asString (← liftJson (app.member "name"))
  let inputs ← range app "input_stream"
  let s := inputs.foldl (parseStream J P pre Engine.addConsumer) (e, appName)
  let outputs ← range app "output_stream"
  let s := outputs.foldl (parseStream J P pre Engine.addProducer) s
  if app.contains "streaming" then
    (← range app "streaming").foldlM (parseStreamItem J P pre) s.1
  else .ok s.1

/-! ## The other sections (`v1.cpp:137-185`) -/

/-- The sections `permanent` and `exclude`. -/
def parseFlags (J : Jsoncons) (pre : String) (doc : Json) (key : String)
    (mark : String → Engine → Engine) (e : Engine) : Except Exn Engine :=
  if doc.contains key then
    (paths J pre doc key).map fun l => l.foldl (fun e path => mark path e) e
  else .ok e

def parsePermanent (J : Jsoncons) (P : Platform) (pre : String) (doc : Json) (e : Engine) :
    Except Exn Engine :=
  parseFlags J pre doc "permanent"
    (fun path e => (e.newFile P path).setPermanent P path true) e

def parseExclude (J : Jsoncons) (P : Platform) (pre : String) (doc : Json) (e : Engine) :
    Except Exn Engine :=
  parseFlags J pre doc "exclude"
    (fun path e => (e.newFile P path).setExclude P path true) e

/-- One of the two lists of `storage`; its paths are not resolved. -/
def parseStorageList (J : Jsoncons) (storage : Json) (key : String)
    (mark : String → Engine → Engine) (e : Engine) : Except Exn Engine :=
  if storage.contains key then
    (range storage key).map fun l => l.foldl (fun e f => mark (J.asString f) e) e
  else .ok e

def parseStorage (J : Jsoncons) (P : Platform) (doc : Json) (e : Engine) : Except Exn Engine :=
  if doc.contains "storage" then do
    let storage ← liftJson (doc.member "storage")
    let e ← parseStorageList J storage "memory" (fun f e => e.setStoreFileInMemory P f) e
    parseStorageList J storage "fs" (fun f e => e.setStoreFileInFileSystem P f) e
  else .ok e

/-- Everything after the header of a document. -/
def parseSections (J : Jsoncons) (P : Platform) (doc : Json) (pre : String)
    (storeOnlyInMemory : Bool) (e : Engine) : Except Exn Engine := do
  let e ← (← range doc "IO_Graph").foldlM (parseApp J P pre) e
  let e ← parsePermanent J P pre doc e
  let e ← parseExclude J P pre doc e
  let e ← parseStorage J P doc e
  return if storeOnlyInMemory then e.setAllStoreInMemory P else e

/-! ## The version parsers -/

/-- `parse_v1`. -/
def parseV1 (J : Jsoncons) (P : Platform) (doc : Json) (pre : String) (storeOnlyInMemory : Bool) :
    Except Exn Engine := do
  let engine ← Engine.create P true
  let engine ← engine.useDefaultConfiguration
  validateJson doc schemaV1
  let workflowName := J.asString (← liftJson (doc.member "name"))
  let engine := engine.setWorkflowName workflowName
  parseSections J P doc pre storeOnlyInMemory engine

/-- The configuration of a version 1.1 document (`v1.1.cpp:27-34`). -/
def configure (J : Jsoncons) (P : Platform) (doc : Json) (engine : Engine) : Except Exn Engine :=
  if doc.contains "configuration" then do
    let tomlConfigPath := J.asString (← liftJson (doc.member "configuration"))
    engine.loadConfiguration P tomlConfigPath
  else engine.useDefaultConfiguration

/-- `parse_v1_1`. -/
def parseV1_1 (J : Jsoncons) (P : Platform) (doc : Json) (pre : String)
    (storeOnlyInMemory : Bool) : Except Exn Engine := do
  let engine ← Engine.create P false
  validateJson doc schemaV1_1
  let workflowName := J.asString (← liftJson (doc.member "name"))
  let engine := engine.setWorkflowName workflowName
  let engine ← configure J P doc engine
  parseSections J P doc pre storeOnlyInMemory engine

/-- The version a document asks for. -/
def release (J : Jsoncons) (doc : Json) : String :=
  match doc.get? "version" with
  | none => versionV1
  | some v => J.asString v

/-- The second half of `Parser::parse` (`Parser.cpp:48-77`): the parser of the document's version. -/
def parseDoc (J : Jsoncons) (P : Platform) (doc : Json) (pre : String)
    (storeOnlyInMemory : Bool) : Except Exn Engine :=
  if release J doc = versionV1 then parseV1 J P doc pre storeOnlyInMemory
  else if release J doc = versionV1_1 then parseV1_1 J P doc pre storeOnlyInMemory
  else .error (.parserException "Invalid CAPIO-CL specification version!")

/-- `Parser::parse`. -/
def parse (J : Jsoncons) (P : Platform) (files : Files) (source pre : String)
    (storeOnlyInMemory : Bool) : Except Exn Engine :=
  if source = "" then .error (.parserException "Empty source file name!")
  else
    match files source with
    | none => .error (.parserException "Failed to open file!")
    | some .malformed => .error .serError
    | some (.json doc) => parseDoc J P doc pre storeOnlyInMemory

theorem parse_json {J : Jsoncons} {P : Platform} {files : Files} {source : String} {doc : Json}
    (hs : source ≠ "") (hf : files source = some (.json doc)) (pre : String)
    (storeOnlyInMemory : Bool) :
    parse J P files source pre storeOnlyInMemory = parseDoc J P doc pre storeOnlyInMemory := by
  unfold parse
  rw [if_neg hs, hf]

end Parser

end CapioCl
