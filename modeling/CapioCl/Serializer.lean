import CapioCl.Lib.Reading
import CapioCl.Parser

/-!
# The serializer

`Serializer::dump` and the two version serializers (`Serializer.cpp`, `serializers/v1.cpp`,
`serializers/v1.1.cpp`), which differ in one line. The three hash maps of the function, the copy of
the entries and the two maps from applications to paths, each have an iteration order of their own
(`DumpOrders`).

What the document is without the maps is in `DumpDocument`: one application for each name among
the producers, in the order of the loop, and one for each further name among the consumers.
-/

namespace CapioCl

open CapioCl.Lib CapioCl.Lib.Reading

/-- The iteration orders of `files`, `app_outputs` and `app_inputs`. -/
structure DumpOrders where
  files : IterationOrder String
  outputs : IterationOrder String
  inputs : IterationOrder String

/-- Every map in the order of its list. -/
def insertionOrder : DumpOrders := ⟨IterationOrder.id, IterationOrder.id, IterationOrder.id⟩

namespace Serializer

/-- The loop over `files`: the paths with their entries. -/
def fileList (O : DumpOrders) (e : Engine) : List (String × CapioCLEntry) :=
  (O.files.order e.capioClEntries.keys).filterMap fun path =>
    (e.find path).map fun entry => (path, entry)

/-- The paths of the entries that meet a condition, as the loop pushes them. -/
def pathsWhere (p : CapioCLEntry → Bool) (O : DumpOrders) (e : Engine) : List String :=
  ((fileList O e).filter fun file => p file.2).map Prod.fst

/-- The pushes to `app_outputs` or `app_inputs`. -/
def appPushes (σ : Stream) (O : DumpOrders) (e : Engine) : List (String × String) :=
  (fileList O e).flatMap fun file => (file.2.apps σ).map fun app => (app, file.1)

/-- `app_outputs` or `app_inputs` after the loop over `files`. -/
def appMap (σ : Stream) (O : DumpOrders) (e : Engine) : UnorderedMap String (List String) :=
  UnorderedMap.pushAll (appPushes σ O e) ∅

/-- The value of `committed` (`v1.cpp:53-67`). -/
def committedText (entry : CapioCLEntry) : String :=
  if 0 < entry.commitOnCloseCount then
    if entry.commitRule = commitRules.onClose then
      entry.commitRule ++ (":" ++ toString entry.commitOnCloseCount)
    else commitRules.onClose ++ (":" ++ toString entry.commitOnCloseCount)
  else entry.commitRule

/-- `streaming_item` (`v1.cpp:49-84`). -/
def streamingItemOf (path : String) (entry : CapioCLEntry) : Json :=
  .obj ([(if entry.isFile then "name" else "dirname", Json.strs [path]),
      ("committed", .str (committedText entry))] ++
    (if entry.isFile then [] else [("n_files", .num entry.directoryChildrenCount 0)]) ++
    [("file_deps", Json.strs entry.fileDependencies), ("mode", .str entry.fireRule)])

/-- `files.at(path)` and the item built from it. -/
def streamingItemAt (e : Engine) (path : String) : Except Exn Json :=
  match e.find path with
  | some entry => .ok (streamingItemOf path entry)
  | none => .error (.outOfRange "at")

/-- The application built in the loop over `app_outputs`. -/
def producerApp (name : String) (inputs outputs : List String) (streaming : List Json) : Json :=
  .obj [("name", .str name), ("input_stream", Json.strs inputs),
    ("output_stream", Json.strs outputs), ("streaming", .arr streaming)]

/-- The application built in the loop over `app_inputs`. -/
def consumerApp (name : String) (inputs : List String) : Json :=
  .obj [("name", .str name), ("input_stream", Json.strs inputs), ("output_stream", .arr [])]

/-- The body of the loop over `app_outputs`. `app_inputs[app_name]` inserts a missing name. -/
def addProducerApp (e : Engine) (appOutputs : UnorderedMap String (List String))
    (s : UnorderedMap String (List String) × List Json) (appName : String) :
    Except Exn (UnorderedMap String (List String) × List Json) := do
  let outputs := (appOutputs.lookup appName).getD []
  let streaming ← outputs.mapM (streamingItemAt e)
  let inputs := (s.1.lookup appName).getD []
  return (s.1.insert appName inputs, s.2 ++ [producerApp appName inputs outputs streaming])

/-- The application is in `io_graph` already. -/
def contained (ioGraph : List Json) (appName : String) : Bool :=
  ioGraph.any fun entry => match entry.get? "name" with
    | some (.str name) => name = appName
    | _ => false

/-- The body of the loop over `app_inputs`. -/
def addConsumerApp (appInputs : UnorderedMap String (List String)) (ioGraph : List Json)
    (appName : String) : List Json :=
  if contained ioGraph appName then ioGraph
  else ioGraph ++ [consumerApp appName ((appInputs.lookup appName).getD [])]

/-- `io_graph`. -/
def ioGraphOf (O : DumpOrders) (e : Engine) : Except Exn (List Json) := do
  let appOutputs := appMap .output O e
  let (appInputs, ioGraph) ←
    (O.outputs.order appOutputs.keys).foldlM (addProducerApp e appOutputs) (appMap .input O e, [])
  return (O.inputs.order appInputs.keys).foldl (addConsumerApp appInputs) ioGraph

/-- The document after its first members. -/
def document (O : DumpOrders) (e : Engine) (header : List (String × Json)) : Except Exn Json := do
  let ioGraph ← ioGraphOf O e
  return .obj (header ++ [("name", .str e.workflowName), ("IO_Graph", .arr ioGraph),
    ("permanent", Json.strs (pathsWhere (·.permanent) O e)),
    ("exclude", Json.strs (pathsWhere (·.excluded) O e)),
    ("storage", .obj [("memory", Json.strs (pathsWhere (·.storeInMemory) O e)),
      ("fs", Json.strs (pathsWhere (fun entry => !entry.storeInMemory) O e))])])

/-- Write the document to the file. -/
def write (P : Platform) (filename : String) (doc : Json) (files : Files) : Except Exn Files :=
  if P.writable filename then .ok (Function.update files filename (some (.json doc)))
  else .error (.serializerException ("Failed to open output file: " ++ filename))

/-- `serialize_v1`. -/
def serializeV1 (P : Platform) (O : DumpOrders) (e : Engine) (filename : String) (files : Files) :
    Except Exn Files := do
  write P filename (← document O e []) files

/-- `serialize_v1_1`. -/
def serializeV1_1 (P : Platform) (O : DumpOrders) (e : Engine) (filename : String)
    (files : Files) : Except Exn Files := do
  write P filename (← document O e [("version", .num 11 1)]) files

/-- `Serializer::dump`. -/
def dump (P : Platform) (O : DumpOrders) (e : Engine) (filename version : String)
    (files : Files) : Except Exn Files :=
  if version = versionV1 then serializeV1 P O e filename files
  else if version = versionV1_1 then serializeV1_1 P O e filename files
  else .error
    (.serializerException ("No serializer available for CAPIO-CL version: " ++ version))

end Serializer

end CapioCl
