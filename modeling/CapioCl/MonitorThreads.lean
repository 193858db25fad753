import CapioCl.Lib.Interleaving
import CapioCl.MonitorBackends

/-!
# `Monitor` in threads

Engines on several hosts share a multicast group and a file system, and each may be called by
several threads. A call of `Monitor` goes through the registered backends in order
(`Monitor.cpp:9-42`). It is not atomic: a multicast backend sends outside its lock, and a file
system backend checks for the token, creates its directories one after another, creates the token
and writes to it in system calls of their own. Between any two of these steps other threads run,
the listeners of the multicast backends among them; the network may deliver a message any number of
times, in any order, or lose it.

A `Stage` is where a thread stands, `Stage.section` its next step, and `Leads` lists what that step
can be (`leads_section`), which is all that the invariants use. The lock of
`FileSystemMonitor::getHomeNode` keeps the other threads of its instance out, and a token that
exists stays, so that call is one step.

* `MonitorOrigins`: where all that is recorded or on its way comes from.
* `MonitorAnswers`: what `isCommitted` and `getHomeNode` answer.
* `MonitorProgress`: calls come back.
-/

namespace CapioCl

open CapioCl.Lib CapioCl.Lib.Interleaving

namespace Monitor

open MulticastMonitor FileSystemMonitor

/-- A backend, told apart from the others of its kind. -/
inductive Backend (ι : Type) where
  | multicast (i : ι)
  | fileSystem (i : ι)
  deriving DecidableEq

/-- The functions of `Monitor`. -/
inductive Request where
  | setCommitted (path : String)
  | isCommitted (path : String)
  | setHomeNode (path : String)
  | getHomeNode (path : String)
  deriving Repr, DecidableEq

/-- The path of a request. -/
def Request.path : Request → String
  | .setCommitted path => path
  | .isCommitted path => path
  | .setHomeNode path => path
  | .getHomeNode path => path

/-- The token a file system backend uses for a request. -/
def Request.token (cwd : String) : Request → Option Token
  | .setCommitted path => computeCapioclTokenName cwd path .commit
  | .isCommitted path => computeCapioclTokenName cwd path .commit
  | .setHomeNode path => computeCapioclTokenName cwd path .homeNode
  | .getHomeNode path => computeCapioclTokenName cwd path .homeNode

/-- The requests that make tokens. -/
def Request.Sets : Request → Prop
  | .setCommitted _ => True
  | .setHomeNode _ => True
  | _ => False

/-- A call on a monitor with these backends, in the order of their registration. -/
structure Call (ι : Type) where
  interfaces : List (Backend ι)
  request : Request
  deriving DecidableEq

/-- How a call ends. -/
inductive Result where
  | done
  | flag (committed : Bool)
  | hosts (nodes : Finset String)
  | threw
  deriving DecidableEq

/-- What threads log. -/
inductive Event (ι : Type) where
  | began (c : Call ι)
  | ended (c : Call ι) (result : Result)
  deriving DecidableEq

/-- What the threads share: the tables of the backends, the messages on their way and the files. -/
structure World (ι : Type) where
  committedFiles : ι → List String := fun _ => []
  homeNodes : ι → String → Option String := fun _ _ => none
  /-- `_home_nodes` of the file system backends -/
  answered : ι → String → Option String := fun _ _ => none
  commitMessages : List String := []
  homeNodeMessages : List String := []
  files : FileTree

/-- Where a thread stands. `next` are the backends a call has still to go through. -/
inductive Stage (ι : Type) where
  | call (c : Call ι)
  /-- in `setCommitted` or `setHomeNode` -/
  | set (c : Call ι) (next : List (Backend ι))
  /-- of a multicast backend, after it has sent -/
  | store (c : Call ι) (i : ι) (next : List (Backend ι))
  /-- of a file system backend that has missed its token: the directories that are made and those
  that are left; then it opens the token -/
  | makeToken (c : Call ι) (i : ι) (token : Token) (made left : List FileName)
      (next : List (Backend ι))
  /-- of a file system backend, with the token open -/
  | writeToken (c : Call ι) (i : ι) (token : Token) (next : List (Backend ι))
  /-- in `isCommitted` -/
  | look (c : Call ι) (next : List (Backend ι))
  /-- of a multicast backend that has found nothing -/
  | query (c : Call ι) (i : ι) (next : List (Backend ι))
  | lookAgain (c : Call ι) (i : ι) (next : List (Backend ι))
  /-- in `getHomeNode`, with the answers so far -/
  | collect (c : Call ι) (answers : List String) (next : List (Backend ι))
  | queryHomeNode (c : Call ι) (answers : List String) (i : ι) (next : List (Backend ι))
  | collectAgain (c : Call ι) (answers : List String) (i : ι) (next : List (Backend ι))
  | commitListener (i : ι)
  | homeNodeListener (i : ι)
  | network

/-- What a step does. -/
abbrev Step (ι : Type) := Outcome (Stage ι) (World ι) (Event ι)

variable {ι : Type}

/-- The end of a call. -/
def ends (w : World ι) (c : Call ι) (result : Result) : Step ι :=
  { shared := w, events := [.ended c result] }

/-- The call goes on. -/
def goes (w : World ι) (stage : Stage ι) : Step ι := { shared := w, tasks := [stage] }

/-- A call begins. -/
def begins (w : World ι) (c : Call ι) (stage : Stage ι) : Step ι :=
  { shared := w, tasks := [stage], events := [.began c] }

/-- Write a line to an open file: it replaces as much as it is long. -/
def overwrite (t : FileTree) (token : Token) (line : String) : FileTree :=
  match t.status token.path with
  | some (.file content) =>
    t.write token.dir token.name
      (String.ofList (line.toList ++ content.toList.drop line.toList.length))
  | _ => t

section Step

variable (cwd : String) (hostname : ι → HostName)

/-- `_send_message`, by the backend `i`. -/
def World.send (w : World ι) (i : ι) : Request → World ι
  | .setCommitted path => { w with commitMessages := sendMessage path .set :: w.commitMessages }
  | .isCommitted path => { w with commitMessages := sendMessage path .get :: w.commitMessages }
  | .setHomeNode path =>
    { w with homeNodeMessages := homeAdvert path (hostname i).name :: w.homeNodeMessages }
  | .getHomeNode path => { w with homeNodeMessages := homeQuery path :: w.homeNodeMessages }

variable [DecidableEq ι]

/-- The locked part of `setCommitted` and of `setHomeNode`. -/
def World.store (w : World ι) (i : ι) : Request → World ι
  | .setCommitted path =>
    { w with committedFiles :=
              Function.update w.committedFiles i (MulticastMonitor.store (w.committedFiles i) path) }
  | .setHomeNode path =>
    { w with homeNodes := Function.update w.homeNodes i
              (Function.update (w.homeNodes i) path (some (hostname i).name)) }
  | .isCommitted _ => w
  | .getHomeNode _ => w

/-- `std::for_each` with `setCommitted` or `setHomeNode`. -/
def set (c : Call ι) (w : World ι) : List (Backend ι) → Step ι
  | [] => ends w c .done
  | .multicast i :: next => goes (w.send hostname i c.request) (.store c i next)
  | .fileSystem i :: next =>
    match c.request.token cwd with
    | none => ends w c .threw
    | some token =>
      if tokenExists w.files token then goes w (.set c next)
      else goes w (.makeToken c i token [] token.dir next)

/-- `create_directories` and the constructor of `std::ofstream`. -/
def makeToken (c : Call ι) (i : ι) (token : Token) (made left : List FileName)
    (next : List (Backend ι)) (w : World ι) : Step ι :=
  match left with
  | [] =>
    goes { w with files := w.files.write token.dir token.name "" }
      (match c.request with
      | .setHomeNode _ => .writeToken c i token next
      | _ => .set c next)
  | name :: left =>
    let (files, through) := w.files.mkdirs [] (made ++ [name])
    if through then goes { w with files } (.makeToken c i token (made ++ [name]) left next)
    else ends { w with files } c .threw

/-- `std::any_of` with `isCommitted`. -/
def look (c : Call ι) (path : String) (w : World ι) : List (Backend ι) → Step ι
  | [] => ends w c (.flag false)
  | .multicast i :: next =>
    if found (w.committedFiles i) path then ends w c (.flag true) else goes w (.query c i next)
  | .fileSystem _ :: next =>
    match c.request.token cwd with
    | none => ends w c .threw
    | some token =>
      if tokenExists w.files token then ends w c (.flag true) else goes w (.look c next)

/-- The loop of `Monitor::getHomeNode`. -/
def collectNodes (c : Call ι) (path : String) (answers : List String) (w : World ι) :
    List (Backend ι) → Step ι
  | [] => ends w c (.hosts (Monitor.collect answers))
  | .multicast i :: next =>
    match w.homeNodes i path with
    | some node => goes w (.collect c (answers ++ [node]) next)
    | none => goes w (.queryHomeNode c answers i next)
  | .fileSystem i :: next =>
    match c.request.token cwd with
    | none => ends w c .threw
    | some token =>
      let node := (w.answered i path).getD (lookupHomeNode w.files token)
      goes
        { w with answered := Function.update w.answered i
                  (Function.update (w.answered i) path (some node)) }
        (.collect c (answers ++ [node]) next)

/-- `commit_listener` receives a message. -/
def World.receiveCommit (w : World ι) (i : ι) (message : String) : World ι :=
  let (files, reply) := MulticastMonitor.commitListener (w.committedFiles i) message
  { w with committedFiles := Function.update w.committedFiles i files
           commitMessages := reply.toList ++ w.commitMessages }

/-- The next step of a thread. `message` is what the network gives to a listener, or loses. -/
def Stage.section (message : String) (stage : Stage ι) (w : World ι) : Step ι :=
  match stage with
  | .call c =>
    { shared := w
      tasks := [match c.request with
        | .setCommitted _ => .set c c.interfaces
        | .setHomeNode _ => .set c c.interfaces
        | .isCommitted _ => .look c c.interfaces
        | .getHomeNode _ => .collect c [] c.interfaces]
      events := [.began c] }
  | .set c next => Monitor.set cwd hostname c w next
  | .store c i next => goes (w.store hostname i c.request) (.set c next)
  | .makeToken c i token made left next => Monitor.makeToken c i token made left next w
  | .writeToken c i token next =>
    goes { w with files := overwrite w.files token ((hostname i).name ++ "\n") } (.set c next)
  | .look c next => Monitor.look cwd c c.request.path w next
  | .query c i next => goes (w.send hostname i c.request) (.lookAgain c i next)
  | .lookAgain c i next =>
    if found (w.committedFiles i) c.request.path then ends w c (.flag true)
    else goes w (.look c next)
  | .collect c answers next => collectNodes cwd c c.request.path answers w next
  | .queryHomeNode c answers i next =>
    goes (w.send hostname i c.request) (.collectAgain c answers i next)
  | .collectAgain c answers i next =>
    goes w (.collect c (answers ++ [(w.homeNodes i c.request.path).getD noHomeNode]) next)
  | .commitListener i =>
    goes (if message ∈ w.commitMessages then w.receiveCommit i message else w) (.commitListener i)
  | .homeNodeListener i =>
    if message ∈ w.homeNodeMessages then
      match MulticastMonitor.homeNodeListener (hostname i) (w.homeNodes i) message with
      | some (table, reply) =>
        goes { w with homeNodes := Function.update w.homeNodes i table
                      homeNodeMessages := reply.toList ++ w.homeNodeMessages }
          (.homeNodeListener i)
      -- it reads `tokens` past the end
      | none => { shared := w }
    else goes w (.homeNodeListener i)
  | .network =>
    goes { w with commitMessages := w.commitMessages.erase message
                  homeNodeMessages := w.homeNodeMessages.erase message } .network

/-- What the next step of a stage can be, with what it finds. -/
inductive Leads (message : String) (w : World ι) : Stage ι → Step ι → Prop
  | beginSet {c} (hsets : c.request.Sets) :
      Leads message w (.call c) (begins w c (.set c c.interfaces))
  | beginLook {c path} (hrequest : c.request = .isCommitted path) :
      Leads message w (.call c) (begins w c (.look c c.interfaces))
  | beginCollect {c path} (hrequest : c.request = .getHomeNode path) :
      Leads message w (.call c) (begins w c (.collect c [] c.interfaces))
  | setAll {c} : Leads message w (.set c []) (ends w c .done)
  | sent {c i next} : Leads message w (.set c (.multicast i :: next))
      (goes (w.send hostname i c.request) (.store c i next))
  | stored {c i next} : Leads message w (.store c i next)
      (goes (w.store hostname i c.request) (.set c next))
  | setNowhere {c i next} (htoken : c.request.token cwd = none) :
      Leads message w (.set c (.fileSystem i :: next)) (ends w c .threw)
  | tokenExists {c i next token} (htoken : c.request.token cwd = some token)
      (hexists : tokenExists w.files token = true) :
      Leads message w (.set c (.fileSystem i :: next)) (goes w (.set c next))
  | tokenMissing {c i next token} (htoken : c.request.token cwd = some token) :
      Leads message w (.set c (.fileSystem i :: next))
        (goes w (.makeToken c i token [] token.dir next))
  | directoryMade {c i token made name left next files}
      (hmkdirs : w.files.mkdirs [] (made ++ [name]) = (files, true)) :
      Leads message w (.makeToken c i token made (name :: left) next)
        (goes { w with files } (.makeToken c i token (made ++ [name]) left next))
  | directoryFailed {c i token made name left next files}
      (hmkdirs : w.files.mkdirs [] (made ++ [name]) = (files, false)) :
      Leads message w (.makeToken c i token made (name :: left) next)
        (ends { w with files } c .threw)
  | opened {c i token made next} :
      Leads message w (.makeToken c i token made [] next)
        (goes { w with files := w.files.write token.dir token.name "" } (.set c next))
  | openedToWrite {c i token made next path} (hrequest : c.request = .setHomeNode path) :
      Leads message w (.makeToken c i token made [] next)
        (goes { w with files := w.files.write token.dir token.name "" }
          (.writeToken c i token next))
  | written {c i token next} : Leads message w (.writeToken c i token next)
      (goes { w with files := overwrite w.files token ((hostname i).name ++ "\n") } (.set c next))
  | lookedAll {c} : Leads message w (.look c []) (ends w c (.flag false))
  | found {c i next} (hfound : found (w.committedFiles i) c.request.path = true) :
      Leads message w (.look c (.multicast i :: next)) (ends w c (.flag true))
  | missed {c i next} (hmissed : found (w.committedFiles i) c.request.path ≠ true) :
      Leads message w (.look c (.multicast i :: next)) (goes w (.query c i next))
  | lookedNowhere {c i next} (htoken : c.request.token cwd = none) :
      Leads message w (.look c (.fileSystem i :: next)) (ends w c .threw)
  | foundToken {c i next token} (htoken : c.request.token cwd = some token)
      (hexists : tokenExists w.files token = true) :
      Leads message w (.look c (.fileSystem i :: next)) (ends w c (.flag true))
  | missedToken {c i next token} (htoken : c.request.token cwd = some token)
      (hmissed : tokenExists w.files token ≠ true) :
      Leads message w (.look c (.fileSystem i :: next)) (goes w (.look c next))
  | asked {c i next} : Leads message w (.query c i next)
      (goes (w.send hostname i c.request) (.lookAgain c i next))
  | foundAgain {c i next} (hfound : found (w.committedFiles i) c.request.path = true) :
      Leads message w (.lookAgain c i next) (ends w c (.flag true))
  | missedAgain {c i next} : Leads message w (.lookAgain c i next) (goes w (.look c next))
  | collectedAll {c answers} : Leads message w (.collect c answers [])
      (ends w c (.hosts (Monitor.collect answers)))
  | recorded {c answers i next node} (hnode : w.homeNodes i c.request.path = some node) :
      Leads message w (.collect c answers (.multicast i :: next))
        (goes w (.collect c (answers ++ [node]) next))
  | unrecorded {c answers i next} (hnone : w.homeNodes i c.request.path = none) :
      Leads message w (.collect c answers (.multicast i :: next))
        (goes w (.queryHomeNode c answers i next))
  | collectedNowhere {c answers i next} (htoken : c.request.token cwd = none) :
      Leads message w (.collect c answers (.fileSystem i :: next)) (ends w c .threw)
  | tokenRead {c answers i next token node} (htoken : c.request.token cwd = some token)
      (hnode : node = (w.answered i c.request.path).getD (lookupHomeNode w.files token)) :
      Leads message w (.collect c answers (.fileSystem i :: next))
        (goes
          { w with answered := Function.update w.answered i
                    (Function.update (w.answered i) c.request.path (some node)) }
          (.collect c (answers ++ [node]) next))
  | askedHomeNode {c answers i next} : Leads message w (.queryHomeNode c answers i next)
      (goes (w.send hostname i c.request) (.collectAgain c answers i next))
  | collectedAgain {c answers i next} : Leads message w (.collectAgain c answers i next)
      (goes w (.collect c (answers ++ [(w.homeNodes i c.request.path).getD noHomeNode]) next))
  | commitHeard {i} (hmem : message ∈ w.commitMessages) : Leads message w (.commitListener i)
      (goes (w.receiveCommit i message) (.commitListener i))
  | commitUnheard {i} : Leads message w (.commitListener i) (goes w (.commitListener i))
  | homeNodeHeard {i table reply} (hmem : message ∈ w.homeNodeMessages)
      (hlistener : MulticastMonitor.homeNodeListener (hostname i) (w.homeNodes i) message =
        some (table, reply)) :
      Leads message w (.homeNodeListener i)
        (goes { w with homeNodes := Function.update w.homeNodes i table
                       homeNodeMessages := reply.toList ++ w.homeNodeMessages }
          (.homeNodeListener i))
  | homeNodeFault {i} (hmem : message ∈ w.homeNodeMessages)
      (hlistener : MulticastMonitor.homeNodeListener (hostname i) (w.homeNodes i) message = none) :
      Leads message w (.homeNodeListener i) { shared := w }
  | homeNodeUnheard {i} : Leads message w (.homeNodeListener i) (goes w (.homeNodeListener i))
  | lost : Leads message w .network
      (goes { w with commitMessages := w.commitMessages.erase message
                     homeNodeMessages := w.homeNodeMessages.erase message } .network)

/-- **What a step can do.** -/
theorem leads_section (message : String) (stage : Stage ι) (w : World ι) :
    Leads cwd hostname message w stage (stage.section cwd hostname message w) := by
  unfold Stage.section
  cases stage with
  | call c =>
    dsimp only
    split
    · rename_i hrequest
      exact .beginSet (hrequest ▸ trivial)
    · rename_i hrequest
      exact .beginSet (hrequest ▸ trivial)
    · rename_i hrequest
      exact .beginLook hrequest
    · rename_i hrequest
      exact .beginCollect hrequest
  | set c next =>
    dsimp only
    unfold Monitor.set
    split
    · exact .setAll
    · exact .sent
    · split
      · exact .setNowhere ‹_›
      · split
        · exact .tokenExists ‹_› ‹_›
        · exact .tokenMissing ‹_›
  | makeToken c i token made left next =>
    dsimp only
    unfold Monitor.makeToken
    split
    · split
      · exact .openedToWrite ‹_›
      · exact .opened
    · split
      rename_i files through hmkdirs
      cases through with
      | true => exact .directoryMade hmkdirs
      | false => exact .directoryFailed hmkdirs
  | look c next =>
    dsimp only
    unfold Monitor.look
    split
    · exact .lookedAll
    · split
      · exact .found ‹_›
      · exact .missed ‹_›
    · split
      · exact .lookedNowhere ‹_›
      · split
        · exact .foundToken ‹_› ‹_›
        · exact .missedToken ‹_› ‹_›
  | lookAgain c i next =>
    dsimp only
    split
    · exact .foundAgain ‹_›
    · exact .missedAgain
  | collect c answers next =>
    dsimp only
    unfold Monitor.collectNodes
    split
    · exact .collectedAll
    · split
      · exact .recorded ‹_›
      · exact .unrecorded ‹_›
    · split
      · exact .collectedNowhere ‹_›
      · exact .tokenRead ‹_› rfl
  | commitListener i =>
    dsimp only
    split
    · exact .commitHeard ‹_›
    · exact .commitUnheard
  | homeNodeListener i =>
    dsimp only
    split
    · split
      · exact .homeNodeHeard ‹_› ‹_›
      · exact .homeNodeFault ‹_› ‹_›
    · exact .homeNodeUnheard
  | store c i next => exact .stored
  | writeToken c i token next => exact .written
  | query c i next => exact .asked
  | queryHomeNode c answers i next => exact .askedHomeNode
  | collectAgain c answers i next => exact .collectedAgain
  | network => exact .lost

end Step

/-! ## Threads -/

/-- A thread: of a program that calls monitors, or one of those behind the scenes. -/
inductive Thread (ι : Type) where
  | calls (cs : List (Call ι))
  | commitListener (i : ι)
  | homeNodeListener (i : ι)
  | network

def Thread.stages : Thread ι → List (Stage ι)
  | .calls cs => cs.map .call
  | .commitListener i => [.commitListener i]
  | .homeNodeListener i => [.homeNodeListener i]
  | .network => [.network]

/-- The beginning: nothing is sent or recorded, and `t` are the files. -/
def start {θ : Type} (t : FileTree) (threads : θ → Thread ι) :
    Config θ (Stage ι) (World ι) (Event ι) :=
  { shared := { files := t }, pending := fun i => (threads i).stages }

/-- What the threads have come to before the `n`-th step of a schedule. -/
abbrev stepsAt {θ : Type} [DecidableEq θ] [DecidableEq ι] (cwd : String) (hostname : ι → HostName)
    (t : FileTree) (threads : θ → Thread ι) (schedule : List (θ × String)) (n : Nat) :
    Config θ (Stage ι) (World ι) (Event ι) :=
  configAt (Stage.section cwd hostname) (start t threads) schedule n

/-- Nothing is asked of threads. -/
theorem keeps_plain [DecidableEq ι] (cwd : String) (hostname : ι → HostName) :
    Keeps (Stage.section cwd hostname) (fun _ => True) fun _ => True :=
  ⟨fun _ _ _ _ _ => trivial, fun _ _ _ _ _ _ _ => trivial⟩

/-- A text of a request fits into a message, and a home node message has one token for the path. -/
def Request.Fits : Request → Prop
  | .setCommitted path => Admitted path
  | .isCommitted path => Admitted path
  | .setHomeNode path => OneToken path
  | .getHomeNode path => OneToken path

/-- The paths that multicast backends are given fit into messages. -/
def Call.Fits (c : Call ι) : Prop := (∃ i, .multicast i ∈ c.interfaces) → c.request.Fits

end Monitor

end CapioCl
