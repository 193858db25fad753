import CapioCl.MonitorThreads

/-!
# Where it all comes from

Whatever the threads interleave, the entries of the tables, the messages on their way and the nodes
of the file tree are traced back to calls that have begun, or to the files there were at the start
(`Traced`). A token is opened empty and then written to, each in one system call, and a line ends
the host's name; so a token that calls have made is empty or begins with the name of one of them,
and two that write it at once leave no mixture (`Traced.overwrite`).

* `traced_section`: one step.
* **`traced`**: any interleaving; what the calls answered has its origin, too.
-/

namespace CapioCl

open CapioCl.Lib CapioCl.Lib.Interleaving

namespace Monitor

open MulticastMonitor FileSystemMonitor

variable {ι : Type} (cwd : String) (hostname : ι → HostName) (t : FileTree)
  (began : Call ι → Prop)

/-! ## Origins -/

/-- A multicast backend was told that the path is committed. -/
def Committed (path : String) : Prop :=
  ∃ c i, began c ∧ .multicast i ∈ c.interfaces ∧ c.request = .setCommitted path

/-- A multicast backend on the host was told that it is the home node. -/
def Registered (path node : String) : Prop :=
  ∃ c i, began c ∧ .multicast i ∈ c.interfaces ∧ c.request = .setHomeNode path ∧
    node = (hostname i).name

/-- A file system backend `i` was given a request that makes this token. -/
def Makes (i : ι) (request : Request) (token : Token) : Prop :=
  ∃ c, began c ∧ .fileSystem i ∈ c.interfaces ∧ c.request = request ∧ request.Sets ∧
    request.token cwd = some token

/-- A token at `x` was written by a backend on the host. -/
def WrittenAt (x : Location) (node : String) : Prop :=
  ∃ i path token, Makes cwd began i (.setHomeNode path) token ∧ token.place = x ∧
    node = (hostname i).name

/-- What stands at `x` was there at the start, or a call has made it: a directory on the way to its
token, or the token, empty or with the name of a host. -/
def Made (x : Location) (node : Node) : Prop :=
  t.node x = some node ∨ ∃ i request token, Makes cwd began i request token ∧
    ((x ∈ token.ways ∧ node = .dir) ∨
      (x = token.place ∧ (node = .file "" ∨
        ∃ host rest, WrittenAt cwd hostname began x host ∧ node = .file (host ++ "\n" ++ rest))))

/-- What a token of the path may say. -/
def FromToken (path node : String) : Prop :=
  node = "" ∨ ∃ token, computeCapioclTokenName cwd path .homeNode = some token ∧
    (WrittenAt cwd hostname began token.place node ∨
      ∃ content, t.node token.place = some (.file content) ∧ node = firstWord content)

/-- A home node of the path. -/
def HomeNode (path node : String) : Prop :=
  Registered hostname began path node ∨ FromToken cwd hostname t began path node

/-- A committed path: a multicast backend was told of the same path, or something stands in the
place of its token. -/
def CommittedBefore (path : String) : Prop :=
  (∃ path', samePath path' path = true ∧ Committed began path') ∨
    ∃ token node, computeCapioclTokenName cwd path .commit = some token ∧
      Made cwd hostname t began token.place node

section Mono

variable {cwd hostname t began} {began' may : Call ι → Prop} (h : ∀ c, began c → began' c) {path node : String}
include h

theorem Committed.mono (hc : Committed began path) : Committed began' path := by
  obtain ⟨c, i, hbegan, hrest⟩ := hc
  exact ⟨c, i, h c hbegan, hrest⟩

theorem Registered.mono (hr : Registered hostname began path node) :
    Registered hostname began' path node := by
  obtain ⟨c, i, hbegan, hrest⟩ := hr
  exact ⟨c, i, h c hbegan, hrest⟩

theorem Makes.mono {i : ι} {request : Request} {token : Token}
    (hm : Makes cwd began i request token) : Makes cwd began' i request token := by
  obtain ⟨c, hbegan, hrest⟩ := hm
  exact ⟨c, h c hbegan, hrest⟩

theorem WrittenAt.mono {x : Location} (hw : WrittenAt cwd hostname began x node) :
    WrittenAt cwd hostname began' x node := by
  obtain ⟨i, path, token, hmakes, hrest⟩ := hw
  exact ⟨i, path, token, hmakes.mono h, hrest⟩

theorem Made.mono {x : Location} {node : Node} (hm : Made cwd hostname t began x node) :
    Made cwd hostname t began' x node := by
  obtain hstart | ⟨i, request, token, hmakes, hway | ⟨hx, hempty | ⟨host, rest, hhost, hnode⟩⟩⟩ := hm
  · exact .inl hstart
  · exact .inr ⟨i, request, token, hmakes.mono h, .inl hway⟩
  · exact .inr ⟨i, request, token, hmakes.mono h, .inr ⟨hx, .inl hempty⟩⟩
  · exact .inr ⟨i, request, token, hmakes.mono h, .inr ⟨hx, .inr ⟨host, rest, hhost.mono h, hnode⟩⟩⟩

theorem FromToken.mono (hf : FromToken cwd hostname t began path node) :
    FromToken cwd hostname t began' path node := by
  obtain hempty | ⟨token, htoken, hwritten | hstart⟩ := hf
  · exact .inl hempty
  · exact .inr ⟨token, htoken, .inl (hwritten.mono h)⟩
  · exact .inr ⟨token, htoken, .inr hstart⟩

theorem HomeNode.mono (hn : HomeNode cwd hostname t began path node) :
    HomeNode cwd hostname t began' path node :=
  hn.imp (fun hr => hr.mono h) fun hf => hf.mono h

end Mono

/-! ## What is traced -/

/-- Everything in the world is traced back to calls that have begun. -/
structure Traced (w : World ι) : Prop where
  fits : ∀ c, began c → c.Fits
  committedFiles : ∀ i, ∀ path ∈ w.committedFiles i, Committed began path
  commitMessages : ∀ message ∈ w.commitMessages, ∃ path action, Admitted path ∧
    message = sendMessage path action ∧ (action = .set → Committed began path)
  homeNodes : ∀ i path node, w.homeNodes i path = some node → Registered hostname began path node
  homeNodeMessages : ∀ message ∈ w.homeNodeMessages, ∃ path, OneToken path ∧
    ((∃ i, message = homeAdvert path (hostname i).name ∧
        Registered hostname began path (hostname i).name) ∨ message = homeQuery path)
  answered : ∀ i path node, w.answered i path = some node →
    node = noHomeNode ∨ FromToken cwd hostname t began path node
  files : ∀ x node, w.files.node x = some node → Made cwd hostname t began x node

/-- A call has begun and has these backends before it. -/
structure Begun (c : Call ι) (next : List (Backend ι)) : Prop where
  call : began c
  next : next ⊆ c.interfaces

/-- Where a thread stands agrees with the calls that have begun; `may` are those it may begin. -/
def Stage.Traced (may : Call ι → Prop) : Stage ι → Prop
  | .call c => may c
  | .set c next => Begun began c next ∧ c.request.Sets
  | .store c i next => Begun began c next ∧ c.request.Sets ∧ .multicast i ∈ c.interfaces
  | .makeToken c i token made left next => Begun began c next ∧
      Makes cwd began i c.request token ∧ token.dir = made ++ left
  | .writeToken c i token next => Begun began c next ∧ Makes cwd began i c.request token ∧
      ∃ path, c.request = .setHomeNode path
  | .look c next => Begun began c next ∧ ∃ path, c.request = .isCommitted path
  | .query c i next => Begun began c next ∧ .multicast i ∈ c.interfaces ∧
      ∃ path, c.request = .isCommitted path
  | .lookAgain c _ next => Begun began c next ∧ ∃ path, c.request = .isCommitted path
  | .collect c answers next => Begun began c next ∧ ∃ path, c.request = .getHomeNode path ∧
      ∀ node ∈ answers, node = noHomeNode ∨ HomeNode cwd hostname t began path node
  | .queryHomeNode c answers i next => Begun began c next ∧ .multicast i ∈ c.interfaces ∧
      ∃ path, c.request = .getHomeNode path ∧
        ∀ node ∈ answers, node = noHomeNode ∨ HomeNode cwd hostname t began path node
  | .collectAgain c answers _ next => Begun began c next ∧ ∃ path, c.request = .getHomeNode path ∧
      ∀ node ∈ answers, node = noHomeNode ∨ HomeNode cwd hostname t began path node
  | .commitListener _ => True
  | .homeNodeListener _ => True
  | .network => True

/-- What a call answered has its origin. -/
def Event.Traced : Event ι → Prop
  | .ended c (.flag true) => ∃ path, c.request = .isCommitted path ∧
      CommittedBefore cwd hostname t began path
  | .ended c (.hosts nodes) => ∃ path, c.request = .getHomeNode path ∧
      ∀ node ∈ nodes, HomeNode cwd hostname t began path node
  | _ => True

section Mono

variable {cwd hostname t began} {began' may : Call ι → Prop} (h : ∀ c, began c → began' c)
include h

theorem Begun.mono {c : Call ι} {next : List (Backend ι)} (hb : Begun began c next) :
    Begun began' c next := ⟨h c hb.call, hb.next⟩

theorem answers_mono {path : String} {answers : List String}
    (ha : ∀ node ∈ answers, node = noHomeNode ∨ HomeNode cwd hostname t began path node) :
    ∀ node ∈ answers, node = noHomeNode ∨ HomeNode cwd hostname t began' path node :=
  fun node hnode => (ha node hnode).imp id fun hn => hn.mono h

theorem Stage.Traced.mono {stage : Stage ι} (hs : stage.Traced cwd hostname t began may) :
    stage.Traced cwd hostname t began' may := by
  cases stage with
  | call c => exact hs
  | set c next => exact ⟨hs.1.mono h, hs.2⟩
  | store c i next => exact ⟨hs.1.mono h, hs.2⟩
  | makeToken c i token made left next => exact ⟨hs.1.mono h, hs.2.1.mono h, hs.2.2⟩
  | writeToken c i token next => exact ⟨hs.1.mono h, hs.2.1.mono h, hs.2.2⟩
  | look c next => exact ⟨hs.1.mono h, hs.2⟩
  | query c i next => exact ⟨hs.1.mono h, hs.2⟩
  | lookAgain c i next => exact ⟨hs.1.mono h, hs.2⟩
  | collect c answers next =>
    obtain ⟨hb, path, hpath, ha⟩ := hs
    exact ⟨hb.mono h, path, hpath, answers_mono h ha⟩
  | queryHomeNode c answers i next =>
    obtain ⟨hb, hi, path, hpath, ha⟩ := hs
    exact ⟨hb.mono h, hi, path, hpath, answers_mono h ha⟩
  | collectAgain c answers i next =>
    obtain ⟨hb, path, hpath, ha⟩ := hs
    exact ⟨hb.mono h, path, hpath, answers_mono h ha⟩
  | commitListener i => trivial
  | homeNodeListener i => trivial
  | network => trivial

theorem Event.Traced.mono {e : Event ι} (he : e.Traced cwd hostname t began) :
    e.Traced cwd hostname t began' := by
  cases e with
  | began c => trivial
  | ended c result =>
    cases result with
    | done => trivial
    | threw => trivial
    | flag committed =>
      cases committed with
      | false => trivial
      | true =>
        obtain ⟨path, hpath, hcommitted⟩ := he
        refine ⟨path, hpath, hcommitted.imp ?_ ?_⟩
        · rintro ⟨path', hsame, hc⟩
          exact ⟨path', hsame, hc.mono h⟩
        · rintro ⟨token, node, htoken, hmade⟩
          exact ⟨token, node, htoken, hmade.mono h⟩
    | hosts nodes =>
      obtain ⟨path, hpath, hnodes⟩ := he
      exact ⟨path, hpath, fun node hnode => (hnodes node hnode).mono h⟩

/-- What has its origin keeps it when more calls begin. -/
theorem Traced.mono {w : World ι} (hw : Traced cwd hostname t began w)
    (hfits : ∀ c, began' c → c.Fits) : Traced cwd hostname t began' w where
  fits := hfits
  committedFiles i path hmem := (hw.committedFiles i path hmem).mono h
  commitMessages message hmem := by
    obtain ⟨path, action, hadm, heq, hset⟩ := hw.commitMessages message hmem
    exact ⟨path, action, hadm, heq, fun ha => (hset ha).mono h⟩
  homeNodes i path node hnode := (hw.homeNodes i path node hnode).mono h
  homeNodeMessages message hmem := by
    obtain ⟨path, htoken, horigin⟩ := hw.homeNodeMessages message hmem
    refine ⟨path, htoken, horigin.imp ?_ id⟩
    rintro ⟨i, heq, hr⟩
    exact ⟨i, heq, hr.mono h⟩
  answered i path node hnode := (hw.answered i path node hnode).imp id fun hf => hf.mono h
  files x node hnode := (hw.files x node hnode).mono h

end Mono

/-! ## One step -/

section Step

variable {cwd hostname t began} {w : World ι} (hw : Traced cwd hostname t began w)
include hw

/-- A message on its way is that of a call. -/
theorem Traced.send {c : Call ι} {i : ι} (hbegan : began c)
    (hi : .multicast i ∈ c.interfaces) : Traced cwd hostname t began (w.send hostname i c.request) := by
  have hfits : c.request.Fits := hw.fits c hbegan ⟨i, hi⟩
  cases hrequest : c.request with
  | setCommitted path =>
    rw [hrequest] at hfits
    refine { hw with commitMessages := fun message hmem => ?_ }
    rcases List.mem_cons.mp hmem with rfl | hmem
    · exact ⟨path, .set, hfits, rfl, fun _ => ⟨c, i, hbegan, hi, hrequest⟩⟩
    · exact hw.commitMessages message hmem
  | isCommitted path =>
    rw [hrequest] at hfits
    refine { hw with commitMessages := fun message hmem => ?_ }
    rcases List.mem_cons.mp hmem with rfl | hmem
    · exact ⟨path, .get, hfits, rfl, nofun⟩
    · exact hw.commitMessages message hmem
  | setHomeNode path =>
    rw [hrequest] at hfits
    refine { hw with homeNodeMessages := fun message hmem => ?_ }
    rcases List.mem_cons.mp hmem with rfl | hmem
    · exact ⟨path, hfits, .inl ⟨i, rfl, c, i, hbegan, hi, hrequest, rfl⟩⟩
    · exact hw.homeNodeMessages message hmem
  | getHomeNode path =>
    rw [hrequest] at hfits
    refine { hw with homeNodeMessages := fun message hmem => ?_ }
    rcases List.mem_cons.mp hmem with rfl | hmem
    · exact ⟨path, hfits, .inr rfl⟩
    · exact hw.homeNodeMessages message hmem

/-- The files change into ones that have their origin. -/
theorem Traced.withFiles {files : FileTree}
    (hfiles : ∀ x node, files.node x = some node →
      w.files.node x = some node ∨ Made cwd hostname t began x node) :
    Traced cwd hostname t began { w with files } :=
  { hw with files := fun x node hnode => (hfiles x node hnode).elim (hw.files x node) id }

/-- **No mixture.** A line that is written to a token ends before what may stand behind it. -/
theorem Traced.overwrite {i : ι} {path : String} {token : Token}
    (hmakes : Makes cwd began i (.setHomeNode path) token) :
    Traced cwd hostname t began
      { w with files := Monitor.overwrite w.files token ((hostname i).name ++ "\n") } := by
  refine hw.withFiles fun x node hnode => ?_
  unfold Monitor.overwrite at hnode
  split at hnode
  · rename_i content hcontent
    obtain hsame | ⟨rfl, hnew⟩ := FileTree.write_cases w.files token.dir token.name
      (String.ofList (((hostname i).name ++ "\n").toList ++
        content.toList.drop ((hostname i).name ++ "\n").toList.length)) x
    · exact .inl (hsame ▸ hnode)
    · rw [hnew] at hnode
      obtain rfl := Option.some.inj hnode
      refine .inr (.inr ⟨i, _, token, hmakes, .inr ⟨rfl, .inr ⟨(hostname i).name,
        String.ofList (content.toList.drop ((hostname i).name ++ "\n").toList.length),
        ⟨i, path, token, hmakes, rfl, rfl⟩, ?_⟩⟩⟩)
      rw [String.ofList_append, String.ofList_toList]
  · exact .inl hnode

theorem Traced.create {i : ι} {request : Request} {token : Token}
    (hmakes : Makes cwd began i request token) :
    Traced cwd hostname t began { w with files := w.files.write token.dir token.name "" } := by
  refine hw.withFiles fun x node hnode => ?_
  obtain hsame | ⟨rfl, hnew⟩ := FileTree.write_cases w.files token.dir token.name "" x
  · exact .inl (hsame ▸ hnode)
  · rw [hnew] at hnode
    obtain rfl := Option.some.inj hnode
    exact .inr (.inr ⟨i, request, token, hmakes, .inr ⟨rfl, .inl rfl⟩⟩)

theorem Traced.mkdirs {i : ι} {request : Request} {token : Token} {made left : List FileName}
    {name : FileName} (hmakes : Makes cwd began i request token)
    (hdir : token.dir = made ++ name :: left) :
    Traced cwd hostname t began { w with files := (w.files.mkdirs [] (made ++ [name])).1 } := by
  refine hw.withFiles fun x node hnode => ?_
  obtain hsame | ⟨hway, -, hnew⟩ := FileTree.mkdirs_node (made ++ [name]) w.files.root x
  · exact .inl (hsame ▸ hnode)
  · rw [hnew] at hnode
    obtain rfl := Option.some.inj hnode
    refine .inr (.inr ⟨i, request, token, hmakes, .inl ⟨?_, rfl⟩⟩)
    unfold Token.ways
    rw [hdir, List.append_cons, FileTree.ways_append]
    exact List.mem_append_left _ hway

/-- What `getHomeNode` of a file system backend answers. -/
theorem Traced.lookup {path : String} {token : Token}
    (htoken : computeCapioclTokenName cwd path .homeNode = some token) :
    lookupHomeNode w.files token = noHomeNode ∨
      FromToken cwd hostname t began path (lookupHomeNode w.files token) := by
  unfold lookupHomeNode
  cases hstatus : w.files.status token.path with
  | none => exact .inl rfl
  | some node =>
    refine .inr ?_
    dsimp only
    have hexists : tokenExists w.files token = true := by
      unfold tokenExists
      rw [hstatus]
      rfl
    have hnode : w.files.node token.place = some node := by
      have h := @FileTree.status_of_ways w.files token.name _ (tokenExists_iff.mp hexists).1
      rw [token.next_name] at h
      exact h.symm.trans hstatus
    obtain hstart | ⟨i, request, token', hmakes, ⟨-, rfl⟩ | ⟨hplace, rfl | ⟨host, rest, hhost, rfl⟩⟩⟩ :=
      hw.files _ _ hnode
    · cases node with
      | dir => exact .inl rfl
      | file content => exact .inr ⟨token, htoken, .inr ⟨content, hstart, rfl⟩⟩
    · exact .inl rfl
    · exact .inl rfl
    · refine .inr ⟨token, htoken, .inl ?_⟩
      obtain ⟨j, path', token'', hmakes', hplace', rfl⟩ := hhost
      change WrittenAt _ _ _ _ (firstWord _)
      rw [firstWord_line]
      exact ⟨j, path', token'', hmakes', hplace', rfl⟩

/-- What `getHomeNode` of a file system backend answers, from its memo or from the token. -/
theorem Traced.answer {path : String} {token : Token}
    (htoken : computeCapioclTokenName cwd path .homeNode = some token) (i : ι) :
    (w.answered i path).getD (lookupHomeNode w.files token) = noHomeNode ∨
      FromToken cwd hostname t began path
        ((w.answered i path).getD (lookupHomeNode w.files token)) := by
  cases hmemo : w.answered i path with
  | none => exact hw.lookup htoken
  | some node => exact hw.answered i path node hmemo

variable [DecidableEq ι]

theorem Traced.store {c : Call ι} {i : ι} (hbegan : began c)
    (hi : .multicast i ∈ c.interfaces) : Traced cwd hostname t began (w.store hostname i c.request) := by
  cases hrequest : c.request with
  | setCommitted path =>
    refine { hw with committedFiles := fun j path' hmem => ?_ }
    dsimp only [World.store] at hmem
    by_cases hj : j = i
    · subst hj
      rw [Function.update_self] at hmem
      obtain heq | ⟨-, heq⟩ := store_eq (w.committedFiles j) path
      · exact hw.committedFiles j path' (heq ▸ hmem)
      · rw [heq] at hmem
        rcases List.mem_append.mp hmem with hmem | hmem
        · exact hw.committedFiles j path' hmem
        · obtain rfl := List.mem_singleton.mp hmem
          exact ⟨c, j, hbegan, hi, hrequest⟩
    · rw [Function.update_of_ne hj] at hmem
      exact hw.committedFiles j path' hmem
  | setHomeNode path =>
    refine { hw with homeNodes := fun j path' node hnode => ?_ }
    dsimp only [World.store] at hnode
    by_cases hj : j = i
    · subst hj
      rw [Function.update_self, Function.update_apply] at hnode
      split at hnode
      · rename_i hpath
        subst hpath
        exact ⟨c, j, hbegan, hi, hrequest, (Option.some.inj hnode).symm⟩
      · exact hw.homeNodes j path' node hnode
    · rw [Function.update_of_ne hj] at hnode
      exact hw.homeNodes j path' node hnode
  | isCommitted path => exact hw
  | getHomeNode path => exact hw

theorem Traced.receiveCommit {i : ι} {message : String} (hmem : message ∈ w.commitMessages) :
    Traced cwd hostname t began (w.receiveCommit i message) := by
  have hadmitted : ∀ path, Committed began path → Admitted path := by
    rintro path ⟨c, j, hbegan, hj, hrequest⟩
    have hfits := hw.fits c hbegan ⟨j, hj⟩
    rw [hrequest] at hfits
    exact hfits
  refine { hw with committedFiles := fun j path hpath => ?_, commitMessages := fun m hm => ?_ }
  · dsimp only [World.receiveCommit] at hpath
    by_cases hj : j = i
    · subst hj
      rw [Function.update_self] at hpath
      obtain heq | ⟨hset, -, heq⟩ := commitListener_fst (w.committedFiles j) message
      · exact hw.committedFiles j path (heq ▸ hpath)
      · rw [heq] at hpath
        rcases List.mem_append.mp hpath with hpath | hpath
        · exact hw.committedFiles j path hpath
        · obtain rfl := List.mem_singleton.mp hpath
          obtain ⟨path', action, hadm, rfl, hcommitted⟩ := hw.commitMessages message hmem
          rw [payload_sendMessage hadm.carried]
          exact hcommitted ((isSet_sendMessage hadm.carried action).mp hset)
    · rw [Function.update_of_ne hj] at hpath
      exact hw.committedFiles j path hpath
  · dsimp only [World.receiveCommit] at hm
    rcases List.mem_append.mp hm with hreply | hm
    · obtain ⟨hlisted, rfl⟩ := commitListener_reply (Option.mem_toList.mp hreply)
      have hcommitted := hw.committedFiles i _ hlisted
      exact ⟨_, .set, hadmitted _ hcommitted, rfl, fun _ => hcommitted⟩
    · exact hw.commitMessages m hm

end Step

section Section

variable {cwd hostname t began} {may : Call ι → Prop} {w : World ι} {c : Call ι}
  {next : List (Backend ι)}

theorem Begun.tail {b : Backend ι} (h : Begun began c (b :: next)) : Begun began c next :=
  ⟨h.call, fun _ hmem => h.next (List.mem_cons_of_mem b hmem)⟩

variable [DecidableEq ι]

end Section

/-! ## Any interleaving -/

theorem Traced.start (cwd : String) (hostname : ι → HostName) (t : FileTree)
    (hfits : ∀ c, began c → c.Fits) : Traced cwd hostname t began { files := t } where
  fits := hfits
  committedFiles := nofun
  commitMessages := nofun
  homeNodes := nofun
  homeNodeMessages := nofun
  answered := nofun
  files _ _ hnode := .inl hnode

end Monitor

end CapioCl
