import CapioCl.Lib.Words
import CapioCl.Multicast

/-!
# `MulticastMonitor`: home nodes

`HomeNodeGroup ι` is a group of monitors on one multicast group, `hostname i` the host of monitor
`i`. A message reaches every monitor, its sender included, once and at any time; a call of
`setHomeNode` sends and later stores. `homeNodeListener` is `none` where the code reads `tokens`
past its end.

A table is overwritten by every advert, whatever its age, so two calls that overlap may leave two
processes with different hosts (`overlappingCalls_disagree`). Calls of one host that start when
everything sent before has arrived leave that host everywhere (`homeNodes_agree`).
-/

namespace CapioCl

open CapioCl.Lib.Runs CapioCl.Lib.Words

namespace MulticastMonitor

/-! ## Messages -/

/-- The tokens of a message: what stands between its blanks. -/
def tokens (message : String) : List String :=
  ((message.toList.splitOn ' ').filter fun token => token ≠ []).map String.ofList

/-- What `setHomeNode(path)` sends. -/
def homeAdvert (path host : String) : String := sendMessage (path ++ " " ++ host) .set

/-- What `getHomeNode(path)` sends when it has found nothing. -/
def homeQuery (path : String) : String := sendMessage path .get

/-- `home_node_listener` on a message: the table after it, and the reply. -/
def homeNodeListener (host : HostName) (homeNodes : String → Option String) (message : String) :
    Option ((String → Option String) × Option String) :=
  match tokens message with
  | command :: path :: rest =>
    if command.toList.head? = some Command.set.char then
      match rest with
      | homeNode :: _ => some (Function.update homeNodes path (some homeNode), none)
      | [] => none
    else
      some (homeNodes, if homeNodes path = some host.name then some (homeAdvert path host.name)
        else none)
  | _ => none

/-- A path that stands in a message as one token. -/
structure OneToken (path : String) : Prop where
  admitted : Admitted path
  nonempty : path ≠ ""
  noBlank : ' ' ∉ path.toList

/-- The tokens of a message are those it was put together from. -/
theorem tokens_eq {message : String} {ws : List (List Char)} (hne : ws ≠ [])
    (h : message.toList = [' '].intercalate ws) (hwords : ∀ w ∈ ws, w ≠ [] ∧ ' ' ∉ w) :
    tokens message = ws.map String.ofList := by
  change (words ' ' message.toList).map String.ofList = _
  rw [h, words_intercalate hne hwords]

theorem toList_ne_nil {s : String} (h : s ≠ "") : s.toList ≠ [] :=
  fun e => h (String.toList_eq_nil_iff.mp e)

section OneToken

variable {path : String} (host : HostName)

theorem noBlank_hostName : ' ' ∉ host.name.toList := host.notMem rfl

/-- A path and a host that fit into a message. -/
theorem carried_advert (hsize : path.utf8ByteSize + host.name.utf8ByteSize + 4 ≤ messageSize)
    (hnul : '\x00' ∉ path.toList) : Carried (path ++ " " ++ host.name) := by
  have hblank : (" " : String).utf8ByteSize = 1 := rfl
  refine ⟨?_, ?_⟩
  · rw [String.utf8ByteSize_append, String.utf8ByteSize_append, hblank]
    omega
  · rw [String.toList_append, String.toList_append, List.mem_append, List.mem_append]
    rintro ((h | h) | h)
    · exact hnul h
    · exact absurd h (by decide)
    · exact host.notMem rfl h

theorem OneToken.carried (hpath : OneToken path) : Carried (path ++ " " ++ host.name) := by
  have hsize := hpath.admitted.1
  have hshort := host.short
  refine carried_advert host ?_ hpath.admitted.2
  unfold messageSize
  unfold pathMax at *
  unfold hostNameMax at hshort
  omega

theorem OneToken.tokens_homeAdvert (hpath : OneToken path) :
    tokens (homeAdvert path host.name) = ["!", path, host.name] := by
  have hwords : ∀ w ∈ [['!'], path.toList, host.name.toList], w ≠ [] ∧ ' ' ∉ w := by
    intro w hw
    simp only [List.mem_cons, List.not_mem_nil, or_false] at hw
    obtain rfl | rfl | rfl := hw
    · decide
    · exact ⟨toList_ne_nil hpath.nonempty, hpath.noBlank⟩
    · exact ⟨toList_ne_nil host.nonempty, noBlank_hostName host⟩
  have hlist : (homeAdvert path host.name).toList =
      [' '].intercalate [['!'], path.toList, host.name.toList] := by
    unfold homeAdvert
    rw [sendMessage_eq (hpath.carried host), String.toList_ofList, String.toList_append,
      String.toList_append]
    simp [Command.char]
  rw [tokens_eq (by simp) hlist hwords]
  simp

theorem OneToken.tokens_homeQuery (hpath : OneToken path) :
    tokens (homeQuery path) = ["?", path] := by
  have hwords : ∀ w ∈ [['?'], path.toList], w ≠ [] ∧ ' ' ∉ w := by
    intro w hw
    simp only [List.mem_cons, List.not_mem_nil, or_false] at hw
    obtain rfl | rfl := hw
    · decide
    · exact ⟨toList_ne_nil hpath.nonempty, hpath.noBlank⟩
  have hlist : (homeQuery path).toList = [' '].intercalate [['?'], path.toList] := by
    unfold homeQuery
    rw [sendMessage_eq hpath.admitted.carried, String.toList_ofList]
    simp [Command.char]
  rw [tokens_eq (by simp) hlist hwords]
  simp

/-- The listener on an advert. -/
theorem OneToken.listener_homeAdvert (hpath : OneToken path) (self : HostName)
    (homeNodes : String → Option String) :
    homeNodeListener self homeNodes (homeAdvert path host.name) =
      some (Function.update homeNodes path (some host.name), none) := by
  unfold homeNodeListener
  rw [hpath.tokens_homeAdvert host]
  simp [Command.char]

/-- The listener on a query. -/
theorem OneToken.listener_homeQuery (hpath : OneToken path)
    (homeNodes : String → Option String) :
    homeNodeListener host homeNodes (homeQuery path) =
      some (homeNodes, if homeNodes path = some host.name then some (homeAdvert path host.name)
        else none) := by
  unfold homeNodeListener
  rw [hpath.tokens_homeQuery]
  simp [Command.char]

end OneToken

/-- Adverts tell paths and hosts apart. -/
theorem homeAdvert_inj {path path' : String} {host host' : HostName} (hpath : OneToken path)
    (hpath' : OneToken path') (h : homeAdvert path host.name = homeAdvert path' host'.name) :
    path = path' ∧ host.name = host'.name := by
  have htokens := hpath.tokens_homeAdvert host
  rw [h, hpath'.tokens_homeAdvert host'] at htokens
  simp only [List.cons.injEq] at htokens
  exact ⟨htokens.2.1.symm, htokens.2.2.1.symm⟩

theorem homeQuery_inj {path path' : String} (hpath : OneToken path) (hpath' : OneToken path')
    (h : homeQuery path = homeQuery path') : path = path' := by
  have htokens := hpath.tokens_homeQuery
  rw [h, hpath'.tokens_homeQuery] at htokens
  simp only [List.cons.injEq] at htokens
  exact htokens.2.1.symm

theorem homeQuery_ne_homeAdvert {path path' : String} (hpath : OneToken path)
    (hpath' : OneToken path') (host : HostName) :
    homeQuery path ≠ homeAdvert path' host.name := by
  intro h
  have htokens := hpath.tokens_homeQuery
  rw [h, hpath'.tokens_homeAdvert host] at htokens
  simp at htokens

/-! ## The home node side of a group -/

/-- The tables of a group, the messages each monitor has still to receive, and the calls between
their two phases. -/
structure HomeNodeGroup (ι : Type) where
  homeNodes : ι → String → Option String := fun _ _ => none
  pending : ι → List String := fun _ => []
  storing : List (ι × String) := []

/-- What happens in a group: `setHomeNode` sends and later stores, a `getHomeNode` that has found
nothing asks, a listener receives. -/
inductive HomeNodeEvent (ι : Type) where
  | setHomeNode (i : ι) (path : String)
  | stored (i : ι) (path : String)
  | asked (i : ι) (path : String)
  | received (i : ι) (message : String)
  deriving Repr, DecidableEq

variable {ι : Type}

namespace HomeNodeGroup

/-- Messages for everyone. -/
def broadcast (s : HomeNodeGroup ι) (messages : List String) : HomeNodeGroup ι :=
  { s with pending := fun i => messages ++ s.pending i }

variable {s : HomeNodeGroup ι} {i j : ι} {message path host : String}

@[simp] theorem mem_broadcast {messages : List String} :
    message ∈ (s.broadcast messages).pending i ↔ message ∈ messages ∨ message ∈ s.pending i :=
  List.mem_append

variable [DecidableEq ι]

/-- A monitor has received a message. -/
def take (s : HomeNodeGroup ι) (i : ι) (message : String) : HomeNodeGroup ι :=
  { s with pending := Function.update s.pending i ((s.pending i).erase message) }

/-- The table of a monitor is replaced. -/
def setTable (s : HomeNodeGroup ι) (i : ι) (table : String → Option String) : HomeNodeGroup ι :=
  { s with homeNodes := Function.update s.homeNodes i table }

/-- `_home_nodes[path] = host` at a monitor. -/
def record (s : HomeNodeGroup ι) (i : ι) (path host : String) : HomeNodeGroup ι :=
  s.setTable i (Function.update (s.homeNodes i) path (some host))

theorem mem_of_mem_take {message' : String} (h : message' ∈ (s.take i message).pending j) :
    message' ∈ s.pending j := by
  by_cases hij : j = i
  · subst hij
    simp only [take, Function.update_self] at h
    exact List.mem_of_mem_erase h
  · simpa only [take, Function.update_of_ne hij] using h

theorem mem_take {message' : String} (h : message' ∈ s.pending j)
    (hne : ¬(j = i ∧ message' = message)) : message' ∈ (s.take i message).pending j := by
  by_cases hij : j = i
  · subst hij
    simp only [take, Function.update_self]
    exact (List.mem_erase_of_ne fun e => hne ⟨rfl, e⟩).mpr h
  · simpa only [take, Function.update_of_ne hij] using h

theorem record_homeNodes {path' : String} : (s.record i path host).homeNodes j path' =
    if j = i ∧ path' = path then some host else s.homeNodes j path' := by
  unfold record setTable
  by_cases hij : j = i
  · subst hij
    simp only [Function.update_self, true_and]
    rw [Function.update_apply]
  · simp only [Function.update_of_ne hij, hij, false_and, if_false]

end HomeNodeGroup

/-- Calls in progress are told apart by monitor and path. -/
local instance lawfulBEqCall [DecidableEq ι] : LawfulBEq (ι × String) := inferInstance

/-- One event; `none` when it cannot happen. -/
def stepHomeNode [DecidableEq ι] (hostname : ι → HostName) (s : HomeNodeGroup ι) :
    HomeNodeEvent ι → Option (HomeNodeGroup ι)
  | .setHomeNode i path =>
    some { s.broadcast [homeAdvert path (hostname i).name] with storing := (i, path) :: s.storing }
  | .stored i path =>
    if (i, path) ∈ s.storing then
      some { s.record i path (hostname i).name with storing := s.storing.erase (i, path) }
    else none
  | .asked _ path => some (s.broadcast [homeQuery path])
  | .received i message =>
    if message ∈ s.pending i then
      (homeNodeListener (hostname i) (s.homeNodes i) message).map fun (table, reply) =>
        ((s.take i message).setTable i table).broadcast reply.toList
    else none

/-- The paths of the calls stand in messages as one token. -/
def HomeNodeEvent.OneToken : HomeNodeEvent ι → Prop
  | .setHomeNode _ path | .asked _ path => MulticastMonitor.OneToken path
  | _ => True

/-- Every advert of the path has been delivered to every monitor, and no call for it is in
progress. -/
structure HomeNodeGroup.Settled (hostname : ι → HostName) (s : HomeNodeGroup ι) (path : String) :
    Prop where
  delivered : ∀ i j, homeAdvert path (hostname j).name ∉ s.pending i
  stored : ∀ i, (i, path) ∉ s.storing

/-- No query for the path is on its way. -/
def HomeNodeGroup.Unasked (s : HomeNodeGroup ι) (path : String) : Prop :=
  ∀ i, homeQuery path ∉ s.pending i

/-! ### What is sent -/

/-- Every message on its way is an advert or a query for one token, every call in progress is for
one token. -/
structure HomeNodeGroup.Sent (hostname : ι → HostName) (s : HomeNodeGroup ι) : Prop where
  pending : ∀ i, ∀ message ∈ s.pending i, ∃ path, OneToken path ∧
    ((∃ j, message = homeAdvert path (hostname j).name) ∨ message = homeQuery path)
  storing : ∀ i path, (i, path) ∈ s.storing → OneToken path

theorem HomeNodeGroup.Sent.empty (hostname : ι → HostName) :
    HomeNodeGroup.Sent hostname ({} : HomeNodeGroup ι) where
  pending := nofun
  storing := nofun

section Step

variable [DecidableEq ι] {hostname : ι → HostName} {s t : HomeNodeGroup ι} {e : HomeNodeEvent ι}

/-- What receiving an advert does, and what receiving a query does. -/
theorem HomeNodeGroup.Sent.received (hs : s.Sent hostname) {i : ι} {message : String}
    (h : stepHomeNode hostname s (.received i message) = some t) :
    message ∈ s.pending i ∧ ∃ path, OneToken path ∧
      ((∃ j, message = homeAdvert path (hostname j).name ∧
        t = (s.take i message).record i path (hostname j).name) ∨
      (message = homeQuery path ∧
        t = (s.take i message).broadcast (if s.homeNodes i path = some (hostname i).name
          then [homeAdvert path (hostname i).name] else []))) := by
  simp only [stepHomeNode, Option.ite_none_right_eq_some] at h
  obtain ⟨hmem, h⟩ := h
  refine ⟨hmem, ?_⟩
  obtain ⟨path, hpath, ⟨j, rfl⟩ | rfl⟩ := hs.pending i message hmem
  · rw [hpath.listener_homeAdvert, Option.map_some, Option.some_inj] at h
    exact ⟨path, hpath, .inl ⟨j, rfl, h.symm⟩⟩
  · rw [hpath.listener_homeQuery, Option.map_some, Option.some_inj] at h
    refine ⟨path, hpath, .inr ⟨rfl, ?_⟩⟩
    rw [← h]
    unfold HomeNodeGroup.setTable HomeNodeGroup.take
    rw [Function.update_eq_self]
    split <;> rfl

/-- A message was on its way before, or is that of the call, or the reply to a query by a monitor
that has recorded its own host. -/
theorem stepHomeNode_pending (hs : s.Sent hostname) (h : stepHomeNode hostname s e = some t)
    {i : ι} {message : String} (hmem : message ∈ t.pending i) : message ∈ s.pending i ∨
      (∃ j path, e = .setHomeNode j path ∧ message = homeAdvert path (hostname j).name) ∨
      (∃ j path, e = .asked j path ∧ message = homeQuery path) ∨
      ∃ j path, OneToken path ∧ homeQuery path ∈ s.pending j ∧
        s.homeNodes j path = some (hostname j).name ∧
        message = homeAdvert path (hostname j).name := by
  cases e with
  | setHomeNode j path =>
    cases h
    cases HomeNodeGroup.mem_broadcast.mp hmem with
    | inl hnew => exact .inr (.inl ⟨j, path, rfl, List.mem_singleton.mp hnew⟩)
    | inr hold => exact .inl hold
  | stored j path =>
    simp only [stepHomeNode, Option.ite_none_right_eq_some, Option.some_inj] at h
    obtain ⟨-, rfl⟩ := h
    exact .inl hmem
  | asked j path =>
    cases h
    cases HomeNodeGroup.mem_broadcast.mp hmem with
    | inl hnew => exact .inr (.inr (.inl ⟨j, path, rfl, List.mem_singleton.mp hnew⟩))
    | inr hold => exact .inl hold
  | received j m =>
    obtain ⟨hm, path, hpath, ⟨j', -, rfl⟩ | ⟨rfl, rfl⟩⟩ := hs.received h
    · exact .inl (HomeNodeGroup.mem_of_mem_take hmem)
    · cases HomeNodeGroup.mem_broadcast.mp hmem with
      | inl hreply =>
        split at hreply
        · rename_i hown
          exact .inr (.inr (.inr ⟨j, path, hpath, hm, hown, List.mem_singleton.mp hreply⟩))
        · exact nomatch hreply
      | inr hold => exact .inl (HomeNodeGroup.mem_of_mem_take hold)

/-- A message stays on its way until it is received. -/
theorem stepHomeNode_kept (hs : s.Sent hostname) (h : stepHomeNode hostname s e = some t) {i : ι}
    {message : String} (hmem : message ∈ s.pending i) :
    message ∈ t.pending i ∨ e = .received i message := by
  cases e with
  | setHomeNode j path =>
    cases h
    exact .inl (HomeNodeGroup.mem_broadcast.mpr (.inr hmem))
  | stored j path =>
    simp only [stepHomeNode, Option.ite_none_right_eq_some, Option.some_inj] at h
    obtain ⟨-, rfl⟩ := h
    exact .inl hmem
  | asked j path =>
    cases h
    exact .inl (HomeNodeGroup.mem_broadcast.mpr (.inr hmem))
  | received j m =>
    by_cases heq : i = j ∧ message = m
    · obtain ⟨rfl, rfl⟩ := heq
      exact .inr rfl
    · left
      have htake := HomeNodeGroup.mem_take hmem heq
      obtain ⟨-, path, -, ⟨j', -, rfl⟩ | ⟨-, rfl⟩⟩ := hs.received h
      · exact htake
      · exact HomeNodeGroup.mem_broadcast.mpr (.inr htake)

theorem stepHomeNode_storing (hs : s.Sent hostname) (h : stepHomeNode hostname s e = some t)
    {i : ι} {path : String} (hmem : (i, path) ∈ t.storing) :
    (i, path) ∈ s.storing ∨ e = .setHomeNode i path := by
  cases e with
  | setHomeNode j path' =>
    cases h
    cases List.mem_cons.mp hmem with
    | inl heq =>
      cases heq
      exact .inr rfl
    | inr hold => exact .inl hold
  | stored j path' =>
    simp only [stepHomeNode, Option.ite_none_right_eq_some, Option.some_inj] at h
    obtain ⟨-, rfl⟩ := h
    exact .inl (List.mem_of_mem_erase hmem)
  | asked j path' =>
    cases h
    exact .inl hmem
  | received j m =>
    obtain ⟨-, path', -, ⟨j', -, rfl⟩ | ⟨-, rfl⟩⟩ := hs.received h <;> exact .inl hmem

/-- A recorded host stays, or is overwritten by a call that stores or by an advert. -/
theorem stepHomeNode_homeNodes (hs : s.Sent hostname) (h : stepHomeNode hostname s e = some t)
    (i : ι) (path : String) : t.homeNodes i path = s.homeNodes i path ∨
      ∃ j, t.homeNodes i path = some (hostname j).name ∧
        ((j = i ∧ (i, path) ∈ s.storing) ∨
          homeAdvert path (hostname j).name ∈ s.pending i) := by
  cases e with
  | setHomeNode j path' =>
    cases h
    exact .inl rfl
  | stored j path' =>
    simp only [stepHomeNode, Option.ite_none_right_eq_some, Option.some_inj] at h
    obtain ⟨hmem, rfl⟩ := h
    simp only [HomeNodeGroup.record_homeNodes]
    split
    · rename_i heq
      obtain ⟨rfl, rfl⟩ := heq
      exact .inr ⟨i, rfl, .inl ⟨rfl, hmem⟩⟩
    · exact .inl rfl
  | asked j path' =>
    cases h
    exact .inl rfl
  | received j m =>
    obtain ⟨hm, path', -, ⟨j', rfl, rfl⟩ | ⟨-, rfl⟩⟩ := hs.received h
    · rw [HomeNodeGroup.record_homeNodes]
      split
      · rename_i heq
        obtain ⟨rfl, rfl⟩ := heq
        exact .inr ⟨j', rfl, .inr hm⟩
      · exact .inl rfl
    · exact .inl rfl

/-- An advert that is received is recorded. -/
theorem OneToken.received_homeAdvert {i : ι} {path : String} {host : HostName} (hpath : MulticastMonitor.OneToken path)
    (h : stepHomeNode hostname s (.received i (homeAdvert path host.name)) = some t) :
    t.homeNodes i path = some host.name := by
  simp only [stepHomeNode, Option.ite_none_right_eq_some] at h
  obtain ⟨-, h⟩ := h
  rw [hpath.listener_homeAdvert, Option.map_some, Option.some_inj] at h
  rw [← h]
  simp [HomeNodeGroup.setTable, HomeNodeGroup.broadcast]

/-- What is sent is sent well. -/
theorem HomeNodeGroup.Sent.step (hs : s.Sent hostname) (he : e.OneToken)
    (h : stepHomeNode hostname s e = some t) : t.Sent hostname where
  pending := by
    intro i message hmem
    obtain hold | ⟨j, path, rfl, rfl⟩ | ⟨j, path, rfl, rfl⟩ | ⟨j, path, hpath, -, -, rfl⟩ :=
      stepHomeNode_pending hs h hmem
    · exact hs.pending i message hold
    · exact ⟨path, he, .inl ⟨j, rfl⟩⟩
    · exact ⟨path, he, .inr rfl⟩
    · exact ⟨path, hpath, .inl ⟨j, rfl⟩⟩
  storing := by
    intro i path hmem
    cases stepHomeNode_storing hs h hmem with
    | inl hold => exact hs.storing i path hold
    | inr heq =>
      subst heq
      exact he

theorem HomeNodeGroup.Sent.run {events : List (HomeNodeEvent ι)} (hs : s.Sent hostname)
    (he : ∀ e ∈ events, e.OneToken) (h : exec (stepHomeNode hostname) s events = some t) :
    t.Sent hostname :=
  exec_induction (I := fun _ m => m.Sent hostname) (stepHomeNode hostname) hs
    (fun _ _ _ _ hm he h => hm.step he h) he h

/-! ### Calls of one host -/

/-- What holds while only `home` is being registered for a path: it is the host of every advert
and every call, and once registered each monitor has recorded it or has still to receive it. -/
structure Registering (hostname : ι → HostName) (path : String) (home : HostName)
    (past : List (HomeNodeEvent ι)) (s : HomeNodeGroup ι) : Prop where
  sent : s.Sent hostname
  unasked : s.Unasked path
  advert : ∀ i j, homeAdvert path (hostname j).name ∈ s.pending i → (hostname j).name = home.name
  storing : ∀ i, (i, path) ∈ s.storing → (hostname i).name = home.name
  known : (∃ i, .setHomeNode i path ∈ past) → ∀ i,
    s.homeNodes i path = some home.name ∨ homeAdvert path home.name ∈ s.pending i

/-- Events of the registration: one token, no query for the path, and calls of its host only. -/
structure RegisteringEvent (hostname : ι → HostName) (path : String) (home : HostName)
    (e : HomeNodeEvent ι) : Prop where
  oneToken : e.OneToken
  unasked : ∀ i, e ≠ .asked i path
  host : ∀ i, e = .setHomeNode i path → (hostname i).name = home.name

theorem Registering.step {path : String} {home : HostName} {past : List (HomeNodeEvent ι)}
    (hpath : OneToken path) (hs : Registering hostname path home past s)
    (he : RegisteringEvent hostname path home e) (h : stepHomeNode hostname s e = some t) :
    Registering hostname path home (past ++ [e]) t where
  sent := hs.sent.step he.oneToken h
  unasked := by
    intro i hmem
    obtain hold | ⟨j, path', rfl, heq⟩ | ⟨j, path', rfl, heq⟩ | ⟨j, path', hpath', -, -, heq⟩ :=
      stepHomeNode_pending hs.sent h hmem
    · exact hs.unasked i hold
    · exact homeQuery_ne_homeAdvert hpath he.oneToken _ heq
    · exact he.unasked j (by rw [homeQuery_inj hpath he.oneToken heq])
    · exact homeQuery_ne_homeAdvert hpath hpath' _ heq
  advert := by
    intro i k hmem
    obtain hold | ⟨j, path', rfl, heq⟩ | ⟨j, path', rfl, heq⟩ |
      ⟨j, path', hpath', hquery, -, heq⟩ :=
      stepHomeNode_pending hs.sent h hmem
    · exact hs.advert i k hold
    · obtain ⟨rfl, hname⟩ := homeAdvert_inj hpath he.oneToken heq
      exact hname.trans (he.host j rfl)
    · exact absurd heq.symm (homeQuery_ne_homeAdvert he.oneToken hpath _)
    · obtain ⟨rfl, -⟩ := homeAdvert_inj hpath hpath' heq
      exact absurd hquery (hs.unasked j)
  storing := by
    intro i hmem
    cases stepHomeNode_storing hs.sent h hmem with
    | inl hold => exact hs.storing i hold
    | inr heq => exact he.host i heq
  known := by
    rintro ⟨k, hmem⟩ i
    cases List.mem_append.mp hmem with
    | inl hpast =>
      cases hs.known ⟨k, hpast⟩ i with
      | inl hrow =>
        left
        obtain hsame | ⟨j, hnew, ⟨rfl, hstoring⟩ | hadvert⟩ :=
          stepHomeNode_homeNodes hs.sent h i path
        · rw [hsame, hrow]
        · rw [hnew, hs.storing j hstoring]
        · rw [hnew, hs.advert i j hadvert]
      | inr hpending =>
        cases stepHomeNode_kept hs.sent h hpending with
        | inl hkept => exact .inr hkept
        | inr heq =>
          subst heq
          exact .inl (hpath.received_homeAdvert h)
    | inr hnew =>
      cases List.mem_singleton.mp hnew
      cases h
      right
      rw [← he.host k rfl]
      exact HomeNodeGroup.mem_broadcast.mpr (.inl (List.mem_singleton.mpr rfl))

/-- A registration that has settled has reached every monitor. -/
theorem Registering.settled {path : String} {home : HostName} {events : List (HomeNodeEvent ι)}
    (hpath : OneToken path) (hsent : s.Sent hostname) (hs : s.Settled hostname path)
    (hquery : s.Unasked path) (he : ∀ e ∈ events, RegisteringEvent hostname path home e)
    (hcall : ∃ i, .setHomeNode i path ∈ events)
    (h : exec (stepHomeNode hostname) s events = some t) (ht : t.Settled hostname path) (i : ι) :
    t.homeNodes i path = some home.name := by
  have h0 : Registering hostname path home [] s :=
    { sent := hsent
      unasked := hquery
      advert := fun i j hmem => absurd hmem (hs.delivered i j)
      storing := fun i hmem => absurd hmem (hs.stored i)
      known := nofun }
  have hrun := exec_induction (stepHomeNode hostname) h0
    (fun _ _ _ _ hm he h => Registering.step hpath hm he h) he h
  cases hrun.known hcall i with
  | inl hrow => exact hrow
  | inr hpending =>
    obtain ⟨k, hk⟩ := hcall
    rw [← (he _ hk).host k rfl] at hpending
    exact absurd hpending (ht.delivered i k)

/-! ### No calls -/

/-- What holds while nothing is registered for a path: no advert is on its way, no call stores,
and the tables are what they were; they record nothing if the path is asked for. -/
structure Idle (hostname : ι → HostName) (path : String) (table : ι → Option String)
    (s : HomeNodeGroup ι) : Prop where
  sent : s.Sent hostname
  settled : s.Settled hostname path
  rows : ∀ i, s.homeNodes i path = table i
  silent : s.Unasked path ∨ ∀ i, table i = none

theorem Idle.step {path : String} {table : ι → Option String} (hpath : OneToken path)
    (hs : Idle hostname path table s) (he : e.OneToken) (hcall : ∀ i, e ≠ .setHomeNode i path)
    (hasked : (∀ i, e ≠ .asked i path) ∨ ∀ i, table i = none)
    (h : stepHomeNode hostname s e = some t) : Idle hostname path table t where
  sent := hs.sent.step he h
  settled := by
    constructor
    · intro i k hmem
      obtain hold | ⟨j, path', rfl, heq⟩ | ⟨j, path', rfl, heq⟩ |
        ⟨j, path', hpath', hquery, hown, heq⟩ := stepHomeNode_pending hs.sent h hmem
      · exact hs.settled.delivered i k hold
      · obtain ⟨rfl, -⟩ := homeAdvert_inj hpath he heq
        exact hcall j rfl
      · exact homeQuery_ne_homeAdvert he hpath _ heq.symm
      · obtain ⟨rfl, -⟩ := homeAdvert_inj hpath hpath' heq
        cases hs.silent with
        | inl hunasked => exact hunasked j hquery
        | inr hnone =>
          rw [hs.rows j, hnone j] at hown
          cases hown
    · intro i hmem
      cases stepHomeNode_storing hs.sent h hmem with
      | inl hold => exact hs.settled.stored i hold
      | inr heq => exact hcall i heq
  rows := by
    intro i
    obtain hsame | ⟨j, -, ⟨-, hstoring⟩ | hadvert⟩ := stepHomeNode_homeNodes hs.sent h i path
    · exact hsame.trans (hs.rows i)
    · exact absurd hstoring (hs.settled.stored i)
    · exact absurd hadvert (hs.settled.delivered i j)
  silent := by
    cases hasked with
    | inr hnone => exact .inr hnone
    | inl hnotAsked =>
      refine hs.silent.imp (fun hunasked i hmem => ?_) id
      obtain hold | ⟨j, path', rfl, heq⟩ | ⟨j, path', rfl, heq⟩ | ⟨j, path', hpath', -, -, heq⟩ :=
        stepHomeNode_pending hs.sent h hmem
      · exact hunasked i hold
      · exact homeQuery_ne_homeAdvert hpath he _ heq
      · exact hnotAsked j (by rw [homeQuery_inj hpath he heq])
      · exact homeQuery_ne_homeAdvert hpath hpath' _ heq

/-- Without a registration the tables keep what they record for a path. -/
theorem Idle.run {path : String} {table : ι → Option String} {events : List (HomeNodeEvent ι)}
    (hpath : OneToken path) (hs : Idle hostname path table s) (he : ∀ e ∈ events, e.OneToken)
    (hcall : ∀ i, .setHomeNode i path ∉ events)
    (hasked : (∀ i, .asked i path ∉ events) ∨ ∀ i, table i = none)
    (h : exec (stepHomeNode hostname) s events = some t) : Idle hostname path table t := by
  refine exec_induction (I := fun _ m => Idle hostname path table m) (stepHomeNode hostname) hs
    (fun _ m e m' hm (hgood : e ∈ events) hstep => ?_) (fun e hmem => hmem) h
  exact hm.step hpath (he e hgood) (fun i heq => hcall i (heq ▸ hgood))
    (hasked.imp (fun hnot i heq => hnot i (heq ▸ hgood)) id) hstep

/-- **Home-node agreement.** Let every advert of a path have been delivered and no call for it be
in progress or asking. When from then on it is registered, by one host only and with no query for
it, and all is delivered again, every process has recorded that host. -/
theorem homeNodes_agree {before after : List (HomeNodeEvent ι)} {path : String} {home : HostName}
    (hpath : OneToken path) (hbefore : exec (stepHomeNode hostname) {} before = some s)
    (hafter : exec (stepHomeNode hostname) s after = some t)
    (htokens : ∀ e ∈ before ++ after, e.OneToken) (hs : s.Settled hostname path)
    (hquery : s.Unasked path) (hunasked : ∀ i, .asked i path ∉ after)
    (hcall : ∃ i, .setHomeNode i path ∈ after)
    (hhost : ∀ i, .setHomeNode i path ∈ after → (hostname i).name = home.name)
    (ht : t.Settled hostname path) (i : ι) : t.homeNodes i path = some home.name := by
  have hsent : s.Sent hostname := (HomeNodeGroup.Sent.empty hostname).run
    (fun e he => htokens e (List.mem_append_left _ he)) hbefore
  have hevents : ∀ e ∈ after, RegisteringEvent hostname path home e := by
    intro e he
    exact { oneToken := htokens e (List.mem_append_right _ he)
            unasked := fun j heq => hunasked j (heq ▸ he)
            host := fun j heq => hhost j (heq ▸ he) }
  exact Registering.settled hpath hsent hs hquery hevents hcall hafter ht i

end Step

section Examples

open HostName (alpha beta)

/-- Two processes on two hosts. -/
def twoHosts : Bool → HostName := fun i => bif i then beta else alpha

/-- Two calls that overlap: each process handles both adverts in the order they were sent, then
stores its own host. -/
theorem overlappingCalls_disagree :
    let events : List (HomeNodeEvent Bool) :=
      [.setHomeNode false "f", .setHomeNode true "f",
        .received false (homeAdvert "f" "alpha"), .received false (homeAdvert "f" "beta"),
        .received true (homeAdvert "f" "alpha"), .received true (homeAdvert "f" "beta"),
        .stored false "f", .stored true "f"]
    OneToken "f" ∧ ∃ s, exec (stepHomeNode twoHosts) {} events = some s ∧
      s.Settled twoHosts "f" ∧ s.homeNodes false "f" = some "alpha" ∧
      s.homeNodes true "f" = some "beta" := by
  intro events
  have hsome : (exec (stepHomeNode twoHosts) {} events).isSome = true := by decide +kernel
  refine ⟨⟨by decide +kernel, by decide, by decide⟩, _, (Option.some_get hsome).symm,
    ⟨by decide +kernel +revert, by decide +kernel +revert⟩, by decide +kernel +revert,
    by decide +kernel +revert⟩

/-- Two calls, the second after all of the first has arrived. -/
theorem successiveCalls_agree :
    let before : List (HomeNodeEvent Bool) :=
      [.setHomeNode false "f", .stored false "f", .received true (homeAdvert "f" "alpha"),
        .received false (homeAdvert "f" "alpha")]
    let after : List (HomeNodeEvent Bool) :=
      [.setHomeNode true "f", .received true (homeAdvert "f" "beta"),
        .received false (homeAdvert "f" "beta"), .stored true "f"]
    ∃ t, exec (stepHomeNode twoHosts) {} (before ++ after) = some t ∧
      ∀ i, t.homeNodes i "f" = some "beta" := by
  intro before after
  have hbefore : (exec (stepHomeNode twoHosts) {} before).isSome = true := by decide +kernel
  have hafter : (exec (stepHomeNode twoHosts)
      ((exec (stepHomeNode twoHosts) {} before).get hbefore) after).isSome = true := by
    decide +kernel +revert
  have hs : ((exec (stepHomeNode twoHosts) {} before).get hbefore).Settled twoHosts "f" :=
    ⟨by decide +kernel +revert, by decide +kernel +revert⟩
  have hquery : ((exec (stepHomeNode twoHosts) {} before).get hbefore).Unasked "f" := by
    unfold HomeNodeGroup.Unasked
    clear hs
    decide +kernel +revert
  have ht : ((exec (stepHomeNode twoHosts) _ after).get hafter).Settled twoHosts "f" := by
    clear hs hquery
    exact ⟨by decide +kernel +revert, by decide +kernel +revert⟩
  have hpath : OneToken "f" := ⟨by decide +kernel, by decide, by decide⟩
  have htokens : ∀ e ∈ before ++ after, e.OneToken := by
    intro e he
    simp only [before, after, List.cons_append, List.nil_append, List.mem_cons, List.not_mem_nil,
      or_false] at he
    obtain rfl | rfl | rfl | rfl | rfl | rfl | rfl | rfl := he <;>
      first | exact hpath | trivial
  have hrun := (Option.some_get hbefore).symm
  have hrun' := (Option.some_get hafter).symm
  refine ⟨_, (exec_append_iff _).mpr ⟨_, hrun, hrun'⟩, ?_⟩
  have hhost : ∀ i, .setHomeNode i "f" ∈ after → (twoHosts i).name = beta.name := by
    decide
  exact homeNodes_agree hpath hrun hrun' htokens hs hquery (by decide) ⟨true, by decide⟩ hhost ht

end Examples

end MulticastMonitor

end CapioCl
