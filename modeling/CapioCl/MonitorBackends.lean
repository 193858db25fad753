import CapioCl.HomeNode
import CapioCl.HomeNodeToken
import Mathlib.Data.Finset.Card

/-!
# `Monitor` with both backends

`Monitor::setHomeNode` tells every registered backend, `Monitor::getHomeNode` collects what they
answer. Engines on several hosts share a multicast group and a file system; their calls of
`setHomeNode` come one after another, and every message arrives before the next.

The table of `MulticastMonitor` holds the host of the last call (`homeNodes_of_registrations`). A
token of `FileSystemMonitor` stays as the first call wrote it (`tokenNames_iff`). So the two agree
on a path as `homeNodes_card_le_one_iff` says, which is whether the first and the last call come from
one host when the first writes the token (`backendsAgree_iff_firstLast`), and `secondHost_disagrees`
is a run in which they do not.
-/

namespace CapioCl

open CapioCl.Lib CapioCl.Lib.Runs

namespace Monitor

open MulticastMonitor FileSystemMonitor

/-- What engines share, with both backends registered. -/
structure Engines (ι : Type) where
  multicast : HomeNodeGroup ι := {}
  files : FileTree

/-- Everything sent has arrived and no call is in progress. -/
structure Quiet {ι : Type} (g : HomeNodeGroup ι) : Prop where
  pending : ∀ i, g.pending i = []
  storing : g.storing = []

/-- The events of a multicast run that are calls. -/
def isCall {ι : Type} : HomeNodeEvent ι → Bool
  | .setHomeNode _ _ | .asked _ _ => true
  | _ => false

section Registrations

variable {ι : Type} [DecidableEq ι] (cwd : String) (hostname : ι → HostName)

/-- `Monitor::setHomeNode(path)` on engine `i`: the multicast backend goes through its two phases
and all messages arrive, in any order; then the file system backend writes its token or throws. -/
structure Registers (s : Engines ι) (i : ι) (path : String) (s' : Engines ι) : Prop where
  multicast : ∃ events, exec (stepHomeNode hostname) s.multicast events = some s'.multicast ∧
    events.filter isCall = [.setHomeNode i path]
  quiet : Quiet s'.multicast
  files : s'.files = (FileSystemMonitor.setHomeNode cwd (hostname i) s.files path).1

/-- Calls one after another. -/
inductive Registrations (t : FileTree) : List (ι × String) → Engines ι → Prop
  | none : Registrations t [] { files := t }
  | next {calls : List (ι × String)} {s s' : Engines ι} (i : ι) (path : String) :
      Registrations t calls s → Registers cwd hostname s i path s' →
      Registrations t (calls ++ [(i, path)]) s'

/-- What `MulticastMonitor::getHomeNode` may return on engine `i`: what its table records, or what
it records after a query and whatever it makes arrive. -/
def MulticastAnswer (g : HomeNodeGroup ι) (i : ι) (path answer : String) : Prop :=
  g.homeNodes i path = some answer ∨
    (g.homeNodes i path = none ∧ ∃ events g',
      exec (stepHomeNode hostname) g (.asked i path :: events) = some g' ∧
      (∀ e ∈ events, isCall e = false) ∧ answer = (g'.homeNodes i path).getD noHomeNode)

end Registrations

/-- `Monitor::getHomeNode`: the answers that are hosts. -/
def collect (answers : List String) : Finset String :=
  (answers.filter fun answer => answer ≠ noHomeNode).toFinset

theorem collect_card_le_one_iff {a b : String} :
    (collect [a, b]).card ≤ 1 ↔ a = noHomeNode ∨ b = noHomeNode ∨ a = b := by
  unfold collect
  by_cases ha : a = noHomeNode
  · by_cases hb : b = noHomeNode <;> simp [ha, hb]
  · by_cases hb : b = noHomeNode
    · simp [ha, hb]
    · have hfilter : [a, b].filter (fun answer => answer ≠ noHomeNode) = [a, b] := by
        simp [ha, hb]
      rw [hfilter]
      by_cases hab : a = b
      · subst hab
        simp
      · simp [ha, hb, hab]

section Runs

variable {ι : Type} {cwd : String} {hostname : ι → HostName} {t : FileTree}
  {calls : List (ι × String)} {i : ι} {path : String}

/-! ## The multicast backend -/

theorem Quiet.settled {g : HomeNodeGroup ι} (h : Quiet g) (hostname : ι → HostName)
    (path : String) : g.Settled hostname path where
  delivered := fun i j hmem => by
    rw [h.pending i] at hmem
    exact nomatch hmem
  stored := fun i hmem => by
    rw [h.storing] at hmem
    exact nomatch hmem

theorem Quiet.unasked {g : HomeNodeGroup ι} (h : Quiet g) (path : String) : g.Unasked path := by
  intro i hmem
  rw [h.pending i] at hmem
  exact nomatch hmem

theorem Quiet.sent {g : HomeNodeGroup ι} (h : Quiet g) (hostname : ι → HostName) :
    g.Sent hostname where
  pending := fun i message hmem => by
    rw [h.pending i] at hmem
    exact nomatch hmem
  storing := fun i path hmem => by
    rw [h.storing] at hmem
    exact nomatch hmem

/-- The host of the last call on a path. -/
def lastHost (hostname : ι → HostName) (path : String) (calls : List (ι × String)) :
    Option String :=
  (calls.filter fun call => call.2 = path).getLast?.map fun call => (hostname call.1).name

theorem lastHost_concat_self : lastHost hostname path (calls ++ [(i, path)]) =
    some (hostname i).name := by
  unfold lastHost
  rw [List.filter_append, List.filter_cons_of_pos (by simp), List.filter_nil,
    List.getLast?_concat, Option.map_some]

theorem lastHost_concat_of_ne {path' : String} (h : path' ≠ path) :
    lastHost hostname path (calls ++ [(i, path')]) = lastHost hostname path calls := by
  unfold lastHost
  rw [List.filter_append, List.filter_cons_of_neg (by simpa using h), List.filter_nil,
    List.append_nil]

theorem lastHost_eq_none_iff :
    lastHost hostname path calls = none ↔ ∀ call ∈ calls, call.2 ≠ path := by
  unfold lastHost
  rw [Option.map_eq_none_iff, List.getLast?_eq_none_iff, List.filter_eq_nil_iff]
  simp

/-- The events of a registration are one token, are no queries, and call for its path only. -/
theorem Registers.events {events : List (HomeNodeEvent ι)} (hpath : OneToken path)
    (h : events.filter isCall = [.setHomeNode i path]) : ∀ e ∈ events,
    e.OneToken ∧ (∀ j path', e ≠ .asked j path') ∧
      ∀ j path', e = .setHomeNode j path' → j = i ∧ path' = path := by
  intro e he
  have hcall : isCall e = true → e = .setHomeNode i path := by
    intro hc
    have hmem : e ∈ events.filter isCall := List.mem_filter.mpr ⟨he, hc⟩
    rw [h] at hmem
    exact List.mem_singleton.mp hmem
  cases e with
  | setHomeNode j path' =>
    cases hcall rfl
    exact ⟨hpath, nofun, fun _ _ heq => by cases heq; exact ⟨rfl, rfl⟩⟩
  | asked j path' => cases hcall rfl
  | stored j path' => exact ⟨trivial, nofun, nofun⟩
  | received j message => exact ⟨trivial, nofun, nofun⟩

variable [DecidableEq ι] {s : Engines ι}

/-- **The multicast backend holds the last host.** -/
theorem homeNodes_of_registrations (h : Registrations cwd hostname t calls s)
    (hcalls : ∀ call ∈ calls, OneToken call.2) (hpath : OneToken path) :
    Quiet s.multicast ∧
      ∀ i, s.multicast.homeNodes i path = lastHost hostname path calls := by
  induction h with
  | none => exact ⟨⟨fun _ => rfl, rfl⟩, fun _ => rfl⟩
  | @next calls s s' i path' _ hnext ih =>
    obtain ⟨hquiet, hrows⟩ := ih fun call hcall => hcalls call (List.mem_append_left _ hcall)
    obtain ⟨events, hexec, hfilter⟩ := hnext.multicast
    have hpath' : OneToken path' := hcalls (i, path') (by simp)
    have hevents := Registers.events hpath' hfilter
    refine ⟨hnext.quiet, fun j => ?_⟩
    by_cases heq : path' = path
    · subst heq
      rw [lastHost_concat_self]
      refine Registering.settled hpath (hquiet.sent hostname) (hquiet.settled hostname _)
        (hquiet.unasked _) (fun e he => ?_) ⟨i, ?_⟩ hexec (hnext.quiet.settled hostname _) j
      · obtain ⟨htoken, hasked, hcall⟩ := hevents e he
        exact { oneToken := htoken
                unasked := fun k => hasked k path'
                host := fun k hk => by rw [(hcall k path' hk).1] }
      · have hmem : .setHomeNode i path' ∈ events.filter isCall := by
          rw [hfilter]
          exact List.mem_singleton.mpr rfl
        exact (List.mem_filter.mp hmem).1
    · rw [lastHost_concat_of_ne heq, ← hrows j]
      have hidle : Idle hostname path (fun k => s.multicast.homeNodes k path) s.multicast :=
        { sent := hquiet.sent hostname
          settled := hquiet.settled hostname path
          rows := fun _ => rfl
          silent := .inl (hquiet.unasked path) }
      exact (hidle.run hpath (fun e he => (hevents e he).1)
        (fun k hmem => heq ((hevents _ hmem).2.2 k path rfl).2.symm)
        (.inl fun k hmem => (hevents _ hmem).2.1 k path rfl) hexec).rows j

/-- What the multicast backend answers: the last host, or `NO_HOME_NODE`. -/
theorem multicastAnswer_eq {answer : String} (h : Registrations cwd hostname t calls s)
    (hcalls : ∀ call ∈ calls, OneToken call.2) (hpath : OneToken path)
    (hanswer : MulticastAnswer hostname s.multicast i path answer) :
    answer = (lastHost hostname path calls).getD noHomeNode := by
  obtain ⟨hquiet, hrows⟩ := homeNodes_of_registrations h hcalls hpath
  obtain hfound | ⟨hnone, events, g', hexec, hevents, rfl⟩ := hanswer
  · rw [hrows i] at hfound
    rw [hfound, Option.getD_some]
  · rw [hrows i] at hnone
    have hidle : Idle hostname path (fun _ => none) s.multicast :=
      { sent := hquiet.sent hostname
        settled := hquiet.settled hostname path
        rows := fun j => (hrows j).trans hnone
        silent := .inr fun _ => rfl }
    have hcall : ∀ e ∈ HomeNodeEvent.asked i path :: events,
        e.OneToken ∧ ∀ j, e ≠ .setHomeNode j path := by
      intro e he
      cases List.mem_cons.mp he with
      | inl heq =>
        subst heq
        exact ⟨hpath, nofun⟩
      | inr hmem =>
        have hno := hevents e hmem
        cases e with
        | setHomeNode | asked => cases hno
        | stored j path' => exact ⟨trivial, nofun⟩
        | received j message => exact ⟨trivial, nofun⟩
    have hrun := hidle.run hpath (fun e he => (hcall e he).1)
      (fun j hmem => (hcall _ hmem).2 j rfl) (.inr fun _ => rfl) hexec
    rw [hrun.rows i, hnone]

end Runs

section Files

variable {ι : Type} {cwd : String} {hostname : ι → HostName} {t : FileTree}
  {calls : List (ι × String)} {i : ι} {path : String}

/-! ## The file system backend -/

/-- The file system after the calls. -/
def filesAfter (cwd : String) (hostname : ι → HostName) (t : FileTree)
    (calls : List (ι × String)) : FileTree :=
  calls.foldl (fun t call => (FileSystemMonitor.setHomeNode cwd (hostname call.1) t call.2).1) t

theorem filesAfter_concat : filesAfter cwd hostname t (calls ++ [(i, path)]) =
    (FileSystemMonitor.setHomeNode cwd (hostname i) (filesAfter cwd hostname t calls) path).1 := by
  unfold filesAfter
  rw [List.foldl_append, List.foldl_cons, List.foldl_nil]

/-- A call writes the token that stands at `x`: it finds its token missing and no file in the way,
and no directory is or gets in the token's place. -/
def Writes (cwd : String) (t : FileTree) (path : String) (x : Location) : Prop :=
  ∃ token, computeCapioclTokenName cwd path .homeNode = some token ∧ token.place = x ∧
    ¬tokenExists t token = true ∧ ¬token.Blocked t ∧ t.node x ≠ some .dir ∧ x ∉ token.ways

/-- The word that the token at `x` says after the calls: the host of the last call that wrote it,
or what it said from the start. -/
inductive TokenNames (cwd : String) (hostname : ι → HostName) (t : FileTree) (x : Location) :
    List (ι × String) → String → Prop
  | initial {content : String} : t.node x = some (.file content) →
      TokenNames cwd hostname t x [] (firstWord content)
  | written (calls : List (ι × String)) (i : ι) {path : String} :
      Writes cwd (filesAfter cwd hostname t calls) path x →
      TokenNames cwd hostname t x (calls ++ [(i, path)]) (hostname i).name
  | kept {calls : List (ι × String)} {word : String} (i : ι) {path : String} :
      TokenNames cwd hostname t x calls word →
      ¬Writes cwd (filesAfter cwd hostname t calls) path x →
      TokenNames cwd hostname t x (calls ++ [(i, path)]) word

theorem Writes.node {host : HostName} {x : Location} (h : Writes cwd t path x) :
    (FileSystemMonitor.setHomeNode cwd host t path).1.node x =
      some (.file (host.name ++ "\n")) := by
  obtain ⟨token, htoken, rfl, hmissing, hthrough, hdir, hway⟩ := h
  have hmade : (t.mkdirs [] token.dir).1.node token.place ≠ some .dir := by
    obtain hsame | ⟨hway', -⟩ := FileTree.mkdirs_node token.dir t.root token.place
    · rw [hsame]
      exact hdir
    · exact absurd hway' hway
  unfold FileSystemMonitor.setHomeNode
  rw [generate_some htoken, generateToken_of_missing hmissing hthrough,
    write_token (FileTree.mkdirs_ways t.root (mkdirs_through.mpr hthrough)) hmade,
    Function.update_self]

/-- Only a call that writes a token changes what files there are in its place. -/
theorem node_of_not_writes {host : HostName} {x : Location} {content : String}
    (h : ¬Writes cwd t path x) :
    (FileSystemMonitor.setHomeNode cwd host t path).1.node x = some (.file content) ↔
      t.node x = some (.file content) := by
  unfold FileSystemMonitor.setHomeNode
  cases htoken : computeCapioclTokenName cwd path .homeNode with
  | none => rw [generate_none htoken]
  | some token =>
    rw [generate_some htoken]
    obtain hsame | ⟨-, hnone, -, hdir⟩ | ⟨rfl, hmissing, hthrough, hfile⟩ :=
      generateToken_node t token (host.name ++ "\n") x
    · rw [hsame]
    · rw [hdir, hnone]
      simp
    · refine absurd ⟨token, htoken, rfl, hmissing, hthrough, fun hdir => ?_, fun hway => ?_⟩ h
      · rw [generateToken_grows.dir _ hdir] at hfile
        cases hfile
      · have hexists := generateToken_exists (host.name ++ "\n") hthrough
        rw [(tokenExists_iff.mp hexists).1 _ hway] at hfile
        cases hfile

/-- **The file system backend keeps what was written last.** -/
theorem tokenNames_iff {x : Location} {word : String} :
    TokenNames cwd hostname t x calls word ↔ ∃ content,
      (filesAfter cwd hostname t calls).node x = some (.file content) ∧
        firstWord content = word := by
  constructor
  · intro h
    induction h with
    | initial hnode => exact ⟨_, hnode, rfl⟩
    | written calls i hwrites =>
      refine ⟨_, ?_, firstWord_host (hostname i)⟩
      rw [filesAfter_concat]
      exact hwrites.node
    | kept i _ hkept ih =>
      obtain ⟨content, hnode, hword⟩ := ih
      refine ⟨content, ?_, hword⟩
      rw [filesAfter_concat, node_of_not_writes hkept]
      exact hnode
  · rintro ⟨content, hnode, rfl⟩
    induction calls using List.reverseRecOn generalizing content with
    | nil => exact .initial hnode
    | append_singleton calls call ih =>
      obtain ⟨i, path⟩ := call
      rw [filesAfter_concat] at hnode
      by_cases hwrites : Writes cwd (filesAfter cwd hostname t calls) path x
      · rw [hwrites.node] at hnode
        cases hnode
        rw [firstWord_host]
        exact .written calls i hwrites
      · rw [node_of_not_writes hwrites] at hnode
        exact .kept i (ih content hnode) hwrites

theorem filesAfter_grows (later : List (ι × String)) :
    (filesAfter cwd hostname t calls).Grows (filesAfter cwd hostname t (calls ++ later)) := by
  induction later using List.reverseRecOn with
  | nil =>
    rw [List.append_nil]
    exact FileTree.Grows.refl _
  | append_singleton later call ih =>
    obtain ⟨i, path⟩ := call
    rw [← List.append_assoc, filesAfter_concat]
    exact ih.trans (generate_grows cwd .homeNode _ _ path)

end Files

section Agreement

variable {ι : Type} {cwd : String} {hostname : ι → HostName} {t : FileTree}
  {calls : List (ι × String)} {path : String}

/-! ## Both backends -/

/-- When the backends agree on a path: nobody has registered it; or the last call that registers
it finds a file on the way to the token, so that there is none; or the call that wrote the token
is one of the same host. -/
def BackendsAgree (cwd : String) (hostname : ι → HostName) (t : FileTree)
    (calls : List (ι × String)) (path : String) : Prop :=
  (∀ call ∈ calls, call.2 ≠ path) ∨ ∃ token earlier i later,
    computeCapioclTokenName cwd path .homeNode = some token ∧
    calls = earlier ++ (i, path) :: later ∧ (∀ call ∈ later, call.2 ≠ path) ∧
    (token.Blocked (filesAfter cwd hostname t earlier) ∨
      ∃ word, TokenNames cwd hostname t token.place calls word ∧
        (word = (hostname i).name ∨ word = noHomeNode))

theorem lastHost_of_last {earlier later : List (ι × String)} {i : ι}
    (hlater : ∀ call ∈ later, call.2 ≠ path) :
    lastHost hostname path (earlier ++ (i, path) :: later) = some (hostname i).name := by
  have hnone : later.filter (fun call => call.2 = path) = [] := by
    rw [List.filter_eq_nil_iff]
    exact fun call hcall => by simpa using hlater call hcall
  unfold lastHost
  rw [List.filter_append, List.filter_cons_of_pos (by simp), hnone, List.getLast?_concat,
    Option.map_some]

/-- A path that is registered is registered a last time. -/
theorem exists_last (h : ∃ call ∈ calls, call.2 = path) : ∃ earlier i later,
    calls = earlier ++ (i, path) :: later ∧ ∀ call ∈ later, call.2 ≠ path := by
  induction calls using List.reverseRecOn with
  | nil =>
    obtain ⟨call, hcall, -⟩ := h
    exact nomatch hcall
  | append_singleton calls last ih =>
    obtain ⟨i, path'⟩ := last
    by_cases heq : path' = path
    · subst heq
      exact ⟨calls, i, [], rfl, fun call hcall => nomatch hcall⟩
    · obtain ⟨call, hcall, hpath⟩ := h
      have hold : call ∈ calls := by
        cases List.mem_append.mp hcall with
        | inl hold => exact hold
        | inr hnew =>
          cases List.mem_singleton.mp hnew
          exact absurd hpath heq
      obtain ⟨earlier, j, later, rfl, hlater⟩ := ih ⟨call, hold, hpath⟩
      refine ⟨earlier, j, later ++ [(i, path')], by simp, fun call hcall => ?_⟩
      cases List.mem_append.mp hcall with
      | inl hlate => exact hlater call hlate
      | inr hnew =>
        cases List.mem_singleton.mp hnew
        exact heq

/-- After a registration that no file blocks, its token is there. -/
theorem exists_of_registered {earlier later : List (ι × String)} {i : ι} {token : Token}
    (htoken : computeCapioclTokenName cwd path .homeNode = some token)
    (hthrough : ¬token.Blocked (filesAfter cwd hostname t earlier)) :
    tokenExists (filesAfter cwd hostname t (earlier ++ (i, path) :: later)) token = true := by
  have hgrows : (filesAfter cwd hostname t (earlier ++ [(i, path)])).Grows
      (filesAfter cwd hostname t (earlier ++ [(i, path)] ++ later)) := filesAfter_grows later
  rw [List.append_assoc, List.singleton_append] at hgrows
  refine tokenExists_mono hgrows ?_
  rw [filesAfter_concat]
  unfold FileSystemMonitor.setHomeNode
  rw [generate_some htoken]
  exact generateToken_exists _ hthrough

theorem Writes.through {t : FileTree} {token : Token}
    (htoken : computeCapioclTokenName cwd path .homeNode = some token)
    (h : Writes cwd t path token.place) : ¬token.Blocked t := by
  obtain ⟨token', htoken', -, -, hthrough, -, -⟩ := h
  rwa [Option.some.inj (htoken'.symm.trans htoken)] at hthrough

/-- A token that a call writes, and that no other spelling of its path rewrites, says from then on
the host of this call. -/
theorem tokenNames_of_first {token : Token} {earlier later : List (ι × String)} {i : ι}
    (htoken : computeCapioclTokenName cwd path .homeNode = some token)
    (hwrites : Writes cwd (filesAfter cwd hostname t earlier) path token.place)
    (hspelling : ∀ call ∈ later, call.2 ≠ path → ∀ token',
      computeCapioclTokenName cwd call.2 .homeNode = some token' → token'.place ≠ token.place) :
    TokenNames cwd hostname t token.place (earlier ++ (i, path) :: later) (hostname i).name := by
  have hthrough := hwrites.through htoken
  induction later using List.reverseRecOn with
  | nil => exact .written earlier i hwrites
  | append_singleton later call ih =>
    obtain ⟨j, path'⟩ := call
    have hkept := ih fun call hcall => hspelling call (List.mem_append_left _ hcall)
    rw [← List.cons_append, ← List.append_assoc]
    refine .kept j hkept fun hagain => ?_
    obtain ⟨token', htoken', hplace, hmissing, -, -, -⟩ := hagain
    by_cases heq : path' = path
    · subst heq
      rw [Option.some.inj (htoken'.symm.trans htoken)] at hmissing
      exact hmissing (exists_of_registered htoken hthrough)
    · exact hspelling (j, path') (by simp) heq token' htoken' hplace

/-- **The first and the last call.** On a path whose first call writes the token, and whose token no
other spelling rewrites, the backends agree exactly if the last call is one of the same host. -/
theorem backendsAgree_iff_firstLast {token : Token} {earlier later : List (ι × String)} {i : ι}
    (htoken : computeCapioclTokenName cwd path .homeNode = some token)
    (hwrites : Writes cwd (filesAfter cwd hostname t earlier) path token.place)
    (hspelling : ∀ call ∈ later, call.2 ≠ path → ∀ token',
      computeCapioclTokenName cwd call.2 .homeNode = some token' → token'.place ≠ token.place) :
    BackendsAgree cwd hostname t (earlier ++ (i, path) :: later) path ↔
      lastHost hostname path (earlier ++ (i, path) :: later) = some (hostname i).name := by
  have hnames := @tokenNames_of_first _ cwd hostname t path token earlier later i htoken hwrites
    hspelling
  obtain ⟨content, hnode, hword⟩ := tokenNames_iff.mp hnames
  have hthrough := hwrites.through htoken
  have hexists : tokenExists (filesAfter cwd hostname t (earlier ++ (i, path) :: later)) token = true :=
    exists_of_registered htoken hthrough
  constructor
  · rintro (hnone | ⟨token', earlier', j, later', htoken', hsplit, hlater', hagree⟩)
    · exact absurd rfl (hnone (i, path) (by simp))
    · cases htoken.symm.trans htoken'
      rw [hsplit, lastHost_of_last hlater']
      obtain hblocked | ⟨word, hsays, hword'⟩ := hagree
      · refine absurd (hblocked.mono ?_) (not_blocked_of_exists hexists)
        rw [hsplit]
        exact filesAfter_grows _
      · obtain ⟨content', hnode', rfl⟩ := tokenNames_iff.mp hsays
        cases hnode.symm.trans hnode'
        rw [hword] at hword'
        exact congrArg some (hword'.resolve_right (hostName_ne_noHomeNode (hostname i))).symm
  · intro hlast
    have hcalled : ∃ call ∈ earlier ++ (i, path) :: later, call.2 = path :=
      ⟨(i, path), by simp, rfl⟩
    obtain ⟨earlier', j, later', hsplit, hlater'⟩ := exists_last hcalled
    refine .inr ⟨token, earlier', j, later', htoken, hsplit, hlater', .inr
      ⟨(hostname i).name, hnames, .inl ?_⟩⟩
    rw [hsplit, lastHost_of_last hlater'] at hlast
    exact (Option.some.inj hlast).symm

variable [DecidableEq ι] {s : Engines ι}

theorem files_of_registrations (h : Registrations cwd hostname t calls s) :
    s.files = filesAfter cwd hostname t calls := by
  induction h with
  | none => rfl
  | next i path _ hnext ih => rw [hnext.files, ih, filesAfter_concat]

/-- **When the backends agree.** After registrations one after another, with all messages
delivered, a first `Monitor::getHomeNode(p)` on any engine gives at most one host if and only if
nobody has registered the path, or the last call on it was blocked by a file, or its token was
written by a call of the host of the last call. -/
theorem homeNodes_card_le_one_iff {j : ι} {fromMulticast fromFiles : String}
    (h : Registrations cwd hostname t calls s) (hcalls : ∀ call ∈ calls, OneToken call.2)
    (hpath : OneToken path)
    (hmulticast : MulticastAnswer hostname s.multicast j path fromMulticast)
    (hfiles : FileSystemMonitor.getHomeNode cwd { tree := s.files } j path = some fromFiles) :
    (collect [fromMulticast, fromFiles]).card ≤ 1 ↔ BackendsAgree cwd hostname t calls path := by
  obtain ⟨token, htoken, hlookup⟩ := Option.map_eq_some_iff.mp hfiles
  rw [Option.getD_none, files_of_registrations h] at hlookup
  rw [multicastAnswer_eq h hcalls hpath hmulticast, collect_card_le_one_iff, ← hlookup]
  by_cases hcalled : ∃ call ∈ calls, call.2 = path
  · obtain ⟨earlier, i, later, rfl, hlater⟩ := exists_last hcalled
    rw [lastHost_of_last hlater, Option.getD_some]
    have hhost := hostName_ne_noHomeNode (hostname i)
    constructor
    · intro hanswers
      refine .inr ⟨token, earlier, i, later, htoken, rfl, hlater, ?_⟩
      by_cases hblocked : token.Blocked (filesAfter cwd hostname t earlier)
      · exact .inl hblocked
      · have hexists : tokenExists
            (filesAfter cwd hostname t (earlier ++ (i, path) :: later)) token = true :=
          exists_of_registered htoken hblocked
        obtain ⟨node, hnode⟩ := Option.ne_none_iff_exists'.mp (tokenExists_iff.mp hexists).2
        rw [lookupHomeNode_eq hexists hnode] at hanswers
        cases node with
        | dir =>
          obtain heq | heq | heq := hanswers
          · exact absurd heq hhost
          · exact absurd heq (by decide)
          · exact absurd heq (hostname i).nonempty
        | file content =>
          refine .inr ⟨firstWord content, tokenNames_iff.mpr ⟨content, hnode, rfl⟩, ?_⟩
          obtain heq | heq | heq := hanswers
          · exact absurd heq hhost
          · exact .inr heq
          · exact .inl heq.symm
    · rintro (hnone | ⟨token', earlier', i', later', htoken', hsplit, hlater', hagree⟩)
      · exact absurd rfl (hnone (i, path) (by simp))
      · cases htoken.symm.trans htoken'
        have hsame : (hostname i).name = (hostname i').name := by
          have hlast : lastHost hostname path (earlier' ++ (i', path) :: later') =
              some (hostname i').name := lastHost_of_last hlater'
          rw [← hsplit, lastHost_of_last hlater, Option.some_inj] at hlast
          exact hlast
        by_cases hexists : tokenExists
            (filesAfter cwd hostname t (earlier ++ (i, path) :: later)) token = true
        · obtain hblocked | ⟨word, hnames, hword⟩ := hagree
          · refine absurd (hblocked.mono ?_) (not_blocked_of_exists hexists)
            rw [hsplit]
            exact filesAfter_grows _
          · obtain ⟨content, hnode, rfl⟩ := tokenNames_iff.mp hnames
            rw [lookupHomeNode_eq hexists hnode]
            cases hword with
            | inl heq => exact .inr (.inr (hsame.trans heq.symm))
            | inr heq => exact .inr (.inl heq)
        · exact .inr (.inl (lookupHomeNode_of_missing hexists))
  · have hnone : ∀ call ∈ calls, call.2 ≠ path := by
      push Not at hcalled
      exact hcalled
    rw [lastHost_eq_none_iff.mpr hnone]
    exact iff_of_true (.inl rfl) (.inl hnone)

end Agreement

section Examples

open HostName (alpha)

/-- One registration from two processes' point of view: the caller stores, both receive. -/
def registration (i : Bool) : List (HomeNodeEvent Bool) :=
  [.setHomeNode i "/f", .stored i "/f", .received false (homeAdvert "/f" (twoHosts i).name),
    .received true (homeAdvert "/f" (twoHosts i).name)]

theorem registers_of_exec {s : Engines Bool} {g : HomeNodeGroup Bool} {i : Bool}
    (hexec : exec (stepHomeNode twoHosts) s.multicast (registration i) = some g)
    (hquiet : (∀ i, g.pending i = []) ∧ g.storing = []) :
    Registers "/" twoHosts s i "/f"
      { multicast := g
        files := (FileSystemMonitor.setHomeNode "/" (twoHosts i) s.files "/f").1 } :=
  ⟨⟨registration i, hexec, rfl⟩, ⟨hquiet.1, hquiet.2⟩, rfl⟩

/-- Two hosts register a path one after the other: the token keeps the first, the tables the
second. -/
theorem secondHost_disagrees : ∃ s : Engines Bool,
    Registrations "/" twoHosts FileTree.empty [(false, "/f"), (true, "/f")] s ∧
    MulticastAnswer twoHosts s.multicast false "/f" "beta" ∧
    FileSystemMonitor.getHomeNode "/" { tree := s.files : HomeNodes Bool } false "/f" =
      some "alpha" ∧
    (collect ["beta", "alpha"]).card = 2 := by
  have hfirst : (exec (stepHomeNode twoHosts) {} (registration false)).isSome = true := by
    decide +kernel
  have hsecond : (exec (stepHomeNode twoHosts)
      ((exec (stepHomeNode twoHosts) {} (registration false)).get hfirst)
      (registration true)).isSome = true := by
    decide +kernel +revert
  have hregs : Registrations "/" twoHosts FileTree.empty ([] ++ [(false, "/f")] ++ [(true, "/f")])
      _ :=
    .next true "/f"
      (.next false "/f" .none (registers_of_exec (Option.some_get hfirst).symm
        (by clear hsecond; decide +kernel +revert)))
      (registers_of_exec (Option.some_get hsecond).symm (by decide +kernel +revert))
  exact ⟨_, hregs, .inl (by clear hregs; decide +kernel +revert),
    by clear hregs; decide +kernel +revert, by decide⟩

/-- One host, twice: the first call writes the token and the last is of the same host. -/
theorem oneHost_agrees : ∃ s : Engines Bool,
    Registrations "/" twoHosts FileTree.empty [(false, "/f"), (false, "/f")] s ∧
    MulticastAnswer twoHosts s.multicast true "/f" "alpha" ∧
    FileSystemMonitor.getHomeNode "/" { tree := s.files : HomeNodes Bool } true "/f" =
      some "alpha" ∧
    (collect ["alpha", "alpha"]).card ≤ 1 := by
  have hfirst : (exec (stepHomeNode twoHosts) {} (registration false)).isSome = true := by
    decide +kernel
  have hsecond : (exec (stepHomeNode twoHosts)
      ((exec (stepHomeNode twoHosts) {} (registration false)).get hfirst)
      (registration false)).isSome = true := by
    decide +kernel +revert
  have hregs : Registrations "/" twoHosts FileTree.empty ([] ++ [(false, "/f")] ++ [(false, "/f")])
      _ :=
    .next false "/f"
      (.next false "/f" .none (registers_of_exec (Option.some_get hfirst).symm
        (by clear hsecond; decide +kernel +revert)))
      (registers_of_exec (Option.some_get hsecond).symm (by decide +kernel +revert))
  have hmulticast : MulticastAnswer twoHosts
      ((exec (stepHomeNode twoHosts) ((exec (stepHomeNode twoHosts) {} (registration false)).get
        hfirst) (registration false)).get hsecond) true "/f" "alpha" :=
    .inl (by clear hregs; decide +kernel +revert)
  have hpath : OneToken "/f" := ⟨by decide +kernel, by decide, by decide⟩
  have hcalls : ∀ call ∈ ([] ++ [(false, "/f")] ++ [(false, "/f")] : List (Bool × String)),
      OneToken call.2 := by
    intro call hcall
    have hsame : call = (false, "/f") := by simpa using hcall
    exact hsame ▸ hpath
  obtain ⟨token, htoken⟩ : ∃ token, computeCapioclTokenName "/" "/f" .homeNode = some token :=
    Option.isSome_iff_exists.mp (by decide +kernel)
  have hways : token.ways = [] := by
    have hmap : (computeCapioclTokenName "/" "/f" .homeNode).map Token.ways = some [] := by
      decide +kernel
    rw [htoken, Option.map_some, Option.some_inj] at hmap
    exact hmap
  have hfree : FileTree.empty.node token.place = none := FileTree.empty_node_cons _ _
  have hwrites : Writes "/" FileTree.empty "/f" token.place := by
    refine ⟨token, htoken, rfl, fun h => (tokenExists_iff.mp h).2 hfree, ?_, ?_, ?_⟩
    · rintro ⟨w, hw, -⟩
      rw [hways] at hw
      exact nomatch hw
    · rw [hfree]
      simp
    · rw [hways]
      exact List.not_mem_nil
  have hfiles : FileSystemMonitor.getHomeNode "/"
      { tree := (FileSystemMonitor.setHomeNode "/" alpha
          (FileSystemMonitor.setHomeNode "/" alpha FileTree.empty "/f").1 "/f").1 : HomeNodes Bool }
      true "/f" = some "alpha" := by decide +kernel
  have hspelling : ∀ call ∈ [(false, "/f")], call.2 ≠ "/f" → ∀ token',
      computeCapioclTokenName "/" call.2 .homeNode = some token' → token'.place ≠ token.place :=
    fun call hcall hne => absurd (congrArg Prod.snd (List.mem_singleton.mp hcall)) hne
  exact ⟨_, hregs, hmulticast, hfiles,
    (homeNodes_card_le_one_iff hregs hcalls hpath hmulticast hfiles).mpr
      ((@backendsAgree_iff_firstLast _ "/" twoHosts FileTree.empty "/f" token [] [(false, "/f")] false
        htoken hwrites hspelling).mpr rfl)⟩

end Examples

end Monitor

end CapioCl
