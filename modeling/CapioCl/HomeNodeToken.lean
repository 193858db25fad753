import CapioCl.FileSystemMonitor
import CapioCl.Lib.Runs

/-!
# Home nodes on the file system

The instances share the token files, and each keeps a memo of what it has answered, the answer
`NO_HOME_NODE` included. A token that exists is left as it is, whoever has written it.

`homeNode_visible` says when every `getHomeNode(p)` after a completed `setHomeNode(p)` gives the host
of an instance that has called `setHomeNode(p)`; `staleMemo_hides` is a run in which the memo of an
earlier question gives `NO_HOME_NODE`.
-/

namespace CapioCl

open CapioCl.Lib CapioCl.Lib.Runs

namespace FileSystemMonitor

/-- `NO_HOME_NODE` (`monitor.h:25`). -/
def noHomeNode : String := "<NONE>"

/-- `file >> home_node`: the first word of a file. -/
def firstWord (content : String) : String :=
  String.ofList ((content.toList.dropWhile isspace).takeWhile fun c => !isspace c)

/-- What a token says; nothing can be read of a directory. -/
def readToken : Node → String
  | .dir => ""
  | .file content => firstWord content

/-- The instances of a process group: their file system and their memos `_home_nodes`. -/
structure HomeNodes (ι : Type) where
  tree : FileTree
  memo : ι → String → Option String := fun _ _ => none

/-- `getHomeNode` without the memo. -/
def lookupHomeNode (t : FileTree) (token : Token) : String :=
  match t.status token.path with
  | some node => readToken node
  | none => noHomeNode

section Calls

variable {ι : Type} [DecidableEq ι] (cwd : String) (hostname : ι → HostName)

/-- What `getHomeNode` returns on an instance; `none` when it throws. -/
def getHomeNode (s : HomeNodes ι) (i : ι) (path : String) : Option String :=
  (computeCapioclTokenName cwd path .homeNode).map fun token =>
    (s.memo i path).getD (lookupHomeNode s.tree token)

/-- A call on an instance. -/
inductive HomeNodeCall (ι : Type) where
  | setHomeNode (i : ι) (path : String)
  | getHomeNode (i : ι) (path : String)
  deriving Repr, DecidableEq

/-- The state after a call. `getHomeNode` remembers its answer. -/
def HomeNodes.perform (s : HomeNodes ι) : HomeNodeCall ι → HomeNodes ι
  | .setHomeNode i path => { s with tree := (FileSystemMonitor.setHomeNode cwd (hostname i) s.tree path).1 }
  | .getHomeNode i path =>
    match FileSystemMonitor.getHomeNode cwd s i path with
    | some answer => { s with memo := Function.update s.memo i
                                (Function.update (s.memo i) path (some answer)) }
    | none => s

end Calls

/-! ## Words -/

theorem isspace_of_isAlphanum {c : Char} (h : c.isAlphanum = true) : isspace c = false := by
  have hrange : ('A'.val ≤ c.val ∧ c.val ≤ 'Z'.val) ∨ ('a'.val ≤ c.val ∧ c.val ≤ 'z'.val) ∨
      ('0'.val ≤ c.val ∧ c.val ≤ '9'.val) := by
    rcases Bool.or_eq_true_iff.mp h with halpha | hdigit
    · rcases Bool.or_eq_true_iff.mp halpha with hupper | hlower
      · exact .inl (of_decide_eq_true hupper)
      · obtain ⟨hlow, hhigh⟩ := Bool.and_eq_true_iff.mp hlower
        exact .inr (.inl ⟨of_decide_eq_true hlow, of_decide_eq_true hhigh⟩)
    · obtain ⟨hlow, hhigh⟩ := Bool.and_eq_true_iff.mp hdigit
      exact .inr (.inr ⟨of_decide_eq_true hlow, of_decide_eq_true hhigh⟩)
  simp only [UInt32.le_iff_toNat_le] at hrange
  unfold isspace
  simp only [Bool.or_eq_false_iff, Bool.and_eq_false_iff, decide_eq_false_iff_not]
  have hbounds : 'A'.val.toNat = 65 ∧ 'Z'.val.toNat = 90 ∧ 'a'.val.toNat = 97 ∧
      'z'.val.toNat = 122 ∧ '0'.val.toNat = 48 ∧ '9'.val.toNat = 57 := by
    decide
  have hval : c.toNat = c.val.toNat := rfl
  omega

theorem noSpaces_hostName (host : HostName) : NoSpaces host.name := by
  intro c hc
  have hchar := List.all_eq_true.mp host.chars c hc
  rw [Bool.or_eq_true] at hchar
  cases hchar with
  | inl halnum => exact isspace_of_isAlphanum halnum
  | inr hpunct =>
    simp only [List.contains_eq_mem, List.mem_cons, List.not_mem_nil, or_false,
      decide_eq_true_eq] at hpunct
    obtain rfl | rfl | rfl := hpunct <;> decide

/-- A host is read back from the first line of a token. -/
theorem firstWord_line (host : HostName) (rest : String) :
    firstWord (host.name ++ "\n" ++ rest) = host.name := by
  have hspaces := noSpaces_hostName host
  have hne : host.name.toList ≠ [] := fun e => host.nonempty (String.toList_eq_nil_iff.mp e)
  obtain ⟨c, cs, hcs⟩ := List.exists_cons_of_ne_nil hne
  have hline : (host.name ++ "\n" ++ rest).toList = host.name.toList ++ '\n' :: rest.toList := by
    simp
  have hdrop : (host.name.toList ++ '\n' :: rest.toList).dropWhile isspace =
      host.name.toList ++ '\n' :: rest.toList := by
    rw [hcs, List.cons_append,
      List.dropWhile_cons_of_neg (by rw [hspaces c (by rw [hcs]; simp)]; simp)]
  have htake : (host.name.toList ++ '\n' :: rest.toList).takeWhile (fun c => !isspace c) =
      host.name.toList := by
    rw [List.takeWhile_append_of_pos fun c hc => by rw [hspaces c hc]; rfl]
    simp [show isspace '\n' = true from by decide]
  unfold firstWord
  rw [hline, hdrop, htake, String.ofList_toList]

/-- A host is read back from its token. -/
theorem firstWord_host (host : HostName) : firstWord (host.name ++ "\n") = host.name := by
  simpa using firstWord_line host ""

theorem hostName_ne_noHomeNode (host : HostName) : host.name ≠ noHomeNode := by
  intro heq
  have hmem : '<' ∈ host.name.toList := by
    rw [heq]
    decide
  exact host.notMem rfl hmem

theorem getElem?_past {α : Type} {past : List α} {a b : α} {m : Nat} (h : past[m]? = some a) :
    (past ++ [b])[m]? = some a := by
  obtain ⟨hlt, -⟩ := List.getElem?_eq_some_iff.mp h
  rw [List.getElem?_append_left hlt, h]

/-- What an instance answers about a token that is there. -/
theorem lookupHomeNode_eq {t : FileTree} {token : Token} {node : Node}
    (hexists : tokenExists t token = true) (hnode : t.node token.place = some node) :
    lookupHomeNode t token = readToken node := by
  unfold lookupHomeNode Token.path
  rw [FileTree.status_of_ways (tokenExists_iff.mp hexists).1, token.next_name]
  rw [show t.node (token.name :: FileTree.place [] token.dir) = some node from hnode]

theorem lookupHomeNode_of_missing {t : FileTree} {token : Token}
    (h : ¬tokenExists t token = true) : lookupHomeNode t token = noHomeNode := by
  unfold tokenExists at h
  rw [Option.not_isSome_iff_eq_none] at h
  unfold lookupHomeNode
  rw [h]

/-! ## Runs -/

section Runs

variable {ι : Type} [DecidableEq ι] {cwd : String} {hostname : ι → HostName} {t : FileTree}
  {calls past : List (HomeNodeCall ι)} {s : HomeNodes ι} {i : ι} {path : String} {token : Token}

/-- The state before the `n`-th call of a run that starts with empty memos. -/
def before (cwd : String) (hostname : ι → HostName) (t : FileTree) (calls : List (HomeNodeCall ι))
    (n : Nat) : HomeNodes ι :=
  stateAt (HomeNodes.perform cwd hostname) { tree := t } calls n

@[simp] theorem perform_setHomeNode : s.perform cwd hostname (.setHomeNode i path) =
    { s with tree := (setHomeNode cwd (hostname i) s.tree path).1 } := rfl

@[simp] theorem perform_getHomeNode_tree :
    (s.perform cwd hostname (.getHomeNode i path)).tree = s.tree := by
  unfold HomeNodes.perform
  cases h : getHomeNode cwd s i path <;> simp only [h]

/-- A memo entry was there before, or is the answer of this call. -/
theorem perform_getHomeNode_memo {j : ι} {path' answer : String}
    (h : (s.perform cwd hostname (.getHomeNode i path)).memo j path' = some answer) :
    s.memo j path' = some answer ∨ (j = i ∧ path' = path ∧ ∃ token,
      computeCapioclTokenName cwd path .homeNode = some token ∧
        answer = lookupHomeNode s.tree token) := by
  unfold HomeNodes.perform getHomeNode at h
  cases htoken : computeCapioclTokenName cwd path .homeNode with
  | none =>
    simp only [htoken, Option.map_none] at h
    exact .inl h
  | some token =>
    simp only [htoken, Option.map_some, Function.update_apply] at h
    split at h
    · rename_i hj
      subst hj
      rw [Function.update_apply] at h
      split at h
      · rename_i hpath
        subst hpath
        cases hold : s.memo j path' with
        | some answer' =>
          rw [hold, Option.getD_some] at h
          exact .inl h
        | none =>
          rw [hold, Option.getD_none, Option.some_inj] at h
          exact .inr ⟨rfl, rfl, token, rfl, h.symm⟩
      · exact .inl h
    · exact .inl h

/-- A `setHomeNode` that returns. -/
def Completes (cwd : String) (hostname : ι → HostName) (s : HomeNodes ι) (i : ι)
    (path : String) : Prop :=
  (setHomeNode cwd (hostname i) s.tree path).2 = true

/-- What a registration may find: a file on the way to its token, so that it throws; nothing in
the token's place, and no way through that place; or the token of an instance that registers the
path now or has done so. -/
def FindsOwnToken (cwd : String) (hostname : ι → HostName) (past : List (HomeNodeCall ι))
    (t : FileTree) (i : ι) (path : String) : Prop :=
  ∀ token, computeCapioclTokenName cwd path .homeNode = some token →
    token.Blocked t ∨ (t.node token.place = none ∧ token.place ∉ token.ways) ∨
      ∃ k, (k = i ∨ .setHomeNode k path ∈ past) ∧
        t.node token.place = some (.file ((hostname k).name ++ "\n"))

/-- The runs that keep registrations visible: every registration finds its token's place free or
its own, and no instance that has asked for a path without a token asks for it again after a
registration of the path has completed. -/
structure KeepsHomeNodes (cwd : String) (hostname : ι → HostName) (t : FileTree)
    (calls : List (HomeNodeCall ι)) : Prop where
  finds : ∀ n i path, calls[n]? = some (.setHomeNode i path) →
    FindsOwnToken cwd hostname (calls.take n) (before cwd hostname t calls n).tree i path
  fresh : ∀ m n i path token, m < n → calls[m]? = some (.getHomeNode i path) →
    calls[n]? = some (.getHomeNode i path) →
    computeCapioclTokenName cwd path .homeNode = some token →
    ¬tokenExists (before cwd hostname t calls m).tree token = true →
    ¬∃ l j, l < n ∧ calls[l]? = some (.setHomeNode j path) ∧
      Completes cwd hostname (before cwd hostname t calls l) j path

/-- What holds between the calls so far and the state: a registration that no file blocks has left
its token with the host of an instance that has registered the path, and a memo says what the token
says, unless it was made when there was none. -/
structure TokensVisible (cwd : String) (hostname : ι → HostName) (t : FileTree)
    (calls past : List (HomeNodeCall ι)) (s : HomeNodes ι) : Prop where
  token : ∀ i path token, .setHomeNode i path ∈ past →
    computeCapioclTokenName cwd path .homeNode = some token → ¬token.Blocked s.tree →
    tokenExists s.tree token = true ∧ ∃ k, .setHomeNode k path ∈ past ∧
      s.tree.node token.place = some (.file ((hostname k).name ++ "\n"))
  memo : ∀ i path answer, s.memo i path = some answer → ∃ token,
    computeCapioclTokenName cwd path .homeNode = some token ∧
    ((∃ m, past[m]? = some (.getHomeNode i path) ∧
      ¬tokenExists (before cwd hostname t calls m).tree token = true) ∨
    (tokenExists s.tree token = true ∧
      ∃ node, s.tree.node token.place = some node ∧ answer = readToken node))

/-- A registration that finds its own token changes no file. -/
theorem TokensVisible.keeps (hs : TokensVisible cwd hostname t calls past s)
    (hfinds : FindsOwnToken cwd hostname past s.tree i path) {x : Location} {node : Node}
    (hx : s.tree.node x = some node) :
    (setHomeNode cwd (hostname i) s.tree path).1.node x = some node := by
  unfold setHomeNode
  cases htoken : computeCapioclTokenName cwd path .homeNode with
  | none =>
    rw [generate_none htoken]
    exact hx
  | some token =>
    rw [generate_some htoken]
    obtain hsame | ⟨-, hnone, -⟩ | ⟨rfl, hmissing, hthrough, hfile⟩ :=
      generateToken_node s.tree token ((hostname i).name ++ "\n") x
    · exact hsame.trans hx
    · rw [hx] at hnone
      cases hnone
    · rw [hfile]
      obtain hblocked | ⟨hfree, -⟩ | ⟨k, hk, hown⟩ := hfinds token htoken
      · exact absurd hblocked hthrough
      · rw [hx] at hfree
        cases hfree
      · cases hk with
        | inl heq =>
          subst heq
          exact hown.symm.trans hx
        | inr hmem => exact absurd (hs.token k path token hmem htoken hthrough).1 hmissing

/-- What a registration that no file blocks leaves in its token's place. -/
theorem TokensVisible.registered (hs : TokensVisible cwd hostname t calls past s)
    (hfinds : FindsOwnToken cwd hostname past s.tree i path)
    (htoken : computeCapioclTokenName cwd path .homeNode = some token)
    (hthrough : ¬token.Blocked s.tree) : ∃ k, (k = i ∨ .setHomeNode k path ∈ past) ∧
      (setHomeNode cwd (hostname i) s.tree path).1.node token.place =
        some (.file ((hostname k).name ++ "\n")) := by
  obtain hblocked | ⟨hfree, hway⟩ | ⟨k, hk, hown⟩ := hfinds token htoken
  · exact absurd hblocked hthrough
  · refine ⟨i, .inl rfl, ?_⟩
    have hmissing : ¬tokenExists s.tree token = true := fun h =>
      (tokenExists_iff.mp h).2 hfree
    have hmade : (s.tree.mkdirs [] token.dir).1.node token.place = none := by
      obtain hsame | ⟨hway', -⟩ := FileTree.mkdirs_node token.dir s.tree.root token.place
      · exact hsame.trans hfree
      · exact absurd hway' hway
    unfold setHomeNode
    rw [generate_some htoken, generateToken_of_missing hmissing hthrough,
      write_token (FileTree.mkdirs_ways s.tree.root (mkdirs_through.mpr hthrough))
        (by rw [hmade]; simp), Function.update_self]
  · exact ⟨k, hk, hs.keeps hfinds hown⟩

theorem TokensVisible.setHomeNode (hs : TokensVisible cwd hostname t calls past s)
    (hfinds : FindsOwnToken cwd hostname past s.tree i path) :
    TokensVisible cwd hostname t calls (past ++ [.setHomeNode i path])
      (s.perform cwd hostname (.setHomeNode i path)) := by
  have hgrows : s.tree.Grows (FileSystemMonitor.setHomeNode cwd (hostname i) s.tree path).1 :=
    generate_grows cwd .homeNode _ s.tree path
  constructor
  · intro j path' token hmem htoken hthrough'
    have hthrough : ¬token.Blocked s.tree := fun h => hthrough' (h.mono hgrows)
    cases List.mem_append.mp hmem with
    | inl hpast =>
      obtain ⟨hexists, k, hk, hnode⟩ := hs.token j path' token hpast htoken hthrough
      exact ⟨tokenExists_mono hgrows hexists, k, List.mem_append_left _ hk,
        hs.keeps hfinds hnode⟩
    | inr hnew =>
      cases List.mem_singleton.mp hnew
      obtain ⟨k, hk, hnode⟩ := hs.registered hfinds htoken hthrough
      refine ⟨?_, k, ?_, hnode⟩
      · rw [perform_setHomeNode]
        unfold FileSystemMonitor.setHomeNode
        rw [generate_some htoken]
        exact generateToken_exists _ hthrough
      · cases hk with
        | inl heq => simp [heq]
        | inr hpast => exact List.mem_append_left _ hpast
  · intro j path' answer hmemo
    obtain ⟨token, htoken, ⟨m, hm, hmissing⟩ | ⟨hexists, node, hnode, hanswer⟩⟩ :=
      hs.memo j path' answer hmemo
    · exact ⟨token, htoken, .inl ⟨m, getElem?_past hm, hmissing⟩⟩
    · exact ⟨token, htoken, .inr ⟨tokenExists_mono hgrows hexists, node,
        hs.keeps hfinds hnode, hanswer⟩⟩

theorem TokensVisible.getHomeNode (hs : TokensVisible cwd hostname t calls past s)
    (hbefore : s = before cwd hostname t calls past.length) :
    TokensVisible cwd hostname t calls (past ++ [.getHomeNode i path])
      (s.perform cwd hostname (.getHomeNode i path)) := by
  constructor
  · intro j path' token hmem htoken hthrough
    rw [perform_getHomeNode_tree] at hthrough ⊢
    have hpast : .setHomeNode j path' ∈ past := by
      cases List.mem_append.mp hmem with
      | inl hpast => exact hpast
      | inr hnew => cases List.mem_singleton.mp hnew
    obtain ⟨hexists, k, hk, hnode⟩ := hs.token j path' token hpast htoken hthrough
    exact ⟨hexists, k, List.mem_append_left _ hk, hnode⟩
  · intro j path' answer hmemo
    rw [perform_getHomeNode_tree]
    obtain hold | ⟨rfl, rfl, token, htoken, hanswer⟩ := perform_getHomeNode_memo hmemo
    · obtain ⟨token, htoken, h⟩ := hs.memo j path' answer hold
      exact ⟨token, htoken, h.imp (fun ⟨m, hm, hmissing⟩ => ⟨m, getElem?_past hm, hmissing⟩) id⟩
    · refine ⟨token, htoken, ?_⟩
      by_cases hexists : tokenExists s.tree token = true
      · obtain ⟨node, hnode⟩ := Option.ne_none_iff_exists'.mp (tokenExists_iff.mp hexists).2
        exact .inr ⟨hexists, node, hnode, hanswer.trans (lookupHomeNode_eq hexists hnode)⟩
      · refine .inl ⟨past.length, List.getElem?_concat_length, ?_⟩
        rw [← hbefore]
        exact hexists

theorem grows_before {m n : Nat} (h : m ≤ n) : (before cwd hostname t calls m).tree.Grows
    (before cwd hostname t calls n).tree := by
  refine stateAt_rel (R := fun s s' => s.tree.Grows s'.tree) (HomeNodes.perform cwd hostname)
    (fun s => FileTree.Grows.refl s.tree) (fun _ _ _ => FileTree.Grows.trans) (fun s call => ?_) h
  cases call with
  | setHomeNode i path => exact generate_grows cwd .homeNode _ s.tree path
  | getHomeNode i path =>
    rw [perform_getHomeNode_tree]
    exact FileTree.Grows.refl s.tree

/-- After a completed registration the token is there. -/
theorem exists_of_completes {l n : Nat} (hln : l < n)
    (hset : calls[l]? = some (.setHomeNode i path))
    (hcompletes : Completes cwd hostname (before cwd hostname t calls l) i path) :
    ∃ token, computeCapioclTokenName cwd path .homeNode = some token ∧
      tokenExists (before cwd hostname t calls n).tree token = true := by
  have hgrows : (before cwd hostname t calls (l + 1)).tree.Grows
      (before cwd hostname t calls n).tree := grows_before (Nat.succ_le_of_lt hln)
  have hnext : before cwd hostname t calls (l + 1) = _ := stateAt_succ _ hset
  rw [hnext, perform_setHomeNode] at hgrows
  unfold Completes at hcompletes
  unfold setHomeNode at hgrows hcompletes
  cases htoken : computeCapioclTokenName cwd path .homeNode with
  | none =>
    rw [generate_none htoken] at hcompletes
    cases hcompletes
  | some token =>
    rw [generate_some htoken, generateToken_snd] at hcompletes
    rw [generate_some htoken] at hgrows
    exact ⟨token, rfl, tokenExists_mono hgrows (generateToken_exists _ hcompletes)⟩

/-- **A registered home node is visible.** In a run that keeps its registrations visible, a
`getHomeNode(p)` after a completed `setHomeNode(p)` returns the host of an instance that has called
`setHomeNode(p)`, and never `NO_HOME_NODE`. -/
theorem homeNode_visible (hrun : KeepsHomeNodes cwd hostname t calls) {l n : Nat} {j : ι}
    (hln : l < n) (hset : calls[l]? = some (.setHomeNode j path))
    (hcompletes : Completes cwd hostname (before cwd hostname t calls l) j path)
    (hget : calls[n]? = some (.getHomeNode i path)) :
    ∃ k, .setHomeNode k path ∈ calls.take n ∧ (hostname k).name ≠ noHomeNode ∧
      getHomeNode cwd (before cwd hostname t calls n) i path = some (hostname k).name := by
  have hs : TokensVisible cwd hostname t calls (calls.take n) (before cwd hostname t calls n) := by
    refine always_past (HomeNodes.perform cwd hostname)
      (I := TokensVisible cwd hostname t calls)
      ⟨nofun, fun _ _ _ hmemo => by cases hmemo⟩ (fun m call hm hs => ?_) n
    cases call with
    | setHomeNode j path => exact hs.setHomeNode (hrun.finds m j path hm)
    | getHomeNode j path =>
      refine hs.getHomeNode ?_
      obtain ⟨hlt, -⟩ := List.getElem?_eq_some_iff.mp hm
      rw [List.length_take, Nat.min_eq_left hlt.le]
      rfl
  obtain ⟨token, htoken, hexists⟩ := exists_of_completes hln hset hcompletes
  obtain ⟨-, k, hk, hnode⟩ := hs.token j path token
    (List.mem_of_getElem? ((List.getElem?_take_of_lt hln).trans hset)) htoken
    (not_blocked_of_exists hexists)
  refine ⟨k, hk, hostName_ne_noHomeNode _, ?_⟩
  have hread : readToken (.file ((hostname k).name ++ "\n")) = (hostname k).name :=
    firstWord_host _
  unfold FileSystemMonitor.getHomeNode
  rw [htoken, Option.map_some, Option.some_inj]
  cases hmemo : (before cwd hostname t calls n).memo i path with
  | none => rw [Option.getD_none, lookupHomeNode_eq hexists hnode, hread]
  | some answer =>
    rw [Option.getD_some]
    obtain ⟨token', htoken', h⟩ := hs.memo i path answer hmemo
    cases htoken.symm.trans htoken'
    obtain ⟨m, hm, hmissing⟩ | ⟨-, node, hnode', hanswer⟩ := h
    · obtain ⟨hmn, -⟩ := List.getElem?_eq_some_iff.mp hm
      rw [List.length_take] at hmn
      have hlt : m < n := by omega
      rw [List.getElem?_take_of_lt hlt] at hm
      exact absurd ⟨l, j, hln, hset, hcompletes⟩
        (hrun.fresh m n i path token hlt hm hget htoken hmissing)
    · cases hnode.symm.trans hnode'
      rw [hanswer, hread]

end Runs

section Examples

open HostName (alpha beta)

/-- An instance that has asked too early never learns what it registers itself. -/
theorem staleMemo_hides :
    let calls : List (HomeNodeCall Unit) :=
      [.getHomeNode () "/f", .setHomeNode () "/f", .getHomeNode () "/f"]
    Completes "/" (fun _ => alpha) (before "/" (fun _ => alpha) FileTree.empty calls 1) () "/f" ∧
      getHomeNode "/" (before "/" (fun _ => alpha) FileTree.empty calls 2) () "/f" =
        some noHomeNode := by
  unfold Completes
  decide +kernel

/-- One instance registers, another asks. -/
theorem otherInstance_visible :
    let hostname : Bool → HostName := fun i => bif i then beta else alpha
    let calls : List (HomeNodeCall Bool) := [.setHomeNode false "/f", .getHomeNode true "/f"]
    getHomeNode "/" (before "/" hostname FileTree.empty calls 1) true "/f" = some "alpha" := by
  intro hostname calls
  have hdir : ∀ token, computeCapioclTokenName "/" "/f" .homeNode = some token →
      token.dir = [] := by
    intro token htoken
    have hmap : (computeCapioclTokenName "/" "/f" .homeNode).map Token.dir = some [] := by
      decide +kernel
    rw [htoken, Option.map_some, Option.some_inj] at hmap
    exact hmap
  have hrun : KeepsHomeNodes "/" hostname FileTree.empty calls := by
    constructor
    · intro n i path hn token htoken
      match n, hn with
      | 0, hn =>
        cases hn
        refine .inr (.inl ⟨FileTree.empty_node_cons _ _, ?_⟩)
        unfold Token.ways
        rw [hdir token htoken]
        exact List.not_mem_nil
      | 1, hn => cases hn
    · intro m n i path token hmn hm hn
      match m, n, hmn with
      | 0, n, _ => cases hm
      | 1, n + 2, _ => cases hn
      | m + 2, n, _ => cases hm
  obtain ⟨k, hk, -, hget⟩ := homeNode_visible hrun (by decide : 0 < 1) rfl
    (by unfold Completes; decide +kernel) rfl
  cases List.mem_singleton.mp hk
  exact hget

end Examples

end FileSystemMonitor

end CapioCl
