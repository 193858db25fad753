import CapioCl.FileSystemMonitor
import CapioCl.Lib.Runs

/-!
# Commit tokens in one name space with the files

`isCommitted` asks whether anything stands where the commit token belongs. A directory may: the
one that a call has made on the way to its own token. `commitTokens_iff` says when a run of
`setCommitted` and `setHomeNode` calls makes exactly the committed paths committed.
-/

namespace CapioCl

open CapioCl.Lib CapioCl.Lib.Runs

namespace FileSystemMonitor

/-! ## Normal paths -/

/-- The names of an absolute, lexically normal path that is not the root and does not end in a
slash. -/
structure NormalNames (names : List FileName) (path : String) : Prop where
  path_eq : path.toList = '/' :: ['/'].intercalate names
  nonempty : names ≠ []
  proper : ∀ name ∈ names, FileTree.Proper name
  noSlash : ∀ name ∈ names, '/' ∉ name

def Normal (path : String) : Prop := ∃ names, NormalNames names path

theorem NormalNames.isAbsolute {names : List FileName} {path : String}
    (h : NormalNames names path) : isAbsolute path = true := by
  unfold CapioCl.isAbsolute
  rw [h.path_eq]
  rfl

theorem NormalNames.pathElements {names : List FileName} {path : String}
    (h : NormalNames names path) : pathElements path = names := by
  have hsplit : path.toList.splitOn '/' = [] :: names := by
    have hlist : path.toList = [] ++ '/' :: ['/'].intercalate names := h.path_eq
    rw [hlist, List.splitOn_append_cons_self_of_not_mem (by simp),
      List.splitOn_intercalate _ h.noSlash h.nonempty]
  have hfilter : ([] :: names).filter (fun name => name ≠ []) = names := by
    rw [List.filter_cons_of_neg (by simp)]
    exact List.filter_eq_self.mpr fun name hname => by simp [(h.proper name hname).1]
  have hlast : path.toList.getLast? ≠ some '/' := by
    intro heq
    obtain ⟨cs, hcs⟩ := List.getLast?_eq_some_iff.mp heq
    rw [hcs, show ['/'] = '/' :: [] from rfl, List.splitOn_append_cons_self] at hsplit
    have hmem : [] ∈ names := by
      have hend : ([] :: names).getLast? = some [] := by
        rw [← hsplit, List.splitOn_nil, List.getLast?_concat]
      rw [List.getLast?_cons, Option.some_inj] at hend
      cases hnames : names.getLast? with
      | none => exact absurd (List.getLast?_eq_none_iff.mp hnames) h.nonempty
      | some last =>
        rw [hnames] at hend
        exact hend ▸ List.mem_of_getLast? hnames
    exact (h.proper [] hmem).1 rfl
  unfold CapioCl.pathElements
  simp only [hsplit, hfilter]
  rw [if_neg fun hcond => hlast hcond.1]

/-! ## Tokens of normal paths -/

section Token

variable {cwd path path' : String} {names : List FileName} {type type' : TokenType}
  {token token' : Token} {t : FileTree}

theorem NormalNames.computeCapioclTokenName (h : NormalNames names path) (cwd : String)
    (type : TokenType) : ∃ token, computeCapioclTokenName cwd path type = some token ∧
      token.dir = names.dropLast ∧
      token.name = '.' :: (names.getLast h.nonempty ++ type.extension) := by
  have hne : path ≠ "" := by
    rintro rfl
    exact absurd h.path_eq (by simp)
  have habs : absolute cwd path = some names := by
    unfold absolute join
    rw [if_neg hne, if_pos h.isAbsolute, h.pathElements]
  have hlast : names.getLast?.getD [] = names.getLast h.nonempty := by
    rw [List.getLast?_eq_some_getLast h.nonempty, Option.getD_some]
  unfold FileSystemMonitor.computeCapioclTokenName
  rw [habs, Option.map_some]
  exact ⟨_, rfl, rfl, by rw [← hlast]⟩

/-- Where the token of a normal path stands. -/
theorem NormalNames.place (h : NormalNames names path)
    (htoken : FileSystemMonitor.computeCapioclTokenName cwd path type = some token) :
    token.place =
      ('.' :: (names.getLast h.nonempty ++ type.extension)) :: names.dropLast.reverse := by
  obtain ⟨token', htoken', hdir, hname⟩ := h.computeCapioclTokenName cwd type
  cases htoken.symm.trans htoken'
  unfold Token.place
  rw [hname, hdir, FileTree.place_of_proper fun n hn => h.proper n (List.dropLast_subset names hn),
    List.append_nil]

theorem Normal.properDir (h : Normal path)
    (htoken : FileSystemMonitor.computeCapioclTokenName cwd path type = some token) :
    ∀ name ∈ token.dir, FileTree.Proper name := by
  obtain ⟨names, h⟩ := h
  obtain ⟨token', htoken', hdir, -⟩ := h.computeCapioclTokenName cwd type
  cases htoken.symm.trans htoken'
  rw [hdir]
  exact fun n hn => h.proper n (List.dropLast_subset names hn)

/-- The two kinds of tokens have different names. -/
theorem extension_inj {a b : List Char} (h : a ++ type.extension = b ++ type'.extension) :
    type = type' := by
  have hcommit : ∀ cs : List Char, (cs ++ TokenType.commit.extension).getLast? = some 't' := by
    intro cs
    rw [show TokenType.commit.extension = ".commi".toList ++ ['t'] from by decide,
      ← List.append_assoc, List.getLast?_concat]
  have hhome : ∀ cs : List Char, (cs ++ TokenType.homeNode.extension).getLast? = some 'e' := by
    intro cs
    rw [show TokenType.homeNode.extension = ".home_nod".toList ++ ['e'] from by decide,
      ← List.append_assoc, List.getLast?_concat]
  have hlast := congrArg List.getLast? h
  cases type with
  | commit =>
    cases type' with
    | commit => rfl
    | homeNode =>
      rw [hcommit, hhome] at hlast
      exact absurd hlast (by decide)
  | homeNode =>
    cases type' with
    | commit =>
      rw [hcommit, hhome] at hlast
      exact absurd hlast (by decide)
    | homeNode => rfl

/-- A token tells the path and the kind. -/
theorem Normal.token_inj (h : Normal path) (h' : Normal path')
    (htoken : FileSystemMonitor.computeCapioclTokenName cwd path type = some token)
    (htoken' : FileSystemMonitor.computeCapioclTokenName cwd path' type' = some token')
    (hplace : token.place = token'.place) : type = type' ∧ path = path' := by
  obtain ⟨names, h⟩ := h
  obtain ⟨names', h'⟩ := h'
  rw [h.place htoken, h'.place htoken'] at hplace
  simp only [List.cons.injEq, true_and, List.reverse_inj] at hplace
  obtain ⟨hname, hdir⟩ := hplace
  have htype := extension_inj hname
  subst htype
  have hlast := List.append_cancel_right hname
  refine ⟨rfl, ?_⟩
  have hnames : names = names' := by
    rw [← List.dropLast_append_getLast h.nonempty, ← List.dropLast_append_getLast h'.nonempty,
      hdir, hlast]
  subst hnames
  exact String.toList_inj.mp (h.path_eq.trans h'.path_eq.symm)

/-- Below normal names something is there when it has a node. -/
theorem Normal.tokenExists_iff (h : Normal path)
    (htoken : FileSystemMonitor.computeCapioclTokenName cwd path type = some token) :
    tokenExists t token = true ↔ t.node token.place ≠ none := by
  rw [FileSystemMonitor.tokenExists_iff]
  refine and_iff_right_of_imp fun hnode w hw => ?_
  obtain ⟨names, hnames⟩ := FileTree.ways_suffix_place (h.properDir htoken) hw
  have hplace : token.place = (token.name :: names) ++ w := by
    unfold Token.place
    rw [← hnames, List.cons_append]
  rw [hplace] at hnode
  exact FileTree.dir_of_append (by simp) hnode

end Token

/-! ## Runs -/

/-- A call of some instance; the instance matters by its host name only. -/
inductive TokenCall where
  | setCommitted (path : String)
  | setHomeNode (host : HostName) (path : String)

namespace TokenCall

def path : TokenCall → String
  | .setCommitted path | .setHomeNode _ path => path

/-- The kind of token a call generates. -/
def type : TokenCall → TokenType
  | .setCommitted _ => .commit
  | .setHomeNode _ _ => .homeNode

/-- What a call writes into its token. -/
def content : TokenCall → String
  | .setCommitted _ => ""
  | .setHomeNode host _ => host.name ++ "\n"

/-- The file system after a call, whether it has returned or thrown. -/
def perform (cwd : String) (t : FileTree) : TokenCall → FileTree
  | .setCommitted path => (FileSystemMonitor.setCommitted cwd t path).1
  | .setHomeNode host path => (FileSystemMonitor.setHomeNode cwd host t path).1

end TokenCall

/-- The directories a call makes on the way to a token that is not there, when no file is in the
way. -/
structure Token.Creates (token : Token) (t : FileTree) (x : Location) : Prop where
  missing : ¬tokenExists t token = true
  through : ¬token.Blocked t
  way : x ∈ token.ways
  free : t.node x = none

/-- A call that keeps a run's commit tokens to its committed paths: a commit finds no file on its
way, and a directory that is made in the place of a commit token is that of a path which the run
commits. -/
structure KeepsCommits (cwd : String) (calls : List TokenCall) (t : FileTree) (call : TokenCall) :
    Prop where
  through : ∀ path token, call = .setCommitted path →
    computeCapioclTokenName cwd path .commit = some token → ¬token.Blocked t
  ways : ∀ token path commitToken,
    computeCapioclTokenName cwd call.path call.type = some token → Normal path →
    computeCapioclTokenName cwd path .commit = some commitToken →
    token.Creates t commitToken.place → .setCommitted path ∈ calls

section Runs

variable {cwd : String} {t : FileTree} {calls : List TokenCall} {call : TokenCall}

theorem TokenCall.perform_eq_generate (cwd : String) (t : FileTree) (call : TokenCall) :
    call.perform cwd t = (generate cwd call.type call.content t call.path).1 := by
  cases call <;> rfl

theorem TokenCall.perform_eq {token : Token}
    (h : computeCapioclTokenName cwd call.path call.type = some token) :
    call.perform cwd t = (generateToken t token call.content).1 := by
  rw [TokenCall.perform_eq_generate, generate_some h]

theorem TokenCall.perform_grows (cwd : String) (t : FileTree) (call : TokenCall) :
    t.Grows (call.perform cwd t) := by
  rw [TokenCall.perform_eq_generate]
  exact generate_grows cwd call.type call.content t call.path

theorem grows_stateAt {m n : Nat} (h : m ≤ n) :
    (stateAt (TokenCall.perform cwd) t calls m).Grows
      (stateAt (TokenCall.perform cwd) t calls n) :=
  stateAt_rel _ FileTree.Grows.refl (fun _ _ _ => FileTree.Grows.trans)
    (TokenCall.perform_grows cwd) h

/-- What a call with a normal path puts in a place that was free. -/
theorem perform_node_of_none (hcall : Normal call.path) {token : Token}
    (htoken : computeCapioclTokenName cwd call.path call.type = some token) {x : Location}
    (hx : t.node x = none) :
    (call.perform cwd t).node x = none ∨ token.Creates t x ∨ x = token.place := by
  rw [TokenCall.perform_eq htoken]
  by_cases hblocked : token.Blocked t
  · have hthrough : (t.mkdirs [] token.dir).2 = false := by
      rw [← Bool.not_eq_true, mkdirs_through]
      exact fun h => h hblocked
    rw [generateToken_of_blocked hblocked,
      FileTree.mkdirs_of_blocked (hcall.properDir htoken) t.root hthrough]
    exact .inl hx
  · obtain hsame | ⟨hway, -, hmissing, -⟩ | ⟨hplace, -⟩ :=
      generateToken_node t token call.content x
    · exact .inl (hsame.trans hx)
    · exact .inr (.inl ⟨hmissing, hblocked, hway, hx⟩)
    · exact .inr (.inr hplace)

/-- A directory that a call makes is there afterwards. -/
theorem Token.Creates.perform {token : Token} {x : Location}
    (htoken : computeCapioclTokenName cwd call.path call.type = some token)
    (h : token.Creates t x) : (call.perform cwd t).node x ≠ none := by
  rw [TokenCall.perform_eq htoken, (tokenExists_iff.mp (generateToken_exists _ h.through)).1 x h.way]
  simp

theorem isCommitted_eq {path : String} {token : Token}
    (h : computeCapioclTokenName cwd path .commit = some token) :
    isCommitted cwd t path = some (tokenExists t token) := by
  unfold isCommitted
  rw [h, Option.map_some]

theorem Normal.exists_token {path : String} (h : Normal path) (cwd : String) (type : TokenType) :
    ∃ token, computeCapioclTokenName cwd path type = some token := by
  obtain ⟨names, h⟩ := h
  obtain ⟨token, htoken, -⟩ := h.computeCapioclTokenName cwd type
  exact ⟨token, htoken⟩

/-- In a run whose calls all keep the commits, only the committed paths get a commit token. -/
theorem node_of_keeps {path : String} {token : Token} (hpath : Normal path)
    (htoken : computeCapioclTokenName cwd path .commit = some token)
    (hnormal : ∀ call ∈ calls, Normal call.path) (hinit : t.node token.place = none)
    (hkeeps : ∀ n call, calls[n]? = some call →
      KeepsCommits cwd calls (stateAt (TokenCall.perform cwd) t calls n) call) (n : Nat) :
    (stateAt (TokenCall.perform cwd) t calls n).node token.place = none ∨
      .setCommitted path ∈ calls := by
  refine always (TokenCall.perform cwd)
    (I := fun m => m.node token.place = none ∨ .setCommitted path ∈ calls)
    (.inl hinit) (fun n call hn hs => ?_) n
  rw [stateAt_succ _ hn]
  cases hs with
  | inr hcalled => exact .inr hcalled
  | inl hnone =>
    have hcall := hnormal call (List.mem_of_getElem? hn)
    obtain ⟨callToken, hcallToken⟩ := hcall.exists_token cwd call.type
    obtain hfree | hcreates | hplace := perform_node_of_none hcall hcallToken hnone
    · exact .inl hfree
    · exact .inr ((hkeeps n call hn).ways callToken path token hcallToken hpath htoken hcreates)
    · right
      obtain ⟨htype, hsame⟩ := hpath.token_inj hcall htoken hcallToken hplace
      cases call with
      | setCommitted path' =>
        cases (hsame : path = path')
        exact List.mem_of_getElem? hn
      | setHomeNode host path' => cases htype

/-- **When the commit tokens of a run do not interfere.** From a file system without commit tokens,
any calls with normal paths leave exactly the committed paths committed, if and only if no commit
finds a file on its way, and no directory that a call makes stands in the place of the commit token
of a path that the run does not commit. -/
theorem commitTokens_iff (hnormal : ∀ call ∈ calls, Normal call.path)
    (hinit : ∀ path token, Normal path → computeCapioclTokenName cwd path .commit = some token →
      ¬tokenExists t token = true) :
    (∀ path, Normal path →
      (isCommitted cwd (calls.foldl (TokenCall.perform cwd) t) path = some true ↔
        .setCommitted path ∈ calls)) ↔
      ∀ n call, calls[n]? = some call →
        KeepsCommits cwd calls (stateAt (TokenCall.perform cwd) t calls n) call := by
  have hend : ∀ n, (stateAt (TokenCall.perform cwd) t calls n).Grows
      (calls.foldl (TokenCall.perform cwd) t) := by
    intro n
    rw [← stateAt_of_length_le _ (Nat.le_max_left calls.length n)]
    exact grows_stateAt (Nat.le_max_right _ _)
  constructor
  · intro hall n call hn
    have hmem := List.mem_of_getElem? hn
    have hgrows := hend (n + 1)
    rw [stateAt_succ _ hn] at hgrows
    constructor
    · rintro path token rfl htoken hblocked
      have hcommitted := (hall path (hnormal _ hmem)).mpr hmem
      rw [isCommitted_eq htoken, Option.some_inj] at hcommitted
      exact not_blocked_of_exists hcommitted (hblocked.mono (hend n))
    · intro token path commitToken htoken hpath hcommitToken hcreates
      have hnode := hgrows.node_ne_none (hcreates.perform htoken)
      refine (hall path hpath).mp ?_
      rw [isCommitted_eq hcommitToken, Option.some_inj, hpath.tokenExists_iff hcommitToken]
      exact hnode
  · intro hkeeps path hpath
    obtain ⟨token, htoken⟩ := hpath.exists_token cwd .commit
    rw [isCommitted_eq htoken, Option.some_inj]
    constructor
    · intro hexists
      have hfree : t.node token.place = none := by
        have hmissing := hinit path token hpath htoken
        rw [hpath.tokenExists_iff htoken] at hmissing
        exact not_not.mp hmissing
      rw [hpath.tokenExists_iff htoken, ← stateAt_of_length_le _ le_rfl] at hexists
      exact (node_of_keeps hpath htoken hnormal hfree hkeeps calls.length).resolve_left hexists
    · intro hmem
      obtain ⟨n, hn⟩ := List.mem_iff_getElem?.mp hmem
      have hthrough := (hkeeps n _ hn).through path token rfl htoken
      have hgrows := hend (n + 1)
      rw [stateAt_succ _ hn, TokenCall.perform_eq htoken] at hgrows
      exact tokenExists_mono hgrows (generateToken_exists _ hthrough)

end Runs

theorem normal_a_b : Normal "/a/b" :=
  ⟨["a".toList, "b".toList], by decide +kernel, by decide, by unfold FileTree.Proper; decide,
    by decide⟩

/-- The commit of `/a/.b.commit/x` makes the directory `/a/.b.commit`, and so commits `/a/b`. -/
theorem directoryOnTheWay_commits :
    let calls := [TokenCall.setCommitted "/a/.b.commit/x"]
    (∀ call ∈ calls, Normal call.path) ∧ Normal "/a/b" ∧
      isCommitted "/" (calls.foldl (TokenCall.perform "/") FileTree.empty) "/a/b" = some true ∧
      ¬∃ call ∈ calls, call.path = "/a/b" := by
  have hpath : Normal "/a/.b.commit/x" :=
    ⟨["a".toList, ".b.commit".toList, "x".toList], by decide +kernel, by decide,
      by unfold FileTree.Proper; decide, by decide⟩
  refine ⟨?_, normal_a_b, by decide +kernel, ?_⟩
  · intro call hcall
    cases List.mem_singleton.mp hcall
    exact hpath
  · rintro ⟨call, hcall, heq⟩
    cases List.mem_singleton.mp hcall
    exact absurd heq (by decide)

/-- A commit and a registration in the root directory. -/
theorem rootTokens_separate :
    let calls := [TokenCall.setCommitted "/b", .setHomeNode .alpha "/c"]
    ∀ path, Normal path →
      (isCommitted "/" (calls.foldl (TokenCall.perform "/") FileTree.empty) path = some true ↔
        .setCommitted path ∈ calls) := by
  intro calls
  have hb : NormalNames ["b".toList] "/b" :=
    ⟨by decide +kernel, by decide, by unfold FileTree.Proper; decide, by decide⟩
  have hc : NormalNames ["c".toList] "/c" :=
    ⟨by decide +kernel, by decide, by unfold FileTree.Proper; decide, by decide⟩
  have hcalls : ∀ call ∈ calls, Normal call.path ∧ ∃ token,
      computeCapioclTokenName "/" call.path call.type = some token ∧ token.dir = [] := by
    intro call hcall
    simp only [calls, List.mem_cons, List.not_mem_nil, or_false] at hcall
    obtain rfl | rfl := hcall
    · obtain ⟨token, htoken, hdir, -⟩ := hb.computeCapioclTokenName "/" .commit
      exact ⟨⟨_, hb⟩, token, htoken, hdir⟩
    · obtain ⟨token, htoken, hdir, -⟩ := hc.computeCapioclTokenName "/" .homeNode
      exact ⟨⟨_, hc⟩, token, htoken, hdir⟩
  refine (commitTokens_iff (fun call hcall => (hcalls call hcall).1) ?_).mpr ?_
  · intro path token hpath htoken hexists
    exact (tokenExists_iff.mp hexists).2 (FileTree.empty_node_cons _ _)
  · intro n call hn
    obtain ⟨-, token, htoken, hdir⟩ := hcalls call (List.mem_of_getElem? hn)
    have hways : token.ways = [] := by
      unfold Token.ways
      rw [hdir]
      rfl
    constructor
    · rintro path token' rfl htoken' ⟨w, hw, -⟩
      cases htoken.symm.trans htoken'
      rw [hways] at hw
      exact nomatch hw
    · intro token' path commitToken htoken' _ _ hcreates
      cases htoken.symm.trans htoken'
      have hw := hcreates.way
      rw [hways] at hw
      exact nomatch hw

end FileSystemMonitor

end CapioCl
