import CapioCl.Basic
import CapioCl.Lib.FileTree

/-!
# `FileSystemMonitor`

A commit and a home node are token files next to the file they are about. A path is its elements
here: `compute_capiocl_token_name` replaces the last one. The file system is a `FileTree`; calls
are made in one working directory `cwd`. Permissions, links and limits on names are left out.

`generateToken_node` says what a call may change in the tree and `generateToken_snd` when it
throws: exactly when a file is on the way to the token, for a path that is not empty.
-/

namespace CapioCl

open CapioCl.Lib

namespace FileSystemMonitor

/-- `CAPIO_CL_COMMIT_TOKEN_TYPES`. -/
inductive TokenType where
  | commit
  | homeNode
  deriving Repr, DecidableEq

/-- What `compute_capiocl_token_name` appends. -/
def TokenType.extension : TokenType → List Char
  | .commit => ".commit".toList
  | .homeNode => ".home_node".toList

/-- A token file: the directory it stands in and its name, which is longer than `..`. -/
structure Token where
  dir : List FileName
  name : FileName
  long : 2 < name.length

/-- The path of a token. -/
def Token.path (token : Token) : List FileName := token.dir ++ [token.name]

/-- Where a token stands. -/
def Token.place (token : Token) : Location := token.name :: FileTree.place [] token.dir

/-- The directories a token's path leads through. -/
def Token.ways (token : Token) : List Location := FileTree.ways [] token.dir

/-- `std::filesystem::absolute(path)`, which throws when the path is empty. -/
def absolute (cwd path : String) : Option (List FileName) :=
  if path = "" then none else some (pathElements (join cwd path))

/-- `compute_capiocl_token_name`. -/
def computeCapioclTokenName (cwd path : String) (type : TokenType) : Option Token :=
  (absolute cwd path).map fun abs =>
    { dir := abs.dropLast
      name := '.' :: (abs.getLast?.getD [] ++ type.extension)
      long := by
        have : 2 ≤ type.extension.length := by cases type <;> decide
        rw [List.length_cons, List.length_append]
        omega }

/-- `std::filesystem::exists(token_name)`. -/
def tokenExists (t : FileTree) (token : Token) : Bool := (t.status token.path).isSome

/-- The body of `generate_commit_token` and `generate_home_node_token`: the tree after it, and
whether it returns. -/
def generateToken (t : FileTree) (token : Token) (content : String) : FileTree × Bool :=
  if tokenExists t token then (t, true)
  else
    let (made, through) := t.mkdirs [] token.dir
    if through then (made.write token.dir token.name content, true) else (made, false)

/-- A call that generates a token for a path; an empty path throws. -/
def generate (cwd : String) (type : TokenType) (content : String) (t : FileTree) (path : String) :
    FileTree × Bool :=
  match computeCapioclTokenName cwd path type with
  | some token => generateToken t token content
  | none => (t, false)

/-- `setCommitted`. -/
def setCommitted (cwd : String) (t : FileTree) (path : String) : FileTree × Bool :=
  generate cwd .commit "" t path

/-- `isCommitted`; `none` when it throws. -/
def isCommitted (cwd : String) (t : FileTree) (path : String) : Option Bool :=
  (computeCapioclTokenName cwd path .commit).map (tokenExists t)

/-- `setHomeNode`. -/
def setHomeNode (cwd : String) (host : HostName) (t : FileTree) (path : String) :
    FileTree × Bool :=
  generate cwd .homeNode (host.name ++ "\n") t path

/-! ## What a call does -/

section Generate

variable {t : FileTree} {token : Token} {content : String}

/-- A file is on the way to the token. -/
def Token.Blocked (token : Token) (t : FileTree) : Prop :=
  ∃ w ∈ token.ways, ∃ content, t.node w = some (.file content)

/-- The name of a token leads somewhere new. -/
theorem Token.next_name (token : Token) (ℓ : Location) :
    FileTree.next ℓ token.name = token.name :: ℓ := by
  have hlong := token.long
  unfold FileTree.next
  rw [if_neg, if_neg]
  · intro heq
    rw [heq] at hlong
    exact absurd hlong (by decide)
  · rintro (heq | heq) <;> rw [heq] at hlong <;> exact absurd hlong (by decide)

theorem tokenExists_iff : tokenExists t token = true ↔
    (∀ w ∈ token.ways, t.node w = some .dir) ∧ t.node token.place ≠ none := by
  unfold tokenExists Token.path
  rw [Option.isSome_iff_ne_none]
  constructor
  · intro h
    have hways := FileTree.ways_of_status h
    rw [FileTree.status_of_ways hways, token.next_name] at h
    exact ⟨hways, h⟩
  · rintro ⟨hways, h⟩
    rw [FileTree.status_of_ways hways, token.next_name]
    exact h

theorem not_blocked_of_exists (h : tokenExists t token = true) : ¬token.Blocked t := by
  rintro ⟨w, hw, content, hfile⟩
  rw [(tokenExists_iff.mp h).1 w hw] at hfile
  cases hfile

theorem mkdirs_through : (t.mkdirs [] token.dir).2 = true ↔ ¬token.Blocked t := by
  rw [FileTree.mkdirs_snd token.dir t.root]
  unfold Token.Blocked Token.ways
  push Not
  rfl

theorem write_token (hways : ∀ w ∈ token.ways, t.node w = some .dir)
    (hplace : t.node token.place ≠ some .dir) : (t.write token.dir token.name content).node =
      Function.update t.node token.place (some (.file content)) :=
  FileTree.write_node hways hplace

theorem generateToken_of_exists (h : tokenExists t token = true) :
    generateToken t token content = (t, true) := if_pos h

theorem generateToken_of_blocked (h : token.Blocked t) :
    generateToken t token content = ((t.mkdirs [] token.dir).1, false) := by
  have hexists : ¬tokenExists t token = true := fun he => not_blocked_of_exists he h
  have hthrough : ¬(t.mkdirs [] token.dir).2 = true := fun ht => mkdirs_through.mp ht h
  unfold generateToken
  rw [if_neg hexists]
  simp only [if_neg hthrough]

theorem generateToken_of_missing (hexists : ¬tokenExists t token = true)
    (h : ¬token.Blocked t) : generateToken t token content =
      ((t.mkdirs [] token.dir).1.write token.dir token.name content, true) := by
  unfold generateToken
  rw [if_neg hexists]
  simp only [if_pos (mkdirs_through.mpr h)]

/-- The call returns unless a file is on the way. -/
theorem generateToken_snd : (generateToken t token content).2 = true ↔ ¬token.Blocked t := by
  by_cases hexists : tokenExists t token = true
  · rw [generateToken_of_exists hexists]
    exact iff_of_true rfl (not_blocked_of_exists hexists)
  · by_cases hblocked : token.Blocked t
    · rw [generateToken_of_blocked hblocked]
      exact iff_of_false (by simp) fun h => h hblocked
    · rw [generateToken_of_missing hexists hblocked]
      exact iff_of_true rfl hblocked

theorem generateToken_grows : t.Grows (generateToken t token content).1 := by
  by_cases hexists : tokenExists t token = true
  · rw [generateToken_of_exists hexists]
    exact FileTree.Grows.refl t
  · have hmade := FileTree.mkdirs_grows token.dir t.root
    by_cases hblocked : token.Blocked t
    · rw [generateToken_of_blocked hblocked]
      exact hmade
    · rw [generateToken_of_missing hexists hblocked]
      exact hmade.trans FileTree.write_grows

/-- What a call leaves of a tree without its token: the missing directories, the token if nothing
else is in its place, and everything that was there. -/
theorem generateToken_node (t : FileTree) (token : Token) (content : String) (x : Location) :
    (generateToken t token content).1.node x = t.node x ∨
      (x ∈ token.ways ∧ t.node x = none ∧ ¬tokenExists t token = true ∧
        (generateToken t token content).1.node x = some .dir) ∨
      (x = token.place ∧ ¬tokenExists t token = true ∧ ¬token.Blocked t ∧
        (generateToken t token content).1.node x = some (.file content)) := by
  by_cases hexists : tokenExists t token = true
  · rw [generateToken_of_exists hexists]
    exact .inl rfl
  · have hmade := FileTree.mkdirs_node token.dir t.root x
    by_cases hblocked : token.Blocked t
    · rw [generateToken_of_blocked hblocked]
      exact hmade.imp id fun ⟨hway, hnone, hdir⟩ => .inl ⟨hway, hnone, hexists, hdir⟩
    · rw [generateToken_of_missing hexists hblocked]
      have hways := FileTree.mkdirs_ways t.root (mkdirs_through.mpr hblocked)
      by_cases hplace : (t.mkdirs [] token.dir).1.node token.place = some .dir
      · rw [FileTree.write_of_dir hplace]
        exact hmade.imp id fun ⟨hway, hnone, hdir⟩ => .inl ⟨hway, hnone, hexists, hdir⟩
      · rw [write_token hways hplace]
        by_cases hx : x = token.place
        · subst hx
          exact .inr (.inr ⟨rfl, hexists, hblocked, Function.update_self ..⟩)
        · rw [Function.update_of_ne hx]
          exact hmade.imp id fun ⟨hway, hnone, hdir⟩ => .inl ⟨hway, hnone, hexists, hdir⟩

/-- A call that returns leaves its token. -/
theorem generateToken_exists (content : String) (h : ¬token.Blocked t) :
    tokenExists (generateToken t token content).1 token = true := by
  by_cases hexists : tokenExists t token = true
  · rw [generateToken_of_exists hexists]
    exact hexists
  · rw [generateToken_of_missing hexists h, tokenExists_iff]
    have hways := FileTree.mkdirs_ways t.root (mkdirs_through.mpr h)
    refine ⟨fun w hw => FileTree.write_grows.dir w (hways w hw), ?_⟩
    by_cases hplace : (t.mkdirs [] token.dir).1.node token.place = some .dir
    · rw [FileTree.write_of_dir hplace, hplace]
      simp
    · rw [write_token hways hplace, Function.update_self]
      simp

theorem tokenExists_mono {t' : FileTree} (h : t.Grows t') (hexists : tokenExists t token = true) :
    tokenExists t' token = true := by
  obtain ⟨hways, hplace⟩ := tokenExists_iff.mp hexists
  exact tokenExists_iff.mpr ⟨fun w hw => h.dir w (hways w hw), h.node_ne_none hplace⟩

theorem Token.Blocked.mono {t' : FileTree} (h : t.Grows t') (hblocked : token.Blocked t) :
    token.Blocked t' := by
  obtain ⟨w, hw, content, hfile⟩ := hblocked
  exact ⟨w, hw, h.file w content hfile⟩

theorem generate_some {cwd path : String} {type : TokenType}
    (h : computeCapioclTokenName cwd path type = some token) :
    generate cwd type content t path = generateToken t token content := by
  unfold generate
  rw [h]

theorem generate_none {cwd path : String} {type : TokenType}
    (h : computeCapioclTokenName cwd path type = none) :
    generate cwd type content t path = (t, false) := by
  unfold generate
  rw [h]

theorem generate_grows (cwd : String) (type : TokenType) (content : String) (t : FileTree)
    (path : String) : t.Grows (generate cwd type content t path).1 := by
  cases h : computeCapioclTokenName cwd path type with
  | some token =>
    rw [generate_some h]
    exact generateToken_grows
  | none =>
    rw [generate_none h]
    exact FileTree.Grows.refl t

end Generate

end FileSystemMonitor

end CapioCl
