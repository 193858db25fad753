import Mathlib.Data.List.Induction
import Mathlib.Logic.Function.Basic

/-!
# File trees

A file tree says what is at every location, and keeps that what exists stands in a directory.
There are no links, so `..` leads to the parent. A path is a list of names; `walk` resolves it,
`mkdirs` creates the directories it lacks from left to right and stops at a file, `write` puts a
file where nothing or a file is.

`ways` are the locations a path leads through, whatever is there: `walk_of_ways` and
`mkdirs_snd` say when a path resolves and when `mkdirs` goes through, `mkdirs_node` what it
creates.
-/

namespace CapioCl.Lib

/-- A file name; `.`, `..` and the empty name lead nowhere new. -/
abbrev FileName := List Char

/-- The names from a node up to the root. -/
abbrev Location := List FileName

/-- What may stand at a location. -/
inductive Node where
  | dir
  | file (content : String)
  deriving Repr, DecidableEq

structure FileTree where
  node : Location → Option Node
  root : node [] = some .dir
  parent : ∀ name ℓ, node (name :: ℓ) ≠ none → node ℓ = some .dir

namespace FileTree

/-- A tree with a root only. -/
def empty : FileTree where
  node := fun ℓ => if ℓ = [] then some .dir else none
  root := if_pos rfl
  parent := fun name ℓ h => absurd (if_neg (List.cons_ne_nil name ℓ)) h

@[simp] theorem empty_node_cons (name : FileName) (ℓ : Location) :
    empty.node (name :: ℓ) = none := by
  simp [empty]

/-- Put a node into a directory, where no directory stands. -/
def add (t : FileTree) (name : FileName) (ℓ : Location) (x : Node) : FileTree :=
  if h : t.node ℓ = some .dir ∧ t.node (name :: ℓ) ≠ some .dir then
    { node := Function.update t.node (name :: ℓ) (some x)
      root := by
        rw [Function.update_of_ne (List.cons_ne_nil name ℓ).symm]
        exact t.root
      parent := by
        intro name' ℓ' hnode
        by_cases heq : name' :: ℓ' = name :: ℓ
        · obtain ⟨rfl, rfl⟩ := List.cons_eq_cons.mp heq
          rw [Function.update_of_ne (List.cons_ne_self name' ℓ').symm]
          exact h.1
        · rw [Function.update_of_ne heq] at hnode
          have hparent := t.parent name' ℓ' hnode
          have hne : ℓ' ≠ name :: ℓ := fun e => h.2 (e ▸ hparent)
          rw [Function.update_of_ne hne]
          exact hparent }
  else t

variable (t : FileTree)

/-- The location a name leads to. -/
def next (ℓ : Location) (name : FileName) : Location :=
  if name = [] ∨ name = ['.'] then ℓ else if name = ['.', '.'] then ℓ.tail else name :: ℓ

/-- Where a path leads. -/
def place (ℓ : Location) (path : List FileName) : Location := path.foldl next ℓ

/-- The locations a path leads through, its end included. -/
def ways (ℓ : Location) : List FileName → List Location
  | [] => []
  | name :: path => next ℓ name :: ways (next ℓ name) path

/-- Resolve a path: through directories only, to something that exists. -/
def walk (ℓ : Location) : List FileName → Option Location
  | [] => some ℓ
  | name :: path =>
    if t.node ℓ = some .dir ∧ t.node (next ℓ name) ≠ none then walk (next ℓ name) path else none

/-- What stands at the end of an absolute path. -/
def status (path : List FileName) : Option Node := (t.walk [] path).bind t.node

/-- Create the directories a path lacks; `false` when a file is in the way. -/
def mkdirs (t : FileTree) (ℓ : Location) : List FileName → FileTree × Bool
  | [] => (t, true)
  | name :: path =>
    match t.node (next ℓ name) with
    | some .dir => t.mkdirs (next ℓ name) path
    | some (.file _) => (t, false)
    | none => (t.add name ℓ .dir).mkdirs (next ℓ name) path

/-- Open a file for writing and write to it: nothing happens when the directory is not there or a
directory stands in the file's place. -/
def write (dir : List FileName) (name : FileName) (content : String) : FileTree :=
  match t.walk [] dir with
  | some ℓ => t.add name ℓ (.file content)
  | none => t

/-! ## Locations -/

variable {t} {ℓ : Location} {name : FileName}

theorem next_cases (ℓ : Location) (name : FileName) :
    next ℓ name = ℓ ∨ next ℓ name = ℓ.tail ∨ next ℓ name = name :: ℓ := by
  unfold next
  split
  · exact .inl rfl
  · split
    · exact .inr (.inl rfl)
    · exact .inr (.inr rfl)

/-- What exists stands in a directory; the root in itself. -/
theorem node_tail (h : t.node ℓ ≠ none) : t.node ℓ.tail = some .dir := by
  cases ℓ with
  | nil => exact t.root
  | cons name ℓ => exact t.parent name ℓ h

/-- A name that leads to nothing is one below. -/
theorem next_of_none (hℓ : t.node ℓ = some .dir) (h : t.node (next ℓ name) = none) :
    next ℓ name = name :: ℓ := by
  obtain heq | heq | heq := next_cases ℓ name
  · rw [heq, hℓ] at h
    cases h
  · rw [heq, node_tail (by rw [hℓ]; simp)] at h
    cases h
  · exact heq

theorem ways_cons (ℓ : Location) (name : FileName) (path : List FileName) :
    ways ℓ (name :: path) = next ℓ name :: ways (next ℓ name) path := rfl

theorem ways_append (ℓ : Location) (path path' : List FileName) :
    ways ℓ (path ++ path') = ways ℓ path ++ ways (place ℓ path) path' := by
  induction path generalizing ℓ with
  | nil => rfl
  | cons name path ih =>
    rw [List.cons_append, ways_cons, ways_cons, ih]
    rfl

theorem place_append (ℓ : Location) (path path' : List FileName) :
    place ℓ (path ++ path') = place (place ℓ path) path' := List.foldl_append

/-! ## Resolving a path -/

theorem walk_cons (ℓ : Location) (name : FileName) (path : List FileName) :
    t.walk ℓ (name :: path) = if t.node ℓ = some .dir ∧ t.node (next ℓ name) ≠ none
      then t.walk (next ℓ name) path else none := rfl

theorem walk_append (ℓ : Location) (path path' : List FileName) :
    t.walk ℓ (path ++ path') = (t.walk ℓ path).bind fun m => t.walk m path' := by
  induction path generalizing ℓ with
  | nil => rfl
  | cons name path ih =>
    rw [List.cons_append, walk_cons, walk_cons]
    split
    · exact ih _
    · rfl

/-- A path that resolves leads to its place. -/
theorem place_of_walk {path : List FileName} {ℓ' : Location} (h : t.walk ℓ path = some ℓ') :
    ℓ' = place ℓ path := by
  induction path generalizing ℓ with
  | nil =>
    cases h
    rfl
  | cons name path ih =>
    unfold walk at h
    split at h
    · exact ih h
    · cases h

/-- A path through directories resolves. -/
theorem walk_of_ways {path : List FileName} (hℓ : t.node ℓ = some .dir)
    (h : ∀ w ∈ ways ℓ path, t.node w = some .dir) : t.walk ℓ path = some (place ℓ path) := by
  induction path generalizing ℓ with
  | nil => rfl
  | cons name path ih =>
    have hnext : t.node (next ℓ name) = some .dir := h _ (List.mem_cons_self ..)
    unfold walk
    rw [if_pos ⟨hℓ, by rw [hnext]; simp⟩]
    exact ih hnext fun w hw => h w (List.mem_cons_of_mem _ hw)

theorem dir_of_walk {path : List FileName} {ℓ' : Location} (hne : path ≠ [])
    (h : t.walk ℓ path = some ℓ') : t.node ℓ = some .dir := by
  cases path with
  | nil => exact absurd rfl hne
  | cons name path =>
    rw [walk_cons] at h
    split at h
    · rename_i hnode
      exact hnode.1
    · cases h

/-- What comes before the end of a path that resolves is a directory. -/
theorem ways_of_walk_concat {path : List FileName} {ℓ' : Location}
    (h : t.walk ℓ (path ++ [name]) = some ℓ') : ∀ w ∈ ways ℓ path, t.node w = some .dir := by
  induction path generalizing ℓ with
  | nil => exact fun w hw => nomatch hw
  | cons first path ih =>
    rw [List.cons_append, walk_cons] at h
    split at h
    · rw [ways_cons, List.forall_mem_cons]
      exact ⟨dir_of_walk (by simp) h, ih h⟩
    · cases h

theorem node_place {path : List FileName} (h : ∀ w ∈ ways [] path, t.node w = some .dir) :
    t.node (place [] path) = some .dir := by
  cases path using List.reverseRecOn with
  | nil => exact t.root
  | append_singleton path last =>
    rw [ways_append] at h
    rw [place_append]
    exact h _ (List.mem_append_right _ (List.mem_cons_self ..))

/-- What stands at the end of a path whose way is made of directories. -/
theorem status_of_ways {path : List FileName} (h : ∀ w ∈ ways [] path, t.node w = some .dir) :
    t.status (path ++ [name]) = t.node (next (place [] path) name) := by
  have hplace := node_place h
  unfold status
  rw [walk_append, walk_of_ways t.root h, Option.bind_some]
  unfold walk
  by_cases hnode : t.node (next (place [] path) name) = none
  · rw [if_neg fun hcond => hcond.2 hnode, hnode]
    rfl
  · rw [if_pos ⟨hplace, hnode⟩]
    rfl

/-- A path with something else on its way leads to nothing. -/
theorem ways_of_status {path : List FileName} (h : t.status (path ++ [name]) ≠ none) :
    ∀ w ∈ ways [] path, t.node w = some .dir := by
  unfold status at h
  cases hwalk : t.walk [] (path ++ [name]) with
  | none =>
    rw [hwalk] at h
    exact absurd rfl h
  | some ℓ => exact ways_of_walk_concat hwalk

/-! ## Creating directories -/

theorem add_node {x : Node} (hℓ : t.node ℓ = some .dir) (h : t.node (name :: ℓ) ≠ some .dir) :
    (t.add name ℓ x).node = Function.update t.node (name :: ℓ) (some x) := by
  unfold add
  rw [dif_pos ⟨hℓ, h⟩]

/-- `mkdirs` creates directories on the way of the path, where nothing stands. -/
theorem mkdirs_node (path : List FileName) (hℓ : t.node ℓ = some .dir) (x : Location) :
    (t.mkdirs ℓ path).1.node x = t.node x ∨
      (x ∈ ways ℓ path ∧ t.node x = none ∧ (t.mkdirs ℓ path).1.node x = some .dir) := by
  induction path generalizing t ℓ with
  | nil => exact .inl rfl
  | cons name path ih =>
    unfold mkdirs ways
    cases hnode : t.node (next ℓ name) with
    | some found =>
      cases found with
      | file content => exact .inl rfl
      | dir => exact (ih hnode).imp id fun h => ⟨List.mem_cons_of_mem _ h.1, h.2⟩
    | none =>
      have hnext := next_of_none hℓ hnode
      have hadd := add_node (x := .dir) hℓ (by rw [← hnext, hnode]; simp)
      have hdir : (t.add name ℓ .dir).node (next ℓ name) = some .dir := by
        rw [hadd, hnext, Function.update_self]
      have hih := ih hdir
      by_cases hx : x = next ℓ name
      · right
        subst hx
        refine ⟨List.mem_cons_self .., hnode, ?_⟩
        obtain hsame | ⟨-, -, hnew⟩ := hih
        · exact hsame.trans hdir
        · exact hnew
      · have hold : (t.add name ℓ .dir).node x = t.node x := by
          rw [hadd, Function.update_of_ne (hnext ▸ hx)]
        rw [hold] at hih
        exact hih.imp id fun h => ⟨List.mem_cons_of_mem _ h.1, h.2⟩

/-- `mkdirs` goes through when no file is on the way. -/
theorem mkdirs_snd (path : List FileName) (hℓ : t.node ℓ = some .dir) :
    (t.mkdirs ℓ path).2 = true ↔ ∀ w ∈ ways ℓ path, ∀ content, t.node w ≠ some (.file content) := by
  induction path generalizing t ℓ with
  | nil => exact iff_of_true rfl fun w hw => nomatch hw
  | cons name path ih =>
    unfold mkdirs ways
    rw [List.forall_mem_cons]
    cases hnode : t.node (next ℓ name) with
    | some found =>
      cases found with
      | file content => exact iff_of_false (by simp) fun h => h.1 content rfl
      | dir =>
        refine (ih hnode).trans ⟨fun h => ⟨fun content => by simp, h⟩, fun h => h.2⟩
    | none =>
      have hnext := next_of_none hℓ hnode
      have hadd := add_node (x := .dir) hℓ (by rw [← hnext, hnode]; simp)
      have hdir : (t.add name ℓ .dir).node (next ℓ name) = some .dir := by
        rw [hadd, hnext, Function.update_self]
      refine (ih hdir).trans ⟨fun h => ⟨fun content => by simp, fun w hw content hfile => ?_⟩,
        fun h w hw content hfile => ?_⟩
      · refine h w hw content ?_
        by_cases hw' : w = name :: ℓ
        · rw [hw', ← hnext, hnode] at hfile
          cases hfile
        · rw [hadd, Function.update_of_ne hw', hfile]
      · by_cases hw' : w = name :: ℓ
        · rw [hw', ← hnext, hdir] at hfile
          cases hfile
        · rw [hadd, Function.update_of_ne hw'] at hfile
          exact h.2 w hw content hfile

/-- Afterwards the way is made of directories. -/
theorem mkdirs_ways {path : List FileName} (hℓ : t.node ℓ = some .dir)
    (h : (t.mkdirs ℓ path).2 = true) :
    ∀ w ∈ ways ℓ path, (t.mkdirs ℓ path).1.node w = some .dir := by
  induction path generalizing t ℓ with
  | nil => exact fun w hw => nomatch hw
  | cons name path ih =>
    unfold mkdirs at h ⊢
    unfold ways
    rw [List.forall_mem_cons]
    cases hnode : t.node (next ℓ name) with
    | some found =>
      rw [hnode] at h
      cases found with
      | file content => cases h
      | dir =>
        refine ⟨?_, ih hnode h⟩
        obtain hsame | ⟨-, -, hnew⟩ := mkdirs_node path hnode (next ℓ name)
        · exact hsame.trans hnode
        · exact hnew
    | none =>
      rw [hnode] at h
      have hnext := next_of_none hℓ hnode
      have hdir : (t.add name ℓ .dir).node (next ℓ name) = some .dir := by
        rw [add_node hℓ (by rw [← hnext, hnode]; simp), hnext, Function.update_self]
      refine ⟨?_, ih hdir h⟩
      obtain hsame | ⟨-, -, hnew⟩ := mkdirs_node path hdir (next ℓ name)
      · exact hsame.trans hdir
      · exact hnew

/-! ## Paths without `.` and `..` -/

/-- A name that leads one down. -/
def Proper (name : FileName) : Prop := name ≠ [] ∧ name ≠ ['.'] ∧ name ≠ ['.', '.']

theorem Proper.next (h : Proper name) (ℓ : Location) : next ℓ name = name :: ℓ := by
  unfold FileTree.next
  rw [if_neg (by simp [h.1, h.2.1]), if_neg h.2.2]

theorem place_of_proper {path : List FileName} (h : ∀ name ∈ path, Proper name) (ℓ : Location) :
    place ℓ path = path.reverse ++ ℓ := by
  induction path generalizing ℓ with
  | nil => rfl
  | cons name path ih =>
    rw [List.forall_mem_cons] at h
    rw [show place ℓ (name :: path) = place (next ℓ name) path from rfl, h.1.next, ih h.2]
    simp

theorem suffix_of_mem_ways {path : List FileName} (h : ∀ name ∈ path, Proper name)
    {w : Location} (hw : w ∈ ways ℓ path) : ℓ <:+ w := by
  induction path generalizing ℓ with
  | nil => exact nomatch hw
  | cons name path ih =>
    rw [List.forall_mem_cons] at h
    rw [ways_cons, h.1.next] at hw
    have hℓ : ℓ <:+ name :: ℓ := List.suffix_cons name ℓ
    cases List.mem_cons.mp hw with
    | inl heq =>
      rw [heq]
      exact hℓ
    | inr hw => exact hℓ.trans (ih h.2 hw)

theorem node_of_suffix {w : Location} (h : ℓ <:+ w) (hnode : t.node w ≠ none) :
    t.node ℓ ≠ none := by
  obtain ⟨names, rfl⟩ := h
  induction names with
  | nil => exact hnode
  | cons name names ih =>
    have hdir := t.parent name (names ++ ℓ) hnode
    exact ih (by rw [hdir]; simp)

/-- Above what exists there are directories. -/
theorem dir_of_append {names : List FileName} (hne : names ≠ []) (h : t.node (names ++ ℓ) ≠ none) :
    t.node ℓ = some .dir := by
  induction names with
  | nil => exact absurd rfl hne
  | cons name names ih =>
    have hdir := t.parent name (names ++ ℓ) h
    by_cases hnames : names = []
    · subst hnames
      exact hdir
    · exact ih hnames (by rw [hdir]; simp)

theorem ways_suffix_place {path : List FileName} (h : ∀ name ∈ path, Proper name) {w : Location}
    (hw : w ∈ ways ℓ path) : w <:+ place ℓ path := by
  induction path generalizing ℓ with
  | nil => exact nomatch hw
  | cons name path ih =>
    rw [List.forall_mem_cons] at h
    rw [ways_cons, h.1.next] at hw
    rw [show place ℓ (name :: path) = place (next ℓ name) path from rfl, h.1.next]
    cases List.mem_cons.mp hw with
    | inl heq =>
      rw [heq, place_of_proper h.2]
      exact List.suffix_append _ _
    | inr hw => exact ih h.2 hw

/-- A path that needs a directory has no file behind it; so `mkdirs` does nothing when it fails. -/
theorem mkdirs_of_blocked {path : List FileName} (hproper : ∀ name ∈ path, Proper name)
    (hℓ : t.node ℓ = some .dir) (h : (t.mkdirs ℓ path).2 = false) : (t.mkdirs ℓ path).1 = t := by
  induction path generalizing ℓ with
  | nil => rfl
  | cons name path ih =>
    have hthrough := mkdirs_snd (name :: path) hℓ
    rw [List.forall_mem_cons] at hproper
    cases hnode : t.node (next ℓ name) with
    | some found =>
      unfold mkdirs at h ⊢
      rw [hnode] at h ⊢
      cases found with
      | file content => rfl
      | dir => exact ih hproper.2 hnode h
    | none =>
      refine absurd (hthrough.mpr fun w hw content hfile => ?_) (by rw [h]; simp)
      have hsuffix : next ℓ name <:+ w := by
        rw [ways_cons] at hw
        cases List.mem_cons.mp hw with
        | inl heq => exact heq ▸ List.suffix_refl _
        | inr hw => exact suffix_of_mem_ways hproper.2 hw
      exact node_of_suffix hsuffix (by rw [hfile]; simp) hnode

/-! ## Writing a file -/

variable {dir : List FileName} {content : String}

/-- Into a directory that is there, where no directory stands. -/
theorem write_node (hways : ∀ w ∈ ways [] dir, t.node w = some .dir)
    (h : t.node (name :: place [] dir) ≠ some .dir) : (t.write dir name content).node =
      Function.update t.node (name :: place [] dir) (some (.file content)) := by
  unfold write
  rw [walk_of_ways t.root hways]
  exact add_node (node_place hways) h

/-- A directory in the file's place stays. -/
theorem write_of_dir (h : t.node (name :: place [] dir) = some .dir) :
    t.write dir name content = t := by
  unfold write
  cases hwalk : t.walk [] dir with
  | none => rfl
  | some ℓ =>
    rw [place_of_walk hwalk]
    exact dif_neg fun hcond => hcond.2 h

/-- What writing a file may change. -/
theorem write_cases (t : FileTree) (dir : List FileName) (name : FileName) (content : String)
    (x : Location) : (t.write dir name content).node x = t.node x ∨
      (x = name :: place [] dir ∧ (t.write dir name content).node x = some (.file content)) := by
  unfold write
  cases hwalk : t.walk [] dir with
  | none => exact .inl rfl
  | some ℓ =>
    obtain rfl := place_of_walk hwalk
    by_cases h : t.node (place [] dir) = some .dir ∧ t.node (name :: place [] dir) ≠ some .dir
    · by_cases hx : x = name :: place [] dir
      · subst hx
        exact .inr ⟨rfl, by simp only [add_node h.1 h.2, Function.update_self]⟩
      · left
        simp only [add_node h.1 h.2, Function.update_of_ne hx]
    · left
      simp only [add, dif_neg h]

/-! ## Growing -/

/-- Directories stay directories and files stay files. -/
structure Grows (t t' : FileTree) : Prop where
  dir : ∀ ℓ, t.node ℓ = some .dir → t'.node ℓ = some .dir
  file : ∀ ℓ content, t.node ℓ = some (.file content) → ∃ content', t'.node ℓ = some (.file content')

theorem Grows.refl (t : FileTree) : Grows t t := ⟨fun _ h => h, fun _ content h => ⟨content, h⟩⟩

theorem Grows.trans {t t' t'' : FileTree} (h : Grows t t') (h' : Grows t' t'') : Grows t t'' where
  dir := fun ℓ hnode => h'.dir ℓ (h.dir ℓ hnode)
  file := fun ℓ content hnode => by
    obtain ⟨content', hnode'⟩ := h.file ℓ content hnode
    exact h'.file ℓ content' hnode'

theorem Grows.node_ne_none {t t' : FileTree} (h : Grows t t') (hnode : t.node ℓ ≠ none) :
    t'.node ℓ ≠ none := by
  cases hx : t.node ℓ with
  | none => exact absurd hx hnode
  | some found =>
    cases found with
    | dir =>
      rw [h.dir ℓ hx]
      simp
    | file content =>
      obtain ⟨content', hx'⟩ := h.file ℓ content hx
      rw [hx']
      simp

theorem mkdirs_grows (path : List FileName) (hℓ : t.node ℓ = some .dir) :
    Grows t (t.mkdirs ℓ path).1 where
  dir := by
    intro x hx
    obtain hsame | ⟨-, hnone, -⟩ := mkdirs_node path hℓ x
    · rw [hsame, hx]
    · rw [hx] at hnone
      cases hnone
  file := by
    intro x content hx
    obtain hsame | ⟨-, hnone, -⟩ := mkdirs_node path hℓ x
    · exact ⟨content, hsame.trans hx⟩
    · rw [hx] at hnone
      cases hnone

theorem add_file_grows : Grows t (t.add name ℓ (.file content)) := by
  by_cases h : t.node ℓ = some .dir ∧ t.node (name :: ℓ) ≠ some .dir
  · have hadd := add_node (x := .file content) h.1 h.2
    constructor
    · intro x hx
      have hne : x ≠ name :: ℓ := by
        rintro rfl
        exact h.2 hx
      rw [hadd, Function.update_of_ne hne, hx]
    · intro x content' hx
      rw [hadd]
      by_cases heq : x = name :: ℓ
      · exact ⟨content, by rw [heq, Function.update_self]⟩
      · exact ⟨content', by rw [Function.update_of_ne heq, hx]⟩
  · rw [show t.add name ℓ (.file content) = t from dif_neg h]
    exact Grows.refl t

theorem write_grows : Grows t (t.write dir name content) := by
  unfold write
  cases t.walk [] dir with
  | none => exact Grows.refl t
  | some ℓ => exact add_file_grows

end FileTree

end CapioCl.Lib
