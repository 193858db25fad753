import Mathlib.Data.List.Basic

/-!
# Shell patterns

`fnmatch(pattern, string, FNM_NOESCAPE)` in the POSIX locale: `*` matches any string, `?` any
character, `[...]` one character of a set, and `/` and `.` are ordinary. A `[` that no `]` closes
stands for itself. A pattern is read into tokens first (`tokens`), then matched (`run`).

`fnmatch_literal`: a pattern without `*`, `?` and `[` matches itself and nothing else.
-/

namespace CapioCl.Lib.Glob

/-- One step of a pattern. -/
inductive Token where
  | star
  | any
  | lit (c : Char)
  | set (negated : Bool) (ranges : List (Char × Char))
  deriving Repr, DecidableEq

/-- The ranges of a bracket expression and what follows its `]`; a `]` that comes first is a
member. -/
def ranges : Bool → List Char → Option (List (Char × Char) × List Char)
  | _, [] => none
  | first, c :: cs =>
    if c = ']' ∧ first = false then some ([], cs)
    else
      match cs with
      | '-' :: hi :: rest =>
        if hi = ']' then (ranges false ('-' :: hi :: rest)).map fun r => ((c, c) :: r.1, r.2)
        else (ranges false rest).map fun r => ((c, hi) :: r.1, r.2)
      | cs => (ranges false cs).map fun r => ((c, c) :: r.1, r.2)

theorem ranges_length : ∀ (first : Bool) (cs : List Char) {r : List (Char × Char) × List Char},
    ranges first cs = some r → r.2.length < cs.length := by
  intro first cs
  induction first, cs using ranges.induct with
  | case1 => intro r h; exact absurd h (by simp [ranges])
  | case2 first c cs hc =>
    intro r h
    unfold ranges at h
    rw [if_pos hc] at h
    cases h
    simp
  | case3 first c hc rest ih =>
    intro r h
    simp only [ranges.eq_2, if_neg hc, if_true, Option.map_eq_some_iff] at h
    obtain ⟨r', h', rfl⟩ := h
    have := ih h'
    simp only [List.length_cons] at this ⊢
    omega
  | case4 first c hc hi rest hne ih =>
    intro r h
    simp only [ranges.eq_2, if_neg hc, if_neg hne, Option.map_eq_some_iff] at h
    obtain ⟨r', h', rfl⟩ := h
    have := ih h'
    simp only [List.length_cons] at this ⊢
    omega
  | case5 first c hc cs hcs ih =>
    intro r h
    unfold ranges at h
    rw [if_neg hc] at h
    split at h
    · exact absurd rfl (hcs _ _)
    · obtain ⟨r', h', rfl⟩ := Option.map_eq_some_iff.mp h
      have := ih h'
      simp only [List.length_cons]
      omega

/-- A bracket expression after its `[`. -/
def bracket : List Char → Option (Token × List Char)
  | '!' :: cs => (ranges true cs).map fun r => (.set true r.1, r.2)
  | '^' :: cs => (ranges true cs).map fun r => (.set true r.1, r.2)
  | cs => (ranges true cs).map fun r => (.set false r.1, r.2)

theorem bracket_length {cs : List Char} {r : Token × List Char} (h : bracket cs = some r) :
    r.2.length < cs.length := by
  unfold bracket at h
  split at h <;> obtain ⟨r', h', rfl⟩ := Option.map_eq_some_iff.mp h
  · exact Nat.lt_succ_of_lt (ranges_length _ _ h')
  · exact Nat.lt_succ_of_lt (ranges_length _ _ h')
  · exact ranges_length _ _ h'

/-- The tokens of a pattern. -/
def tokens : List Char → List Token
  | [] => []
  | '*' :: cs => .star :: tokens cs
  | '?' :: cs => .any :: tokens cs
  | '[' :: cs =>
    match _h : bracket cs with
    | some r => r.1 :: tokens r.2
    | none => .lit '[' :: tokens cs
  | c :: cs => .lit c :: tokens cs
termination_by cs => cs.length
decreasing_by
  all_goals simp only [List.length_cons]
  all_goals first
    | exact Nat.lt_succ_of_lt (bracket_length _h)
    | exact Nat.lt_succ_self _

def Token.accepts : Token → Char → Bool
  | .star, _ => true
  | .any, _ => true
  | .lit d, c => c == d
  | .set negated rs, c => (rs.any fun r => decide (r.1 ≤ c ∧ c ≤ r.2)) != negated

/-- Match a token list against a whole string. -/
def run : List Token → List Char → Bool
  | [], s => s.isEmpty
  | .star :: ts, s => s.tails.any (run ts)
  | t :: ts, c :: s => t.accepts c && run ts s
  | _ :: _, [] => false

/-- `fnmatch(pattern, string, FNM_NOESCAPE) == 0`. -/
def fnmatch (pattern string : String) : Bool := run (tokens pattern.toList) string.toList

/-- No `*`, `?` or `[`. -/
def Literal (cs : List Char) : Prop := ∀ c ∈ cs, c ≠ '*' ∧ c ≠ '?' ∧ c ≠ '['

theorem tokens_literal {cs : List Char} (h : Literal cs) : tokens cs = cs.map .lit := by
  induction cs with
  | nil => simp [tokens]
  | cons c cs ih =>
    obtain ⟨hs, hq, hb⟩ := h c List.mem_cons_self
    rw [tokens.eq_5 c cs hs hq hb, ih fun d hd => h d (List.mem_cons_of_mem c hd), List.map_cons]

theorem run_lits : ∀ (cs s : List Char), run (cs.map .lit) s = true ↔ cs = s
  | [], s => by cases s <;> simp [run]
  | c :: cs, [] => by simp [run]
  | c :: cs, d :: s => by
    simp only [List.map_cons, run, Token.accepts, Bool.and_eq_true, beq_iff_eq, run_lits cs s,
      List.cons.injEq]
    exact and_congr_left fun _ => eq_comm

/-- **A literal pattern matches only itself.** -/
theorem fnmatch_literal {p s : String} (h : Literal p.toList) : fnmatch p s = true ↔ p = s := by
  unfold fnmatch
  rw [tokens_literal h, run_lits, String.toList_inj]

example : fnmatch "/a/*" "/a/b/c" = true := by decide +kernel
example : fnmatch "test.[!a-c]?" "test.d1" = true := by decide +kernel
example : fnmatch "[ab]" "[ab]" = false := by decide +kernel

end CapioCl.Lib.Glob
