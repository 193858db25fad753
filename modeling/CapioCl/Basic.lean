import CapioCl.Lib.Glob
import CapioCl.Lib.Json
import CapioCl.Lib.UnorderedMap
import Mathlib.Algebra.Group.Int.Defs
import Mathlib.Data.List.TakeWhile

/-!
# Rules, strings, paths and the platform

The vocabulary of `capiocl.hpp`: the rule names and their sanitizers, the version strings, the
exceptions. `std::filesystem::path` is its native string. The path operations the code uses are
`parentPath`, `isAbsolute`, `join` (`operator/`) and `samePath` (`operator==`), as libstdc++
computes them; the string operations are `eraseSpaces` (the `remove_if(isspace)` of `addProducer`) and `stoi`.

`Platform` is what the code takes from outside: `fnmatch(3)`, the iteration order of the hash map
of entries, the environment variable `WORKFLOW_NAME`, the TOML reader and the files it may write.
Of `fnmatch` only `fnmatch_literal` is assumed. `posix` is an instance that behaves as the C
library does.
-/

namespace CapioCl

open CapioCl.Lib

/-! ## Exceptions -/

/-- What the code throws. `undefined` stands for the null dereference of `configuration.cpp:30`. -/
inductive Exn where
  | parserException (msg : String)
  | serializerException (msg : String)
  | configurationException (msg : String)
  | invalidArgument (msg : String)
  | outOfRange (msg : String)
  | serError
  | jsonError (e : Json.Error)
  | undefined
  deriving Repr, DecidableEq

/-- The exception a call raised. -/
def thrown {α : Type} : Except Exn α → Option Exn
  | .ok _ => none
  | .error ex => some ex

theorem exists_ok_of_thrown {α : Type} {x : Except Exn α} (h : thrown x = none) :
    ∃ a, x = .ok a := by
  cases x with
  | ok a => exact ⟨a, rfl⟩
  | error ex => exact absurd h (by simp [thrown])

/-- Run a jsoncons accessor. -/
def liftJson {α : Type} : Except Json.Error α → Except Exn α
  | .ok a => .ok a
  | .error e => .error (.jsonError e)

@[simp] theorem liftJson_ok {α : Type} (a : α) : liftJson (.ok a) = .ok a := rfl

/-! ## The rule names (`capiocl.hpp:10-73`) -/

def defaultWfName : String := "CAPIO"

namespace fireRules

def noUpdate : String := "no_update"
def update : String := "update"

/-- `fireRules::sanitize`. -/
def sanitize (input : String) : Except Exn String :=
  if input = noUpdate then .ok noUpdate
  else if input = update then .ok update
  else .error (.invalidArgument ("Input fire rule: " ++ input ++ " is not a valid CAPIO-CL rule"))

/-- A fire rule of the language. -/
def Valid (r : String) : Prop := r = noUpdate ∨ r = update

instance (r : String) : Decidable (Valid r) := inferInstanceAs (Decidable (_ ∨ _))

theorem sanitize_of_valid {r : String} (h : Valid r) : sanitize r = .ok r := by
  rcases h with rfl | rfl <;> rfl

theorem valid_of_sanitize {r s : String} (h : sanitize r = .ok s) : Valid s ∧ s = r := by
  unfold sanitize at h
  split_ifs at h with h1 h2
  · cases h
    exact ⟨Or.inl rfl, h1.symm⟩
  · cases h
    exact ⟨Or.inr rfl, h2.symm⟩

end fireRules

namespace commitRules

def onClose : String := "on_close"
def onFile : String := "on_file"
def onNFiles : String := "on_n_files"
def onTermination : String := "on_termination"

/-- `commitRules::sanitize`. -/
def sanitize (input : String) : Except Exn String :=
  if input = onClose then .ok onClose
  else if input = onFile then .ok onFile
  else if input = onNFiles then .ok onNFiles
  else if input = onTermination then .ok onTermination
  else .error
    (.invalidArgument ("Input commit rule: " ++ input ++ " is not a valid CAPIO-CL rule"))

/-- A commit rule of the language. -/
def Valid (r : String) : Prop := r = onClose ∨ r = onFile ∨ r = onNFiles ∨ r = onTermination

instance (r : String) : Decidable (Valid r) := inferInstanceAs (Decidable (_ ∨ _ ∨ _ ∨ _))

theorem sanitize_of_valid {r : String} (h : Valid r) : sanitize r = .ok r := by
  rcases h with rfl | rfl | rfl | rfl <;> rfl

theorem valid_of_sanitize {r s : String} (h : sanitize r = .ok s) : Valid s ∧ s = r := by
  unfold sanitize at h
  split_ifs at h with h1 h2 h3 h4
  · cases h
    exact ⟨Or.inl rfl, h1.symm⟩
  · cases h
    exact ⟨Or.inr (Or.inl rfl), h2.symm⟩
  · cases h
    exact ⟨Or.inr (Or.inr (Or.inl rfl)), h3.symm⟩
  · cases h
    exact ⟨Or.inr (Or.inr (Or.inr rfl)), h4.symm⟩

end commitRules

/-- `CAPIO_CL_VERSION`. -/
def versionV1 : String := "1.0"
def versionV1_1 : String := "1.1"

/-! ## Strings -/

/-- `isspace` of the C locale. -/
def isspace (c : Char) : Bool := c.toNat = 32 || (9 ≤ c.toNat && c.toNat ≤ 13)

/-- `s.erase(remove_if(s.begin(), s.end(), isspace), s.end())`. -/
def eraseSpaces (s : String) : String := String.ofList (s.toList.filter fun c => !isspace c)

/-- No character of `s` is a space. -/
def NoSpaces (s : String) : Prop := ∀ c ∈ s.toList, isspace c = false

instance (s : String) : Decidable (NoSpaces s) :=
  List.decidableBAll (fun c => isspace c = false) s.toList

@[simp] theorem eraseSpaces_idem (s : String) : eraseSpaces (eraseSpaces s) = eraseSpaces s := by
  unfold eraseSpaces
  rw [String.toList_ofList, List.filter_filter]
  simp only [Bool.and_self]

theorem eraseSpaces_of_noSpaces {s : String} (h : NoSpaces s) : eraseSpaces s = s := by
  unfold eraseSpaces
  rw [List.filter_eq_self.mpr fun c hc => by rw [h c hc]; rfl, String.ofList_toList]

/-- `INT_MAX`. -/
def intMax : Int := 2 ^ 31 - 1

def intMin : Int := -2 ^ 31

/-- `std::stoi` after the sign: the digits, in the range of an `int`. -/
def stoiDigits (negative : Bool) (cs : List Char) : Except Exn Int :=
  let digits := cs.takeWhile Char.isDigit
  if digits = [] then .error (.invalidArgument "stoi")
  else
    let n : Int := Nat.ofDigitChars 10 digits 0
    let n := if negative then -n else n
    if intMin ≤ n ∧ n ≤ intMax then .ok n else .error (.outOfRange "stoi")

/-- `std::stoi(str)`: leading spaces, an optional sign, the digits that follow; the rest of the
string is not looked at. -/
def stoi (str : String) : Except Exn Int :=
  match str.toList.dropWhile isspace with
  | '-' :: cs => stoiDigits true cs
  | '+' :: cs => stoiDigits false cs
  | cs => stoiDigits false cs

/-- A nonempty string of digits. -/
def Digits (s : String) : Prop := s.toList ≠ [] ∧ ∀ c ∈ s.toList, c.isDigit = true

/-- The number a string of digits denotes. -/
def digitsValue (s : String) : Int := (Nat.ofDigitChars 10 s.toList 0 : Nat)

theorem isspace_eq_false_of_isDigit {c : Char} (h : c.isDigit = true) : isspace c = false := by
  simp only [Char.isDigit, Bool.and_eq_true, decide_eq_true_eq, ge_iff_le,
    UInt32.le_iff_toNat_le] at h
  obtain ⟨h1, -⟩ := h
  have h48 : 48 ≤ c.toNat := h1
  simp only [isspace, Bool.or_eq_false_iff, Bool.and_eq_false_iff, decide_eq_false_iff_not]
  exact ⟨by omega, Or.inr (by omega)⟩

/-- On digits `stoi` is the number they denote, or out of range. -/
theorem stoi_digits {s : String} (h : Digits s) :
    stoi s = if digitsValue s ≤ intMax then .ok (digitsValue s) else .error (.outOfRange "stoi") := by
  obtain ⟨hne, hd⟩ := h
  obtain ⟨c, cs, hs⟩ := List.exists_cons_of_ne_nil hne
  have hc : c.isDigit = true := hd c (by rw [hs]; exact List.mem_cons_self)
  have hminus : c ≠ '-' := by rintro rfl; exact absurd hc (by decide)
  have hplus : c ≠ '+' := by rintro rfl; exact absurd hc (by decide)
  have hdrop : (c :: cs).dropWhile isspace = c :: cs := by
    rw [List.dropWhile_cons, isspace_eq_false_of_isDigit hc]
    rfl
  have htake : (c :: cs).takeWhile Char.isDigit = c :: cs :=
    List.takeWhile_eq_self_iff.mpr fun x hx => hd x (by rw [hs]; exact hx)
  have hmin : intMin ≤ ((Nat.ofDigitChars 10 (c :: cs) 0 : Nat) : Int) := by
    unfold intMin
    omega
  unfold stoi digitsValue
  simp only [hs, hdrop]
  split
  · rename_i e; exact absurd (List.cons.inj e).1 hminus
  · rename_i e; exact absurd (List.cons.inj e).1 hplus
  · unfold stoiDigits
    simp only [htake, reduceCtorEq, if_false, Bool.false_eq_true, hmin, true_and]

theorem stoiDigits_error {negative : Bool} {cs : List Char} {ex : Exn}
    (h : stoiDigits negative cs = .error ex) :
    ex = .invalidArgument "stoi" ∨ ex = .outOfRange "stoi" := by
  unfold stoiDigits at h
  dsimp only at h
  generalize (if negative = true then _ else _ : Int) = n at h
  split at h
  · exact Or.inl (Except.error.inj h).symm
  · split at h
    · exact absurd h (by simp)
    · exact Or.inr (Except.error.inj h).symm

/-- The two exceptions of `std::stoi`. -/
theorem stoi_error {s : String} {ex : Exn} (h : stoi s = .error ex) :
    ex = .invalidArgument "stoi" ∨ ex = .outOfRange "stoi" := by
  unfold stoi at h
  split at h <;> exact stoiDigits_error h

theorem toList_toString (n : Nat) : (toString n).toList = Nat.toDigits 10 n := by
  rw [Nat.toString_eq_repr, Nat.toList_repr]

/-- `std::to_string` of a natural number is made of digits. -/
theorem digits_toString (n : Nat) : Digits (toString n) := by
  unfold Digits
  rw [toList_toString]
  exact ⟨Nat.toDigits_ne_nil, fun c hc =>
    Nat.isDigit_of_mem_toDigits (by omega) (by omega) hc⟩

/-- The digits of a number denote it. -/
theorem digitsValue_toString (n : Nat) : digitsValue (toString n) = n := by
  unfold digitsValue
  rw [toList_toString, Nat.ofDigitChars_ten_toDigits]

/-! ## Paths -/

/-- `path::is_absolute()`. -/
def isAbsolute (path : String) : Bool := path.toList.head? = some '/'

/-- `path::parent_path()`: the path itself when it has nothing after its root, else the longest
prefix with one element less. A trailing slash ends an empty last element. -/
def parentPath (path : String) : String :=
  let cs := path.toList.reverse
  if cs.all (· == '/') then path
  else
    let dir := cs.dropWhile (· != '/')
    if dir = [] then ""
    else if dir.all (· == '/') then "/"
    else String.ofList (dir.dropWhile (· == '/')).reverse

/-- `prefix / path`. -/
def join (pre path : String) : String :=
  if isAbsolute path then path
  else if pre = "" ∨ pre.toList.getLast? = some '/' then pre ++ path
  else pre ++ "/" ++ path

/-- The elements of a path after its root directory; a trailing slash ends an empty one. -/
def pathElements (path : String) : List (List Char) :=
  let names := (path.toList.splitOn '/').filter fun name => name ≠ []
  if path.toList.getLast? = some '/' ∧ names ≠ [] then names ++ [[]] else names

/-- `operator==` of two paths: the root directory and the elements. -/
def samePath (path path' : String) : Bool :=
  isAbsolute path == isAbsolute path' && pathElements path == pathElements path'

theorem samePath_iff {path path' : String} : samePath path path' = true ↔
    isAbsolute path = isAbsolute path' ∧ pathElements path = pathElements path' := by
  unfold samePath
  rw [Bool.and_eq_true, beq_iff_eq, beq_iff_eq]

@[simp] theorem samePath_refl (path : String) : samePath path path = true :=
  samePath_iff.mpr ⟨rfl, rfl⟩

theorem samePath_symm {path path' : String} (h : samePath path path' = true) :
    samePath path' path = true := by
  obtain ⟨h1, h2⟩ := samePath_iff.mp h
  exact samePath_iff.mpr ⟨h1.symm, h2.symm⟩

example : parentPath "///a//b" = "///a" := by decide +kernel
example : parentPath "a/b/" = "a/b" := by decide +kernel
example : parentPath "//a" = "/" ∧ parentPath "/" = "/" := by decide +kernel
example : samePath "a//b" "a/b" = true ∧ samePath "a/" "a" = false := by decide +kernel

/-- No glob character: `*`, `?` and `[` do not occur. -/
def Concrete (path : String) : Prop := Glob.Literal path.toList

instance (path : String) : Decidable (Concrete path) :=
  List.decidableBAll (fun c => c ≠ '*' ∧ c ≠ '?' ∧ c ≠ '[') path.toList

/-! ## The platform -/

/-- A leaf or table of a TOML document, as far as `load_config_to_memory` tells them apart. -/
inductive Toml where
  | table (entries : List (String × Toml))
  | string (s : String)
  | boolean (b : Bool)
  | integer (n : Int)
  | other

/-- What the code takes from the system it runs on. -/
structure Platform where
  /-- `fnmatch(pattern, path, FNM_NOESCAPE) == 0` -/
  fnmatch : String → String → Bool
  /-- the iteration order of `_capio_cl_entries` -/
  entryOrder : IterationOrder String
  /-- `getenv("WORKFLOW_NAME")` -/
  workflowNameEnv : Option String
  /-- `toml::parse_file`, or what its `parse_error` says -/
  parseToml : String → Except String (List (String × Toml))
  /-- a file of this name can be opened for writing -/
  writable : String → Bool
  /-- a pattern without `*`, `?` and `[` matches only itself -/
  fnmatch_literal : ∀ {pattern path : String}, Concrete pattern →
    (fnmatch pattern path = true ↔ pattern = path)

/-- A system with the C library's `fnmatch`, no `WORKFLOW_NAME` and no TOML files. -/
def posix : Platform where
  fnmatch := Glob.fnmatch
  entryOrder := IterationOrder.id
  workflowNameEnv := none
  parseToml := fun _ => .error "File could not be opened for reading"
  writable := fun filename => filename ≠ ""
  fnmatch_literal := Glob.fnmatch_literal

/-! ## Host names -/

/-- `HOST_NAME_MAX` (`monitor.h:18`). -/
def hostNameMax : Nat := 1024

/-- What `gethostname` writes into `_hostname`: letters, digits, `-`, `.` and `_`. -/
structure HostName where
  name : String
  nonempty : name ≠ ""
  chars : (name.toList.all fun c => c.isAlphanum || ['-', '.', '_'].contains c) = true
  short : name.utf8ByteSize < hostNameMax

theorem HostName.notMem (host : HostName) {c : Char}
    (hc : (c.isAlphanum || ['-', '.', '_'].contains c) = false) : c ∉ host.name.toList := by
  intro hmem
  have htrue := List.all_eq_true.mp host.chars c hmem
  rw [hc] at htrue
  exact absurd htrue (by decide)

/-- Two hosts. -/
def HostName.alpha : HostName := ⟨"alpha", by decide, by decide +kernel, by decide +kernel⟩

def HostName.beta : HostName := ⟨"beta", by decide, by decide +kernel, by decide +kernel⟩

end CapioCl
