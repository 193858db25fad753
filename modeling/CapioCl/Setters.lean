import CapioCl.EntryField
import CapioCl.Operations

/-!
# The field setters

The eleven calls that write one field of one entry (`Engine.cpp:287-334`, `357-376`, `418-436`,
`458-471`, `510-555`, `583-598`, `769-783`, `812-825`). Each looks for the entry, writes through the
iterator when there is one, and otherwise creates it and calls itself again. `Setter` is any of
them, with its arguments; `setter_creates_and_writes` says what they have in common.

A setter of a key writes in place. So setters of keys commute unless they write the same field of
the same key, and no entry but their own changes: an entry that was copied from a pattern does not
follow it.
-/

namespace CapioCl

open CapioCl.Lib

/-- A call that writes one field. -/
inductive Setter where
  | addProducer (producer : String)
  | addConsumer (consumer : String)
  | setCommitRule (commitRule : String)
  | setFireRule (fireRule : String)
  | setPermanent (value : Bool)
  | setExclude (value : Bool)
  | setDirectory
  | setFile
  | setCommitedCloseNumber (num : Int)
  | setStoreFileInMemory
  | setStoreFileInFileSystem
  deriving Repr, DecidableEq

namespace Setter

/-- The call on a path. -/
def call (P : Platform) (path : String) : Setter → Engine → Except Exn Engine
  | .addProducer producer, e => .ok (e.addProducer P path producer).1
  | .addConsumer consumer, e => .ok (e.addConsumer P path consumer).1
  | .setCommitRule commitRule, e => e.setCommitRule P path commitRule
  | .setFireRule fireRule, e => e.setFireRule P path fireRule
  | .setPermanent value, e => .ok (e.setPermanent P path value)
  | .setExclude value, e => .ok (e.setExclude P path value)
  | .setDirectory, e => .ok (e.setDirectory P path)
  | .setFile, e => .ok (e.setFile P path)
  | .setCommitedCloseNumber num, e => .ok (e.setCommitedCloseNumber P path num)
  | .setStoreFileInMemory, e => .ok (e.setStoreFileInMemory P path)
  | .setStoreFileInFileSystem, e => .ok (e.setStoreFileInFileSystem P path)

/-- The rule, if the call takes one, is of the language. -/
def Valid : Setter → Prop
  | .setCommitRule commitRule => commitRules.Valid commitRule
  | .setFireRule fireRule => fireRules.Valid fireRule
  | _ => True

/-- What the call writes. -/
def write : Setter → Write
  | .addProducer producer => .app .output (eraseSpaces producer)
  | .addConsumer consumer => .app .input (eraseSpaces consumer)
  | .setCommitRule commitRule => .commitRule commitRule
  | .setFireRule fireRule => .fireRule fireRule
  | .setPermanent value => .permanent value
  | .setExclude value => .excluded value
  | .setDirectory => .isFile false
  | .setFile => .isFile true
  | .setCommitedCloseNumber num => .closeCount num
  | .setStoreFileInMemory => .storeInMemory true
  | .setStoreFileInFileSystem => .storeInMemory false

/-- The field it writes to. -/
def field : Setter → EntryField
  | .addProducer _ => .producers
  | .addConsumer _ => .consumers
  | .setCommitRule _ => .commitRule
  | .setFireRule _ => .fireRule
  | .setPermanent _ => .permanent
  | .setExclude _ => .excluded
  | .setDirectory | .setFile => .isFile
  | .setCommitedCloseNumber _ => .commitOnCloseCount
  | .setStoreFileInMemory | .setStoreFileInFileSystem => .storeInMemory

/-- The matching getter answers with the value set. -/
def Reads (P : Platform) (path : String) (e : Engine) : Setter → Prop
  | .addProducer producer => eraseSpaces producer ∈ (e.getProducers P path).1
  | .addConsumer consumer => eraseSpaces consumer ∈ e.getConsumers path
  | .setCommitRule commitRule => (e.getCommitRule P path).1 = commitRule
  | .setFireRule fireRule => (e.getFireRule P path).1 = fireRule ∧
      (e.isFirable P path).1 = decide (fireRule = fireRules.noUpdate)
  | .setPermanent value => (e.isPermanent P path).1 = value
  | .setExclude value => (e.isExcluded P path).1 = value
  | .setDirectory => (e.isDirectory P path).1 = true ∧ (e.isFile P path).1 = false
  | .setFile => (e.isFile P path).1 = true ∧ (e.isDirectory P path).1 = false
  | .setCommitedCloseNumber num => (e.getCommitCloseCount P path).1 = num
  | .setStoreFileInMemory => (e.isStoredInMemory P path).1 = true
  | .setStoreFileInFileSystem => (e.isStoredInMemory P path).1 = false

variable {P : Platform} {path : String} {e : Engine}

/-- **A setter is a creation followed by a write.** -/
theorem call_eq (P : Platform) (hp : path ≠ "") {s : Setter} (hs : s.Valid) (e : Engine) :
    s.call P path e = .ok ((e._newFile P path).modify path s.write.apply) := by
  rw [← Engine.setter_eq P hp]
  cases s with
  | addProducer producer => exact congrArg _ (Engine.addApp_eq .output P path producer e)
  | addConsumer consumer => exact congrArg _ (Engine.addApp_eq .input P path consumer e)
  | setCommitRule commitRule => exact Engine.setCommitRule_eq P path hs e
  | setFireRule fireRule => exact Engine.setFireRule_eq P path hs e
  | _ => rfl

/-- On a key it is the write alone. -/
theorem call_of_isSome (P : Platform) (hp : path ≠ "") {s : Setter} (hs : s.Valid)
    (h : (e.find path).isSome) : s.call P path e = .ok (e.modify path s.write.apply) := by
  rw [call_eq P hp hs, Engine.newFile_of_isSome P h]

/-! ## The write -/

/-- A write changes its own field only. -/
theorem get_write (s : Setter) {f : EntryField} (hf : f ≠ s.field) (entry : CapioCLEntry) :
    f.get (s.write.apply entry) = f.get entry := by
  cases s <;> cases f <;> first | rfl | exact absurd rfl hf

theorem appendNew_idem (vec : List String) (x : String) :
    appendNew (appendNew vec x) x = appendNew vec x := by
  unfold appendNew
  by_cases hx : x ∈ vec
  · rw [if_pos hx, if_pos hx]
  · rw [if_neg hx, if_pos (List.mem_append_right vec (List.mem_singleton_self x))]

theorem write_idem (s : Setter) (entry : CapioCLEntry) :
    s.write.apply (s.write.apply entry) = s.write.apply entry := by
  cases s with
  | addProducer producer =>
    exact congrArg (fun l => ({ entry with producers := l } : CapioCLEntry)) (appendNew_idem _ _)
  | addConsumer consumer =>
    exact congrArg (fun l => ({ entry with consumers := l } : CapioCLEntry)) (appendNew_idem _ _)
  | _ => rfl

/-- Writes to two fields commute. -/
theorem write_comm {s t : Setter} (h : s.field ≠ t.field) (entry : CapioCLEntry) :
    t.write.apply (s.write.apply entry) = s.write.apply (t.write.apply entry) := by
  cases s <;> cases t <;> first | rfl | exact absurd rfl h

end Setter

namespace Engine

/-- Two writes to different entries. -/
theorem modify_comm {p q : String} (h : p ≠ q) (f g : CapioCLEntry → CapioCLEntry) (e : Engine) :
    (e.modify p f).modify q g = (e.modify q g).modify p f := by
  refine ext_of_find rfl rfl (by simp only [keys_modify]) fun k => ?_
  simp only [find_modify]
  by_cases hp : k = p
  · subst hp
    rw [if_neg h, if_pos rfl, if_pos rfl, if_neg h]
  · rw [if_neg hp, if_neg hp]

end Engine

namespace Setter

variable {P : Platform} {path : String} {e : Engine}

/-- The getter of a key with the write made. -/
theorem reads_of_find (hp : path ≠ "") {s : Setter} {entry : CapioCLEntry}
    (h : e.find path = some (s.write.apply entry)) : s.Reads P path e := by
  have hread : ∀ {α : Type} (whenEmpty : α) (read : CapioCLEntry → α),
      (Engine.query P path whenEmpty read e).1 = read (s.write.apply entry) := by
    intro α whenEmpty read
    rw [Engine.query_of_find P whenEmpty read hp h]
  have hfile : (e.isFile P path).1 = (s.write.apply entry).isFile := by
    unfold Engine.isFile
    rw [if_neg hp, h]
  have hdirectory : (e.isDirectory P path).1 = !(s.write.apply entry).isFile := by
    unfold Engine.isDirectory
    rw [if_neg hp]
    exact congrArg not hfile
  cases s with
  | addProducer producer =>
    change _ ∈ (Engine.query P path [] CapioCLEntry.producers e).1
    rw [hread]
    exact mem_appendNew.mpr (Or.inr rfl)
  | addConsumer consumer =>
    have hlist : e.getConsumers path = appendNew entry.consumers (eraseSpaces consumer) := by
      unfold Engine.getConsumers
      rw [h]
      rfl
    change _ ∈ e.getConsumers path
    rw [hlist]
    exact mem_appendNew.mpr (Or.inr rfl)
  | setDirectory => exact ⟨hdirectory, hfile⟩
  | setFile => exact ⟨hfile, hdirectory⟩
  | setFireRule fireRule => exact ⟨hread _ _, hread _ _⟩
  | setCommitRule _ => exact hread _ _
  | setPermanent _ => exact hread _ _
  | setExclude _ => exact hread _ _
  | setCommitedCloseNumber _ => exact hread _ _
  | setStoreFileInMemory => exact hread _ _
  | setStoreFileInFileSystem => exact hread _ _

theorem reads_modify (hp : path ≠ "") (h : (e.find path).isSome) (s : Setter) :
    s.Reads P path (e.modify path s.write.apply) := by
  obtain ⟨entry, hentry⟩ := Option.isSome_iff_exists.mp h
  refine @reads_of_find P path _ hp s entry ?_
  rw [Engine.find_modify, if_pos rfl, hentry, Option.map_some]

/-- Two calls on keys write different entries, or different fields of one. -/
theorem modify_write_comm {q : String} {s t : Setter} (h : path ≠ q ∨ s.field ≠ t.field) :
    (e.modify path s.write.apply).modify q t.write.apply =
      (e.modify q t.write.apply).modify path s.write.apply := by
  by_cases hq : path = q
  · subst hq
    rw [Engine.modify_modify, Engine.modify_modify]
    exact congrArg (e.modify path) (funext (write_comm (h.resolve_left fun hne => hne rfl)))
  · exact Engine.modify_comm hq _ _ e

/-- **Calls on two keys, or on two fields of one, do not affect each other.** -/
theorem call_comm (hp : path ≠ "") {q : String} (hq : q ≠ "") {s t : Setter} (hs : s.Valid)
    (ht : t.Valid) (hpath : (e.find path).isSome) (hkey : (e.find q).isSome)
    (h : path ≠ q ∨ s.field ≠ t.field) :
    ∃ e', (s.call P path e).bind (t.call P q) = .ok e' ∧
      (t.call P q e).bind (s.call P path) = .ok e' ∧ s.Reads P path e' ∧ t.Reads P q e' := by
  have hafter : ∀ k (w : Write) k', (e.find k').isSome → ((e.modify k w.apply).find k').isSome := by
    intro k w k' hk'
    rwa [Engine.isSome_find_modify]
  refine ⟨(e.modify path s.write.apply).modify q t.write.apply, ?_, ?_, ?_, ?_⟩
  · rw [call_of_isSome P hp hs hpath]
    exact call_of_isSome P hq ht (hafter _ _ _ hkey)
  · rw [call_of_isSome P hq ht hkey, modify_write_comm h]
    exact call_of_isSome P hp hs (hafter _ _ _ hpath)
  · rw [modify_write_comm h]
    exact reads_modify hp (hafter _ _ _ hpath) s
  · exact reads_modify hq (hafter _ _ _ hkey) t

end Setter

/-- **A field setter creates the entry and writes its field.** It ends in the engine after
`newFile` with one field of the path's entry replaced; the matching getter reads what was set;
setting again changes nothing. On a key it changes no other entry, commutes with the setters of
other keys and of other fields, and does not reach the entries copied from the key before. -/
theorem setter_creates_and_writes (P : Platform) (e : Engine) {path : String} (hp : path ≠ "")
    {s : Setter} (hs : s.Valid) :
    (∃ e', s.call P path e = .ok e' ∧ e' = (e.newFile P path).modify path s.write.apply ∧
      (∀ entry f, f ≠ s.field → EntryField.get f (s.write.apply entry) = f.get entry) ∧
      (∀ k, k ≠ path → e'.find k = (e.newFile P path).find k) ∧
      s.Reads P path e' ∧ s.call P path e' = .ok e') ∧
    ((e.find path).isSome → ∀ (t : Setter) (q : String), t.Valid → q ≠ "" →
      (e.find q).isSome → path ≠ q ∨ s.field ≠ t.field →
      ∃ e', (s.call P path e).bind (t.call P q) = .ok e' ∧
        (t.call P q e).bind (s.call P path) = .ok e' ∧ s.Reads P path e' ∧ t.Reads P q e') ∧
    ((e.find path).isSome → ∀ q, q ≠ path →
      ∃ e', s.call P path (e.newFile P q) = .ok e' ∧ e'.find q = (e.newFile P q).find q) := by
  have hsome := Engine.find_newFile_isSome P hp e
  refine ⟨⟨_, Setter.call_eq P hp hs e, rfl, fun entry f hf => s.get_write hf entry,
    fun k hk => ?_, Setter.reads_modify hp hsome s, ?_⟩,
    fun hpath t q ht hq hkey h => Setter.call_comm hp hq hs ht hpath hkey h,
    fun hpath q hq => ?_⟩
  · rw [Engine.find_modify, if_neg hk]
    rfl
  · rw [Setter.call_of_isSome P hp hs (by rw [Engine.isSome_find_modify]; exact hsome),
      Engine.modify_modify]
    exact congrArg (fun w => Except.ok ((e._newFile P path).modify path w)) (funext s.write_idem)
  · have hkey : ((e.newFile P q).find path).isSome :=
      (Engine.find_newFile_isSome_iff P q e path).mpr (Or.inl hpath)
    refine ⟨_, Setter.call_of_isSome P hp hs hkey, ?_⟩
    rw [Engine.find_modify, if_neg hq]

/-- The rule of a pattern changes after a file was copied from it. -/
theorem patternEngine_keepsRule :
    (∃ e', (Setter.setCommitRule commitRules.onFile).call posix "*.dat"
        (patternEngine.newFile posix "x.dat") = .ok e' ∧
      e'.find "x.dat" = (patternEngine.newFile posix "x.dat").find "x.dat") ∧
      (patternEngine.newFile posix "x.dat").find "x.dat" =
        some { producers := ["app"], commitRule := commitRules.onClose } := by
  have hvalid : (Setter.setCommitRule commitRules.onFile).Valid := Or.inr (Or.inl rfl)
  have hkey : (patternEngine.find "*.dat").isSome := by decide +kernel
  exact ⟨(setter_creates_and_writes posix patternEngine (by decide) hvalid).2.2 hkey "x.dat"
    (by decide), by decide +kernel⟩

end CapioCl
