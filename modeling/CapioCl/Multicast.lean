import CapioCl.Basic
import CapioCl.Lib.Runs
import Mathlib.Logic.Function.Basic

/-!
# `MulticastMonitor`: messages and the commit protocol

A message is `snprintf(message, MESSAGE_SIZE, "%c %s", action, path)`: the text ends at the first
NUL of the path and is cut to the buffer. `sendMessage_eq` says that nothing is lost of a text
that fits, and `payload_sendMessage` that `substr(2)` gives the path back.

`CommitGroup ι` is a group of monitors named by `ι` on one multicast group. A call of
`setCommitted` is two events and one of `isCommitted` up to three, since `_send_message` runs
outside the lock; the network keeps a message when it is delivered, so any process may receive it any number of times,
in any order, or never; `lost` drops one.

Results:
* `stepCommit_committedFiles`, `stepCommit_network`, `stepCommit_storing`: what one event can do;
* **`commitProtocol_safe`**: along every run, committed files and advertised files were committed
  by a call, nothing is forgotten and nothing is listed twice.
-/

namespace CapioCl

open CapioCl.Lib.Runs

namespace MulticastMonitor

/-! ## Messages -/

/-- `PATH_MAX`. -/
def pathMax : Nat := 4096

/-- `MESSAGE_SIZE`. -/
def messageSize : Nat := 2 + pathMax + pathMax

/-- `MESSAGE_COMMANDS`. -/
inductive Command where
  | set
  | get
  deriving Repr, DecidableEq

/-- The character of a command. -/
def Command.char : Command → Char
  | .set => '!'
  | .get => '?'

/-- The characters that fit into `n` bytes. -/
def fit : Nat → List Char → List Char
  | _, [] => []
  | n, c :: cs => if c.utf8Size ≤ n then c :: fit (n - c.utf8Size) cs else []

/-- `_send_message`: the datagram. -/
def sendMessage (path : String) (action : Command) : String :=
  String.ofList (fit (messageSize - 1)
    (action.char :: ' ' :: path.toList.takeWhile (· ≠ '\x00')))

/-- `incoming_message[0] == SET`. -/
def isSet (message : String) : Bool := message.toList.head? = some Command.set.char

/-- `std::string(incoming_message).substr(2)`: a message has its command and a blank first. -/
def payload (message : String) : String := String.ofList (message.toList.drop 2)

/-- A text that a message carries whole: no NUL, and room for the command and the final NUL. -/
def Carried (text : String) : Prop :=
  text.utf8ByteSize + 3 ≤ messageSize ∧ '\x00' ∉ text.toList

/-- A path the system admits: at most `PATH_MAX` bytes and no NUL. -/
def Admitted (path : String) : Prop := path.utf8ByteSize ≤ pathMax ∧ '\x00' ∉ path.toList

instance (path : String) : Decidable (Admitted path) :=
  inferInstanceAs (Decidable (_ ∧ _))

theorem Admitted.carried {path : String} (h : Admitted path) : Carried path := by
  refine ⟨?_, h.2⟩
  have := h.1
  unfold messageSize
  unfold pathMax at *
  omega

theorem utf8ByteSize_ofList_cons (c : Char) (cs : List Char) :
    (String.ofList (c :: cs)).utf8ByteSize = c.utf8Size + (String.ofList cs).utf8ByteSize := by
  rw [String.ofList_cons, String.utf8ByteSize_append, String.utf8ByteSize_singleton]

theorem fit_eq_self {n : Nat} {cs : List Char} (h : (String.ofList cs).utf8ByteSize ≤ n) :
    fit n cs = cs := by
  induction cs generalizing n with
  | nil => rfl
  | cons c cs ih =>
    rw [utf8ByteSize_ofList_cons] at h
    unfold fit
    rw [if_pos (by omega), ih (by omega)]

/-- A carried text stands in its message whole. -/
theorem sendMessage_eq {text : String} (h : Carried text) (action : Command) :
    sendMessage text action = String.ofList (action.char :: ' ' :: text.toList) := by
  have hnul : text.toList.takeWhile (· ≠ '\x00') = text.toList := by
    rw [List.takeWhile_eq_self_iff]
    intro c hc
    exact decide_eq_true fun e => h.2 (e ▸ hc)
  have hsize : (String.ofList (action.char :: ' ' :: text.toList)).utf8ByteSize ≤
      messageSize - 1 := by
    have hchar : action.char.utf8Size = 1 := by cases action <;> rfl
    have hblank : ' '.utf8Size = 1 := rfl
    have h1 := h.1
    rw [utf8ByteSize_ofList_cons, utf8ByteSize_ofList_cons, String.ofList_toList, hchar, hblank]
    omega
  unfold sendMessage
  rw [hnul, fit_eq_self hsize]

@[simp] theorem payload_sendMessage {text : String} (h : Carried text) (action : Command) :
    payload (sendMessage text action) = text := by
  unfold payload
  rw [sendMessage_eq h, String.toList_ofList, List.drop_succ_cons, List.drop_succ_cons,
    List.drop_zero, String.ofList_toList]

theorem isSet_sendMessage {text : String} (h : Carried text) (action : Command) :
    isSet (sendMessage text action) = true ↔ action = .set := by
  unfold isSet
  rw [sendMessage_eq h, String.toList_ofList, List.head?_cons, decide_eq_true_iff,
    Option.some_inj]
  cases action <;> decide

/-! ## The commit side of a group -/

/-- `std::find(_committed_files.begin(), _committed_files.end(), path)`: a comparison of paths. -/
def found (files : List String) (path : String) : Bool := files.any fun file => samePath file path

/-- The locked part of `setCommitted`. -/
def store (files : List String) (path : String) : List String :=
  if found files path then files else files ++ [path]

/-- `commit_listener` on a message: the list after it, and the reply. The comparison is one of
strings here. -/
def commitListener (files : List String) (message : String) : List String × Option String :=
  let path := payload message
  if isSet message then (if path ∈ files then files else files ++ [path], none)
  else (files, if path ∈ files then some (sendMessage path .set) else none)

/-- The monitors of a multicast group, the messages on it, and the calls between their two
phases. -/
structure CommitGroup (ι : Type) where
  committedFiles : ι → List String := fun _ => []
  network : List String := []
  storing : List (ι × String) := []
  asking : List (ι × String) := []
  waiting : List (ι × String) := []

/-- What happens in a group: `setCommitted` sends and later stores, `isCommitted` looks, and when
it has found nothing asks and later looks again, a listener receives, the network loses. -/
inductive CommitEvent (ι : Type) where
  | setCommitted (i : ι) (path : String)
  | stored (i : ι) (path : String)
  | isCommitted (i : ι) (path : String)
  | asked (i : ι) (path : String)
  | lookedAgain (i : ι) (path : String)
  | received (i : ι) (message : String)
  | lost (message : String)
  deriving Repr, DecidableEq

variable {ι : Type}

/-- One event; `none` when it cannot happen. -/
def stepCommit [DecidableEq ι] (s : CommitGroup ι) : CommitEvent ι → Option (CommitGroup ι)
  | .setCommitted i path =>
    some { s with network := sendMessage path .set :: s.network
                  storing := (i, path) :: s.storing }
  | .stored i path =>
    if (i, path) ∈ s.storing then
      some { s with committedFiles :=
                      Function.update s.committedFiles i (store (s.committedFiles i) path)
                    storing := s.storing.erase (i, path) }
    else none
  | .isCommitted i path =>
    if found (s.committedFiles i) path then some s
    else some { s with asking := (i, path) :: s.asking }
  | .asked i path =>
    if (i, path) ∈ s.asking then
      some { s with network := sendMessage path .get :: s.network
                    asking := s.asking.erase (i, path)
                    waiting := (i, path) :: s.waiting }
    else none
  | .lookedAgain i path =>
    if (i, path) ∈ s.waiting then some { s with waiting := s.waiting.erase (i, path) } else none
  | .received i message =>
    if message ∈ s.network then
      let (files, reply) := commitListener (s.committedFiles i) message
      some { s with committedFiles := Function.update s.committedFiles i files
                    network := reply.toList ++ s.network }
    else none
  | .lost message =>
    if message ∈ s.network then some { s with network := s.network.erase message } else none

/-- What a call of `isCommitted` returns at an event, if it returns there. -/
def returns (s : CommitGroup ι) : CommitEvent ι → Option Bool
  | .isCommitted i path => if found (s.committedFiles i) path then some true else none
  | .lookedAgain i path => some (found (s.committedFiles i) path)
  | _ => none

/-- The paths of the calls are admitted. -/
def CommitEvent.Admitted : CommitEvent ι → Prop
  | .setCommitted _ path | .isCommitted _ path => MulticastMonitor.Admitted path
  | _ => True

/-! ### The lists -/

theorem found_of_mem {files : List String} {path : String} (h : path ∈ files) :
    found files path = true :=
  List.any_eq_true.mpr ⟨path, h, samePath_refl path⟩

theorem found_iff {files : List String} {path : String} :
    found files path = true ↔ ∃ file ∈ files, samePath file path = true := List.any_eq_true

theorem found_mono {files files' : List String} {path : String} (hsub : files ⊆ files')
    (h : found files path = true) : found files' path = true := by
  obtain ⟨file, hmem, hsame⟩ := found_iff.mp h
  exact found_iff.mpr ⟨file, hsub hmem, hsame⟩

/-- The two ways a list of committed files may change. -/
theorem store_eq (files : List String) (path : String) :
    store files path = files ∨ (path ∉ files ∧ store files path = files ++ [path]) := by
  unfold store
  split
  · exact .inl rfl
  · rename_i h
    exact .inr ⟨fun hmem => h (found_of_mem hmem), rfl⟩

theorem commitListener_fst (files : List String) (message : String) :
    (commitListener files message).1 = files ∨
      (isSet message = true ∧ payload message ∉ files ∧
        (commitListener files message).1 = files ++ [payload message]) := by
  unfold commitListener
  by_cases hset : isSet message = true
  · by_cases hmem : payload message ∈ files
    · left
      simp [hset, hmem]
    · right
      simp [hset, hmem]
  · left
    simp [hset]

/-- A listener that has handled an advert lists its path. -/
theorem payload_mem_commitListener {files : List String} {message : String}
    (h : isSet message = true) : payload message ∈ (commitListener files message).1 := by
  unfold commitListener
  by_cases hmem : payload message ∈ files <;> simp [h, hmem]

/-- A reply is the advert of a listed path. -/
theorem commitListener_reply {files : List String} {message reply : String}
    (h : (commitListener files message).2 = some reply) :
    payload message ∈ files ∧ reply = sendMessage (payload message) .set := by
  unfold commitListener at h
  by_cases hset : isSet message = true
  · simp [hset] at h
  · by_cases hmem : payload message ∈ files
    · simp [hset, hmem] at h
      exact ⟨hmem, h.symm⟩
    · simp [hset, hmem] at h

/-! ### What one event can do -/

section Step

variable [DecidableEq ι] {s t : CommitGroup ι} {e : CommitEvent ι}

/-- A list stays as it is, or gets one new path at its end: that of a call which stores, or of an
advert that is received. -/
theorem stepCommit_committedFiles (h : stepCommit s e = some t) (i : ι) :
    t.committedFiles i = s.committedFiles i ∨
      ∃ path, path ∉ s.committedFiles i ∧ t.committedFiles i = s.committedFiles i ++ [path] ∧
        ((i, path) ∈ s.storing ∨
          ∃ message ∈ s.network, isSet message = true ∧ payload message = path) := by
  cases e with
  | stored j path =>
    simp only [stepCommit, Option.ite_none_right_eq_some, Option.some_inj] at h
    obtain ⟨hmem, rfl⟩ := h
    by_cases hij : i = j
    · subst hij
      simp only [Function.update_self]
      exact (store_eq _ _).imp id fun ⟨hnew, heq⟩ => ⟨path, hnew, heq, .inl hmem⟩
    · exact .inl (Function.update_of_ne hij _ _)
  | received j message =>
    simp only [stepCommit, Option.ite_none_right_eq_some, Option.some_inj] at h
    obtain ⟨hmem, rfl⟩ := h
    by_cases hij : i = j
    · subst hij
      simp only [Function.update_self]
      exact (commitListener_fst _ _).imp id fun ⟨hset, hnew, heq⟩ =>
        ⟨payload message, hnew, heq, .inr ⟨message, hmem, hset, rfl⟩⟩
    · exact .inl (Function.update_of_ne hij _ _)
  | setCommitted =>
    cases h
    exact .inl rfl
  | isCommitted | asked | lookedAgain | lost =>
    left
    simp only [stepCommit] at h
    split at h <;> cases h <;> rfl

/-- A message was there before, or is the advert or the query of a call, or the advert that a
listener sends for a path it lists. -/
theorem stepCommit_network (h : stepCommit s e = some t) {message : String}
    (hmem : message ∈ t.network) : message ∈ s.network ∨
      (∃ i path, e = .setCommitted i path ∧ message = sendMessage path .set) ∨
      (∃ i path, (i, path) ∈ s.asking ∧ message = sendMessage path .get) ∨
      ∃ i, ∃ path ∈ s.committedFiles i, message = sendMessage path .set := by
  cases e with
  | setCommitted i path =>
    cases h
    cases List.mem_cons.mp hmem with
    | inl heq => exact .inr (.inl ⟨i, path, rfl, heq⟩)
    | inr hold => exact .inl hold
  | asked i path =>
    simp only [stepCommit, Option.ite_none_right_eq_some, Option.some_inj] at h
    obtain ⟨hasking, rfl⟩ := h
    cases List.mem_cons.mp hmem with
    | inl heq => exact .inr (.inr (.inl ⟨i, path, hasking, heq⟩))
    | inr hold => exact .inl hold
  | received i m =>
    simp only [stepCommit, Option.ite_none_right_eq_some, Option.some_inj] at h
    obtain ⟨-, rfl⟩ := h
    cases List.mem_append.mp hmem with
    | inl hreply =>
      obtain ⟨hlisted, heq⟩ := commitListener_reply (Option.mem_toList.mp hreply)
      exact .inr (.inr (.inr ⟨i, payload m, hlisted, heq⟩))
    | inr hold => exact .inl hold
  | lost m =>
    simp only [stepCommit, Option.ite_none_right_eq_some, Option.some_inj] at h
    obtain ⟨-, rfl⟩ := h
    exact .inl (List.mem_of_mem_erase hmem)
  | stored | isCommitted | lookedAgain =>
    left
    simp only [stepCommit] at h
    split at h <;> cases h <;> exact hmem

/-- A call that is about to store has just sent, or was there before. -/
theorem stepCommit_storing (h : stepCommit s e = some t) {i : ι} {path : String}
    (hmem : (i, path) ∈ t.storing) :
    (i, path) ∈ s.storing ∨ e = .setCommitted i path := by
  cases e with
  | setCommitted j path' =>
    cases h
    cases List.mem_cons.mp hmem with
    | inl heq =>
      cases heq
      exact .inr rfl
    | inr hold => exact .inl hold
  | stored j path' =>
    simp only [stepCommit, Option.ite_none_right_eq_some, Option.some_inj] at h
    obtain ⟨-, rfl⟩ := h
    exact .inl (List.mem_of_mem_erase hmem)
  | isCommitted | asked | lookedAgain | received | lost =>
    left
    simp only [stepCommit] at h
    split at h <;> cases h <;> exact hmem

/-- A call that is about to ask has just looked, or was there before. -/
theorem stepCommit_asking (h : stepCommit s e = some t) {i : ι} {path : String}
    (hmem : (i, path) ∈ t.asking) :
    (i, path) ∈ s.asking ∨ e = .isCommitted i path := by
  cases e with
  | isCommitted j path' =>
    simp only [stepCommit] at h
    split at h
    · cases h
      exact .inl hmem
    · cases h
      cases List.mem_cons.mp hmem with
      | inl heq =>
        cases heq
        exact .inr rfl
      | inr hold => exact .inl hold
  | asked j path' =>
    simp only [stepCommit, Option.ite_none_right_eq_some, Option.some_inj] at h
    obtain ⟨-, rfl⟩ := h
    exact .inl (List.mem_of_mem_erase hmem)
  | setCommitted =>
    cases h
    exact .inl hmem
  | stored | lookedAgain | received | lost =>
    left
    simp only [stepCommit] at h
    split at h <;> cases h
    exact hmem

theorem committedFiles_subset (h : stepCommit s e = some t) (i : ι) : s.committedFiles i ⊆ t.committedFiles i := by
  obtain heq | ⟨path, -, heq, -⟩ := stepCommit_committedFiles h i
  · rw [heq]
    exact List.Subset.refl _
  · rw [heq]
    exact List.subset_append_left _ _

end Step

/-! ### Along a run -/

/-- Some process has called `setCommitted(path)`. -/
def SetCommitted (past : List (CommitEvent ι)) (path : String) : Prop :=
  ∃ i, .setCommitted i path ∈ past

/-- What holds between the events so far and the group. -/
structure CommitInvariant (past : List (CommitEvent ι)) (s : CommitGroup ι) : Prop where
  admitted : ∀ path, SetCommitted past path → Admitted path
  asking : ∀ i path, (i, path) ∈ s.asking → Admitted path
  storing : ∀ i path, (i, path) ∈ s.storing → SetCommitted past path
  listed : ∀ i, ∀ path ∈ s.committedFiles i, SetCommitted past path
  network : ∀ message ∈ s.network, ∃ path action, Admitted path ∧
    message = sendMessage path action ∧ (action = .set → SetCommitted past path)
  nodup : ∀ i, (s.committedFiles i).Nodup
  handled : ∀ i message, .received i message ∈ past → isSet message = true →
    payload message ∈ s.committedFiles i

/-- An advert on the network is one of a committed path. -/
theorem CommitInvariant.advert {past : List (CommitEvent ι)} {s : CommitGroup ι}
    (hs : CommitInvariant past s) {message : String} (hmem : message ∈ s.network)
    (hset : isSet message = true) : SetCommitted past (payload message) := by
  obtain ⟨path, action, hadm, rfl, hcalled⟩ := hs.network message hmem
  rw [payload_sendMessage hadm.carried]
  exact hcalled ((isSet_sendMessage hadm.carried action).mp hset)

theorem CommitInvariant.empty : CommitInvariant ([] : List (CommitEvent ι)) {} where
  admitted := fun _ ⟨_, hmem⟩ => nomatch hmem
  asking := nofun
  storing := nofun
  listed := nofun
  network := nofun
  nodup := fun _ => List.nodup_nil
  handled := nofun

theorem SetCommitted.append {past : List (CommitEvent ι)} {path : String}
    (h : SetCommitted past path) (e : CommitEvent ι) : SetCommitted (past ++ [e]) path :=
  h.imp fun _ hmem => List.mem_append_left _ hmem

theorem CommitInvariant.step [DecidableEq ι] {past : List (CommitEvent ι)} {s t : CommitGroup ι}
    {e : CommitEvent ι} (hs : CommitInvariant past s) (he : e.Admitted)
    (h : stepCommit s e = some t) : CommitInvariant (past ++ [e]) t where
  admitted := by
    rintro path ⟨i, hmem⟩
    cases List.mem_append.mp hmem with
    | inl hold => exact hs.admitted path ⟨i, hold⟩
    | inr hnew =>
      cases List.mem_singleton.mp hnew
      exact he
  asking := by
    intro i path hmem
    cases stepCommit_asking h hmem with
    | inl hold => exact hs.asking i path hold
    | inr heq =>
      subst heq
      exact he
  storing := by
    intro i path hmem
    cases stepCommit_storing h hmem with
    | inl hold => exact (hs.storing i path hold).append e
    | inr heq => exact ⟨i, by simp [heq]⟩
  listed := by
    intro i path hmem
    obtain heq | ⟨new, -, heq, hnew⟩ := stepCommit_committedFiles h i
    · rw [heq] at hmem
      exact (hs.listed i path hmem).append e
    · rw [heq, List.mem_append, List.mem_singleton] at hmem
      obtain hold | rfl := hmem
      · exact (hs.listed i path hold).append e
      · obtain hstoring | ⟨message, hnet, hset, rfl⟩ := hnew
        · exact (hs.storing i path hstoring).append e
        · exact (hs.advert hnet hset).append e
  network := by
    intro message hmem
    obtain hold | ⟨i, path, rfl, rfl⟩ | ⟨i, path, hasking, rfl⟩ | ⟨i, path, hlisted, rfl⟩ :=
      stepCommit_network h hmem
    · obtain ⟨path, action, hadm, heq, hcalled⟩ := hs.network message hold
      exact ⟨path, action, hadm, heq, fun ha => (hcalled ha).append e⟩
    · exact ⟨path, .set, he, rfl, fun _ => ⟨i, by simp⟩⟩
    · exact ⟨path, .get, hs.asking i path hasking, rfl, nofun⟩
    · have hcalled := hs.listed i path hlisted
      exact ⟨path, .set, hs.admitted path hcalled, rfl, fun _ => hcalled.append e⟩
  nodup := by
    intro i
    obtain heq | ⟨new, hnew, heq, -⟩ := stepCommit_committedFiles h i
    · rw [heq]
      exact hs.nodup i
    · rw [heq, ← List.concat_eq_append]
      exact List.Nodup.concat hnew (hs.nodup i)
  handled := by
    intro i message hmem hset
    cases List.mem_append.mp hmem with
    | inl hold => exact committedFiles_subset h i (hs.handled i message hold hset)
    | inr hnew =>
      cases List.mem_singleton.mp hnew
      simp only [stepCommit, Option.ite_none_right_eq_some, Option.some_inj] at h
      obtain ⟨-, rfl⟩ := h
      simp only [Function.update_self]
      exact payload_mem_commitListener hset

/-- **Safety of the commit protocol.** In every run of a group with admitted paths: a call of
`isCommitted` returns true, at either of its two looks, only for a path that some process has
committed; so is every path in a list or in an advert on the network. What a process has found
committed it finds committed ever after, as it does every path whose advert it has handled. No
list holds a string twice. -/
theorem commitProtocol_safe [DecidableEq ι] {events : List (CommitEvent ι)} {s : CommitGroup ι}
    (hadm : ∀ e ∈ events, e.Admitted) (hrun : exec stepCommit {} events = some s) :
    (∀ i path, (returns s (.isCommitted i path) = some true ∨
        returns s (.lookedAgain i path) = some true) →
      ∃ path', SetCommitted events path' ∧ samePath path' path = true) ∧
    (∀ i, ∀ path ∈ s.committedFiles i, SetCommitted events path) ∧
    (∀ message ∈ s.network, isSet message = true → SetCommitted events (payload message)) ∧
    (∀ i path later t, exec stepCommit s later = some t →
      found (s.committedFiles i) path = true → found (t.committedFiles i) path = true) ∧
    (∀ i message, .received i message ∈ events → isSet message = true →
      returns s (.isCommitted i (payload message)) = some true ∧
        returns s (.lookedAgain i (payload message)) = some true) ∧
    ∀ i, (s.committedFiles i).Nodup := by
  have hs : CommitInvariant events s :=
    exec_induction stepCommit CommitInvariant.empty
      (fun _ _ _ _ hm he h => hm.step he h) hadm hrun
  have hfound : ∀ i path, (returns s (.isCommitted i path) = some true ∨
      returns s (.lookedAgain i path) = some true) ↔ found (s.committedFiles i) path = true := by
    intro i path
    cases hf : found (s.committedFiles i) path <;> simp [returns, hf]
  refine ⟨fun i path hret => ?_, hs.listed, fun message => hs.advert,
    fun i path later t hlater => ?_, fun i message hmem hset => ?_, hs.nodup⟩
  · obtain ⟨file, hmem, hsame⟩ := found_iff.mp ((hfound i path).mp hret)
    exact ⟨file, hs.listed i file hmem, hsame⟩
  · exact fun hf => exec_preserves (P := fun m => found (m.committedFiles i) path = true)
      stepCommit (fun m e m' hm h => found_mono (committedFiles_subset h i) hm) hf hlater
  · have hf := found_of_mem (hs.handled i message hmem hset)
    simp [returns, hf]


/-- One process commits `a`, another receives the advert and finds `a` committed before the
committing process has stored it. -/
theorem overtakingAdvert_safe :
    let events : List (CommitEvent Bool) := [.setCommitted false "a",
      .received true (sendMessage "a" .set), .isCommitted true "a", .stored false "a"]
    ∃ s, exec stepCommit {} events = some s ∧
      returns s (.isCommitted true "a") = some true ∧ (s.committedFiles true).Nodup ∧
      ∃ path', SetCommitted events path' ∧ samePath path' "a" = true := by
  intro events
  have hadm : ∀ e ∈ events, e.Admitted := by
    intro e he
    simp only [events, List.mem_cons, List.not_mem_nil, or_false] at he
    obtain rfl | rfl | rfl | rfl := he
    · exact (by decide +kernel : Admitted "a")
    · trivial
    · exact (by decide +kernel : Admitted "a")
    · trivial
  have hsome : (exec stepCommit {} events).isSome = true := by decide +kernel
  have hrun := (Option.some_get hsome).symm
  have hset : isSet (sendMessage "a" .set) = true := by decide +kernel
  have hpayload : payload (sendMessage "a" .set) = "a" := by decide +kernel
  obtain ⟨hret, -, -, -, hhandled, hnodup⟩ := commitProtocol_safe hadm hrun
  have hlook := (hhandled true _ (by simp [events]) hset).1
  rw [hpayload] at hlook
  exact ⟨_, hrun, hlook, hnodup true, hret true "a" (.inl hlook)⟩

end MulticastMonitor

end CapioCl
