import CapioCl.HomeNode
import CapioCl.Lib.Reading
import CapioCl.Lib.Words

/-!
# `MulticastMonitor`: the bytes of a datagram

One iteration of `commit_listener` and of `home_node_listener` on a datagram of any bytes, and
`_send_message` on any bytes. A `Fault` is what ends a listener: `std::string` finds no end in the
buffer, `substr(2)` throws `std::out_of_range`, or `tokens` is read past its end.

Results:
* `tokens_eq_words`: the splitter loop gives the words of the message.
* `homeNodeListener_cases`: what a `home_node_listener` can do.
* `listeners_survive_iff`: which datagrams a listener survives and, where they are malformed,
  ignores. A datagram without two bytes before its first NUL ends `commit_listener`, one without
  two words ends `home_node_listener`, and neither looks for the blank behind the command.
-/

namespace CapioCl

namespace Datagram

open CapioCl.Lib CapioCl.Lib.Reading CapioCl.Lib.Words
open MulticastMonitor (Command messageSize pathMax)

/-- The contents of a `std::string`. -/
abbrev Bytes := List UInt8

/-- The blank between the fields of a message. -/
def blank : UInt8 := ' '.toUInt8

/-- The byte of a command. -/
def command (action : Command) : UInt8 := action.char.toUInt8

/-! ## Sending -/

/-- A C string: the bytes before the first NUL. -/
def cString (s : Bytes) : Bytes := s.takeWhile (· ≠ 0)

/-- `_send_message`: what `snprintf` leaves in `message`, up to `strlen(message)`. -/
def sendMessage (path : Bytes) (action : Command) : Bytes :=
  cString ((command action :: blank :: cString path).take (messageSize - 1))

/-- What `setHomeNode(path)` sends on `host`. -/
def homeAdvert (path host : Bytes) : Bytes := sendMessage (path ++ blank :: host) .set

/-- What `getHomeNode(path)` sends when it has found nothing. -/
def homeQuery (path : Bytes) : Bytes := sendMessage path .get

theorem mem_cString {s : Bytes} : (0 : UInt8) ∉ cString s := by
  intro h
  have := List.mem_takeWhile_imp h
  simp at this

theorem cString_eq_self {s : Bytes} (h : (0 : UInt8) ∉ s) : cString s = s := by
  unfold cString
  rw [List.takeWhile_eq_self_iff]
  exact fun b hb => decide_eq_true fun e => h (e ▸ hb)

theorem command_ne_zero (action : Command) : command action ≠ 0 := by cases action <;> decide

theorem sendMessage_eq {text : Bytes} (h : 0 ∉ text) (action : Command) :
    sendMessage text action = (command action :: blank :: text).take (messageSize - 1) := by
  unfold sendMessage
  rw [cString_eq_self h]
  refine cString_eq_self fun hmem => ?_
  have hmem := List.mem_of_mem_take hmem
  rw [List.mem_cons, List.mem_cons] at hmem
  obtain hcommand | hblank | htext := hmem
  · exact command_ne_zero action hcommand.symm
  · exact absurd hblank (by decide)
  · exact h htext

theorem length_sendMessage_lt (text : Bytes) (action : Command) :
    (sendMessage text action).length < messageSize := by
  have hcut : (sendMessage text action).length ≤ messageSize - 1 :=
    (List.takeWhile_sublist _).length_le.trans (List.length_take_le _ _)
  have hpos : 0 < messageSize := by decide
  omega

theorem cString_sendMessage (text : Bytes) (action : Command) :
    cString (sendMessage text action) = sendMessage text action :=
  cString_eq_self mem_cString

/-! ## Receiving -/

/-- What ends a listener. -/
inductive Fault where
  | unterminated
  | substr
  | token (index : Nat)
  deriving Repr, DecidableEq

/-- `incoming_message` after `bzero` and `recvfrom`. -/
def incomingMessage (datagram : Bytes) : Bytes :=
  (datagram ++ List.replicate messageSize 0).take messageSize

/-- `std::string(incoming_message)`. -/
def incomingString (buffer : Bytes) : Except Fault Bytes :=
  if 0 ∈ buffer then .ok (cString buffer) else .error .unterminated

/-- `s.substr(pos)`. -/
def substr (s : Bytes) (pos : Nat) : Except Fault Bytes :=
  if pos ≤ s.length then .ok (s.drop pos) else .error .substr

/-- `commit_listener` on a datagram: the list after it, and the reply. -/
def commitListener (files : List Bytes) (datagram : Bytes) :
    Except Fault (List Bytes × Option Bytes) := do
  let buffer := incomingMessage datagram
  let path ← substr (← incomingString buffer) 2
  if buffer.head? = some (command .set) then
    return (if path ∈ files then files else files ++ [path], none)
  else
    return (files, if path ∈ files then some (sendMessage path .set) else none)

/-- `s.find(' ', start)`. -/
def find (s : Bytes) (start : Nat) : Option Nat :=
  ((s.drop start).idxOf? blank).map (start + ·)

/-- What stands behind `start` when a blank is found: a piece without one, the blank, the rest. -/
theorem find_eq_some {s : Bytes} {start stop : Nat} (h : find s start = some stop) :
    start ≤ stop ∧ stop < s.length ∧ blank ∉ (s.drop start).take (stop - start) ∧
      s.drop start = (s.drop start).take (stop - start) ++ blank :: s.drop (stop + 1) := by
  obtain ⟨i, hi, rfl⟩ := Option.map_eq_some_iff.mp h
  obtain ⟨hlt, hblank, hbefore⟩ := List.idxOf?_eq_some_iff.mp hi
  have hlength := hlt
  rw [List.length_drop] at hlength
  have hdrop : (s.drop start).drop (i + 1) = s.drop (start + i + 1) := by
    rw [List.drop_drop, Nat.add_assoc]
  have hi' : start + i - start = i := by omega
  rw [hi']
  refine ⟨by omega, by omega, ?_, ?_⟩
  · intro hmem
    obtain ⟨j, hj, heq⟩ := List.mem_take_iff_getElem.mp hmem
    exact hbefore j (by omega) heq
  · rw [← hdrop, ← hblank, ← List.drop_eq_getElem_cons hlt, List.take_append_drop]

theorem find_eq_none {s : Bytes} {start : Nat} (h : find s start = none) :
    blank ∉ s.drop start := by
  unfold find at h
  rwa [Option.map_eq_none_iff, List.idxOf?_eq_none_iff] at h

/-- The splitter loop: `start` is behind the last blank found. -/
def splitFrom (message : Bytes) (start : Nat) (tokens : List Bytes) : List Bytes :=
  match _found : find message start with
  | some stop =>
    splitFrom message (stop + 1)
      (if stop > start then tokens ++ [(message.drop start).take (stop - start)] else tokens)
  | none => if start < message.length then tokens ++ [message.drop start] else tokens
termination_by message.length - start
decreasing_by
  have := find_eq_some _found
  omega

/-- `tokens`. -/
def tokens (message : Bytes) : List Bytes := splitFrom message 0 []

/-- `tokens[index]`. -/
def token (tokens : List Bytes) (index : Nat) : Except Fault Bytes :=
  match tokens[index]? with
  | some word => .ok word
  | none => .error (.token index)

/-- `home_node_listener` on a datagram: the table after it, and the reply. -/
def homeNodeListener (self : Bytes) (homeNodes : Bytes → Option Bytes) (datagram : Bytes) :
    Except Fault ((Bytes → Option Bytes) × Option Bytes) := do
  let message ← incomingString (incomingMessage datagram)
  let path ← token (tokens message) 1
  let first ← token (tokens message) 0
  if first.head? = some (command .set) then
    let homeNode ← token (tokens message) 2
    return (Function.update homeNodes path (some homeNode), none)
  else
    match homeNodes path with
    | none => return (homeNodes, none)
    | some homeNode =>
      return (homeNodes, if homeNode = self then some (homeAdvert path self) else none)

/-! ## The splitter -/

/-- The loop appends the words of what stands behind `start`. -/
theorem splitFrom_eq (message : Bytes) (start : Nat) (tokens : List Bytes) :
    splitFrom message start tokens = tokens ++ words blank (message.drop start) := by
  fun_induction splitFrom message start tokens with
  | case1 start tokens stop found ih =>
    obtain ⟨hle, hlt, hfree, heq⟩ := find_eq_some found
    have hlength : ((message.drop start).take (stop - start)).length = stop - start := by
      rw [List.length_take, List.length_drop]
      omega
    rw [dite_eq_ite] at ih
    rw [ih, heq, words_append_cons]
    by_cases hgt : stop > start
    · have hne := List.ne_nil_of_length_pos (hlength.symm ▸ Nat.sub_pos_of_lt hgt)
      rw [if_pos hgt, words_eq_singleton hne hfree, List.append_assoc, ← heq]
    · have hnil := List.eq_nil_of_length_eq_zero (hlength.trans (by omega))
      rw [if_neg hgt, hnil, words_nil, List.nil_append]
  | case2 start tokens found hlt =>
    have hne : message.drop start ≠ [] := by
      intro hnil
      rw [List.drop_eq_nil_iff] at hnil
      omega
    rw [words_eq_singleton hne (find_eq_none found)]
  | case3 start tokens found hge =>
    rw [List.drop_eq_nil_of_le (by omega), words_nil, List.append_nil]

theorem tokens_eq_words (message : Bytes) : tokens message = words blank message := by
  unfold tokens
  rw [splitFrom_eq, List.nil_append, List.drop_zero]

/-! ## What a listener does with a datagram -/

section Listeners

variable {datagram : Bytes}

theorem cString_append (s t : Bytes) : cString (s ++ 0 :: t) = cString s := by
  induction s with
  | nil => rfl
  | cons b s ih =>
    unfold cString at ih ⊢
    rw [List.cons_append, List.takeWhile_cons, List.takeWhile_cons, ih]

/-- A datagram shorter than the buffer has a NUL behind it. -/
theorem incomingMessage_eq (h : datagram.length < messageSize) :
    ∃ zeros, incomingMessage datagram = datagram ++ 0 :: zeros := by
  obtain ⟨room, hroom⟩ := Nat.exists_eq_add_of_lt h
  have hsub : messageSize - datagram.length = room + 1 := by omega
  refine ⟨List.replicate room 0, ?_⟩
  unfold incomingMessage
  rw [List.take_append, List.take_of_length_le (Nat.le_of_lt h), List.take_replicate, hsub,
    Nat.min_eq_left (by omega), List.replicate_succ]

theorem incomingString_incomingMessage (h : datagram.length < messageSize) :
    incomingString (incomingMessage datagram) = .ok (cString datagram) := by
  obtain ⟨zeros, heq⟩ := incomingMessage_eq h
  unfold incomingString
  rw [heq, if_pos (by simp), cString_append]

/-- The byte that is compared with `SET` is the first of the string. -/
theorem head?_incomingMessage {b : UInt8} {rest : Bytes} (h : datagram.length < messageSize)
    (hstring : cString datagram = b :: rest) : (incomingMessage datagram).head? = some b := by
  obtain ⟨zeros, heq⟩ := incomingMessage_eq h
  rw [heq]
  cases datagram with
  | nil => cases hstring
  | cons c datagram =>
    unfold cString at hstring
    rw [List.takeWhile_cons] at hstring
    split at hstring
    · exact congrArg some (List.cons.inj hstring).1
    · cases hstring

/-- `commit_listener` on the string of a datagram. -/
theorem commitListener_eq (h : datagram.length < messageSize) {c d : UInt8} {path : Bytes}
    (hstring : cString datagram = c :: d :: path) (files : List Bytes) :
    commitListener files datagram =
      if c = command .set then .ok (if path ∈ files then files else files ++ [path], none)
      else .ok (files, if path ∈ files then some (sendMessage path .set) else none) := by
  have hsubstr : substr (cString datagram) 2 = .ok path := by
    rw [hstring]
    exact if_pos (by simp)
  unfold commitListener
  simp only [incomingString_incomingMessage h, head?_incomingMessage h hstring, ok_bind, hsubstr,
    Option.some_inj, pure_eq_ok]

theorem commitListener_eq_error (h : datagram.length < messageSize)
    (hstring : (cString datagram).length < 2) (files : List Bytes) :
    commitListener files datagram = .error .substr := by
  have hsubstr : substr (cString datagram) 2 = .error .substr := if_neg (by omega)
  unfold commitListener
  simp only [incomingString_incomingMessage h, ok_bind, hsubstr, error_bind]

section HomeNodeListener

variable {first path : Bytes} {rest : List Bytes} (self : Bytes)
  (homeNodes : Bytes → Option Bytes)

/-- `home_node_listener` on an advert, a third word behind it. -/
theorem homeNodeListener_set (h : datagram.length < messageSize) {homeNode : Bytes}
    (hwords : words blank (cString datagram) = first :: path :: homeNode :: rest)
    (hset : first.head? = some (command .set)) :
    homeNodeListener self homeNodes datagram =
      .ok (Function.update homeNodes path (some homeNode), none) := by
  unfold homeNodeListener
  simp [incomingString_incomingMessage h, tokens_eq_words, hwords, token, hset]

theorem homeNodeListener_set_eq_error (h : datagram.length < messageSize)
    (hwords : words blank (cString datagram) = [first, path])
    (hset : first.head? = some (command .set)) :
    homeNodeListener self homeNodes datagram = .error (.token 2) := by
  unfold homeNodeListener
  simp [incomingString_incomingMessage h, tokens_eq_words, hwords, token, hset]

/-- `home_node_listener` on what does not begin like an advert. -/
theorem homeNodeListener_get (h : datagram.length < messageSize)
    (hwords : words blank (cString datagram) = first :: path :: rest)
    (hget : first.head? ≠ some (command .set)) :
    homeNodeListener self homeNodes datagram =
      .ok (homeNodes, if homeNodes path = some self then some (homeAdvert path self) else none) := by
  unfold homeNodeListener
  cases hpath : homeNodes path with
  | none => simp [incomingString_incomingMessage h, tokens_eq_words, hwords, token, hget, hpath]
  | some homeNode =>
    simp [incomingString_incomingMessage h, tokens_eq_words, hwords, token, hget, hpath]

end HomeNodeListener

theorem homeNodeListener_eq_error (h : datagram.length < messageSize)
    (hwords : (words blank (cString datagram)).length < 2) (self : Bytes)
    (homeNodes : Bytes → Option Bytes) :
    homeNodeListener self homeNodes datagram = .error (.token 1) := by
  have htoken : token (words blank (cString datagram)) 1 = .error (.token 1) := by
    unfold token
    rw [List.getElem?_eq_none (by omega)]
  unfold homeNodeListener
  simp only [incomingString_incomingMessage h, ok_bind, tokens_eq_words, htoken, error_bind]

/-- What a `home_node_listener` can do: answer for a word its table maps to itself, or enter a word
for a word. -/
theorem homeNodeListener_cases (h : datagram.length < messageSize) {self : Bytes}
    {homeNodes homeNodes' : Bytes → Option Bytes} {reply : Option Bytes}
    (hok : homeNodeListener self homeNodes datagram = .ok (homeNodes', reply)) :
    (homeNodes' = homeNodes ∧ ∃ path ∈ words blank (cString datagram),
      reply = if homeNodes path = some self then some (homeAdvert path self) else none) ∨
    (reply = none ∧ ∃ path ∈ words blank (cString datagram),
      ∃ homeNode ∈ words blank (cString datagram),
        homeNodes' = Function.update homeNodes path (some homeNode)) := by
  obtain hwords | hwords := Nat.lt_or_ge (words blank (cString datagram)).length 2
  · rw [homeNodeListener_eq_error h hwords] at hok
    cases hok
  · obtain ⟨first, path, rest, heq⟩ := exists_cons_cons hwords
    by_cases hset : first.head? = some (command .set)
    · cases rest with
      | nil =>
        rw [homeNodeListener_set_eq_error self homeNodes h heq hset] at hok
        cases hok
      | cons homeNode rest =>
        rw [homeNodeListener_set self homeNodes h heq hset] at hok
        cases hok
        exact .inr ⟨rfl, path, by simp [heq], homeNode, by simp [heq], rfl⟩
    · rw [homeNodeListener_get self homeNodes h heq hset] at hok
      cases hok
      exact .inl ⟨rfl, path, by simp [heq], rfl⟩

end Listeners

/-! ## Which datagrams a listener survives -/

/-- A message to `commit_listener`: a command, a blank and a path. -/
def CommitWellFormed (datagram : Bytes) : Prop :=
  ∃ action path, path ≠ [] ∧ cString datagram = command action :: blank :: path

/-- A message to `home_node_listener`: a path and a host behind `SET`, a path behind `GET`. -/
def HomeNodeWellFormed (datagram : Bytes) : Prop :=
  (∃ path host, path ≠ [] ∧ host ≠ [] ∧ blank ∉ host ∧
    cString datagram = command .set :: blank :: (path ++ blank :: host)) ∨
  ∃ path, path ≠ [] ∧ cString datagram = command .get :: blank :: path

/-- `commit_listener` comes back from the datagram, with the list it had if that is malformed. -/
def CommitListenerSurvives (datagram : Bytes) : Prop :=
  ∀ files, ∃ files' reply, commitListener files datagram = .ok (files', reply) ∧
    (¬ CommitWellFormed datagram → files' = files)

/-- `home_node_listener` comes back from the datagram, with the table it had if that is
malformed. -/
def HomeNodeListenerSurvives (datagram : Bytes) : Prop :=
  ∀ self homeNodes, ∃ homeNodes' reply,
    homeNodeListener self homeNodes datagram = .ok (homeNodes', reply) ∧
      (¬ HomeNodeWellFormed datagram → homeNodes' = homeNodes)

section Survival

variable {datagram : Bytes}

theorem command_injective : Function.Injective command := by
  intro a b h
  cases a <;> cases b <;> first | rfl | exact absurd h (by decide)

theorem commitListener_survives_iff (h : datagram.length < messageSize) :
    CommitListenerSurvives datagram ↔ 2 ≤ (cString datagram).length ∧
      ((cString datagram).head? = some (command .set) →
        ∃ path, path ≠ [] ∧ cString datagram = command .set :: blank :: path) := by
  constructor
  · intro hsurvives
    obtain ⟨files', reply, hok, hkept⟩ := hsurvives []
    obtain hshort | hlong := Nat.lt_or_ge (cString datagram).length 2
    · rw [commitListener_eq_error h hshort] at hok
      cases hok
    · obtain ⟨c, d, path, hstring⟩ := exists_cons_cons hlong
      refine ⟨hlong, fun hset => ?_⟩
      rw [hstring, List.head?_cons, Option.some_inj] at hset
      rw [commitListener_eq h hstring, if_pos hset] at hok
      cases hok
      -- the empty list has got a path, so the datagram is an advert
      have hwell : CommitWellFormed datagram := by
        by_contra hmalformed
        exact absurd (hkept hmalformed) (by simp)
      obtain ⟨action, path', hne, heq⟩ := hwell
      have haction : command action = command .set := by
        rw [hstring] at heq
        exact (List.cons.inj heq).1.symm.trans hset
      exact ⟨path', hne, haction ▸ heq⟩
  · rintro ⟨hlong, hwell⟩ files
    obtain ⟨c, d, path, hstring⟩ := exists_cons_cons hlong
    rw [commitListener_eq h hstring]
    by_cases hset : c = command .set
    · obtain ⟨path', hne, heq⟩ := hwell (by rw [hstring, hset, List.head?_cons])
      rw [if_pos hset]
      exact ⟨_, _, rfl, fun hmalformed => absurd ⟨.set, path', hne, heq⟩ hmalformed⟩
    · rw [if_neg hset]
      exact ⟨_, _, rfl, fun _ => rfl⟩

theorem words_command (action : Command) (text : Bytes) :
    words blank (command action :: blank :: text) = [command action] :: words blank text := by
  have hblank : blank ∉ [command action] := by cases action <;> decide
  have hsplit := @words_append_cons _ _ blank [command action] text
  rwa [words_eq_singleton (List.cons_ne_nil _ _) hblank] at hsplit

/-- The words of an advert. -/
theorem words_advert {path host : Bytes} (hne : host ≠ []) (hhost : blank ∉ host) :
    words blank (command .set :: blank :: (path ++ blank :: host)) =
      [command .set] :: (words blank path ++ [host]) := by
  rw [words_command, words_append_cons, words_eq_singleton hne hhost]

/-- The text of an advert has a word in its path and so three words. -/
theorem exists_words_advert {path host : Bytes} (hpath : ∃ b ∈ path, b ≠ blank) (hne : host ≠ [])
    (hhost : blank ∉ host) : ∃ path' homeNode rest,
      words blank (command .set :: blank :: (path ++ blank :: host)) =
        [command .set] :: path' :: homeNode :: rest := by
  rw [words_advert hne hhost]
  cases hwords : words blank path with
  | nil =>
    obtain ⟨b, hb, hnot⟩ := hpath
    exact absurd (words_eq_nil_iff.mp hwords b hb) hnot
  | cons w ws =>
    cases ws with
    | nil => exact ⟨w, host, [], rfl⟩
    | cons v ws => exact ⟨w, v, ws ++ [host], rfl⟩

theorem two_words_iff {s : Bytes} : 2 ≤ (words blank s).length ↔
    ∃ x y, x ≠ blank ∧ y ≠ blank ∧ [x, blank, y].Sublist s := by
  rw [le_length_words_iff]
  constructor
  · rintro ⟨l, hlength, hl, hsub⟩
    obtain ⟨x, y, rfl⟩ := List.length_eq_two.mp hlength
    simp only [List.mem_cons, List.not_mem_nil, or_false, not_or] at hl
    exact ⟨x, y, Ne.symm hl.1, Ne.symm hl.2, hsub⟩
  · rintro ⟨x, y, hx, hy, hsub⟩
    refine ⟨[x, y], rfl, ?_, hsub⟩
    simp [hx.symm, hy.symm]

theorem HomeNodeListenerSurvives.two_words (h : datagram.length < messageSize)
    (hsurvives : HomeNodeListenerSurvives datagram) :
    2 ≤ (words blank (cString datagram)).length := by
  obtain ⟨homeNodes', reply, hok, -⟩ := hsurvives [] fun _ => none
  by_contra hshort
  rw [homeNodeListener_eq_error h (by omega)] at hok
  cases hok

/-- What is taken for an advert and survived is one: the empty table gets an entry. -/
theorem HomeNodeListenerSurvives.advert (h : datagram.length < messageSize)
    (hsurvives : HomeNodeListenerSurvives datagram)
    (hfind : (cString datagram).find? (· ≠ blank) = some (command .set)) :
    ∃ path host, (∃ b ∈ path, b ≠ blank) ∧ host ≠ [] ∧ blank ∉ host ∧
      cString datagram = command .set :: blank :: (path ++ blank :: host) := by
  obtain ⟨first, path, rest, hwords⟩ := exists_cons_cons (hsurvives.two_words h)
  obtain ⟨homeNodes', reply, hok, hkept⟩ := hsurvives [] fun _ => none
  have hset : first.head? = some (command .set) := by
    rw [find?_eq_head?_words, hwords] at hfind
    exact hfind
  cases rest with
  | nil =>
    rw [homeNodeListener_set_eq_error _ _ h hwords hset] at hok
    cases hok
  | cons homeNode rest =>
    rw [homeNodeListener_set _ _ h hwords hset] at hok
    cases hok
    have hwell : HomeNodeWellFormed datagram := by
      by_contra hmalformed
      have hentry := congrFun (hkept hmalformed) path
      rw [Function.update_self] at hentry
      cases hentry
    obtain ⟨path', host, -, hhost, hblank, heq⟩ | ⟨path', -, heq⟩ := hwell
    · refine ⟨path', host, ?_, hhost, hblank, heq⟩
      -- without a word in the path there would be two words only
      by_contra hall
      have hnone : words blank path' = [] :=
        words_eq_nil_iff.mpr fun b hb => by_contra fun hnot => hall ⟨b, hb, hnot⟩
      rw [heq, words_advert hhost hblank, hnone] at hwords
      cases hwords
    · rw [heq, List.find?_cons_of_pos (by decide), Option.some_inj] at hfind
      exact absurd (command_injective hfind) (by decide)

theorem homeNodeListener_survives_iff (h : datagram.length < messageSize) :
    HomeNodeListenerSurvives datagram ↔
      (∃ x y, x ≠ blank ∧ y ≠ blank ∧ [x, blank, y].Sublist (cString datagram)) ∧
      ((cString datagram).find? (· ≠ blank) = some (command .set) →
        ∃ path host, (∃ b ∈ path, b ≠ blank) ∧ host ≠ [] ∧ blank ∉ host ∧
          cString datagram = command .set :: blank :: (path ++ blank :: host)) := by
  rw [← two_words_iff]
  constructor
  · exact fun hsurvives => ⟨hsurvives.two_words h, hsurvives.advert h⟩
  · rintro ⟨hlong, hwell⟩ self homeNodes
    by_cases hset : (cString datagram).find? (· ≠ blank) = some (command .set)
    · obtain ⟨path, host, hpath, hhost, hblank, heq⟩ := hwell hset
      obtain ⟨path', homeNode, rest, hwords⟩ := exists_words_advert hpath hhost hblank
      rw [← heq] at hwords
      refine ⟨_, _, homeNodeListener_set self homeNodes h hwords rfl, fun hmalformed => ?_⟩
      have hne : path ≠ [] := by
        rintro rfl
        simp at hpath
      exact absurd (.inl ⟨path, host, hne, hhost, hblank, heq⟩) hmalformed
    · obtain ⟨first, path, rest, hwords⟩ := exists_cons_cons hlong
      rw [find?_eq_head?_words, hwords] at hset
      exact ⟨_, _, homeNodeListener_get self homeNodes h hwords hset, fun _ => rfl⟩

/-- **Which datagrams a listener survives.** `commit_listener` comes back from a datagram, the
list kept if that is malformed, when its string has two bytes and behind a `!` are a blank and a
path. `home_node_listener` does, the table kept, when its string has two words and, where the
first begins with `!`, is an advert with a path that is not blank. -/
theorem listeners_survive_iff (datagram : Bytes) (h : datagram.length < messageSize) :
    (CommitListenerSurvives datagram ↔ 2 ≤ (cString datagram).length ∧
      ((cString datagram).head? = some (command .set) →
        ∃ path, path ≠ [] ∧ cString datagram = command .set :: blank :: path)) ∧
    (HomeNodeListenerSurvives datagram ↔
      (∃ x y, x ≠ blank ∧ y ≠ blank ∧ [x, blank, y].Sublist (cString datagram)) ∧
      ((cString datagram).find? (· ≠ blank) = some (command .set) →
        ∃ path host, (∃ b ∈ path, b ≠ blank) ∧ host ≠ [] ∧ blank ∉ host ∧
          cString datagram = command .set :: blank :: (path ++ blank :: host))) :=
  ⟨commitListener_survives_iff h, homeNodeListener_survives_iff h⟩

/-- Both listeners survive `! /a b`. -/
theorem advert_survived :
    (command .set :: blank :: [47, 97, blank, 98]).length < messageSize ∧
      CommitListenerSurvives (command .set :: blank :: [47, 97, blank, 98]) ∧
      HomeNodeListenerSurvives (command .set :: blank :: [47, 97, blank, 98]) := by
  have hlt : (command .set :: blank :: [47, 97, blank, 98]).length < messageSize := by decide
  have hstring : cString (command .set :: blank :: [47, 97, blank, 98]) =
      command .set :: blank :: [47, 97, blank, 98] := by decide
  obtain ⟨hcommit, hhome⟩ := listeners_survive_iff _ hlt
  rw [hstring] at hcommit hhome
  refine ⟨hlt, hcommit.mpr ⟨by decide, fun _ => ⟨[47, 97, blank, 98], by decide, rfl⟩⟩,
    hhome.mpr ⟨⟨command .set, 47, by decide, by decide, by decide⟩, fun _ =>
      ⟨[47, 97], [98], ⟨47, by decide, by decide⟩, by decide, by decide, rfl⟩⟩⟩

/-- The empty datagram ends both listeners; both take `!a b c`, which has no blank behind the
command, for an advert. -/
theorem emptyDatagram_not_survived :
    (([] : Bytes).length < messageSize ∧ ¬ CommitListenerSurvives [] ∧
      ¬ HomeNodeListenerSurvives [] ∧ (∀ files, commitListener files [] = .error .substr) ∧
      ∀ self homeNodes, homeNodeListener self homeNodes [] = .error (.token 1)) ∧
    (command .set :: [97, blank, 98, blank, 99]).length < messageSize ∧
      ¬ CommitListenerSurvives (command .set :: [97, blank, 98, blank, 99]) ∧
      ¬ HomeNodeListenerSurvives (command .set :: [97, blank, 98, blank, 99]) := by
  have hempty : ([] : Bytes).length < messageSize := by decide
  have hlt : (command .set :: [97, blank, 98, blank, 99]).length < messageSize := by decide
  have hstring : cString (command .set :: [97, blank, 98, blank, 99]) =
      command .set :: [97, blank, 98, blank, 99] := by decide
  have hblank : (97 : UInt8) ≠ blank := by decide
  refine ⟨⟨hempty, ?_, ?_, commitListener_eq_error hempty (by decide),
    homeNodeListener_eq_error hempty (by decide)⟩, hlt, ?_, ?_⟩
  · rw [commitListener_survives_iff hempty]
    exact fun h => absurd h.1 (by decide)
  · rw [homeNodeListener_survives_iff hempty]
    rintro ⟨⟨x, y, -, -, hsub⟩, -⟩
    cases hsub
  · rw [commitListener_survives_iff hlt, hstring]
    rintro ⟨-, hwell⟩
    obtain ⟨path, -, heq⟩ := hwell rfl
    exact hblank (List.cons.inj (List.cons.inj heq).2).1
  · rw [homeNodeListener_survives_iff hlt, hstring]
    rintro ⟨-, hwell⟩
    obtain ⟨path, host, -, -, -, heq⟩ := hwell rfl
    exact hblank (List.cons.inj (List.cons.inj heq).2).1

end Survival

end Datagram

end CapioCl
