import CapioCl.HomeNodeMessages
import CapioCl.Lib.Utf8

/-!
# `MulticastMonitor`: messages as text and as bytes

The runs of a group speak of messages as strings. On the UTF-8 encoding of such a message the
listeners do on bytes what they do there on strings.

Results:
* `encode_sendMessage`: a text that is carried is sent as its encoding.
* `commitListener_encode`: the commit listener on a message of `_send_message`.
* `homeNodeListener_encode`, `homeNodeListener_encode_eq_error`: the home node listener on any
  message without NUL that leaves room for an answer.
* `oneToken_iff_decodes`: the paths that runs of a group are about are those whose datagrams decode.
-/

namespace CapioCl

namespace Datagram

open CapioCl.Lib CapioCl.Lib.Words CapioCl.Lib.Utf8
open MulticastMonitor (Command Carried messageSize)

/-! ## Sending -/

theorem encode_command (action : Command) (text : String) :
    encode (String.ofList (action.char :: ' ' :: text.toList)) =
      command action :: blank :: encode text := by
  have haction : action.char.toNat < 128 := by cases action <;> decide
  rw [encode_ofList, List.flatMap_cons, List.flatMap_cons, utf8EncodeChar_ascii haction,
    utf8EncodeChar_ascii (by decide)]
  rfl

theorem zero_notMem_encode {text : String} (h : '\x00' ∉ text.toList) : 0 ∉ encode text :=
  fun hmem => h ((mem_encode_iff (a := '\x00') (by decide)).mp hmem)

/-- The message of a carried text, whole. -/
theorem sendMessage_encode {text : String} (h : Carried text) (action : Command) :
    sendMessage (encode text) action = command action :: blank :: encode text := by
  rw [sendMessage_eq (zero_notMem_encode h.2)]
  refine List.take_of_length_le ?_
  have hfits := h.1
  rw [List.length_cons, List.length_cons, length_encode]
  omega

theorem encode_sendMessage {text : String} (h : Carried text) (action : Command) :
    encode (MulticastMonitor.sendMessage text action) = sendMessage (encode text) action := by
  rw [MulticastMonitor.sendMessage_eq h, encode_command, sendMessage_encode h]

/-! ## The commit listener -/

/-- The listener on a message of `_send_message`: its list and its answer are encoded. -/
theorem commitListener_encode {text : String} (h : Carried text) (action : Command)
    (files : List String) :
    commitListener (files.map encode) (encode (MulticastMonitor.sendMessage text action)) =
      .ok ((MulticastMonitor.commitListener files
          (MulticastMonitor.sendMessage text action)).1.map encode,
        (MulticastMonitor.commitListener files
          (MulticastMonitor.sendMessage text action)).2.map encode) := by
  have hmem : encode text ∈ files.map encode ↔ text ∈ files :=
    List.mem_map_of_injective encode_injective
  have hstring : cString (encode (MulticastMonitor.sendMessage text action)) =
      command action :: blank :: encode text := by
    rw [encode_sendMessage h, cString_sendMessage, sendMessage_encode h]
  have hlt : (encode (MulticastMonitor.sendMessage text action)).length < messageSize := by
    rw [encode_sendMessage h]
    exact length_sendMessage_lt _ action
  rw [commitListener_eq hlt hstring]
  unfold MulticastMonitor.commitListener
  rw [MulticastMonitor.payload_sendMessage h]
  by_cases hset : action = .set
  · rw [if_pos (congrArg command hset), if_pos ((MulticastMonitor.isSet_sendMessage h action).mpr hset)]
    by_cases hlisted : text ∈ files
    · rw [if_pos (hmem.mpr hlisted), if_pos hlisted]
      rfl
    · rw [if_neg (mt hmem.mp hlisted), if_neg hlisted, List.map_append]
      rfl
  · rw [if_neg (mt (fun e => command_injective e) hset),
      if_neg (mt (MulticastMonitor.isSet_sendMessage h action).mp hset)]
    by_cases hlisted : text ∈ files
    · rw [if_pos (hmem.mpr hlisted), if_pos hlisted, Option.map_some, encode_sendMessage h]
    · rw [if_neg (mt hmem.mp hlisted), if_neg hlisted]
      rfl

/-! ## The home node listener -/

/-- A table of bytes holds the encoding of a table of strings. -/
def Represents (homeNodes' : Bytes → Option Bytes) (homeNodes : String → Option String) : Prop :=
  ∀ path, homeNodes' (encode path) = (homeNodes path).map encode

theorem Represents.update {homeNodes' : Bytes → Option Bytes}
    {homeNodes : String → Option String} (h : Represents homeNodes' homeNodes)
    (path homeNode : String) :
    Represents (Function.update homeNodes' (encode path) (some (encode homeNode)))
      (Function.update homeNodes path (some homeNode)) := by
  intro other
  by_cases heq : other = path
  · subst heq
    rw [Function.update_self, Function.update_self]
    rfl
  · rw [Function.update_of_ne (encode_injective.ne heq), Function.update_of_ne heq]
    exact h other

theorem Represents.eq_some_iff {homeNodes' : Bytes → Option Bytes}
    {homeNodes : String → Option String} (h : Represents homeNodes' homeNodes)
    (path host : String) :
    homeNodes' (encode path) = some (encode host) ↔ homeNodes path = some host := by
  rw [h path]
  exact (Option.map_injective encode_injective).eq_iff (b := some host)

section HomeNodeListener

variable {message : String} {host : HostName} {homeNodes : String → Option String}
  {homeNodes' : Bytes → Option Bytes}

/-- The tokens of the bytes are the encoded tokens. -/
theorem words_cString_encode (hnul : '\x00' ∉ message.toList) :
    words blank (cString (encode message)) = (MulticastMonitor.tokens message).map encode := by
  rw [cString_eq_self (zero_notMem_encode hnul)]
  exact words_encode (by decide) message

/-- An answer to a message that leaves room for it. -/
theorem carried_answer (hnul : '\x00' ∉ message.toList)
    (hroom : message.utf8ByteSize + host.name.utf8ByteSize + 4 ≤ messageSize) {path : String}
    (hpath : path ∈ MulticastMonitor.tokens message) : Carried (path ++ " " ++ host.name) := by
  have hpiece : encode path <:+: encode message := by
    have hword : encode path ∈ words blank (cString (encode message)) := by
      rw [words_cString_encode hnul]
      exact List.mem_map_of_mem hpath
    have hin := isInfix_of_mem_words hword
    rwa [cString_eq_self (zero_notMem_encode hnul)] at hin
  have hlength := hpiece.length_le
  rw [length_encode, length_encode] at hlength
  refine MulticastMonitor.carried_advert host (by omega) fun h => ?_
  have hzero := (mem_encode_iff (a := '\x00') (by decide)).mpr h
  exact zero_notMem_encode hnul (hpiece.subset hzero)

theorem encode_homeAdvert {path : String} (h : Carried (path ++ " " ++ host.name)) :
    encode (MulticastMonitor.homeAdvert path host.name) =
      homeAdvert (encode path) (encode host.name) := by
  have htext : encode (path ++ " " ++ host.name) = encode path ++ blank :: encode host.name := by
    rw [encode_append, encode_append, List.append_assoc]
    rfl
  unfold MulticastMonitor.homeAdvert homeAdvert
  rw [encode_sendMessage h, htext]

/-- Where the listener comes back on strings it does on bytes, with the table and the answer
encoded. -/
theorem homeNodeListener_encode (hnul : '\x00' ∉ message.toList)
    (hroom : message.utf8ByteSize + host.name.utf8ByteSize + 4 ≤ messageSize)
    (htable : Represents homeNodes' homeNodes) {after : String → Option String}
    {reply : Option String}
    (h : MulticastMonitor.homeNodeListener host homeNodes message = some (after, reply)) :
    ∃ after', homeNodeListener (encode host.name) homeNodes' (encode message) =
      .ok (after', reply.map encode) ∧ Represents after' after := by
  have hlt : (encode message).length < messageSize := by
    rw [length_encode]
    omega
  have hwords := words_cString_encode hnul
  unfold MulticastMonitor.homeNodeListener at h
  match htokens : MulticastMonitor.tokens message with
  | [] | [_] =>
    rw [htokens] at h
    cases h
  | first :: path :: rest =>
    rw [htokens] at h hwords
    rw [List.map_cons, List.map_cons] at hwords
    have hfirst : (encode first).head? = some (command .set) ↔
        first.toList.head? = some Command.set.char := head?_encode_iff (by decide)
    by_cases hset : first.toList.head? = some Command.set.char
    · match rest with
      | [] =>
        simp only [if_pos hset] at h
        cases h
      | homeNode :: rest =>
        simp only [if_pos hset, Option.some_inj, Prod.mk.injEq] at h
        obtain ⟨rfl, rfl⟩ := h
        exact ⟨_, homeNodeListener_set _ _ hlt hwords (hfirst.mpr hset), htable.update path homeNode⟩
    · simp only [if_neg hset, Option.some_inj, Prod.mk.injEq] at h
      obtain ⟨rfl, rfl⟩ := h
      refine ⟨_, ?_, htable⟩
      rw [homeNodeListener_get _ _ hlt hwords (mt hfirst.mp hset)]
      by_cases hentry : homeNodes path = some host.name
      · have hcarried : Carried (path ++ " " ++ host.name) :=
          carried_answer hnul hroom (by simp [htokens])
        rw [if_pos ((htable.eq_some_iff path host.name).mpr hentry), if_pos hentry,
          Option.map_some, encode_homeAdvert hcarried]
      · rw [if_neg (mt (htable.eq_some_iff path host.name).mp hentry), if_neg hentry]
        rfl

/-- Where it reads `tokens` past the end on strings it does on bytes. -/
theorem homeNodeListener_encode_eq_error (hnul : '\x00' ∉ message.toList)
    (hroom : message.utf8ByteSize + host.name.utf8ByteSize + 4 ≤ messageSize)
    (h : MulticastMonitor.homeNodeListener host homeNodes message = none) :
    ∃ index, homeNodeListener (encode host.name) homeNodes' (encode message) =
      .error (.token index) := by
  have hlt : (encode message).length < messageSize := by
    rw [length_encode]
    omega
  have hwords := words_cString_encode hnul
  unfold MulticastMonitor.homeNodeListener at h
  match htokens : MulticastMonitor.tokens message with
  | [] | [_] =>
    rw [htokens] at hwords
    exact ⟨1, homeNodeListener_eq_error hlt (by simp [hwords]) _ _⟩
  | first :: path :: rest =>
    rw [htokens] at h hwords
    rw [List.map_cons, List.map_cons] at hwords
    by_cases hset : first.toList.head? = some Command.set.char
    · match rest with
      | [] =>
        have hfirst : (encode first).head? = some (command .set) :=
          (head?_encode_iff (by decide)).mpr hset
        exact ⟨2, homeNodeListener_set_eq_error _ _ hlt hwords hfirst⟩
      | homeNode :: rest =>
        simp only [if_pos hset] at h
        cases h
    · simp only [if_neg hset] at h
      cases h

end HomeNodeListener

/-! ## What decodes -/

theorem isPath_encode {path : String} (h : MulticastMonitor.Admitted path) (hne : path ≠ "") :
    IsPath (encode path) where
  nonempty := fun hnil => hne (encode_injective (hnil.trans (by rfl)))
  noNul := zero_notMem_encode h.2
  short := by
    rw [length_encode]
    exact h.1

theorem isHost_encode (host : HostName) : IsHost (encode host.name) where
  nonempty := fun hnil => host.nonempty (encode_injective (hnil.trans (by rfl)))
  noNul := zero_notMem_encode (host.notMem (by decide))
  noBlank := fun hmem => host.notMem (by decide) ((mem_encode_iff (a := ' ') (by decide)).mp hmem)

/-- **One token is what decodes**: an admitted path stands in a message as one token exactly if the
datagrams about it decode to what was sent, for any two hosts. -/
theorem oneToken_iff_decodes {path : String} (h : MulticastMonitor.Admitted path) (hne : path ≠ "")
    (host self : HostName) : MulticastMonitor.OneToken path ↔
      DecodesTo (homeAdvert (encode path) (encode host.name)) (encode path) (encode host.name) ∧
        AnswersQuery (encode path) (encode self.name) := by
  have hblank : blank ∈ encode path ↔ ' ' ∈ path.toList := mem_encode_iff (by decide)
  have hshort : ∀ host : HostName, (encode host.name).length < hostNameMax := by
    intro host
    rw [length_encode]
    exact host.short
  rw [homeMessages_decode_iff_noBlank (isPath_encode h hne) (isHost_encode host)
    (isHost_encode self) (hshort host) (hshort self), hblank]
  exact ⟨fun htoken => htoken.noBlank, fun hno => ⟨h, hne, hno⟩⟩

end Datagram

end CapioCl
