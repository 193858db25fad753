import CapioCl.Datagrams
import Mathlib.Data.List.TakeDrop

/-!
# `MulticastMonitor`: what home node messages decode to

The path and the host of an advert are joined by a blank, as is the command with them, and taken
apart at every blank.

Results:
* `homeAdvert_eq`, `homeQuery_eq`: the bytes sent; a host that does not fit is cut.
* **`homeMessages_decode_iff`**: an advert is decoded, and a query answered, as meant when the
  path has no blank and the hosts fit into a message behind it. `homeMessages_decode_iff_noBlank`:
  hosts shorter than `HOST_NAME_MAX` do.
-/

namespace CapioCl

namespace Datagram

open CapioCl.Lib.Words
open MulticastMonitor (Command messageSize pathMax)

/-- A path: not empty, no NUL, at most `PATH_MAX` bytes. -/
structure IsPath (path : Bytes) : Prop where
  nonempty : path ≠ []
  noNul : 0 ∉ path
  short : path.length ≤ pathMax

/-- A host: not empty, no NUL and no blank. -/
structure IsHost (host : Bytes) : Prop where
  nonempty : host ≠ []
  noNul : 0 ∉ host
  noBlank : blank ∉ host

/-- A `home_node_listener` maps `path` to `host` on the datagram and keeps every other entry. -/
def DecodesTo (datagram path host : Bytes) : Prop :=
  ∀ self homeNodes, ∃ homeNodes' reply,
    homeNodeListener self homeNodes datagram = .ok (homeNodes', reply) ∧
      homeNodes' path = some host ∧ ∀ other, other ≠ path → homeNodes' other = homeNodes other

/-- The `home_node_listener` of `self` answers the query of `path` when its table maps the path to
`self`, with a datagram that is decoded so. -/
def AnswersQuery (path self : Bytes) : Prop :=
  ∀ homeNodes, ∃ homeNodes' reply,
    homeNodeListener self homeNodes (homeQuery path) = .ok (homeNodes', reply) ∧
      (reply.isSome ↔ homeNodes path = some self) ∧
      ∀ answer ∈ reply, DecodesTo answer path self

/-! ## What is sent -/

section Messages

variable {path host self : Bytes}

/-- Behind a path there is room for `PATH_MAX` bytes and two more. -/
theorem IsPath.length_add_le (hpath : IsPath path) : path.length + 4098 ≤ messageSize := by
  have hshort := hpath.short
  unfold messageSize
  unfold pathMax at *
  omega

theorem homeQuery_eq (hpath : IsPath path) : homeQuery path = command .get :: blank :: path := by
  unfold homeQuery
  rw [sendMessage_eq hpath.noNul]
  refine List.take_of_length_le ?_
  have hroom := hpath.length_add_le
  rw [List.length_cons, List.length_cons]
  omega

/-- An advert has the whole path in it, and of the host what fits. -/
theorem homeAdvert_eq (hpath : IsPath path) (hnul : 0 ∉ host) : homeAdvert path host =
    command .set :: blank :: (path ++ blank :: host.take (messageSize - 4 - path.length)) := by
  have htext : (0 : UInt8) ∉ path ++ blank :: host := by
    rw [List.mem_append, List.mem_cons]
    rintro (h | h | h)
    · exact hpath.noNul h
    · exact absurd h (by decide)
    · exact hnul h
  unfold homeAdvert
  rw [sendMessage_eq htext]
  obtain ⟨room, hroom⟩ : ∃ room, messageSize - 1 = path.length + room + 3 := by
    have hroom := hpath.length_add_le
    exact ⟨messageSize - 4 - path.length, by omega⟩
  have hhost : messageSize - 4 - path.length = room := by omega
  rw [hhost, hroom, List.take_succ_cons, List.take_succ_cons, Nat.add_assoc,
    List.take_append, List.take_of_length_le (by omega), Nat.add_sub_cancel_left,
    List.take_succ_cons]

theorem words_homeQuery (hpath : IsPath path) :
    words blank (cString (homeQuery path)) = [command .get] :: words blank path := by
  rw [← words_command, ← homeQuery_eq hpath]
  exact congrArg (words blank) (cString_sendMessage path .get)

/-! ## Adverts -/

/-- A path with a blank never gets an entry. -/
theorem DecodesTo.noBlank {datagram : Bytes} (hlt : datagram.length < messageSize)
    (h : DecodesTo datagram path host) : blank ∉ path := by
  intro hblank
  obtain ⟨homeNodes', reply, hok, hpath, -⟩ := h [] fun _ => none
  obtain ⟨rfl, -⟩ | ⟨-, word, hword, homeNode, -, rfl⟩ := homeNodeListener_cases hlt hok
  · cases hpath
  · have hne : path ≠ word := by
      rintro rfl
      exact (mem_words hword).2 hblank
    rw [Function.update_of_ne hne] at hpath
    cases hpath

theorem IsHost.take (hhost : IsHost host) {n : Nat} (hn : 0 < n) : IsHost (host.take n) where
  nonempty := by
    intro hnil
    obtain hzero | hempty := List.take_eq_nil_iff.mp hnil
    · omega
    · exact hhost.nonempty hempty
  noNul := fun h => hhost.noNul (List.mem_of_mem_take h)
  noBlank := fun h => hhost.noBlank (List.mem_of_mem_take h)

theorem words_homeAdvert (hpath : IsPath path) (hhost : IsHost host) :
    words blank (cString (homeAdvert path host)) = [command .set] ::
      (words blank path ++ [host.take (messageSize - 4 - path.length)]) := by
  have hroom := hpath.length_add_le
  have hcut := @IsHost.take _ hhost (messageSize - 4 - path.length) (by omega)
  rw [← words_advert hcut.nonempty hcut.noBlank, ← homeAdvert_eq hpath hhost.noNul]
  exact congrArg (words blank) (cString_sendMessage _ .set)

/-- The listener on the advert of a path without a blank: the entry is what fits of the host. -/
theorem homeNodeListener_homeAdvert (hpath : IsPath path) (hhost : IsHost host)
    (hblank : blank ∉ path) (self : Bytes) (homeNodes : Bytes → Option Bytes) :
    homeNodeListener self homeNodes (homeAdvert path host) =
      .ok (Function.update homeNodes path
        (some (host.take (messageSize - 4 - path.length))), none) := by
  have hwords := words_homeAdvert hpath hhost
  rw [words_eq_singleton hpath.nonempty hblank] at hwords
  exact homeNodeListener_set self homeNodes (length_sendMessage_lt _ .set) hwords rfl

theorem decodesTo_homeAdvert_iff (hpath : IsPath path) (hhost : IsHost host) :
    DecodesTo (homeAdvert path host) path host ↔
      blank ∉ path ∧ path.length + host.length + 4 ≤ messageSize := by
  constructor
  · intro h
    have hblank := h.noBlank (length_sendMessage_lt _ .set)
    refine ⟨hblank, ?_⟩
    obtain ⟨homeNodes', reply, hok, hentry, -⟩ := h [] fun _ => none
    rw [homeNodeListener_homeAdvert hpath hhost hblank] at hok
    cases hok
    rw [Function.update_self, Option.some_inj, List.take_eq_self_iff] at hentry
    have hroom := hpath.length_add_le
    omega
  · rintro ⟨hblank, hfits⟩ self homeNodes
    have hwhole : host.take (messageSize - 4 - path.length) = host :=
      List.take_of_length_le (by omega)
    refine ⟨_, _, homeNodeListener_homeAdvert hpath hhost hblank self homeNodes, ?_, ?_⟩
    · rw [Function.update_self, hwhole]
    · exact fun other hother => Function.update_of_ne hother _ _

/-! ## Queries -/

/-- The listener on the query of a path without a blank. -/
theorem homeNodeListener_homeQuery (hpath : IsPath path) (hblank : blank ∉ path)
    (homeNodes : Bytes → Option Bytes) :
    homeNodeListener self homeNodes (homeQuery path) =
      .ok (homeNodes, if homeNodes path = some self then some (homeAdvert path self) else none) := by
  have hwords := words_homeQuery hpath
  rw [words_eq_singleton hpath.nonempty hblank] at hwords
  exact homeNodeListener_get self homeNodes (length_sendMessage_lt path .get) hwords (by decide)

theorem answersQuery_iff (hpath : IsPath path) (hself : IsHost self) :
    AnswersQuery path self ↔
      blank ∉ path ∧ path.length + self.length + 4 ≤ messageSize := by
  constructor
  · intro h
    -- the table in which the path, and nothing else, is at this host
    obtain ⟨homeNodes', reply, hok, hanswers, hdecodes⟩ :=
      h (Function.update (fun _ => none) path (some self))
    have hreply : reply.isSome := hanswers.mpr (Function.update_self ..)
    obtain ⟨-, path', hword, rfl⟩ | ⟨rfl, -⟩ :=
      homeNodeListener_cases (length_sendMessage_lt path .get) hok
    · have hpath' : path' = path := by
        by_contra hne
        rw [Function.update_of_ne hne] at hreply
        cases hreply
      subst hpath'
      rw [Function.update_self, if_pos rfl] at hdecodes
      exact (decodesTo_homeAdvert_iff hpath hself).mp (hdecodes _ rfl)
    · cases hreply
  · rintro ⟨hblank, hfits⟩ homeNodes
    refine ⟨_, _, homeNodeListener_homeQuery hpath hblank homeNodes, ?_, ?_⟩
    · by_cases hentry : homeNodes path = some self <;> simp [hentry]
    · intro answer hanswer
      by_cases hentry : homeNodes path = some self
      · rw [if_pos hentry, Option.mem_some_iff] at hanswer
        exact hanswer ▸ (decodesTo_homeAdvert_iff hpath hself).mpr ⟨hblank, hfits⟩
      · rw [if_neg hentry] at hanswer
        cases hanswer

/-- Behind a path there is room for any host that `gethostname` gives. -/
theorem IsPath.room (hpath : IsPath path) (hhost : host.length < hostNameMax) :
    path.length + host.length + 4 ≤ messageSize := by
  have hroom := hpath.length_add_le
  unfold hostNameMax at hhost
  omega

/-- For such hosts a blank in the path is all that can go wrong. -/
theorem homeMessages_decode_iff_noBlank (hpath : IsPath path) (hhost : IsHost host)
    (hself : IsHost self) (hhostMax : host.length < hostNameMax)
    (hselfMax : self.length < hostNameMax) :
    DecodesTo (homeAdvert path host) path host ∧ AnswersQuery path self ↔ blank ∉ path := by
  rw [decodesTo_homeAdvert_iff hpath hhost, answersQuery_iff hpath hself]
  constructor
  · rintro ⟨⟨hblank, -⟩, -⟩
    exact hblank
  · intro hblank
    exact ⟨⟨hblank, hpath.room hhostMax⟩, hblank, hpath.room hselfMax⟩

/-- **Home node messages decode to what was sent**, adverts and queries alike, when the path has no
blank and the hosts fit into a message behind it. -/
theorem homeMessages_decode_iff (path host self : Bytes) (hpath : IsPath path)
    (hhost : IsHost host) (hself : IsHost self) :
    DecodesTo (homeAdvert path host) path host ∧ AnswersQuery path self ↔
      blank ∉ path ∧ path.length + host.length + 4 ≤ messageSize ∧
        path.length + self.length + 4 ≤ messageSize := by
  rw [decodesTo_homeAdvert_iff hpath hhost, answersQuery_iff hpath hself]
  constructor
  · rintro ⟨⟨hblank, hfits⟩, -, hroom⟩
    exact ⟨hblank, hfits, hroom⟩
  · rintro ⟨hblank, hfits, hroom⟩
    exact ⟨⟨hblank, hfits⟩, hblank, hroom⟩

/-- The path `/a` and the hosts `h` and `i`. -/
theorem plainPath_decodes :
    (IsPath [47, 97] ∧ IsHost [104] ∧ IsHost [105]) ∧
      DecodesTo (homeAdvert [47, 97] [104]) [47, 97] [104] ∧ AnswersQuery [47, 97] [105] := by
  have hpath : IsPath [47, 97] := ⟨by decide, by decide, by decide⟩
  have hhost : IsHost [104] := ⟨by decide, by decide, by decide⟩
  have hself : IsHost [105] := ⟨by decide, by decide, by decide⟩
  exact ⟨⟨hpath, hhost, hself⟩, (homeMessages_decode_iff _ _ _ hpath hhost hself).mpr
    ⟨by decide, by decide, by decide⟩⟩

/-- The path `a b` on the host `h`: the advert enters the host `b` for the path `a`. -/
theorem pathWithBlank_not_decoded :
    (IsPath [97, blank, 98] ∧ IsHost [104]) ∧
      ¬ DecodesTo (homeAdvert [97, blank, 98] [104]) [97, blank, 98] [104] ∧
      ¬ AnswersQuery [97, blank, 98] [104] ∧
      ∀ self homeNodes, homeNodeListener self homeNodes (homeAdvert [97, blank, 98] [104]) =
        .ok (Function.update homeNodes [97] (some [98]), none) := by
  have hpath : IsPath [97, blank, 98] := ⟨by decide, by decide, by decide⟩
  have hhost : IsHost [104] := ⟨by decide, by decide, by decide⟩
  have hblank : ¬ blank ∉ [97, blank, 98] := by decide
  refine ⟨⟨hpath, hhost⟩, ?_, ?_, fun self homeNodes => ?_⟩
  · rw [decodesTo_homeAdvert_iff hpath hhost]
    exact fun h => hblank h.1
  · rw [answersQuery_iff hpath hhost]
    exact fun h => hblank h.1
  · have hwords := words_homeAdvert hpath hhost
    rw [show words blank [97, blank, 98] = [[97], [98]] by decide] at hwords
    exact homeNodeListener_set self homeNodes (length_sendMessage_lt _ .set) hwords rfl

end Messages

end Datagram

end CapioCl
