import CapioCl.Lib.Words

/-!
# Strings as bytes

`encode s` is the UTF-8 encoding of a string. A byte below 128 in it stands for a character of
its own (`eq_of_mem_utf8EncodeChar`), so a string and its bytes have the same words between the
occurrences of such a character (`words_encode`).
-/

namespace CapioCl.Lib.Utf8

open CapioCl.Lib.Words

/-- The bytes of a string. -/
def encode (s : String) : List UInt8 := s.toList.flatMap String.utf8EncodeChar

theorem utf8EncodeChar_ascii {c : Char} (h : c.toNat < 128) :
    String.utf8EncodeChar c = [c.toUInt8] := by
  have hle : c.val.toNat ≤ 0x7f := Nat.le_of_lt_succ h
  unfold String.utf8EncodeChar
  rw [if_pos hle]
  rfl

/-- The bytes of a character beyond ASCII are all beyond ASCII. -/
theorem le_of_mem_utf8EncodeChar {c : Char} (h : 128 ≤ c.toNat) {b : UInt8}
    (hb : b ∈ String.utf8EncodeChar c) : 128 ≤ b.toNat := by
  have hne : ¬ c.val.toNat ≤ 0x7f := by
    change 128 ≤ c.val.toNat at h
    omega
  -- the first byte is at least `0xc0`, the others are at least `0x80`
  unfold String.utf8EncodeChar at hb
  rw [if_neg hne] at hb
  split at hb
  · simp only [List.mem_cons, List.not_mem_nil, or_false] at hb
    obtain rfl | rfl := hb <;> rw [UInt8.toNat_ofNat'] <;> omega
  · split at hb
    · simp only [List.mem_cons, List.not_mem_nil, or_false] at hb
      obtain rfl | rfl | rfl := hb <;> rw [UInt8.toNat_ofNat'] <;> omega
    · simp only [List.mem_cons, List.not_mem_nil, or_false] at hb
      obtain rfl | rfl | rfl | rfl := hb <;> rw [UInt8.toNat_ofNat'] <;> omega

theorem toNat_toUInt8 {c : Char} (h : c.toNat < 128) : c.toUInt8.toNat = c.toNat := by
  change c.val.toNat % 256 = c.val.toNat
  change c.val.toNat < 128 at h
  omega

theorem eq_of_mem_utf8EncodeChar {a c : Char} (ha : a.toNat < 128)
    (h : a.toUInt8 ∈ String.utf8EncodeChar c) : a = c := by
  have hbyte := toNat_toUInt8 ha
  obtain hc | hc := Nat.lt_or_ge c.toNat 128
  · rw [utf8EncodeChar_ascii hc, List.mem_singleton] at h
    have heq : a.toNat = c.toNat := by rw [← hbyte, h, toNat_toUInt8 hc]
    exact Char.toNat_inj.mp heq
  · have hle := le_of_mem_utf8EncodeChar hc h
    omega

theorem encode_ofList (cs : List Char) :
    encode (String.ofList cs) = cs.flatMap String.utf8EncodeChar := by
  unfold encode
  rw [String.toList_ofList]

theorem encode_append (s t : String) : encode (s ++ t) = encode s ++ encode t := by
  unfold encode
  rw [String.toList_append, List.flatMap_append]

theorem toByteArray_encode (s : String) : (encode s).toByteArray = s.toByteArray := by
  rw [← String.ofList_toList (s := s), String.toByteArray_ofList, encode_ofList]
  rfl

theorem length_encode (s : String) : (encode s).length = s.utf8ByteSize := by
  rw [← String.size_toByteArray, ← toByteArray_encode, List.size_toByteArray]

theorem encode_injective : Function.Injective encode := by
  intro s t h
  rw [← String.toByteArray_inj, ← toByteArray_encode, ← toByteArray_encode, h]

theorem mem_encode_iff {a : Char} (ha : a.toNat < 128) {s : String} :
    a.toUInt8 ∈ encode s ↔ a ∈ s.toList := by
  unfold encode
  rw [List.mem_flatMap]
  constructor
  · rintro ⟨c, hc, hmem⟩
    exact eq_of_mem_utf8EncodeChar ha hmem ▸ hc
  · intro hmem
    refine ⟨a, hmem, ?_⟩
    rw [utf8EncodeChar_ascii ha]
    exact List.mem_singleton_self _

/-- A string begins with an ASCII character when its bytes do. -/
theorem head?_encode_iff {a : Char} (ha : a.toNat < 128) {s : String} :
    (encode s).head? = some a.toUInt8 ↔ s.toList.head? = some a := by
  unfold encode
  cases s.toList with
  | nil => simp
  | cons c cs =>
    rw [List.flatMap_cons, List.head?_append_of_ne_nil _ String.utf8EncodeChar_ne_nil,
      List.head?_cons, Option.some_inj]
    constructor
    · intro h
      exact (eq_of_mem_utf8EncodeChar ha (List.mem_of_head? h)).symm
    · rintro rfl
      rw [utf8EncodeChar_ascii ha, List.head?_singleton]

/-- The words of the bytes are the bytes of the words. -/
theorem words_encode {sep : Char} (hsep : sep.toNat < 128) (s : String) :
    words sep.toUInt8 (encode s) =
      ((words sep s.toList).map String.ofList).map encode := by
  have hother : ∀ c, c ≠ sep → String.utf8EncodeChar c ≠ [] ∧
      sep.toUInt8 ∉ String.utf8EncodeChar c := by
    intro c hc
    exact ⟨String.utf8EncodeChar_ne_nil, fun h => hc (eq_of_mem_utf8EncodeChar hsep h).symm⟩
  unfold encode
  rw [words_flatMap (utf8EncodeChar_ascii hsep) hother, List.map_map]
  exact List.map_congr_left fun w _ => (encode_ofList w).symm

end CapioCl.Lib.Utf8
