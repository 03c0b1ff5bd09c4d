import LazyRegisters.Script
import Mathlib.Data.List.Basic

/-!
# Lines of bytes

In UTF-8 the byte of a line feed stands for a line feed and is part of no other character. So the
lines of encoded text are the encoded lines (`splitLines_encode`), and bytes are text if all of
their lines are (`exists_encode_iff`).
-/

namespace LazyRegisters

namespace Text

/-- The bytes of a text in UTF-8. -/
def encode (cs : List Char) : List UInt8 := cs.flatMap String.utf8EncodeChar

theorem encode_append (cs ds : List Char) : encode (cs ++ ds) = encode cs ++ encode ds :=
  List.flatMap_append

theorem encode_append_lineFeed (cs ds : List Char) :
    encode (cs ++ '\n' :: ds) = encode cs ++ 10 :: encode ds := by
  rw [encode_append]
  rfl

/-- Bytes of characters beyond ASCII are no smaller than 128. -/
theorem lineFeed_mem_utf8EncodeChar_iff {c : Char} :
    10 ∈ String.utf8EncodeChar c ↔ c = '\n' := by
  constructor
  · intro h
    have hbyte {n : Nat} (hn : n < 256) (heq : (10 : UInt8) = UInt8.ofNat n) : n = 10 := by
      have := congrArg UInt8.toNat heq
      rw [UInt8.toNat_ofNat_of_lt' hn] at this
      exact this.symm
    have hten : c.val.toNat = 10 := by
      unfold String.utf8EncodeChar at h
      dsimp only at h
      split at h
      · exact hbyte (by omega) (List.mem_singleton.1 h)
      · exfalso
        split at h
        · simp only [List.mem_cons, List.not_mem_nil, or_false] at h
          rcases h with h | h <;> have := hbyte (by omega) h <;> omega
        · split at h
          · simp only [List.mem_cons, List.not_mem_nil, or_false] at h
            rcases h with h | h | h <;> have := hbyte (by omega) h <;> omega
          · simp only [List.mem_cons, List.not_mem_nil, or_false] at h
            rcases h with h | h | h | h <;> have := hbyte (by omega) h <;> omega
    exact Char.ext (UInt32.toNat_inj.1 hten)
  · rintro rfl
    decide

theorem lineFeed_mem_encode_iff {cs : List Char} : 10 ∈ encode cs ↔ '\n' ∈ cs := by
  simp [encode, lineFeed_mem_utf8EncodeChar_iff]

theorem encode_ne_nil {cs : List Char} (h : cs ≠ []) : encode cs ≠ [] := by
  cases cs with
  | nil => exact absurd rfl h
  | cons c cs => exact List.append_ne_nil_of_left_ne_nil String.utf8EncodeChar_ne_nil _

/-! ## Lines -/

theorem splitLines_encode (cs : List Char) :
    splitLines 10 (encode cs) = (splitLines '\n' cs).map encode := by
  induction cs using lines_induction '\n' with
  | hlast l hl =>
    cases l with
    | nil => rfl
    | cons c l =>
      rw [splitLines_of_notMem hl (List.cons_ne_nil c l),
        splitLines_of_notMem (lineFeed_mem_encode_iff.not.2 hl)
          (encode_ne_nil (List.cons_ne_nil c l))]
      rfl
  | hline l cs hl ih =>
    rw [encode_append_lineFeed, splitLines_append_cons _ _ hl,
      splitLines_append_cons _ _ (lineFeed_mem_encode_iff.not.2 hl), ih, List.map_cons]

/-- Bytes are text if all of their lines are. -/
theorem exists_encode_iff {bytes : List UInt8} :
    (∃ cs, bytes = encode cs) ↔ ∀ line ∈ splitLines 10 bytes, ∃ cs, line = encode cs := by
  constructor
  · rintro ⟨cs, rfl⟩ line hline
    rw [splitLines_encode] at hline
    obtain ⟨l, -, rfl⟩ := List.mem_map.1 hline
    exact ⟨l, rfl⟩
  · induction bytes using lines_induction (10 : UInt8) with
    | hlast l hl =>
      intro h
      by_cases hne : l = []
      · exact ⟨[], hne⟩
      · exact h l (by rw [splitLines_of_notMem hl hne]; exact List.mem_singleton_self l)
    | hline l rest hl ih =>
      intro h
      rw [splitLines_append_cons _ _ hl] at h
      obtain ⟨cs, rfl⟩ := h l List.mem_cons_self
      obtain ⟨ds, rfl⟩ := ih fun line hline => h line (List.mem_cons_of_mem _ hline)
      exact ⟨cs ++ '\n' :: ds, (encode_append_lineFeed cs ds).symm⟩

end Text

/-! ## Decoding -/

theorem toList_eq_data_toList (bytes : ByteArray) : bytes.toList = bytes.data.toList := by
  have hloop (i : Nat) (l : List UInt8) :
      ByteArray.toList.loop bytes i l = l.reverse ++ bytes.data.toList.drop i := by
    fun_induction ByteArray.toList.loop bytes i l with
    | case1 i l hi ih =>
      have hlt : i < bytes.data.toList.length := hi
      rw [ih, List.reverse_cons, List.append_assoc, List.singleton_append,
        List.drop_eq_getElem_cons hlt, ByteArray.get!, getElem!_pos bytes.data i hi]
      rfl
    | case2 i l hi =>
      have hle : bytes.data.toList.length ≤ i := Nat.le_of_not_lt hi
      rw [List.drop_of_length_le hle, List.append_nil]
  exact hloop 0 []

theorem toList_toByteArray (l : List UInt8) : l.toByteArray.toList = l := by
  rw [toList_eq_data_toList, List.data_toByteArray]

theorem toByteArray_toList (bytes : ByteArray) : bytes.toList.toByteArray = bytes := by
  refine ByteArray.ext (Array.toList_inj.1 ?_)
  rw [List.data_toByteArray, toList_eq_data_toList]

/-- What is decoded is what was encoded. -/
theorem fromUTF8?_eq_some_iff {bytes : ByteArray} {text : String} :
    String.fromUTF8? bytes = some text ↔ bytes.toList = Text.encode text.toList := by
  have hbytes : bytes = text.toByteArray ↔ bytes.toList = Text.encode text.toList := by
    rw [← String.utf8Encode_toList]
    constructor
    · rintro rfl
      exact toList_toByteArray _
    · intro h
      rw [← toByteArray_toList bytes, h]
      rfl
  rw [← hbytes]
  unfold String.fromUTF8?
  split
  · next h =>
    rw [Option.some.injEq, ← String.toByteArray_inj]
    rfl
  · next h =>
    refine ⟨by simp, ?_⟩
    rintro rfl
    exact absurd text.isValidUTF8 h

theorem fromUTF8?_eq_none_iff {bytes : ByteArray} :
    String.fromUTF8? bytes = none ↔ ¬ ∃ cs, bytes.toList = Text.encode cs := by
  rw [Option.eq_none_iff_forall_ne_some]
  simp only [ne_eq, fromUTF8?_eq_some_iff, not_exists]
  constructor
  · intro h cs
    simpa using h (String.ofList cs)
  · intro h text
    exact h text.toList

namespace Script

theorem decodeLine?_eq_none_iff {line : List UInt8} :
    decodeLine? line = none ↔ ¬ ∃ cs, line = Text.encode cs := by
  rw [decodeLine?, fromUTF8?_eq_none_iff, toList_toByteArray]

@[simp] theorem decodeLine?_encode (cs : List Char) :
    decodeLine? (Text.encode cs) = some (String.ofList cs) := by
  rw [decodeLine?, fromUTF8?_eq_some_iff, toList_toByteArray, String.toList_ofList]

theorem byteLines_of_fromUTF8? {bytes : ByteArray} {text : String}
    (h : String.fromUTF8? bytes = some text) :
    byteLines bytes = (Text.splitLines '\n' text.toList).map Text.encode := by
  rw [byteLines, fromUTF8?_eq_some_iff.1 h, Text.splitLines_encode]

end Script

end LazyRegisters
