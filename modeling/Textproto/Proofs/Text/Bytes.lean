import Textproto.Proofs.Text.Utf8

namespace Textproto.Utf8

/-! What is stored of a string are the bytes that its characters are encoded to. To evaluate these
takes far fewer steps than to decode them, which is what a closed check is stated with. -/

def bytesOf (text : String) : List UInt8 :=
  text.toByteArray.data.toList

/-- The characters of a string that has no others than those of one byte. -/
def asciiOf (text : String) : List Char :=
  (bytesOf text).map fun b => Char.ofNat b.toNat

def isAscii (text : String) : Bool :=
  (bytesOf text).all (· < 0x80)

theorem utf8EncodeChar_eq (c : Char) : String.utf8EncodeChar c = encodeChar c := by
  have hvalid := toNat_char c
  unfold String.utf8EncodeChar encodeChar
  rw [show c.val.toNat = c.toNat from rfl]
  generalize c.toNat = n at hvalid ⊢
  simp only
  by_cases hone : n < 0x80
  · rw [if_pos (show n ≤ 127 by omega), if_pos hone]
  · rw [if_neg (show ¬n ≤ 127 by omega), if_neg hone]
    by_cases htwo : n < 0x800
    · rw [if_pos (show n ≤ 2047 by omega), if_pos htwo,
        show n / 64 % 32 + 192 = 0xC0 + n / 0x40 by omega, Nat.add_comm 0x80]
    · rw [if_neg (show ¬n ≤ 2047 by omega), if_neg htwo]
      by_cases hthree : n < 0x10000
      · rw [if_pos (show n ≤ 65535 by omega), if_pos hthree,
          show n / 4096 % 16 + 224 = 0xE0 + n / 0x1000 by omega, Nat.add_comm 0x80,
          Nat.add_comm 0x80]
      · rw [if_neg (show ¬n ≤ 65535 by omega), if_neg hthree,
          show n / 262144 % 8 + 240 = 0xF0 + n / 0x40000 by omega, Nat.add_comm 0x80,
          Nat.add_comm 0x80, Nat.add_comm 0x80]

theorem encode_toList (text : String) : encode text.toList = bytesOf text := by
  rw [bytesOf, ← String.ofList_toList (s := text), String.toByteArray_ofList, List.utf8Encode,
    List.data_toByteArray, String.toList_ofList, encode, funext utf8EncodeChar_eq]

theorem encode_ascii {bytes : List UInt8} (h : ∀ b ∈ bytes, b < 0x80) :
    encode (bytes.map fun b => Char.ofNat b.toNat) = bytes := by
  induction bytes with
  | nil => rfl
  | cons b bytes ih =>
      rw [List.forall_mem_cons] at h
      rw [List.map_cons, encode_cons, encodeChar_one (UInt8.lt_iff_toNat_lt.mp h.1), ih h.2]
      rfl

theorem toList_eq_asciiOf {text : String} (h : isAscii text = true) :
    text.toList = asciiOf text := by
  refine encode_injective ((encode_toList text).trans (encode_ascii ?_).symm)
  simpa [isAscii] using h

end Textproto.Utf8
