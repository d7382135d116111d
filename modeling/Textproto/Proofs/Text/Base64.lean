import Textproto.Text.Base64

namespace Textproto.Base64

/-! No two runs of bytes are written alike. -/

theorem alphabet_eq : alphabet =
    [ 'A', 'B', 'C', 'D', 'E', 'F', 'G', 'H', 'I', 'J', 'K', 'L', 'M', 'N', 'O', 'P', 'Q', 'R', 'S',
      'T', 'U', 'V', 'W', 'X', 'Y', 'Z', 'a', 'b', 'c', 'd', 'e', 'f', 'g', 'h', 'i', 'j', 'k', 'l',
      'm', 'n', 'o', 'p', 'q', 'r', 's', 't', 'u', 'v', 'w', 'x', 'y', 'z', '0', '1', '2', '3', '4',
      '5', '6', '7', '8', '9', '+', '/' ] := by
  cbv

theorem length_alphabet : alphabet.length = 64 := by
  rw [alphabet_eq]
  decide

theorem nodup_alphabet : alphabet.Nodup := by
  rw [alphabet_eq]
  decide +kernel

theorem getElem?_digit (n : Nat) : alphabet[n % 64]? = some (digit n) := by
  have hlt : n % 64 < alphabet.length := by
    rw [length_alphabet]
    exact Nat.mod_lt n (by decide)
  rw [digit, List.getD_eq_getElem?_getD, List.getElem?_eq_getElem hlt, Option.getD_some]

theorem digit_injective {m n : Nat} (hm : m < 64) (hn : n < 64) (h : digit m = digit n) :
    m = n := by
  have hplace : alphabet[m]? = alphabet[n]? := by
    have hm' := getElem?_digit m
    have hn' := getElem?_digit n
    rw [Nat.mod_eq_of_lt hm] at hm'
    rw [Nat.mod_eq_of_lt hn] at hn'
    rw [hm', hn', h]
  exact (List.getElem?_inj (by rwa [length_alphabet]) nodup_alphabet).mp hplace

theorem digit_ne_padding (n : Nat) : digit n ≠ '=' := by
  have hmem := List.mem_of_getElem? (getElem?_digit n)
  intro h
  rw [h, alphabet_eq] at hmem
  revert hmem
  decide

/-- Digits of four characters tell the three bytes that they spell. -/
theorem group_injective {a b c x y z : UInt8} (h₁ : digit (a.toNat / 4) = digit (x.toNat / 4))
    (h₂ : digit (a.toNat % 4 * 16 + b.toNat / 16) = digit (x.toNat % 4 * 16 + y.toNat / 16))
    (h₃ : digit (b.toNat % 16 * 4 + c.toNat / 64) = digit (y.toNat % 16 * 4 + z.toNat / 64))
    (h₄ : digit (c.toNat % 64) = digit (z.toNat % 64)) : a = x ∧ b = y ∧ c = z := by
  have ha := a.toNat_lt
  have hb := b.toNat_lt
  have hc := c.toNat_lt
  have hx := x.toNat_lt
  have hy := y.toNat_lt
  have hz := z.toNat_lt
  have e₁ := digit_injective (by omega) (by omega) h₁
  have e₂ := digit_injective (by omega) (by omega) h₂
  have e₃ := digit_injective (by omega) (by omega) h₃
  have e₄ := digit_injective (by omega) (by omega) h₄
  exact ⟨UInt8.toNat_inj.mp (by omega), UInt8.toNat_inj.mp (by omega),
    UInt8.toNat_inj.mp (by omega)⟩

theorem encode_injective {bytes others : List UInt8} (h : encode bytes = encode others) :
    bytes = others := by
  fun_induction encode bytes generalizing others with
  | case1 => rcases others with _ | ⟨x, _ | ⟨y, _ | ⟨z, more⟩⟩⟩ <;> first | rfl | cases h
  | case2 a =>
      rcases others with _ | ⟨x, _ | ⟨y, _ | ⟨z, more⟩⟩⟩
      · cases h
      · simp only [encode, List.cons.injEq] at h
        obtain ⟨rfl, _, _⟩ := @group_injective a 0 0 x 0 0 h.1 h.2.1 rfl rfl
        rfl
      · simp only [encode, List.cons.injEq] at h
        exact absurd h.2.2.1.symm (digit_ne_padding _)
      · simp only [encode, List.cons.injEq] at h
        exact absurd h.2.2.1.symm (digit_ne_padding _)
  | case3 a b =>
      rcases others with _ | ⟨x, _ | ⟨y, _ | ⟨z, more⟩⟩⟩
      · cases h
      · simp only [encode, List.cons.injEq] at h
        exact absurd h.2.2.1 (digit_ne_padding _)
      · simp only [encode, List.cons.injEq] at h
        obtain ⟨rfl, rfl, _⟩ := @group_injective a b 0 x y 0 h.1 h.2.1 h.2.2.1 rfl
        rfl
      · simp only [encode, List.cons.injEq] at h
        exact absurd h.2.2.2.1.symm (digit_ne_padding _)
  | case4 a b c rest ih =>
      rcases others with _ | ⟨x, _ | ⟨y, _ | ⟨z, more⟩⟩⟩
      · cases h
      · simp only [encode, List.cons.injEq] at h
        exact absurd h.2.2.1 (digit_ne_padding _)
      · simp only [encode, List.cons.injEq] at h
        exact absurd h.2.2.2.1 (digit_ne_padding _)
      · simp only [encode, List.cons.injEq] at h
        obtain ⟨rfl, rfl, rfl⟩ := group_injective h.1 h.2.1 h.2.2.1 h.2.2.2.1
        rw [ih h.2.2.2.2]

end Textproto.Base64
