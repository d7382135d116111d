import Textproto.Ieee.Decimal
import Textproto.Proofs.Text.Bytes

namespace Textproto

/-! Texts that are one line. -/

theorem Utf8.newline_mem_encodeChar {c : Char} : 0x0A ∈ encodeChar c ↔ c = '\n' := by
  have hc : c = '\n' ↔ c.toNat = 0x0A := by
    rw [← Char.toNat_inj]
    rfl
  have hlow {n : Nat} : 0x0A = UInt8.ofNat n ↔ n % 0x100 = 0x0A := by
    rw [← UInt8.toNat_inj, UInt8.toNat_ofNat', eq_comm]
    rfl
  have hvalid := toNat_char c
  unfold encodeChar
  simp only [hc]
  split
  next => simp only [List.mem_singleton, hlow]; omega
  next =>
    split
    next => simp only [List.mem_cons, List.not_mem_nil, hlow, or_false]; omega
    next =>
      split
      next => simp only [List.mem_cons, List.not_mem_nil, hlow, or_false]; omega
      next => simp only [List.mem_cons, List.not_mem_nil, hlow, or_false]; omega

theorem Utf8.newline_mem_encode {text : List Char} : 0x0A ∈ encode text ↔ '\n' ∈ text := by
  simp [encode, newline_mem_encodeChar]

/-- The text has no line end in it. -/
def IsLine (text : String) : Prop :=
  '\n' ∉ text.toList

theorem isLine_iff {text : String} : IsLine text ↔ 0x0A ∉ Utf8.bytesOf text := by
  rw [← Utf8.encode_toList, Utf8.newline_mem_encode, IsLine]

instance (text : String) : Decidable (IsLine text) :=
  decidable_of_iff _ isLine_iff.symm

@[simp] theorem isLine_append {first second : String} :
    IsLine (first ++ second) ↔ IsLine first ∧ IsLine second := by
  simp [IsLine]

@[simp] theorem isLine_ofList {text : List Char} : IsLine (String.ofList text) ↔ '\n' ∉ text := by
  simp [IsLine]

@[simp] theorem isLine_toString {text : String} : IsLine (toString text) ↔ IsLine text :=
  .rfl

theorem isLine_intercalate {mark : String} (hmark : IsLine mark) {texts : List String}
    (h : ∀ text ∈ texts, IsLine text) : IsLine (mark.intercalate texts) := by
  induction texts with
  | nil => exact List.not_mem_nil
  | cons first rest ih =>
      rw [List.forall_mem_cons] at h
      cases rest with
      | nil => simpa using h.1
      | cons second rest =>
          rw [String.intercalate_cons_cons]
          exact isLine_append.mpr ⟨isLine_append.mpr ⟨h.1, hmark⟩, ih h.2⟩

/-- A line end is not among characters of a class that it is not in. -/
theorem newline_not_mem_of_all {isWanted : Char → Bool} (hclass : isWanted '\n' = false)
    {text : List Char} (h : text.all isWanted = true) : '\n' ∉ text := by
  intro hmem
  rw [List.all_eq_true.mp h _ hmem] at hclass
  cases hclass

theorem newline_not_mem_toDigits {base : Nat} (hbase : 1 < base) (n : Nat) :
    '\n' ∉ Nat.toDigits base n := by
  induction n using Nat.strongRecOn with
  | ind n ih =>
      rw [Nat.toDigits_eq_if hbase]
      split
      next => simp
      next hle =>
        have hless : n / base < n := Nat.div_lt_self (by omega) hbase
        simp [ih _ hless]

@[simp] theorem isLine_repr (n : Nat) : IsLine n.repr := by
  rw [Nat.repr_eq_ofList_toDigits, isLine_ofList]
  exact newline_not_mem_toDigits (by decide) n

/-! Numbers. -/

theorem Decimal.newline_not_mem_positional (d : Decimal) : '\n' ∉ d.positional := by
  have hdigits : '\n' ∉ d.digitChars := newline_not_mem_toDigits (by decide) d.digits
  unfold positional
  simp only
  split
  next => simp [hdigits]
  next =>
    split
    next =>
      have hbefore (n : Nat) : '\n' ∉ d.digitChars.take n := fun h => hdigits (List.mem_of_mem_take h)
      have hafter (n : Nat) : '\n' ∉ d.digitChars.drop n := fun h => hdigits (List.mem_of_mem_drop h)
      simp [hbefore, hafter]
    next => simp [hdigits]

theorem Ieee.isLine_plainText {f : Format} (x : Ieee f) : IsLine x.plainText := by
  have hsigned {text : List Char} (h : '\n' ∉ text) : IsLine (x.signed text) := by
    rw [signed, isLine_ofList]
    split
    next => simpa using h
    next => exact h
  unfold plainText
  split
  next => decide
  next =>
    split
    next => exact hsigned (by decide)
    next => exact hsigned (Decimal.newline_not_mem_positional _)

/-! Bytes that are shown as text. -/

namespace Utf8

variable {lead : UInt8} {tail : List UInt8}

/-- Line ends are kept, and nothing else becomes one. -/
theorem newline_mem_decodeLossy {bytes : List UInt8} : '\n' ∈ decodeLossy bytes ↔ 0x0A ∈ bytes := by
  -- By the characters as they are decoded, where a byte that begins none is replaced.
  induction bytes using decodeLossy.induct with
  | case1 => simp [decodeLossy]
  | case2 lead tail c rest shorter hstep ih =>
      have hbytes := encodeChar_of_step hstep
      rw [decodeLossy, hstep]
      simp only [hbytes, List.mem_cons, List.mem_append, ih, newline_mem_encodeChar, eq_comm]
  | case3 lead tail size rest shorter hstep ih =>
      have htells := step_tells lead tail
      rw [hstep] at htells
      obtain ⟨skipped, _, hbytes, hhigh⟩ := htells
      have hnone : 0x0A ∉ skipped := fun hmem => absurd (hhigh _ hmem) (by decide)
      rw [decodeLossy, hstep]
      simp [hbytes, ih, hnone]
  | case4 lead tail hstep =>
      have hhigh := step_tells lead tail
      rw [hstep] at hhigh
      have hnone : 0x0A ∉ lead :: tail := fun hmem => absurd (hhigh _ hmem) (by decide)
      rw [decodeLossy, hstep]
      simp only [hnone, List.mem_singleton, iff_false]
      decide

end Utf8

end Textproto
