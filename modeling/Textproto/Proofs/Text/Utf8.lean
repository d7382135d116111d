import Textproto.Text.Utf8

namespace Textproto.Utf8

/-! Bytes are text exactly if they are what some characters are encoded to. -/

theorem isTail_iff {b : UInt8} : isTail b = true ↔ 0x80 ≤ b.toNat ∧ b.toNat ≤ 0xBF := by
  simp [isTail, UInt8.le_iff_toNat_le]

/-- A second byte is a tail that keeps the number in the range of its lead byte. -/
theorem isSecond_iff {lead b : UInt8} :
    isSecond lead b = true ↔ 0x80 ≤ b.toNat ∧ b.toNat ≤ 0xBF ∧
      (lead.toNat = 0xE0 → 0xA0 ≤ b.toNat) ∧ (lead.toNat = 0xED → b.toNat ≤ 0x9F) ∧
      (lead.toNat = 0xF0 → 0x90 ≤ b.toNat) ∧ (lead.toNat = 0xF4 → b.toNat ≤ 0x8F) := by
  simp only [isSecond, isTail, UInt8.le_iff_toNat_le, ← UInt8.toNat_inj, UInt8.reduceToNat]
  split
  next h => simp [h]; omega
  next =>
    split
    next h => simp [h]; omega
    next =>
      split
      next h => simp [h]; omega
      next =>
        split
        next h => simp [h]; omega
        next => simp [*]

theorem toNat_char (c : Char) :
    c.toNat < 0xD800 ∨ 0xDFFF < c.toNat ∧ c.toNat < 0x110000 := by
  have h := c.valid
  simpa [UInt32.isValidChar, Nat.isValidChar] using h

theorem toNat_ofNat {n : Nat} (h : n < 0xD800 ∨ 0xDFFF < n ∧ n < 0x110000) :
    (Char.ofNat n).toNat = n := by
  have hvalid : n.isValidChar := h
  unfold Char.ofNat
  rw [dif_pos hvalid]
  exact BitVec.toNat_ofNatLT n _

theorem toNat_uint8 {n : Nat} (h : n < 0x100) : (UInt8.ofNat n).toNat = n := by
  rw [UInt8.toNat_ofNat']
  exact Nat.mod_eq_of_lt h

theorem uint8_eq {b : UInt8} {n : Nat} (h : n = b.toNat) : UInt8.ofNat n = b := by
  rw [h, UInt8.ofNat_toNat]

/-! A character of one, two, three or four bytes. -/

variable {lead b d e : UInt8} {tail rest : List UInt8} {c : Char}

theorem encodeChar_one (hlead : lead.toNat < 0x80) : encodeChar (Char.ofNat lead.toNat) = [lead] := by
  have hc := toNat_ofNat (n := lead.toNat) (by omega)
  simp [encodeChar, hc, hlead]

theorem encodeChar_two (hlead : 0xC2 ≤ lead.toNat ∧ lead.toNat < 0xE0) (hb : isTail b = true) :
    encodeChar (Char.ofNat (bits lead 0xC0 * 0x40 + bits b 0x80)) = [lead, b] := by
  rw [isTail_iff] at hb
  have hc := toNat_ofNat (n := (lead.toNat - 0xC0) * 0x40 + (b.toNat - 0x80)) (by omega)
  simp only [encodeChar, bits, hc]
  rw [if_neg (by omega), if_pos (by omega), uint8_eq (b := lead) (by omega),
    uint8_eq (b := b) (by omega)]

theorem encodeChar_three (hlead : 0xE0 ≤ lead.toNat ∧ lead.toNat < 0xF0)
    (hb : isSecond lead b = true) (hd : isTail d = true) :
    encodeChar (Char.ofNat (bits lead 0xE0 * 0x1000 + bits b 0x80 * 0x40 + bits d 0x80)) =
      [lead, b, d] := by
  rw [isSecond_iff] at hb
  rw [isTail_iff] at hd
  have hc := toNat_ofNat
    (n := (lead.toNat - 0xE0) * 0x1000 + (b.toNat - 0x80) * 0x40 + (d.toNat - 0x80)) (by omega)
  simp only [encodeChar, bits, hc]
  rw [if_neg (by omega), if_neg (by omega), if_pos (by omega), uint8_eq (b := lead) (by omega),
    uint8_eq (b := b) (by omega), uint8_eq (b := d) (by omega)]

theorem encodeChar_four (hlead : 0xF0 ≤ lead.toNat ∧ lead.toNat < 0xF5)
    (hb : isSecond lead b = true) (hd : isTail d = true) (he : isTail e = true) :
    encodeChar (Char.ofNat (bits lead 0xF0 * 0x40000 + bits b 0x80 * 0x1000
      + bits d 0x80 * 0x40 + bits e 0x80)) = [lead, b, d, e] := by
  rw [isSecond_iff] at hb
  rw [isTail_iff] at hd he
  have hc := toNat_ofNat (n := (lead.toNat - 0xF0) * 0x40000 + (b.toNat - 0x80) * 0x1000
    + (d.toNat - 0x80) * 0x40 + (e.toNat - 0x80)) (by omega)
  simp only [encodeChar, bits, hc]
  rw [if_neg (by omega), if_neg (by omega), if_neg (by omega), uint8_eq (b := lead) (by omega),
    uint8_eq (b := b) (by omega), uint8_eq (b := d) (by omega), uint8_eq (b := e) (by omega)]

/-! A step takes a character, or bytes of which each has its first bit set. -/

def Step.Tells {bytes : List UInt8} : Step bytes → Prop
  | .char c rest _ => bytes = encodeChar c ++ rest
  | .broken size rest _ => ∃ skipped, skipped.length = size ∧ bytes = skipped ++ rest ∧
      ∀ b ∈ skipped, 0x80 ≤ b.toNat
  | .unfinished => ∀ b ∈ bytes, 0x80 ≤ b.toNat

/-- All that `step` can do, one case for each byte that it looks at. -/
theorem step_tells (lead : UInt8) (tail : List UInt8) : (step lead tail).Tells := by
  simp only [step, UInt8.lt_iff_toNat_lt, UInt8.reduceToNat]
  split
  next hlead => exact congrArg (· ++ tail) (encodeChar_one hlead).symm
  next hlead =>
    rw [Nat.not_lt] at hlead
    have hone (rest : List UInt8) : ∃ skipped, skipped.length = 1 ∧ lead :: rest = skipped ++ rest ∧
        ∀ b ∈ skipped, 0x80 ≤ b.toNat :=
      ⟨[lead], rfl, rfl, by simpa using hlead⟩
    have htwo {b : UInt8} (hb : 0x80 ≤ b.toNat) (rest : List UInt8) : ∃ skipped,
        skipped.length = 2 ∧ lead :: b :: rest = skipped ++ rest ∧ ∀ b ∈ skipped, 0x80 ≤ b.toNat :=
      ⟨[lead, b], rfl, rfl, by simpa using ⟨hlead, hb⟩⟩
    split
    next => exact hone tail
    next =>
      split
      -- Two bytes.
      next =>
        split
        next => simpa [Step.Tells] using hlead
        next b rest =>
          split
          next hb => exact congrArg (· ++ rest) (encodeChar_two (by omega) hb).symm
          next => exact hone (b :: rest)
      next =>
        split
        -- Three bytes.
        next =>
          split
          next => simpa [Step.Tells] using hlead
          next b rest =>
            split
            next hb =>
              have hhigh := (isSecond_iff.mp hb).1
              split
              next => simpa [Step.Tells] using ⟨hlead, hhigh⟩
              next d rest =>
                split
                next hd => exact congrArg (· ++ rest) (encodeChar_three (by omega) hb hd).symm
                next => exact htwo hhigh (d :: rest)
            next => exact hone (b :: rest)
        next =>
          split
          -- Four bytes.
          next =>
            split
            next => simpa [Step.Tells] using hlead
            next b rest =>
              split
              next hb =>
                have hhigh := (isSecond_iff.mp hb).1
                split
                next => simpa [Step.Tells] using ⟨hlead, hhigh⟩
                next d rest =>
                  split
                  next hd =>
                    have hnext := (isTail_iff.mp hd).1
                    split
                    next => simpa [Step.Tells] using ⟨hlead, hhigh, hnext⟩
                    next e rest =>
                      split
                      next he => exact congrArg (· ++ rest) (encodeChar_four (by omega) hb hd he).symm
                      next =>
                        exact ⟨[lead, b, d], rfl, rfl, by simpa using ⟨hlead, hhigh, hnext⟩⟩
                  next => exact htwo hhigh (d :: rest)
              next => exact hone (b :: rest)
          next => exact hone tail

theorem encodeChar_of_step {shorter : rest.length < (lead :: tail).length}
    (h : step lead tail = .char c rest shorter) : lead :: tail = encodeChar c ++ rest := by
  have htells := step_tells lead tail
  rwa [h] at htells

theorem step_one (hlead : lead.toNat < 0x80) :
    ∃ shorter, step lead tail = .char (Char.ofNat lead.toNat) tail shorter := by
  unfold step
  simp only [UInt8.lt_iff_toNat_lt, UInt8.reduceToNat]
  rw [if_pos hlead]
  exact ⟨Nat.lt_succ_self _, rfl⟩

theorem step_two (hlead : 0xC2 ≤ lead.toNat ∧ lead.toNat < 0xE0) (hb : isTail b = true) :
    ∃ shorter, step lead (b :: rest) =
      .char (Char.ofNat (bits lead 0xC0 * 0x40 + bits b 0x80)) rest shorter := by
  unfold step
  simp only [UInt8.lt_iff_toNat_lt, UInt8.reduceToNat]
  rw [if_neg (by omega), if_neg (by omega), if_pos (by omega), if_pos hb]
  exact ⟨by simp only [List.length_cons]; omega, rfl⟩

theorem step_three (hlead : 0xE0 ≤ lead.toNat ∧ lead.toNat < 0xF0)
    (hb : isSecond lead b = true) (hd : isTail d = true) :
    ∃ shorter, step lead (b :: d :: rest) =
      .char (Char.ofNat (bits lead 0xE0 * 0x1000 + bits b 0x80 * 0x40 + bits d 0x80))
        rest shorter := by
  unfold step
  simp only [UInt8.lt_iff_toNat_lt, UInt8.reduceToNat]
  rw [if_neg (by omega), if_neg (by omega), if_neg (by omega), if_pos (by omega), if_pos hb,
    if_pos hd]
  exact ⟨by simp only [List.length_cons]; omega, rfl⟩

theorem step_four (hlead : 0xF0 ≤ lead.toNat ∧ lead.toNat < 0xF5)
    (hb : isSecond lead b = true) (hd : isTail d = true) (he : isTail e = true) :
    ∃ shorter, step lead (b :: d :: e :: rest) =
      .char (Char.ofNat (bits lead 0xF0 * 0x40000 + bits b 0x80 * 0x1000
        + bits d 0x80 * 0x40 + bits e 0x80)) rest shorter := by
  unfold step
  simp only [UInt8.lt_iff_toNat_lt, UInt8.reduceToNat]
  rw [if_neg (by omega), if_neg (by omega), if_neg (by omega), if_neg (by omega),
    if_pos (by omega), if_pos hb, if_pos hd, if_pos he]
  exact ⟨by simp only [List.length_cons]; omega, rfl⟩

theorem step_encodeChar (h : lead :: tail = encodeChar c ++ rest) :
    ∃ shorter, step lead tail = .char c rest shorter := by
  have hvalid := toNat_char c
  have hofNat {n : Nat} (hn : n = c.toNat) : Char.ofNat n = c := by rw [hn, Char.ofNat_toNat]
  unfold encodeChar at h
  simp only at h
  split at h
  next hsize =>
    obtain ⟨rfl, rfl⟩ := List.cons.inj h
    have hlead := toNat_uint8 (n := c.toNat) (by omega)
    have hstep := @step_one (UInt8.ofNat c.toNat) tail (by omega)
    rwa [hofNat hlead] at hstep
  next =>
    split at h
    next hsize =>
      obtain ⟨rfl, rfl⟩ := List.cons.inj h
      have hlead := toNat_uint8 (n := 0xC0 + c.toNat / 0x40) (by omega)
      have hb := toNat_uint8 (n := 0x80 + c.toNat % 0x40) (by omega)
      have hstep := @step_two (UInt8.ofNat (0xC0 + c.toNat / 0x40))
        (UInt8.ofNat (0x80 + c.toNat % 0x40)) rest (by omega) (by rw [isTail_iff]; omega)
      rwa [hofNat (by simp only [bits]; omega)] at hstep
    next =>
      split at h
      next hsize =>
        obtain ⟨rfl, rfl⟩ := List.cons.inj h
        have hlead := toNat_uint8 (n := 0xE0 + c.toNat / 0x1000) (by omega)
        have hb := toNat_uint8 (n := 0x80 + c.toNat / 0x40 % 0x40) (by omega)
        have hd := toNat_uint8 (n := 0x80 + c.toNat % 0x40) (by omega)
        have hstep := @step_three (UInt8.ofNat (0xE0 + c.toNat / 0x1000))
          (UInt8.ofNat (0x80 + c.toNat / 0x40 % 0x40))
          (UInt8.ofNat (0x80 + c.toNat % 0x40)) rest (by omega)
          (by rw [isSecond_iff]; omega) (by rw [isTail_iff]; omega)
        rwa [hofNat (by simp only [bits]; omega)] at hstep
      next hsize =>
        obtain ⟨rfl, rfl⟩ := List.cons.inj h
        have hlead := toNat_uint8 (n := 0xF0 + c.toNat / 0x40000) (by omega)
        have hb := toNat_uint8 (n := 0x80 + c.toNat / 0x1000 % 0x40) (by omega)
        have hd := toNat_uint8 (n := 0x80 + c.toNat / 0x40 % 0x40) (by omega)
        have he := toNat_uint8 (n := 0x80 + c.toNat % 0x40) (by omega)
        have hstep := @step_four (UInt8.ofNat (0xF0 + c.toNat / 0x40000))
          (UInt8.ofNat (0x80 + c.toNat / 0x1000 % 0x40))
          (UInt8.ofNat (0x80 + c.toNat / 0x40 % 0x40))
          (UInt8.ofNat (0x80 + c.toNat % 0x40)) rest (by omega)
          (by rw [isSecond_iff]; omega) (by rw [isTail_iff]; omega) (by rw [isTail_iff]; omega)
        rwa [hofNat (by simp only [bits]; omega)] at hstep

/-! Whole texts. -/

theorem encodeChar_ne_nil (c : Char) : encodeChar c ≠ [] := by
  unfold encodeChar
  simp only
  split
  next => exact nofun
  next =>
    split
    next => exact nofun
    next => split <;> exact nofun

theorem encode_eq_nil_iff {text : List Char} : encode text = [] ↔ text = [] := by
  cases text with
  | nil => simp [encode]
  | cons c text => simp [encode, encodeChar_ne_nil]

theorem exists_step_of_encode {text : List Char} (h : lead :: tail = encode text) :
    ∃ c more shorter, text = c :: more ∧ step lead tail = .char c (encode more) shorter := by
  cases text with
  | nil => cases h
  | cons c more =>
      obtain ⟨shorter, hstep⟩ := step_encodeChar (h.trans (encode_cons c more))
      exact ⟨c, more, shorter, rfl, hstep⟩

theorem decodeFrom_eq_ok_iff {index : Nat} {read text : List Char} {bytes : List UInt8} :
    decodeFrom index read bytes = .ok text ↔
      ∃ more, text = read.reverse ++ more ∧ bytes = encode more := by
  fun_induction decodeFrom index read bytes with
  | case1 index read =>
      constructor
      · intro h
        cases h
        exact ⟨[], by simp, rfl⟩
      · rintro ⟨more, rfl, hmore⟩
        rw [encode_eq_nil_iff.mp hmore.symm, List.append_nil]
  | case2 index read lead tail c rest shorter hstep ih =>
      rw [ih]
      constructor
      · rintro ⟨more, rfl, rfl⟩
        exact ⟨c :: more, by simp, encodeChar_of_step hstep⟩
      · rintro ⟨more, rfl, hmore⟩
        obtain ⟨d, others, _, rfl, hother⟩ := exists_step_of_encode hmore
        rw [hstep, Step.char.injEq] at hother
        obtain ⟨rfl, rfl⟩ := hother
        exact ⟨others, by simp, rfl⟩
  | case3 index read lead tail size rest shorter hstep =>
      refine iff_of_false nofun ?_
      rintro ⟨more, _, hmore⟩
      obtain ⟨_, _, _, _, hother⟩ := exists_step_of_encode hmore
      cases hstep.symm.trans hother
  | case4 index read lead tail hstep =>
      refine iff_of_false nofun ?_
      rintro ⟨more, _, hmore⟩
      obtain ⟨_, _, _, _, hother⟩ := exists_step_of_encode hmore
      cases hstep.symm.trans hother

theorem decode_eq_ok_iff {bytes : List UInt8} {text : List Char} :
    decode bytes = .ok text ↔ bytes = encode text := by
  simp [decode, decodeFrom_eq_ok_iff]

theorem decode_encode (text : List Char) : decode (encode text) = .ok text :=
  decode_eq_ok_iff.mpr rfl

theorem encode_injective {text other : List Char} (h : encode text = encode other) :
    text = other := by
  have hdecode := decode_encode text
  rw [h, decode_encode] at hdecode
  cases hdecode
  rfl

/-! Texts are ordered as their bytes are. -/

theorem uint8_lt_iff {m n : Nat} (hm : m < 0x100) (hn : n < 0x100) :
    UInt8.ofNat m < UInt8.ofNat n ↔ m < n := by
  rw [UInt8.lt_iff_toNat_lt, toNat_uint8 hm, toNat_uint8 hn]

theorem uint8_inj_iff {m n : Nat} (hm : m < 0x100) (hn : n < 0x100) :
    UInt8.ofNat m = UInt8.ofNat n ↔ m = n := by
  rw [← UInt8.toNat_inj, toNat_uint8 hm, toNat_uint8 hn]

theorem encodeChar_lt {c d : Char} (h : c < d) (rest more : List UInt8) :
    encodeChar c ++ rest < encodeChar d ++ more := by
  have hlt : c.toNat < d.toNat := h
  have hc := toNat_char c
  have hd := toNat_char d
  simp only [encodeChar]
  generalize c.toNat = m, d.toNat = n at *
  -- Of two lengths the longer one has the greater lead byte; in one length the bytes are digits.
  repeat' split
  all_goals
    first
    | omega
    | simp only [List.cons_append, List.nil_append, List.cons_lt_cons_iff]
      simp (disch := omega) only [uint8_lt_iff, uint8_inj_iff]
      omega

theorem encode_lt {text other : List Char} (h : text < other) : encode text < encode other := by
  induction text generalizing other with
  | nil =>
      cases other with
      | nil => exact absurd h (List.lt_irrefl _)
      | cons d other =>
          obtain ⟨b, bytes, hbytes⟩ := List.exists_cons_of_ne_nil (encodeChar_ne_nil d)
          rw [encode_nil, encode_cons, hbytes]
          exact List.nil_lt_cons _ _
  | cons c text ih =>
      cases other with
      | nil => exact absurd h (List.not_lt_nil _)
      | cons d other =>
          rw [encode_cons, encode_cons]
          rcases List.cons_lt_cons_iff.mp h with hlt | ⟨rfl, hlt⟩
          · exact encodeChar_lt hlt _ _
          · exact List.append_left_lt (ih hlt)

end Textproto.Utf8
