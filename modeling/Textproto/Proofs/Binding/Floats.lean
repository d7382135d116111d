import Textproto.Proofs.Binding.Integers
import Textproto.Proofs.Ieee.Range

namespace Textproto

/-! Finite numbers as the values of fields of single precision. -/

namespace Tree

/-- A finite number with its sign, and the decimal that it is read as. Integers in hexadecimal and
in octal digits are bounded. -/
inductive NumberText (negative : Bool) : Bool → Decimal → List Char → Prop
  | floating {d : Decimal} {text : List Char} :
      FloatingText negative d text → NumberText negative false d text
  | integer {radix : Radix} {size : Nat} {text : List Char} :
      IntegerText negative radix size text →
      NumberText negative (decide (radix ≠ .decimal)) ⟨size, 0⟩ text

/-- A scalar that a finite number is read as. -/
inductive Scalar.IsNumber (negative : Bool) : Bool → Decimal → Scalar → Prop
  | floating {d : Decimal} :
      IsNumber negative false d (.float (Ieee.ofDecimal negative d.digits d.exponent))
  | integer {digits : List Char} {radix : Radix} {size : Nat} :
      valueOf radix.base digits = size →
      IsNumber negative (decide (radix ≠ .decimal)) ⟨size, 0⟩ (.integer negative digits radix)

theorem NumberText.exists_spells {negative bounded : Bool} {d : Decimal} {text : List Char}
    (h : NumberText negative bounded d text) : ∃ lead numeral number, MinusText negative lead ∧
      Numeral.Spells numeral number ∧ text = lead ++ number ∧
        (numeral.withSign negative).IsNumber negative bounded d := by
  cases h with
  | floating hfloating =>
      obtain ⟨lead, number, hminus, hspells, rfl⟩ := hfloating.exists_spells
      refine ⟨lead, _, number, hminus, hspells, rfl, ?_⟩
      cases negative <;> exact .floating
  | integer hinteger =>
      obtain ⟨lead, digits, number, hminus, hspells, rfl, hsize⟩ := hinteger.exists_spells
      exact ⟨lead, _, number, hminus, hspells, rfl, .integer hsize⟩

theorem scalar_of_numberText {c : Cursor} {negative bounded : Bool} {d : Decimal}
    {text rest : List Char} (h : NumberText negative bounded d text) (hc : c.rest = text ++ rest)
    (hrest : Stops Numeral.isJoining rest) : ∃ read,
      (scalar c).Reads read (c.advance text.length) ∧ read.IsNumber negative bounded d := by
  obtain ⟨lead, numeral, number, hminus, hspells, rfl, hnumber⟩ := h.exists_spells
  rw [List.append_assoc] at hc
  exact ⟨_, scalar_of_spells hminus hspells hc hrest, hnumber⟩

theorem Scalar.IsNumber.not_isNaN {negative bounded : Bool} {d : Decimal} {scalar : Scalar}
    (h : scalar.IsNumber negative bounded d) : ∀ x, scalar = .float x → x.isNaN = false := by
  rintro x rfl
  cases h
  exact Ieee.not_isNaN_ofRatio _ _ _

end Tree

/-- What becomes of a finite number in single precision. It is refused if it is finite as a double
only, and if it is bounded and does not fit sixty-four bits. Beyond the doubles it is infinite. -/
inductive SingleOutcome (negative bounded : Bool) (d : Decimal) : Option Single → Prop
  | finite {x : Single} :
      d.value < 2 ^ 128 - 2 ^ 103 - 2 ^ 74 → (bounded = true → d.value < 2 ^ 64) →
      x = (Ieee.ofDecimal negative d.digits d.exponent : Double).convert → x.isFinite = true →
      SingleOutcome negative bounded d (some x)
  | refused :
      2 ^ 128 - 2 ^ 103 - 2 ^ 74 ≤ d.value ∧ d.value < 2 ^ 1024 - 2 ^ 970 ∨
        bounded = true ∧ 2 ^ 64 ≤ d.value →
      SingleOutcome negative bounded d none
  | infinite :
      bounded = false → 2 ^ 1024 - 2 ^ 970 ≤ d.value →
      SingleOutcome negative bounded d (some (Ieee.infinity negative))

namespace Tree.Scalar

variable {negative bounded : Bool} {d : Decimal} {scalar : Scalar}

theorem double?_of_isNumber (h : scalar.IsNumber negative bounded d) :
    (bounded = true ∧ 2 ^ 64 ≤ d.value ∧ scalar.double? = none) ∨
      ((bounded = true → d.value < 2 ^ 64) ∧
        scalar.double? = some (Ieee.ofDecimal negative d.digits d.exponent)) := by
  cases h with
  | floating => exact .inr ⟨nofun, rfl⟩
  | @integer digits radix size hsize =>
      have hvalue : (⟨size, 0⟩ : Decimal).value = size := by simp [Decimal.value]
      have hdouble : (Ieee.ofDecimal negative size 0 : Double) = Ieee.ofRatio negative size 1 := by
        simp [Ieee.ofDecimal]
      have hbound : (size : ℚ) < 2 ^ 64 ↔ size < UInt64.size := by exact_mod_cast Iff.rfl
      rw [double?, hsize, hvalue, hdouble]
      by_cases hdecimal : radix = .decimal
      · exact .inr ⟨by simp [hdecimal], by simp [hdecimal]⟩
      · by_cases hfits : size < UInt64.size
        · exact .inr ⟨fun _ => hbound.mpr hfits, by simp [hfits]⟩
        · refine .inl ⟨by simp [hdecimal], ?_, by simp [hdecimal, hfits]⟩
          rwa [← not_lt, hbound]

theorem single?_of_isNumber (h : scalar.IsNumber negative bounded d) :
    SingleOutcome negative bounded d scalar.single? := by
  rcases double?_of_isNumber h with ⟨hbounded, hvalue, hdouble⟩ | ⟨hbounded, hdouble⟩
  · rw [single?, hdouble]
    exact .refused (.inr ⟨hbounded, hvalue⟩)
  · rw [single?, hdouble, Option.filter_some]
    by_cases hfinite : (Ieee.ofDecimal negative d.digits d.exponent : Double).isFinite = true
    · have hdouble := (Ieee.isFinite_double negative d).mp hfinite
      by_cases hfits :
          ((Ieee.ofDecimal negative d.digits d.exponent : Double).convert : Single).isFinite = true
      · rw [hfits, Bool.or_true, if_pos rfl, Option.map_some]
        exact .finite ((Ieee.isFinite_single negative d).mp hfits) hbounded rfl hfits
      · rw [Bool.not_eq_true] at hfits
        rw [hfinite, hfits, if_neg (by decide), Option.map_none]
        refine .refused (.inl ⟨?_, hdouble⟩)
        rw [← not_lt, ← Ieee.isFinite_single negative d, hfits]
        exact Bool.false_ne_true
    · have hlarge : 2 ^ 1024 - 2 ^ 970 ≤ d.value := by
        rwa [← not_lt, ← Ieee.isFinite_double negative d]
      rw [Bool.not_eq_true] at hfinite
      rw [hfinite, Bool.not_false, Bool.true_or, if_pos rfl, Option.map_some,
        Ieee.ofDecimal_double_of_large hlarge, Ieee.convert_infinity]
      refine .infinite ?_ hlarge
      rw [← Bool.not_eq_true]
      intro htrue
      have hwide := Ieee.two_pow_le_beyond_double (show 64 ≤ 970 by decide)
      exact absurd (hbounded htrue) (not_lt.mpr (hwide.trans hlarge))

end Tree.Scalar

namespace Binding

variable {registry : Registry} {root : Descriptor} {field : Field}

theorem scalarAs_float (hkind : field.kind = .float) (scalar : Tree.Scalar) :
    scalarAs registry field scalar = expected (scalar.single?.map Value.float)
      (.mismatch field.kind.typeName field.name scalar) := by
  simp only [scalarAs, hkind]
  rfl

/-- A document with one finite number in it is decoded as the number comes out in single
precision. -/
theorem decode_number (hregistry : registry.WellFormed) (hd : root.WellFormed registry)
    (hfield : field ∈ root.fields) (hkind : field.kind = .float)
    (hname : (Tree.Token.word field.name.toList).Spells field.name.toList)
    {negative bounded : Bool} {d : Decimal} {text : List Char}
    (h : Tree.NumberText negative bounded d text) :
    let document := Utf8.encode (field.name.toList ++ ':' :: text)
    (∃ x m, SingleOutcome negative bounded d (some x) ∧ decode registry root document = .ok m ∧
        m.Stores field (.float x)) ∨
      (SingleOutcome negative bounded d none ∧
        ∃ error, decode registry root document = .error error) := by
  intro document
  have hplain : root.wellKnown? ≠ some .any :=
    not_any_of_kind hd hfield (by rw [hkind]; nofun) (by rw [hkind]; nofun)
  obtain ⟨lead, numeral, number, hminus, hspells, rfl, hnumber⟩ := h.exists_spells
  obtain ⟨_, _, hparse⟩ := Tree.parse_number hname hminus hspells hnumber.not_isNaN
  have houtcome := Tree.Scalar.single?_of_isNumber hnumber
  have hscalar := @scalarAs_float registry field hkind (numeral.withSign negative)
  cases hsingle : (numeral.withSign negative).single? with
  | some x =>
      rw [hsingle] at houtcome hscalar
      rcases decode_singleton hregistry hd hplain hfield hparse with
        ⟨value, m, hvalue, hm, hstores⟩ | ⟨_, _, hrefused, _⟩
      · cases hvalue.symm.trans hscalar
        exact .inl ⟨x, m, houtcome, hm, hstores⟩
      · cases hrefused.symm.trans hscalar
  | none =>
      rw [hsingle] at houtcome hscalar
      rcases decode_singleton hregistry hd hplain hfield hparse with
        ⟨_, _, hvalue, _⟩ | ⟨_, error, _, herror⟩
      · cases hvalue.symm.trans hscalar
      · exact .inr ⟨houtcome, error, herror⟩

end Binding

open Binding Textproto.Tree in
/-- A finite number is read with its sign, and a field of single precision stores it rounded or
refuses it, except for the numbers that are beyond the doubles: these it stores as infinity. -/
theorem decode_floats {name : String} {root : Descriptor}
    (hknown : Registry.bundled.message? name = some root) :
    (∀ c negative bounded d text rest, NumberText negative bounded d text → c.rest = text ++ rest →
      Stops Numeral.isJoining rest → ∃ read,
        (scalar c).Reads read (c.advance text.length) ∧ read.IsNumber negative bounded d) ∧
    (∀ field ∈ root.fields, field.kind = .float → ∀ negative bounded d text,
      NumberText negative bounded d text →
        let document := Utf8.encode (field.name.toList ++ ':' :: text)
        (∃ x m, SingleOutcome negative bounded d (some x) ∧
            decode .bundled root document = .ok m ∧ m.Stores field (.float x)) ∨
          (SingleOutcome negative bounded d none ∧
            ∃ error, decode .bundled root document = .error error)) ∧
    ∀ bytes m, decode .bundled root bytes = .ok m →
      ∃ text fields, Utf8.decode bytes = .ok text ∧ parse text = .ok fields ∧
        ∀ outer given, Site .bundled root fields outer given → ∀ field ∈ outer.fields,
          field.kind = .float → ∀ scalar place, .scalar scalar place ∈ writtenTo field given →
            ∀ negative bounded d, scalar.IsNumber negative bounded d →
              ∃ part x, SingleOutcome negative bounded d (some x) ∧
                messageOf .bundled outer given = .ok part ∧ part.Stores field (.float x) := by
  have hregistry := Registry.bundled_wellFormed
  have hd := (hregistry.descriptors name root hknown).2
  refine ⟨fun _ _ _ _ _ _ h hc hrest => scalar_of_numberText h hc hrest, ?_, ?_⟩
  · intro field hfield hkind negative bounded d text h
    exact decode_number hregistry hd hfield hkind (Bundled.spells_name hknown hfield) h
  · intro bytes m h
    obtain ⟨text, fields, htext, hfields, hm⟩ := decode_eq_ok_iff.mp h
    refine ⟨text, fields, htext, hfields, fun outer given hsite field hfield hkind => ?_⟩
    intro scalar place hwritten negative bounded d hnumber
    have hplain : outer.wellKnown? ≠ some .any :=
      not_any_of_kind (hsite.wellFormed hregistry hd) hfield (by rw [hkind]; nofun)
        (by rw [hkind]; nofun)
    obtain ⟨part, value, hpart, hvalue, hstores⟩ :=
      stores_of_site hregistry hd hm hsite hplain hfield hwritten
    have houtcome := Scalar.single?_of_isNumber hnumber
    rw [scalarAs_float hkind] at hvalue
    cases hsingle : scalar.single? with
    | none =>
        rw [hsingle] at hvalue
        cases hvalue
    | some x =>
        rw [hsingle] at hvalue houtcome
        cases hvalue
        exact ⟨part, x, houtcome, hpart, hstores⟩

open Textproto.Tree in
/-- A number beyond the doubles is stored as infinity, and one beyond the singles only is
refused. -/
theorem decode_floats_beyond :
    let root := Bundled.wrapper "FloatValue" .float
    (∃ m, decode .bundled root (Utf8.encode "value:1e400".toList) = .ok m ∧
      m.Stores (.single "value" 1 .float) (.float (Ieee.infinity false))) ∧
    ∃ error, decode .bundled root (Utf8.encode "value:1e39".toList) = .error error := by
  intro root
  have hknown : Registry.bundled.message? root.fullName = some root :=
    Bundled.message?_of_mem
      (Bundled.mem_types_of_wellKnown (by simp [Bundled.wellKnownTypes, root]))
  obtain ⟨_, hdocument, _⟩ := decode_floats hknown
  have hhuge : NumberText false false ⟨1, 400⟩ "1e400".toList :=
    .floating (@FloatingText.exponent false [] ['1'] "e400".toList [] 400 .absent (by decide)
      (by decide) (@Numeral.ExponentText.mk 'e' false [] "400".toList (.inl rfl) .absent
        (by decide) (by decide)) .absent)
  have hlarge : NumberText false false ⟨1, 39⟩ "1e39".toList :=
    .floating (@FloatingText.exponent false [] ['1'] "e39".toList [] 39 .absent (by decide)
      (by decide) (@Numeral.ExponentText.mk 'e' false [] "39".toList (.inl rfl) .absent
        (by decide) (by decide)) .absent)
  have hten (exponent : ℕ) : (⟨1, exponent⟩ : Decimal).value = 10 ^ exponent := by
    simp [Decimal.value]
  have hvalue : (⟨1, 39⟩ : Decimal).value = 10 ^ 39 := hten 39
  have hbeyond : (2 ^ 1024 - 2 ^ 970 : ℚ) ≤ (⟨1, 400⟩ : Decimal).value := by
    have hpow : 2 ^ 1024 ≤ 10 ^ 400 := by decide +kernel
    refine (sub_le_self _ (by positivity)).trans ?_
    exact (show (2 ^ 1024 : ℚ) ≤ 10 ^ 400 by exact_mod_cast hpow).trans_eq (hten 400).symm
  constructor
  · rcases hdocument _ List.mem_cons_self rfl _ _ _ _ hhuge with
      ⟨x, m, houtcome, hm, hstores⟩ | ⟨houtcome, _⟩
    · cases houtcome with
      | finite hsmall =>
          have hwide := Ieee.two_pow_le_beyond_double (show 128 ≤ 970 by decide)
          exact absurd (hsmall.trans_le ((by norm_num : _ ≤ (2 ^ 128 : ℚ)).trans hwide))
            (not_lt.mpr hbeyond)
      | infinite => exact ⟨m, hm, hstores⟩
    · cases houtcome with
      | refused hrefused =>
          rcases hrefused with ⟨_, hlt⟩ | ⟨hbounded, _⟩
          · exact absurd hlt (not_lt.mpr hbeyond)
          · cases hbounded
  · rcases hdocument _ List.mem_cons_self rfl _ _ _ _ hlarge with
      ⟨x, m, houtcome, _⟩ | ⟨_, herror⟩
    · cases houtcome with
      | finite hsmall =>
          rw [hvalue] at hsmall
          norm_num at hsmall
      | infinite _ hle =>
          have hwide := Ieee.two_pow_le_beyond_double (show 130 ≤ 970 by decide)
          rw [hvalue] at hle
          exact absurd (hwide.trans hle) (by norm_num)
    · exact herror

end Textproto
