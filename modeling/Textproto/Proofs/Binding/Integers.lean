import Textproto.Proofs.Binding.Literals
import Textproto.Proofs.Tree.Signed

namespace Textproto

/-! Integers, from the digits that spell them to the values of fields. -/

/-- The kinds of fields that take integers. -/
def Kind.isIntegral : Kind → Bool
  | .bool | .int32 | .int64 | .uint32 | .uint64 | .enum _ => true
  | _ => false

/-- A size with its sign. -/
def signedInteger (negative : Bool) (size : Nat) : Int :=
  if negative then -size else size

/-- Whether a kind has room for an integer. A minus sign is refused where there are no negative
numbers, even in front of a zero. -/
def Kind.Holds (negative : Bool) (size : Nat) : Kind → Prop
  | .int32 | .enum _ =>
      -2147483648 ≤ signedInteger negative size ∧ signedInteger negative size ≤ 2147483647
  | .int64 =>
      -9223372036854775808 ≤ signedInteger negative size ∧
        signedInteger negative size ≤ 9223372036854775807
  | .uint32 => negative = false ∧ size < 4294967296
  | .uint64 => negative = false ∧ size < 18446744073709551616
  | .bool => negative = false ∧ size < 2
  | _ => False

/-- The integer that a value is. -/
def Value.integer? : Value → Option Int
  | .bool b => some (if b then 1 else 0)
  | .int32 n | .enum n => some n.toInt
  | .int64 n => some n.toInt
  | .uint32 n => some n.toNat
  | .uint64 n => some n.toNat
  | _ => none

/-- There is a result if and only if there is room for the integer, and it is that integer. -/
def Exactly {α : Type} (toInt : α → Int) (room : Prop) (n : Int) (result : Option α) : Prop :=
  (room ∧ ∃ a, result = some a ∧ toInt a = n) ∨ (¬ room ∧ result = none)

namespace Tree.Scalar

variable {negative : Bool} {digits : List Char} {radix : Radix} {size : Nat}

theorem int?_integer (h : valueOf radix.base digits = size) :
    (integer negative digits radix).int? = some (signedInteger negative size) := by
  rw [int?, h, signedInteger]

theorem exactly_bounded {α : Type} {toInt : α → Int} {of : Int → α} {least greatest n : Int}
    (h : least ≤ n → n ≤ greatest → toInt (of n) = n) :
    Exactly toInt (least ≤ n ∧ n ≤ greatest) n
      (((some n).filter fun n => least ≤ n && n ≤ greatest).map of) := by
  rw [Option.filter_some]
  by_cases hbounds : least ≤ n ∧ n ≤ greatest
  · exact .inl ⟨hbounds, of n, by simp [hbounds], h hbounds.1 hbounds.2⟩
  · exact .inr ⟨hbounds, by simpa using hbounds⟩

theorem int32?_exactly (h : valueOf radix.base digits = size) :
    Exactly Int32.toInt (Kind.int32.Holds negative size) (signedInteger negative size)
      (integer negative digits radix).int32? := by
  rw [int32?, int?_integer h]
  exact exactly_bounded fun hleast hgreatest =>
    Int32.toInt_ofInt_of_le hleast (Int.lt_of_le_of_lt hgreatest (by decide))

theorem int64?_exactly (h : valueOf radix.base digits = size) :
    Exactly Int64.toInt (Kind.int64.Holds negative size) (signedInteger negative size)
      (integer negative digits radix).int64? := by
  rw [int64?, int?_integer h]
  exact exactly_bounded fun hleast hgreatest =>
    Int64.toInt_ofInt_of_le hleast (Int.lt_of_le_of_lt hgreatest (by decide))

theorem exactly_natural {α : Type} {toInt : α → Int} {of : Nat → α} {bound : Nat}
    (h : valueOf radix.base digits = size) (hof : size < bound → toInt (of size) = size) :
    Exactly toInt (negative = false ∧ size < bound) (signedInteger negative size)
      (((integer negative digits radix).nat?.filter fun n => n < bound).map of) := by
  cases negative with
  | true => exact .inr ⟨nofun, rfl⟩
  | false =>
      rw [nat?, h, Option.filter_some]
      by_cases hlt : size < bound
      · exact .inl ⟨⟨rfl, hlt⟩, of size, by simp [hlt], hof hlt⟩
      · exact .inr ⟨fun ⟨_, hroom⟩ => hlt hroom, by simpa using hlt⟩

theorem uint32?_exactly (h : valueOf radix.base digits = size) :
    Exactly (fun n : UInt32 => (n.toNat : Int)) (Kind.uint32.Holds negative size)
      (signedInteger negative size) (integer negative digits radix).uint32? :=
  exactly_natural h fun hlt => congrArg Int.ofNat (UInt32.toNat_ofNat_of_lt' hlt)

theorem uint64?_exactly (h : valueOf radix.base digits = size) :
    Exactly (fun n : UInt64 => (n.toNat : Int)) (Kind.uint64.Holds negative size)
      (signedInteger negative size) (integer negative digits radix).uint64? :=
  exactly_natural h fun hlt => congrArg Int.ofNat (UInt64.toNat_ofNat_of_lt' hlt)

theorem bool?_exactly (h : valueOf radix.base digits = size) :
    Exactly (fun b : Bool => if b then 1 else 0) (Kind.bool.Holds negative size)
      (signedInteger negative size) (integer negative digits radix).bool? := by
  cases negative with
  | true => exact .inr ⟨nofun, rfl⟩
  | false =>
      rw [bool?, nat?, h]
      · match size with
        | 0 => exact .inl ⟨⟨rfl, by decide⟩, false, rfl, rfl⟩
        | 1 => exact .inl ⟨⟨rfl, by decide⟩, true, rfl, rfl⟩
        | size + 2 => exact .inr ⟨fun ⟨_, hroom⟩ => absurd hroom (by omega), rfl⟩
      · exact nofun

end Tree.Scalar

namespace Binding

open Tree.Scalar

variable {registry : Registry} {field : Field}

/-- An integer is taken as the value that it is, or refused. -/
def TakenOrRefused (registry : Registry) (field : Field) (negative : Bool) (size : Nat)
    (scalar : Tree.Scalar) : Prop :=
  (field.kind.Holds negative size ∧ ∃ value, scalarAs registry field scalar = .ok value ∧
      value.integer? = some (signedInteger negative size)) ∨
    (¬ field.kind.Holds negative size ∧
      scalarAs registry field scalar =
        .error (.mismatch field.kind.typeName field.name scalar))

theorem takenOrRefused_of_exactly {α : Type} {toInt : α → Int} {found : Option α}
    {of : α → Value} {negative : Bool} {size : Nat} {scalar : Tree.Scalar}
    (h : Exactly toInt (field.kind.Holds negative size) (signedInteger negative size) found)
    (hof : ∀ a, (of a).integer? = some (toInt a))
    (hscalar : scalarAs registry field scalar =
      expected (found.map of) (.mismatch field.kind.typeName field.name scalar)) :
    TakenOrRefused registry field negative size scalar := by
  rcases h with ⟨hroom, a, rfl, ha⟩ | ⟨hroom, rfl⟩
  · exact .inl ⟨hroom, of a, hscalar, by rw [hof, ha]⟩
  · exact .inr ⟨hroom, hscalar⟩

theorem scalarAs_integer (hresolves : field.kind.Resolves registry)
    (hkind : field.kind.isIntegral = true) {negative : Bool} {digits : List Char}
    {radix : Tree.Radix} {size : Nat} (h : Tree.valueOf radix.base digits = size) :
    TakenOrRefused registry field negative size (.integer negative digits radix) := by
  cases hfield : field.kind with
  | bool =>
      exact takenOrRefused_of_exactly (by rw [hfield]; exact bool?_exactly h) (fun _ => rfl)
        (by simp only [scalarAs, hfield]; rfl)
  | int32 =>
      exact takenOrRefused_of_exactly (by rw [hfield]; exact int32?_exactly h) (fun _ => rfl)
        (by simp only [scalarAs, hfield]; rfl)
  | int64 =>
      exact takenOrRefused_of_exactly (by rw [hfield]; exact int64?_exactly h) (fun _ => rfl)
        (by simp only [scalarAs, hfield]; rfl)
  | uint32 =>
      exact takenOrRefused_of_exactly (by rw [hfield]; exact uint32?_exactly h) (fun _ => rfl)
        (by simp only [scalarAs, hfield]; rfl)
  | uint64 =>
      exact takenOrRefused_of_exactly (by rw [hfield]; exact uint64?_exactly h) (fun _ => rfl)
        (by simp only [scalarAs, hfield]; rfl)
  | enum name =>
      rw [hfield] at hresolves
      obtain ⟨enumeration, hknown⟩ := Option.isSome_iff_exists.mp hresolves
      exact takenOrRefused_of_exactly (by rw [hfield]; exact int32?_exactly h)
        (fun n => (rfl : (Value.enum n).integer? = some n.toInt))
        (by simp only [scalarAs, hfield, hknown]; rfl)
  | _ =>
      rw [hfield] at hkind
      cases hkind

/-- A number with a point or an exponent is refused, be it whole or not. -/
theorem scalarAs_floating (hresolves : field.kind.Resolves registry)
    (hkind : field.kind.isIntegral = true) (x : Double) :
    scalarAs registry field (.float x) =
      .error (.mismatch field.kind.typeName field.name (.float x)) := by
  cases hfield : field.kind with
  | enum name =>
      rw [hfield] at hresolves
      obtain ⟨enumeration, hknown⟩ := Option.isSome_iff_exists.mp hresolves
      simp only [scalarAs, hfield, hknown]
      rfl
  | float | double | string | bytes | message =>
      rw [hfield] at hkind
      cases hkind
  | _ =>
      simp only [scalarAs, hfield]
      rfl

end Binding

namespace Tree

theorem written_of_minusText {negative : Bool} {lead number : List Char} {numeral : Numeral}
    (hminus : MinusText negative lead) (h : Numeral.Spells numeral number) :
    ∃ tokens, ScalarTokens (numeral.withSign negative).outline tokens ∧
      Written tokens (lead ++ number) := by
  have hnumber {gap : List Char} (hgap : Layout gap) :
      Written [.number numeral] (gap ++ number) := by
    have := @Written.token (.number numeral) [] gap number [] hgap (.number h) .nil
      (.done (.layout .nil))
    rwa [List.append_nil] at this
  cases hminus with
  | absent => exact ⟨_, .unsigned, hnumber .nil⟩
  | present hgap => exact ⟨_, .negative, (hnumber hgap).mark rfl⟩

/-- A name, a colon and a number with its sign are read as one field. -/
theorem parse_number {name lead number : List Char} (hname : (Token.word name).Spells name)
    {negative : Bool} {numeral : Numeral} (hminus : MinusText negative lead)
    (h : Numeral.Spells numeral number)
    (hnan : ∀ x, numeral.withSign negative = .float x → x.isNaN = false) :
    ∃ position place, parse (name ++ ':' :: (lead ++ number)) =
      .ok [⟨.plain name, position, .scalar (numeral.withSign negative) place⟩] := by
  obtain ⟨tokens, htokens, hwritten⟩ := written_of_minusText hminus h
  exact parse_singleton hname htokens hwritten hnan

end Tree

namespace Binding

variable {registry : Registry} {root : Descriptor} {field : Field}

theorem Kind.ne_of_isIntegral {kind : Kind} (h : kind.isIntegral = true) :
    kind ≠ .string ∧ kind ≠ .bytes := by
  constructor <;> (rintro rfl; cases h)

/-- A document with one integer in it is decoded if there is room for it, and then holds it. -/
theorem decode_integer (hregistry : registry.WellFormed) (hd : root.WellFormed registry)
    (hfield : field ∈ root.fields) (hkind : field.kind.isIntegral = true)
    (hname : (Tree.Token.word field.name.toList).Spells field.name.toList) {negative : Bool}
    {radix : Tree.Radix} {size : Nat} {text : List Char}
    (h : Tree.IntegerText negative radix size text) :
    let document := Utf8.encode (field.name.toList ++ ':' :: text)
    (field.kind.Holds negative size ∧ ∃ m value, decode registry root document = .ok m ∧
        m.Stores field value ∧ value.integer? = some (signedInteger negative size)) ∨
      (¬ field.kind.Holds negative size ∧
        ∃ error, decode registry root document = .error error) := by
  intro document
  obtain ⟨hstring, hbytes⟩ := Kind.ne_of_isIntegral hkind
  have hplain := not_any_of_kind hd hfield hstring hbytes
  obtain ⟨lead, digits, number, hminus, hspells, rfl, hsize⟩ := h.exists_spells
  obtain ⟨_, _, hparse⟩ := Tree.parse_number hname hminus hspells nofun
  rcases decode_singleton hregistry hd hplain hfield hparse with
    ⟨value, m, hvalue, hm, hstores⟩ | ⟨_, error, hrefused, herror⟩
  · rcases scalarAs_integer (hd.kinds field hfield) hkind hsize with
      ⟨hroom, other, hother, hinteger⟩ | ⟨_, hno⟩
    · cases hvalue.symm.trans hother
      exact .inl ⟨hroom, m, value, hm, hstores, hinteger⟩
    · cases hvalue.symm.trans hno
  · rcases scalarAs_integer (hd.kinds field hfield) hkind hsize with ⟨_, _, hyes, _⟩ | ⟨hroom, _⟩
    · cases hrefused.symm.trans hyes
    · exact .inr ⟨hroom, error, herror⟩

end Binding

open Binding Textproto.Tree in
/-- An integer of any length is read with its sign, its radix and all its digits. A field that has
room for it stores exactly that integer, and any other refuses it. Digits behind a zero that are not
octal are no integer, nor is a number with a point or an exponent. -/
theorem decode_integers {name : String} {root : Descriptor}
    (hknown : Registry.bundled.message? name = some root) :
    (∀ c negative radix size text rest, IntegerText negative radix size text →
      c.rest = text ++ rest → Stops Numeral.isJoining rest →
        ∃ digits, valueOf radix.base digits = size ∧
          (scalar c).Reads (.integer negative digits radix) (c.advance text.length)) ∧
    (∀ c negative lead digits rest, MinusText negative lead → digits.all Char.isDigit = true →
      '8' ∈ digits ∨ '9' ∈ digits → c.rest = lead ++ '0' :: (digits ++ rest) →
        (∀ read d, (scalar c).Reads read d → ∃ x, read = .float x) ∧
          (Stops Numeral.isJoining rest →
            scalar c = .failed (.complain .invalidNumber (c.advance lead.length)))) ∧
    (∀ c negative d text rest, FloatingText negative d text → c.rest = text ++ rest →
      Stops Numeral.isJoining rest →
        (scalar c).Reads (.float (Ieee.ofDecimal negative d.digits d.exponent))
          (c.advance text.length)) ∧
    (∀ field ∈ root.fields, field.kind.isIntegral = true →
      (∀ negative digits radix, TakenOrRefused .bundled field negative (valueOf radix.base digits)
        (.integer negative digits radix)) ∧
      (∀ x, scalarAs .bundled field (.float x) =
        .error (.mismatch field.kind.typeName field.name (.float x))) ∧
      ∀ negative radix size text, IntegerText negative radix size text →
        let document := Utf8.encode (field.name.toList ++ ':' :: text)
        (field.kind.Holds negative size → ∃ m value, decode .bundled root document = .ok m ∧
          m.Stores field value ∧ value.integer? = some (signedInteger negative size)) ∧
        (¬ field.kind.Holds negative size →
          ∃ error, decode .bundled root document = .error error)) ∧
    ∀ bytes m, decode .bundled root bytes = .ok m →
      ∃ text fields, Utf8.decode bytes = .ok text ∧ parse text = .ok fields ∧
        ∀ outer given, Site .bundled root fields outer given → ∀ field ∈ outer.fields,
          field.kind.isIntegral = true → ∀ scalar place,
          .scalar scalar place ∈ writtenTo field given →
            (∀ x, scalar ≠ .float x) ∧
            ∀ negative digits radix, scalar = .integer negative digits radix →
              field.kind.Holds negative (valueOf radix.base digits) ∧
              ∃ part value, messageOf .bundled outer given = .ok part ∧ part.Stores field value ∧
                value.integer? = some (signedInteger negative (valueOf radix.base digits)) := by
  have hregistry := Registry.bundled_wellFormed
  have hd := (hregistry.descriptors name root hknown).2
  refine ⟨fun _ _ _ _ _ _ h hc hrest => scalar_of_integerText h hc hrest, ?_,
    fun _ _ _ _ _ h hc hrest => scalar_of_floatingText h hc hrest, ?_, ?_⟩
  · intro c negative lead digits rest hminus hdigits hlarge hc
    refine scalar_of_not_octal hminus hdigits ?_ hc
    rw [List.all_eq_false]
    rcases hlarge with hmem | hmem
    · exact ⟨_, hmem, by decide⟩
    · exact ⟨_, hmem, by decide⟩
  · intro field hfield hkind
    have hresolves := hd.kinds field hfield
    refine ⟨fun _ _ _ => scalarAs_integer hresolves hkind rfl, scalarAs_floating hresolves hkind,
      ?_⟩
    intro negative radix size text h document
    rcases decode_integer hregistry hd hfield hkind (Bundled.spells_name hknown hfield) h with
      ⟨hroom, hdecode⟩ | ⟨hroom, hdecode⟩
    · exact ⟨fun _ => hdecode, fun hno => absurd hroom hno⟩
    · exact ⟨fun hyes => absurd hyes hroom, fun _ => hdecode⟩
  · intro bytes m h
    obtain ⟨text, fields, htext, hfields, hm⟩ := decode_eq_ok_iff.mp h
    refine ⟨text, fields, htext, hfields, fun outer given hsite field hfield hkind => ?_⟩
    intro scalar place hwritten
    have houter := hsite.wellFormed hregistry hd
    have hresolves := houter.kinds field hfield
    -- The fields of an `Any` are of other kinds, so that the message stores what is written for it.
    obtain ⟨hstring, hbytes⟩ := Kind.ne_of_isIntegral hkind
    obtain ⟨part, value, hpart, hvalue, hstores⟩ := stores_of_site hregistry hd hm hsite
      (not_any_of_kind houter hfield hstring hbytes) hfield hwritten
    constructor
    · rintro x rfl
      rw [scalarAs_floating hresolves hkind] at hvalue
      cases hvalue
    · rintro negative digits radix rfl
      rcases scalarAs_integer hresolves hkind rfl with
        ⟨hroom, other, hother, hinteger⟩ | ⟨_, hrefused⟩
      · rw [hvalue] at hother
        cases hother
        exact ⟨hroom, part, value, hpart, hstores, hinteger⟩
      · rw [hrefused] at hvalue
        cases hvalue

open Textproto.Tree in
/-- The least integer of thirty-two bits in hexadecimal digits, and the one that follows the
greatest. -/
theorem decode_integers_int32 :
    let root := Bundled.wrapper "Int32Value" .int32
    (∃ m value, decode .bundled root (Utf8.encode "value:- # sign\n0x80000000".toList) = .ok m ∧
      m.Stores (.single "value" 1 .int32) value ∧ value.integer? = some (-2147483648)) ∧
    ∃ error, decode .bundled root (Utf8.encode "value:2147483648".toList) = .error error := by
  intro root
  have hknown : Registry.bundled.message? root.fullName = some root :=
    Bundled.message?_of_mem
      (Bundled.mem_types_of_wellKnown (by simp [Bundled.wellKnownTypes, root]))
  obtain ⟨_, _, _, hfields, _⟩ := decode_integers hknown
  obtain ⟨_, _, hdocument⟩ := hfields (.single "value" 1 .int32) List.mem_cons_self rfl
  have hgap : Layout " # sign\n".toList :=
    .blank rfl (@Layout.comment " sign".toList [] (by decide) .nil)
  have hleast : IntegerText true .hexadecimal 2147483648 "- # sign\n0x80000000".toList :=
    @IntegerText.hexadecimal true _ "80000000".toList 'x' (.present hgap) (.inl rfl) (by decide)
      (by decide)
  have hbeyond : IntegerText false .decimal 2147483648 "2147483648".toList :=
    @IntegerText.decimal false _ "2147483648".toList .absent (by decide) (by decide) (by decide)
  refine ⟨(hdocument true _ 2147483648 _ hleast).1 ?_,
    (hdocument false _ 2147483648 _ hbeyond).2 ?_⟩
  · exact ⟨by decide, by decide⟩
  · rintro ⟨_, hle⟩
    revert hle
    decide

end Textproto
