import Textproto.Proofs.Binding.Steps
import Textproto.Proofs.Text.Utf8

namespace Textproto

/-! The scalars that a field of a kind takes. -/

namespace Tree.Scalar

/-- An integer within bounds, with its sign. -/
inductive IsInteger (least greatest : Int) : Scalar → Prop
  | mk {negative : Bool} {digits : List Char} {radix : Radix} {value : Int} :
      value = (if negative then -(valueOf radix.base digits : Int) else valueOf radix.base digits) →
      least ≤ value → value ≤ greatest → IsInteger least greatest (.integer negative digits radix)

/-- An integer without a sign, below a bound. -/
inductive IsNatural (bound : Nat) : Scalar → Prop
  | mk {digits : List Char} {radix : Radix} :
      valueOf radix.base digits < bound → IsNatural bound (.integer false digits radix)

/-- The double that a scalar stands for. Whole numbers in other than decimal digits have to fit
sixty-four bits. -/
inductive IsDouble : Scalar → Double → Prop
  | float {x : Double} : IsDouble (.float x) x
  | integer {negative : Bool} {digits : List Char} {radix : Radix} :
      radix = .decimal ∨ valueOf radix.base digits < 18446744073709551616 →
      IsDouble (.integer negative digits radix) (Ieee.ofRatio negative (valueOf radix.base digits) 1)
  | infinity {name : List Char} :
      name.map Char.toLower = "inf".toList ∨ name.map Char.toLower = "infinity".toList →
      IsDouble (.identifier name) (Ieee.infinity false)
  | nan {name : List Char} :
      name.map Char.toLower = "nan".toList → IsDouble (.identifier name) Ieee.nan

def trueWords : List (List Char) := ["true".toList, "True".toList, "t".toList]

def falseWords : List (List Char) := ["false".toList, "False".toList, "f".toList]

end Tree.Scalar

namespace Binding

open Tree.Scalar

/-- The scalars in the domain of a kind. -/
inductive Admits (registry : Registry) : Kind → Tree.Scalar → Prop
  | boolWord {name : List Char} :
      name ∈ trueWords ∨ name ∈ falseWords → Admits registry .bool (.identifier name)
  | boolNumber {scalar : Tree.Scalar} : IsNatural 2 scalar → Admits registry .bool scalar
  | int32 {scalar : Tree.Scalar} :
      IsInteger (-2147483648) 2147483647 scalar → Admits registry .int32 scalar
  | int64 {scalar : Tree.Scalar} :
      IsInteger (-9223372036854775808) 9223372036854775807 scalar → Admits registry .int64 scalar
  | uint32 {scalar : Tree.Scalar} : IsNatural 4294967296 scalar → Admits registry .uint32 scalar
  | uint64 {scalar : Tree.Scalar} : IsNatural 18446744073709551616 scalar → Admits registry .uint64 scalar
  | float {scalar : Tree.Scalar} {x : Double} :
      IsDouble scalar x → (x.isFinite = true → (x.convert : Single).isFinite = true) →
      Admits registry .float scalar
  | double {scalar : Tree.Scalar} {x : Double} : IsDouble scalar x → Admits registry .double scalar
  | string {text : List Char} : Admits registry .string (.string (Utf8.encode text))
  | bytes {bytes : List UInt8} : Admits registry .bytes (.string bytes)
  | enumerator {type : String} {enumeration : Enumeration} {name : List Char} :
      registry.enumeration? type = some enumeration →
      String.ofList name ∈ enumeration.values.map Prod.fst →
      Admits registry (.enum type) (.identifier name)
  | enumNumber {type : String} {enumeration : Enumeration} {scalar : Tree.Scalar} :
      registry.enumeration? type = some enumeration →
      IsInteger (-2147483648) 2147483647 scalar → Admits registry (.enum type) scalar

end Binding

namespace Tree.Scalar

variable {scalar : Scalar}

theorem int?_eq_some_iff {value : Int} :
    scalar.int? = some value ↔ ∃ negative digits radix,
      scalar = .integer negative digits radix ∧
        value = if negative then -(valueOf radix.base digits : Int) else valueOf radix.base digits := by
  cases scalar <;> simp [int?, eq_comm, and_assoc]

theorem nat?_eq_some_iff {value : Nat} :
    scalar.nat? = some value ↔ ∃ digits radix,
      scalar = .integer false digits radix ∧ value = valueOf radix.base digits := by
  unfold nat?
  split
  next => simp [eq_comm, and_assoc]
  next hno =>
    simp only [reduceCtorEq, false_iff, not_exists, not_and]
    rintro digits radix rfl
    exact absurd rfl (hno digits radix)

theorem isInteger_iff {α : Type} {least greatest : Int} {f : Int → α} :
    ((scalar.int?.filter fun n => least ≤ n && n ≤ greatest).map f).isSome = true ↔
      IsInteger least greatest scalar := by
  rw [Option.isSome_map, Option.isSome_filter, Option.any_eq_true]
  simp only [Bool.and_eq_true, decide_eq_true_eq]
  constructor
  · rintro ⟨value, hvalue, hleast, hgreatest⟩
    obtain ⟨negative, digits, radix, rfl, hdigits⟩ := int?_eq_some_iff.mp hvalue
    exact .mk hdigits hleast hgreatest
  · rintro ⟨rfl, hleast, hgreatest⟩
    exact ⟨_, rfl, hleast, hgreatest⟩

theorem isNatural_iff {α : Type} {bound : Nat} {f : Nat → α} :
    ((scalar.nat?.filter fun n => n < bound).map f).isSome = true ↔ IsNatural bound scalar := by
  rw [Option.isSome_map, Option.isSome_filter, Option.any_eq_true]
  simp only [decide_eq_true_eq]
  constructor
  · rintro ⟨value, hvalue, hlt⟩
    obtain ⟨digits, radix, rfl, rfl⟩ := nat?_eq_some_iff.mp hvalue
    exact .mk hlt
  · rintro ⟨hlt⟩
    exact ⟨_, rfl, hlt⟩

theorem int32?_isSome_iff :
    scalar.int32?.isSome = true ↔ IsInteger (-2147483648) 2147483647 scalar :=
  isInteger_iff

theorem int64?_isSome_iff :
    scalar.int64?.isSome = true ↔ IsInteger (-9223372036854775808) 9223372036854775807 scalar :=
  isInteger_iff

theorem uint32?_isSome_iff : scalar.uint32?.isSome = true ↔ IsNatural 4294967296 scalar :=
  isNatural_iff

theorem uint64?_isSome_iff : scalar.uint64?.isSome = true ↔ IsNatural 18446744073709551616 scalar :=
  isNatural_iff

theorem isDouble_iff {x : Double} : scalar.double? = some x ↔ IsDouble scalar x := by
  constructor
  · intro h
    cases scalar with
    | string bytes => cases h
    | identifier name =>
        simp only [double?, Bool.or_eq_true, decide_eq_true_eq] at h
        split at h
        next hword =>
          cases h
          exact .infinity hword
        next =>
          split at h
          next hword =>
            cases h
            exact .nan hword
          next => cases h
    | integer negative digits radix =>
        simp only [double?, Bool.or_eq_true, decide_eq_true_eq] at h
        split at h
        next hfits =>
          cases h
          exact .integer hfits
        next => cases h
    | float y =>
        cases h
        exact .float
  · intro h
    cases h with
    | float => rfl
    | integer hfits =>
        simp only [double?, Bool.or_eq_true, decide_eq_true_eq]
        exact if_pos hfits
    | infinity hword => simp only [double?, Bool.or_eq_true, decide_eq_true_eq, hword, if_true]
    | nan hword =>
        simp only [double?, hword]
        decide

theorem bool?_isSome_iff : scalar.bool?.isSome = true ↔
    (∃ name, scalar = .identifier name ∧ (name ∈ trueWords ∨ name ∈ falseWords)) ∨
      IsNatural 2 scalar := by
  unfold bool?
  split
  next name =>
    have hno : ¬ IsNatural 2 (.identifier name) := nofun
    simp only [identifier.injEq, exists_eq_left', hno, or_false]
    split
    next htrue => exact ⟨fun _ => .inl htrue, fun _ => rfl⟩
    next htrue =>
      split
      next hfalse => exact ⟨fun _ => .inr hfalse, fun _ => rfl⟩
      next hfalse => exact ⟨nofun, fun h => absurd h (not_or.mpr ⟨htrue, hfalse⟩)⟩
  next hword =>
    have hno : ¬ ∃ name, scalar = .identifier name ∧ (name ∈ trueWords ∨ name ∈ falseWords) :=
      fun ⟨name, heq, _⟩ => hword name heq
    have hbit : IsNatural 2 scalar ↔ ∃ value, scalar.nat? = some value ∧ value < 2 := by
      rw [← isNatural_iff (f := id), Option.isSome_map, Option.isSome_filter, Option.any_eq_true]
      simp
    rw [hbit]
    simp only [hno, false_or]
    split
    next h => simp [h]
    next h => simp [h]
    next hzero hone =>
      simp only [Option.isSome_none, Bool.false_eq_true, false_iff, not_exists, not_and]
      rintro value hvalue hlt
      obtain rfl | rfl : value = 0 ∨ value = 1 := by omega
      · exact hzero hvalue
      · exact hone hvalue

theorem single?_isSome_iff : scalar.single?.isSome = true ↔
    ∃ x, IsDouble scalar x ∧ (x.isFinite = true → (x.convert : Single).isFinite = true) := by
  rw [single?, Option.isSome_map, Option.isSome_filter, Option.any_eq_true]
  simp only [isDouble_iff, Bool.or_eq_true, Bool.not_eq_true']
  refine exists_congr fun x => and_congr_right fun _ => ?_
  cases x.isFinite <;> simp

end Tree.Scalar

/-- The numbers of an enumeration are known by its names. -/
theorem Enumeration.numberOf?_isSome_iff {enumeration : Enumeration} {name : String} :
    (enumeration.numberOf? name).isSome = true ↔ name ∈ enumeration.values.map Prod.fst := by
  simp [numberOf?, List.find?_isSome]

namespace Binding

open Tree.Scalar

variable {registry : Registry} {field : Field} {scalar : Tree.Scalar}

theorem exists_expected_iff {α : Type} {found : Option α} {of : α → Value} {mismatch : Cause} :
    (∃ value, expected (found.map of) mismatch = .ok value) ↔ found.isSome = true := by
  simp only [expected_eq_ok_iff]
  cases found with
  | none => simp
  | some a => simp

theorem admits_bool_iff :
    Admits registry .bool scalar ↔ scalar.bool?.isSome = true := by
  rw [bool?_isSome_iff]
  constructor
  · intro h
    cases h with
    | boolWord hword => exact .inl ⟨_, rfl, hword⟩
    | boolNumber hnumber => exact .inr hnumber
  · rintro (⟨name, rfl, hword⟩ | hnumber)
    · exact .boolWord hword
    · exact .boolNumber hnumber

theorem admits_int32_iff : Admits registry .int32 scalar ↔ scalar.int32?.isSome = true := by
  rw [int32?_isSome_iff]
  constructor
  · rintro ⟨⟩
    assumption
  · exact .int32

theorem admits_int64_iff : Admits registry .int64 scalar ↔ scalar.int64?.isSome = true := by
  rw [int64?_isSome_iff]
  constructor
  · rintro ⟨⟩
    assumption
  · exact .int64

theorem admits_uint32_iff : Admits registry .uint32 scalar ↔ scalar.uint32?.isSome = true := by
  rw [uint32?_isSome_iff]
  constructor
  · rintro ⟨⟩
    assumption
  · exact .uint32

theorem admits_uint64_iff : Admits registry .uint64 scalar ↔ scalar.uint64?.isSome = true := by
  rw [uint64?_isSome_iff]
  constructor
  · rintro ⟨⟩
    assumption
  · exact .uint64

theorem admits_float_iff :
    Admits registry .float scalar ↔ scalar.single?.isSome = true := by
  rw [single?_isSome_iff]
  constructor
  · intro h
    cases h with
    | float hx hfits => exact ⟨_, hx, hfits⟩
  · rintro ⟨x, hx, hfits⟩
    exact .float hx hfits

theorem admits_double_iff :
    Admits registry .double scalar ↔ scalar.double?.isSome = true := by
  simp only [Option.isSome_iff_exists, isDouble_iff]
  constructor
  · intro h
    cases h with
    | double hx => exact ⟨_, hx⟩
  · rintro ⟨x, hx⟩
    exact .double hx

theorem admits_string_iff : Admits registry .string scalar ↔
    ∃ bytes text, scalar = .string bytes ∧ Utf8.decode bytes = .ok text := by
  simp only [Utf8.decode_eq_ok_iff]
  constructor
  · rintro ⟨⟩
    exact ⟨_, _, rfl, rfl⟩
  · rintro ⟨_, text, rfl, rfl⟩
    exact .string

theorem admits_bytes_iff : Admits registry .bytes scalar ↔ ∃ bytes, scalar = .string bytes := by
  constructor
  · rintro ⟨⟩
    exact ⟨_, rfl⟩
  · rintro ⟨bytes, rfl⟩
    exact .bytes

theorem not_admits_enum {type : String} (hunknown : registry.enumeration? type = none) :
    ¬Admits registry (.enum type) scalar := by
  intro h
  cases h with
  | enumerator hknown _ => simp [hunknown] at hknown
  | enumNumber hknown _ => simp [hunknown] at hknown

theorem admits_enum_iff {type : String} {enumeration : Enumeration}
    (henumeration : registry.enumeration? type = some enumeration) :
    Admits registry (.enum type) scalar ↔
      (∃ name, scalar = .identifier name ∧
        (enumeration.numberOf? (String.ofList name)).isSome = true) ∨
      scalar.int32?.isSome = true := by
  simp only [Enumeration.numberOf?_isSome_iff, int32?_isSome_iff]
  constructor
  · intro h
    cases h with
    | enumerator hknown hname =>
        rw [henumeration] at hknown
        cases hknown
        exact .inl ⟨_, rfl, hname⟩
    | enumNumber _ hinteger => exact .inr hinteger
  · rintro (⟨name, rfl, hname⟩ | hinteger)
    · exact .enumerator henumeration hname
    · exact .enumNumber henumeration hinteger

/-- The scalars that a kind admits are those that are taken for a value of it. -/
theorem admits_iff :
    Admits registry field.kind scalar ↔ ∃ value, scalarAs registry field scalar = .ok value := by
  cases hkind : field.kind with
  | bool =>
      simp only [scalarAs, hkind]
      exact admits_bool_iff.trans exists_expected_iff.symm
  | int32 =>
      simp only [scalarAs, hkind]
      exact admits_int32_iff.trans exists_expected_iff.symm
  | int64 =>
      simp only [scalarAs, hkind]
      exact admits_int64_iff.trans exists_expected_iff.symm
  | uint32 =>
      simp only [scalarAs, hkind]
      exact admits_uint32_iff.trans exists_expected_iff.symm
  | uint64 =>
      simp only [scalarAs, hkind]
      exact admits_uint64_iff.trans exists_expected_iff.symm
  | float =>
      simp only [scalarAs, hkind]
      exact admits_float_iff.trans exists_expected_iff.symm
  | double =>
      simp only [scalarAs, hkind]
      exact admits_double_iff.trans exists_expected_iff.symm
  | string =>
      simp only [admits_string_iff, scalarAs, hkind]
      cases scalar with
      | string bytes => cases hdecode : Utf8.decode bytes <;> simp [hdecode]
      | _ => simp
  | bytes =>
      simp only [admits_bytes_iff, scalarAs, hkind]
      cases scalar <;> simp
  | enum name =>
      simp only [scalarAs, hkind]
      cases henumeration : registry.enumeration? name with
      | none => simp [not_admits_enum henumeration]
      | some enumeration =>
          rw [admits_enum_iff henumeration]
          -- A word is looked up among the names, and anything else has to be a number.
          cases scalar with
          | identifier enumerator =>
              simp only [identifier.injEq, exists_eq_left', int32?, int?]
              cases enumeration.numberOf? (String.ofList enumerator) <;> simp
          | _ =>
              simp only [reduceCtorEq, false_and, exists_false, false_or]
              exact (@exists_expected_iff _ _ Value.enum _).symm
  | message name =>
      simp only [scalarAs, hkind, reduceCtorEq, exists_false, iff_false]
      rintro ⟨⟩

end Binding

end Textproto
