import Textproto.Proofs.Encoding.Number
import Textproto.Proofs.Message.Agreement
import Textproto.Proofs.Text.Base64

namespace Textproto

/-! Scalars and keys that are written alike are equal. -/

namespace Key

theorem text_injective {kind : Kind} {a b : Key} (ha : a.HasKind kind) (hb : b.HasKind kind)
    (h : a.text = b.text) : a = b := by
  cases ha with
  | @bool x =>
      cases hb with
      | @bool y => cases x <;> cases y <;> first | rfl | exact absurd h (by decide)
  | int32 =>
      cases hb with
      | int32 =>
          have hint := Int64.toInt_inj.mp (Int.repr_inj.mp h)
          rw [hint]
  | int64 =>
      cases hb with
      | int64 => rw [Int64.toInt_inj.mp (Int.repr_inj.mp h)]
  | uint32 =>
      cases hb with
      | uint32 => rw [UInt64.toNat_inj.mp (Nat.repr_inj.mp h)]
  | uint64 =>
      cases hb with
      | uint64 => rw [UInt64.toNat_inj.mp (Nat.repr_inj.mp h)]
  | string =>
      cases hb with
      | string => exact congrArg Key.string h

/-- Sorted entries of the same keys have them in one order. -/
theorem Sorted.map_fst_eq {α : Type} {entries others : List (Key × α)} (h : Sorted entries)
    (h' : Sorted others) (hkeys : ∀ key, key ∈ entries.map Prod.fst ↔ key ∈ others.map Prod.fst) :
    entries.map Prod.fst = others.map Prod.fst := by
  have hirrefl : Std.Irrefl fun a b : Key => a.before b = true :=
    ⟨fun a => by simp [not_before_self]⟩
  have hantisymm : Std.Antisymm fun a b : Key => a.before b = true := by
    refine ⟨fun a b hab hba => ?_⟩
    have haa := before_trans hab hba
    rw [not_before_self] at haa
    cases haa
  refine List.Pairwise.eq_of_mem_iff (r := fun a b : Key => a.before b = true) ?_ ?_ hkeys
  · exact List.pairwise_map.mpr h
  · exact List.pairwise_map.mpr h'

end Key

namespace Encoding

variable {registry : Registry} {kind : Kind} {v w : Value}

/-- An enumeration gives a name to one number only. -/
theorem nameOf?_injective {enumeration : Enumeration}
    (hnames : (enumeration.values.map Prod.fst).Nodup) {m n : Int32} {name : String}
    (hm : enumeration.nameOf? m = some name) (hn : enumeration.nameOf? n = some name) : m = n := by
  have hmem {k : Int32} (h : enumeration.nameOf? k = some name) : (name, k) ∈ enumeration.values := by
    obtain ⟨entry, hentry, rfl⟩ := Option.map_eq_some_iff.mp h
    have hnumber := List.find?_some hentry
    simp only [decide_eq_true_eq] at hnumber
    exact hnumber ▸ List.mem_of_find?_eq_some hentry
  exact (Prod.mk.inj (eq_of_nodup_map hnames (hmem hm) (hmem hn) rfl)).2

theorem enumJson_same (hregistry : registry.WellFormed) {name : String} {m n : Int32}
    (h : Json.Same (enumJson registry (.enum name) m) (enumJson registry (.enum name) n)) :
    name = Bundled.nullValue ∨ m = n := by
  by_cases hnull : name = Bundled.nullValue
  · exact .inl hnull
  · refine .inr ?_
    simp only [enumJson, if_neg hnull] at h
    cases hknown : registry.enumeration? name with
    | none =>
        rw [hknown] at h
        exact Int32.toInt_inj.mp h.int_inj
    | some enumeration =>
        rw [hknown] at h
        have hnames := (hregistry.enumerations name enumeration hknown).2
        simp only [Option.bind_some] at h
        cases hm : enumeration.nameOf? m with
        | none =>
            cases hn : enumeration.nameOf? n with
            | none =>
                rw [hm, hn] at h
                exact Int32.toInt_inj.mp h.int_inj
            | some other =>
                rw [hm, hn] at h
                cases h
        | some found =>
            cases hn : enumeration.nameOf? n with
            | none =>
                rw [hm, hn] at h
                cases h
            | some other =>
                rw [hm, hn] at h
                exact nameOf?_injective hnames (h.string_inj ▸ hm) hn

theorem scalarJson_same (hregistry : registry.WellFormed) (hv : Value.IsScalar kind v)
    (hw : Value.IsScalar kind w)
    (h : Json.Same (scalarJson registry kind v) (scalarJson registry kind w)) :
    Value.Agrees registry kind v w := by
  cases hv with
  | bool =>
      cases hw with
      | bool => rw [Json.Same.bool_inj h]; exact .same
  | int32 =>
      cases hw with
      | int32 => rw [Int32.toInt_inj.mp (Json.Same.int_inj h)]; exact .same
  | int64 =>
      cases hw with
      | int64 => rw [Int64.toInt_inj.mp (Int.repr_inj.mp (Json.Same.string_inj h))]; exact .same
  | uint32 =>
      cases hw with
      | uint32 =>
          rw [UInt32.toNat_inj.mp (Int.ofNat_inj.mp (Json.Same.int_inj h))]
          exact .same
  | uint64 =>
      cases hw with
      | uint64 => rw [UInt64.toNat_inj.mp (Nat.repr_inj.mp (Json.Same.string_inj h))]; exact .same
  | @float x =>
      cases hw with
      | @float y =>
          rcases doubleJson_same h with heq | ⟨hx, hy⟩
          · cases hx : x.isNaN with
            | true =>
                rw [← isNaN_widen, heq, isNaN_widen] at hx
                exact .float (by rw [← isNaN_widen, heq, isNaN_widen, hx]) hx
            | false =>
                have hy : y.isNaN = false := by rw [← isNaN_widen, ← heq, isNaN_widen, hx]
                rw [widen_injective hx hy heq]
                exact .same
          · rw [isNaN_widen] at hx hy
            exact .float hx hy
  | double =>
      cases hw with
      | double =>
          rcases doubleJson_same h with rfl | ⟨hx, hy⟩
          · exact .same
          · exact .double hx hy
  | string =>
      cases hw with
      | string => rw [Json.Same.string_inj h]; exact .same
  | bytes =>
      cases hw with
      | bytes =>
          rw [Base64.encode_injective (String.ofList_injective (Json.Same.string_inj h))]
          exact .same
  | enum =>
      cases hw with
      | enum =>
          rcases enumJson_same hregistry h with rfl | rfl
          · exact .null
          · exact .same

end Encoding

end Textproto
