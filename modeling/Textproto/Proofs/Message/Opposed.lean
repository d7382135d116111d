import Mathlib.Data.List.Perm.Subperm
import Textproto.Proofs.Message.Alike

namespace Textproto

/-! Messages that compare as equal are alike, except for zeros of opposite signs. -/

namespace Ieee

variable {f : Format} {x y : Ieee f}

/-- Two zeros, one of them negative. -/
structure Opposed (x y : Ieee f) : Prop where
  left : x.code = 0
  right : y.code = 0
  signs : x.negative ≠ y.negative

theorem equals_cases (h : x.equals y = true) : x = y ∨ x.Opposed y := by
  simp only [equals, Bool.and_eq_true, Bool.or_eq_true, decide_eq_true_eq] at h
  obtain ⟨_, heq | ⟨hleft, hright⟩⟩ := h
  · exact .inl heq
  · by_cases hsigns : x.negative = y.negative
    · obtain ⟨negative, code, _⟩ := x
      obtain ⟨own, other, _⟩ := y
      cases hleft
      cases hright
      cases hsigns
      exact .inl rfl
    · exact .inr ⟨hleft, hright, hsigns⟩

end Ieee

/-- Two zeros, one of them negative, as values of one kind. -/
inductive Value.Zeros : Value → Value → Prop
  | float {x y : Single} : x.Opposed y → Zeros (.float x) (.float y)
  | double {x y : Double} : x.Opposed y → Zeros (.double x) (.double y)

/-! Values, contents and messages that have zeros of opposite signs somewhere in one place. -/

mutual

inductive Value.Opposed : Value → Value → Prop
  | zeros {value other : Value} : value.Zeros other → Value.Opposed value other
  | message {m n : Message} : Message.Opposed m n → Value.Opposed (.message m) (.message n)

inductive Content.Opposed : Content → Content → Prop
  | single {value other : Value} :
      Value.Opposed value other → Content.Opposed (.single value) (.single other)
  | list {values others : List Value} {value other : Value} :
      (value, other) ∈ values.zip others → Value.Opposed value other →
      Content.Opposed (.list values) (.list others)
  | map {entries others : List (Key × Value)} {entry other : Key × Value} :
      (entry, other) ∈ entries.zip others → Value.Opposed entry.2 other.2 →
      Content.Opposed (.map entries) (.map others)

inductive Message.Opposed : Message → Message → Prop
  | content {m n : Message} {number : Nat} {content other : Content} :
      m.content? number = some content → n.content? number = some other →
      Content.Opposed content other → Message.Opposed m n
  | payload {m n inner found : Message} {url : String} :
      m.payload? = some (url, inner) → n.payload? = some (url, found) →
      Message.Opposed inner found → Message.Opposed m n

end

/-- Values that compare as equal are the same scalar, zeros of opposite signs or equal messages. -/
theorem Value.equals_cases {value other : Value} (h : value.equals other = true) :
    (value = other ∧ ∀ m, value ≠ .message m) ∨ value.Zeros other ∨
      ∃ m n, value = .message m ∧ other = .message n ∧ m.equals n = true := by
  cases value with
  | message m =>
      cases other with
      | message n =>
          rw [Value.equals] at h
          exact .inr (.inr ⟨m, n, rfl, rfl, h⟩)
      | _ => simp [Value.equals] at h
  | float x =>
      cases other with
      | float y =>
          rw [Value.equals] at h
          rcases Ieee.equals_cases h with rfl | hopposed
          · exact .inl ⟨rfl, by simp⟩
          · exact .inr (.inl (.float hopposed))
      | _ => simp [Value.equals] at h
  | double x =>
      cases other with
      | double y =>
          rw [Value.equals] at h
          rcases Ieee.equals_cases h with rfl | hopposed
          · exact .inl ⟨rfl, by simp⟩
          · exact .inr (.inl (.double hopposed))
      | _ => simp [Value.equals] at h
  | _ => cases other <;> simp_all [Value.equals]

def Value.Equal (value other : Value) : Prop :=
  value.equals other = true

theorem Value.forall₂_of_listEquals {values others : List Value}
    (h : Value.listEquals values others = true) : List.Forall₂ Value.Equal values others := by
  induction values generalizing others with
  | nil =>
      cases others with
      | nil => exact .nil
      | cons => simp [Value.listEquals] at h
  | cons value values ih =>
      cases others with
      | nil => simp [Value.listEquals] at h
      | cons other others =>
          rw [Value.listEquals, Bool.and_eq_true] at h
          exact .cons h.1 (ih h.2)

theorem Value.forall₂_of_entriesEqual {entries others : List (Key × Value)}
    (h : Value.entriesEqual entries others = true) :
    List.Forall₂ (fun entry other => entry.1 = other.1 ∧ entry.2.Equal other.2) entries others := by
  induction entries generalizing others with
  | nil =>
      cases others with
      | nil => exact .nil
      | cons => simp [Value.entriesEqual] at h
  | cons entry entries ih =>
      cases others with
      | nil => simp [Value.entriesEqual] at h
      | cons other others =>
          rw [Value.entriesEqual, Bool.and_eq_true, Bool.and_eq_true, decide_eq_true_eq] at h
          exact .cons h.1 (ih h.2)

theorem Content.rel_of_equals {content other : Content} (h : content.equals other = true) :
    content.Rel Value.Equal other := by
  cases content with
  | single value =>
      cases other with
      | single => exact .single (by rwa [Content.equals] at h)
      | _ => simp [Content.equals] at h
  | list values =>
      cases other with
      | list => exact .list (Value.forall₂_of_listEquals (by rwa [Content.equals] at h))
      | _ => simp [Content.equals] at h
  | map entries =>
      cases other with
      | map => exact .map (Value.forall₂_of_entriesEqual (by rwa [Content.equals] at h))
      | _ => simp [Content.equals] at h

namespace Message

variable {registry : Registry} {m n : Message}

/-- Equal messages store something under the same numbers, and it is equal. -/
theorem rel_of_equals (hm : m.WellTyped registry) (h : m.equals n = true) :
    m.Rel Value.Equal n := by
  obtain ⟨hdescriptor, hlength, hall, _⟩ := equals_iff.mp h
  rw [Content.allIn_iff] at hall
  have hsubset : m.contents.map Prod.fst ⊆ n.contents.map Prod.fst := by
    intro number hnumber
    obtain ⟨⟨_, content⟩, hmem, rfl⟩ := List.mem_map.mp hnumber
    obtain ⟨other, hother, _⟩ := hall _ _ hmem
    rw [← Entries.get?_isSome_iff, hother]
    rfl
  have hperm : (m.contents.map Prod.fst).Perm (n.contents.map Prod.fst) :=
    (List.subperm_of_subset hm.distinct hsubset).perm_of_length_le (by simp [hlength])
  refine ⟨hdescriptor, fun number => ?_⟩
  cases hcontent : m.content? number with
  | some content =>
      obtain ⟨other, hother, hequals⟩ :=
        hall number content ((content?_eq_some_iff hm.distinct).mp hcontent)
      rw [content?, hother]
      exact .some (Content.rel_of_equals hequals)
  | none =>
      cases hother : n.content? number with
      | none => exact .none
      | some other =>
          have hmem := hperm.mem_iff (a := number)
          rw [← Entries.get?_isSome_iff, ← Entries.get?_isSome_iff, ← content?, ← content?,
            hcontent, hother] at hmem
          cases hmem.mpr rfl

theorem payload_of_equals (h : m.equals n = true) :
    (m.payload? = none ∧ n.payload? = none) ∨ ∃ url inner other, m.payload? = some (url, inner) ∧
      n.payload? = some (url, other) ∧ inner.equals other = true :=
  (equals_iff.mp h).2.2.2

end Message

/-! Without such zeros, equal messages are alike. -/

theorem Value.alike_of_equals {value other : Value} (h : value.Equal other)
    (hsigns : ¬ value.Opposed other)
    (hinner : ∀ m n, value = .message m → other = .message n → m.equals n = true →
      ¬ m.Opposed n → m.Alike n) : value.Alike other := by
  rcases Value.equals_cases h with ⟨rfl, hscalar⟩ | hzeros | ⟨m, n, rfl, rfl, hequal⟩
  · exact .scalar hscalar
  · exact absurd (.zeros hzeros) hsigns
  · exact .message (hinner m n rfl rfl hequal fun hopposed => hsigns (.message hopposed))

theorem Content.alike_of_equals {content other : Content} (h : content.Rel Value.Equal other)
    (hsigns : ¬ content.Opposed other)
    (hinner : ∀ m n : Message, m.HeldBy content → m.equals n = true → ¬ m.Opposed n → m.Alike n) :
    content.Alike other := by
  simp only [Message.heldBy_iff] at hinner
  cases h with
  | single h =>
      refine .single (Value.alike_of_equals h (fun hopposed => hsigns (.single hopposed)) ?_)
      rintro m n rfl rfl
      exact hinner m n List.mem_cons_self
  | @list values others h =>
      refine .list (List.forall₂_iff_zip.mpr ⟨h.length_eq, fun {value other} hmem => ?_⟩)
      refine Value.alike_of_equals ((List.forall₂_iff_zip.mp h).2 hmem)
        (fun hopposed => hsigns (.list hmem hopposed)) ?_
      rintro m n rfl rfl
      exact hinner m n (List.of_mem_zip hmem).1
  | @map entries others h =>
      refine Content.alike_map_iff.mpr
        (List.forall₂_iff_zip.mpr ⟨h.length_eq, fun {entry other} hmem => ?_⟩)
      obtain ⟨hkey, hvalue⟩ := (List.forall₂_iff_zip.mp h).2 hmem
      refine ⟨hkey, Value.alike_of_equals hvalue (fun hopposed => hsigns (.map hmem hopposed)) ?_⟩
      intro m n hm _
      exact hinner m n (hm ▸ List.mem_map_of_mem (List.of_mem_zip hmem).1)

theorem Message.alike_of_equals {registry : Registry} {m n : Message} (hm : m.WellTyped registry)
    (h : m.equals n = true) (hsigns : ¬ m.Opposed n) : m.Alike n := by
  -- By messages from those inside out: inside of them no zeros are opposed either.
  induction m using inside_induction generalizing n with
  | step m ih =>
      have hinner {inner other : Message} (hinside : inner.Inside m)
          (hequal : inner.equals other = true) (hsigns : ¬ inner.Opposed other) :
          inner.Alike other :=
        ih inner hinside (hm.inside hinside).1 hequal hsigns
      refine .mk (equals_iff.mp h).1 (fun number => ?_) ?_ ?_
      · rcases (rel_of_equals hm h).content number with
          ⟨hnone, hnone'⟩ | ⟨content, other, hcontent, hother, hequal⟩
        · rw [hnone, hnone']
          exact .none
        · rw [hcontent, hother]
          refine .some (Content.alike_of_equals hequal
            (fun hopposed => hsigns (.content hcontent hother hopposed)) ?_)
          exact fun _ _ hheld => hinner (hheld.inside hcontent)
      · rcases payload_of_equals h with ⟨hnone, hnone'⟩ | ⟨url, inner, other, hsome, hsome', _⟩
        · rw [hnone, hnone']
        · rw [hsome, hsome']
          rfl
      · rcases payload_of_equals h with ⟨hnone, hnone'⟩ |
          ⟨url, inner, other, hsome, hsome', hequal⟩
        · rw [hnone, hnone']
          exact .none
        · rw [hsome, hsome']
          refine .some (hinner (.payload hsome) hequal ?_)
          exact fun hopposed => hsigns (.payload hsome hsome' hopposed)

end Textproto
