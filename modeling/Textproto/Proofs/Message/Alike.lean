import Mathlib.Data.List.Forall2
import Textproto.Message.Equality
import Textproto.Proofs.Message.Typed

namespace Textproto

/-! Messages that are the same but for the order in which their contents are stored. -/

mutual

inductive Value.Alike : Value → Value → Prop
  | scalar {value : Value} : (∀ m, value ≠ .message m) → Value.Alike value value
  | message {m n : Message} : Message.Alike m n → Value.Alike (.message m) (.message n)

inductive Content.Alike : Content → Content → Prop
  | single {value other : Value} :
      Value.Alike value other → Content.Alike (.single value) (.single other)
  | list {values others : List Value} :
      List.Forall₂ Value.Alike values others → Content.Alike (.list values) (.list others)
  | map {entries others : List (Key × Value)} :
      entries.map Prod.fst = others.map Prod.fst →
      List.Forall₂ Value.Alike (entries.map Prod.snd) (others.map Prod.snd) →
      Content.Alike (.map entries) (.map others)

inductive Message.Alike : Message → Message → Prop
  | mk {m n : Message} :
      m.descriptor = n.descriptor →
      (∀ number, Option.Rel Content.Alike (m.content? number) (n.content? number)) →
      m.payload?.map Prod.fst = n.payload?.map Prod.fst →
      Option.Rel Message.Alike (m.payload?.map Prod.snd) (n.payload?.map Prod.snd) →
      Message.Alike m n

end

theorem rel_cases {α β : Type} {R : α → β → Prop} {found : Option α} {other : Option β}
    (h : Option.Rel R found other) :
    (found = none ∧ other = none) ∨ ∃ a b, found = some a ∧ other = some b ∧ R a b := by
  cases h with
  | none => exact .inl ⟨rfl, rfl⟩
  | some h => exact .inr ⟨_, _, rfl, rfl, h⟩

/-! Messages of one type that store related values in the same places. -/

inductive Content.Rel (R : Value → Value → Prop) : Content → Content → Prop
  | single {value other : Value} : R value other → Content.Rel R (.single value) (.single other)
  | list {values others : List Value} :
      List.Forall₂ R values others → Content.Rel R (.list values) (.list others)
  | map {entries others : List (Key × Value)} :
      List.Forall₂ (fun entry other => entry.1 = other.1 ∧ R entry.2 other.2) entries others →
      Content.Rel R (.map entries) (.map others)

structure Message.Rel (R : Value → Value → Prop) (m n : Message) : Prop where
  descriptor : m.descriptor = n.descriptor
  contents : ∀ number, Option.Rel (Content.Rel R) (m.content? number) (n.content? number)

namespace Message.Rel

variable {R : Value → Value → Prop} {m n : Message}

/-- Both store something under a number or nothing. -/
theorem content (h : m.Rel R n) (number : Nat) :
    (m.content? number = none ∧ n.content? number = none) ∨
      ∃ content other, m.content? number = some content ∧ n.content? number = some other ∧
        content.Rel R other :=
  rel_cases (h.contents number)

theorem isSome_content? (h : m.Rel R n) (number : Nat) :
    (m.content? number).isSome = (n.content? number).isSome := by
  rcases h.content number with ⟨hm, hn⟩ | ⟨_, _, hm, hn, _⟩
  · rw [hm, hn]
  · rw [hm, hn]
    rfl

/-- The single values that are stored under a number. -/
theorem single (h : m.Rel R n) (number : Nat) :
    Option.Rel R ((m.content? number).bind Content.single?)
      ((n.content? number).bind Content.single?) := by
  rcases h.content number with ⟨hm, hn⟩ | ⟨_, _, hm, hn, hcontent⟩
  · rw [hm, hn]
    exact .none
  · rw [hm, hn]
    cases hcontent with
    | single hvalue => exact .some hvalue
    | list => exact .none
    | map => exact .none

theorem single? (h : m.Rel R n) (name : String) :
    Option.Rel R (m.single? name) (n.single? name) := by
  rw [Message.single?, Message.single?, named?, named?, ← h.descriptor]
  cases m.descriptor.fieldNamed? name with
  | none => exact .none
  | some field => exact h.single field.number

theorem list (h : m.Rel R n) (name : String) :
    List.Forall₂ R (m.list name) (n.list name) := by
  rw [Message.list, Message.list, named?, named?, ← h.descriptor]
  cases m.descriptor.fieldNamed? name with
  | none => exact .nil
  | some field =>
      rw [Option.bind_some, Option.bind_some]
      rcases h.content field.number with ⟨hm, hn⟩ | ⟨_, _, hm, hn, hcontent⟩
      · rw [hm, hn]
        exact .nil
      · rw [hm, hn]
        cases hcontent with
        | single => exact .nil
        | list hvalues => exact hvalues
        | map => exact .nil

theorem member? (h : m.Rel R n) (oneof : String) : m.member? oneof = n.member? oneof := by
  rw [Message.member?, Message.member?, ← h.descriptor]
  simp only [h.isSome_content?]

end Message.Rel

/-- Entries under one key whose values are alike. -/
def EntryAlike (entry other : Key × Value) : Prop :=
  entry.1 = other.1 ∧ entry.2.Alike other.2

theorem Content.alike_map_iff {entries others : List (Key × Value)} :
    (Content.map entries).Alike (.map others) ↔ List.Forall₂ EntryAlike entries others := by
  have hentries : List.Forall₂ EntryAlike entries others ↔
      entries.map Prod.fst = others.map Prod.fst ∧
        List.Forall₂ Value.Alike (entries.map Prod.snd) (others.map Prod.snd) := by
    induction entries generalizing others with
    | nil => cases others <;> simp
    | cons entry entries ih => cases others <;> simp [EntryAlike, ih, and_and_and_comm]
  rw [hentries]
  constructor
  · intro h
    cases h with
    | map hkeys hvalues => exact ⟨hkeys, hvalues⟩
  · rintro ⟨hkeys, hvalues⟩
    exact .map hkeys hvalues

theorem Content.Alike.rel {content other : Content} (h : Content.Alike content other) :
    content.Rel Value.Alike other := by
  cases h with
  | single hvalue => exact .single hvalue
  | list hvalues => exact .list hvalues
  | map hkeys hvalues => exact .map (Content.alike_map_iff.mp (.map hkeys hvalues))

namespace Message.Alike

variable {m n : Message}

theorem descriptor (h : m.Alike n) : m.descriptor = n.descriptor := by
  cases h
  assumption

/-- Both store something under a number or nothing. -/
theorem content (h : m.Alike n) (number : Nat) :
    (m.content? number = none ∧ n.content? number = none) ∨
      ∃ content other, m.content? number = some content ∧ n.content? number = some other ∧
        Content.Alike content other := by
  cases h with
  | mk _ h _ _ => exact rel_cases (h number)

/-- Both have a payload or none, under the same type URL. -/
theorem payload (h : m.Alike n) :
    (m.payload? = none ∧ n.payload? = none) ∨ ∃ url inner other, m.payload? = some (url, inner) ∧
      n.payload? = some (url, other) ∧ inner.Alike other := by
  cases h with
  | mk _ _ hurl hpayload =>
      rcases rel_cases hpayload with ⟨hnone, hnone'⟩ | ⟨_, _, hsome, hsome', halike⟩
      · exact .inl ⟨Option.map_eq_none_iff.mp hnone, Option.map_eq_none_iff.mp hnone'⟩
      · obtain ⟨⟨url, _⟩, hm, rfl⟩ := Option.map_eq_some_iff.mp hsome
        obtain ⟨⟨own, _⟩, hn, rfl⟩ := Option.map_eq_some_iff.mp hsome'
        rw [hm, hn] at hurl
        cases hurl
        exact .inr ⟨url, _, _, hm, hn, halike⟩

theorem rel (h : m.Alike n) : m.Rel Value.Alike n := by
  refine ⟨h.descriptor, fun number => ?_⟩
  rcases h.content number with ⟨hm, hn⟩ | ⟨_, _, hm, hn, hcontent⟩
  · rw [hm, hn]
    exact .none
  · rw [hm, hn]
    exact .some hcontent.rel

end Message.Alike

theorem Value.Alike.string? {value other : Value} (h : Value.Alike value other) :
    value.string? = other.string? := by
  cases h <;> rfl

theorem Value.Alike.isZero {value other : Value} (h : Value.Alike value other) :
    value.isZero = other.isZero := by
  cases h <;> rfl

theorem Value.Alike.key? {value other : Value} (h : Value.Alike value other) :
    value.key? = other.key? := by
  cases h <;> rfl

theorem Message.Alike.string {m n : Message} (h : m.Alike n) (name : String) :
    m.string name = n.string name := by
  rw [Message.string, Message.string]
  rcases rel_cases (h.rel.single? name) with ⟨hm, hn⟩ | ⟨_, _, hm, hn, hvalue⟩
  · rw [hm, hn]
  · rw [hm, hn, Option.bind_some, Option.bind_some, hvalue.string?]

theorem Message.alike_empty (descriptor : Descriptor) :
    (empty descriptor).Alike (empty descriptor) :=
  .mk rfl (fun _ => .none) rfl .none

theorem Content.Alike.shows {content other : Content} (h : Content.Alike content other)
    (field : Field) : Message.shows field content = Message.shows field other := by
  cases h with
  | single hvalue => rw [Message.shows, Message.shows, hvalue.isZero]
  | list hvalues => cases hvalues <;> rfl
  | @map entries others hkeys _ =>
      rw [Message.shows, Message.shows, ← List.isEmpty_map (f := Prod.fst), hkeys,
        List.isEmpty_map]

/-! They compare as equal, unless something in them is no number. -/

def Value.isNaN : Value → Bool
  | .float x => x.isNaN
  | .double x => x.isNaN
  | _ => false

/-- The values that are stored. -/
def Content.values : Content → List Value
  | .single value => [value]
  | .list values => values
  | .map entries => entries.map Prod.snd

/-- No value that a message stores is a NaN. -/
def Message.Numeric (m : Message) : Prop :=
  ∀ number content, (number, content) ∈ m.contents →
    ∀ value ∈ content.values, value.isNaN = false

/-- Neither is a value a NaN nor any in it. -/
def Value.Numeric (value : Value) : Prop :=
  value.isNaN = false ∧ ∀ m, value = .message m → m.Throughout Message.Numeric

/-- Alike values are equal if no NaN is in them. -/
def Value.Equated (value other : Value) : Prop :=
  value.Alike other → (value.equals other = true ↔ value.Numeric)

theorem Value.equated {value other : Value}
    (hinner : ∀ m n, value = .message m → other = .message n → m.Alike n →
      (m.equals n = true ↔ m.Throughout Message.Numeric)) : value.Equated other := by
  intro h
  rw [Value.Numeric]
  cases h with
  | scalar hscalar =>
      cases value with
      | message m => exact absurd rfl (hscalar m)
      | float x => simp [Value.equals, Value.isNaN, Ieee.equals_self]
      | double x => simp [Value.equals, Value.isNaN, Ieee.equals_self]
      | _ => simp [Value.equals, Value.isNaN]
  | message h => simp [Value.equals, Value.isNaN, hinner _ _ rfl rfl h]

theorem Value.listEquals_iff {values others : List Value}
    (h : List.Forall₂ Value.Alike values others)
    (hequated : ∀ value ∈ values, ∀ other ∈ others, value.Equated other) :
    Value.listEquals values others = true ↔ ∀ value ∈ values, value.Numeric := by
  induction h with
  | nil => simp [Value.listEquals]
  | cons halike _ ih =>
      have hrest := ih fun value hvalue other hother =>
        hequated value (List.mem_cons_of_mem _ hvalue) other (List.mem_cons_of_mem _ hother)
      rw [Value.listEquals, Bool.and_eq_true, hrest,
        hequated _ List.mem_cons_self _ List.mem_cons_self halike, List.forall_mem_cons]

theorem Value.entriesEqual_iff {entries others : List (Key × Value)}
    (h : List.Forall₂ EntryAlike entries others)
    (hequated : ∀ value ∈ entries.map Prod.snd, ∀ other ∈ others.map Prod.snd,
      value.Equated other) :
    Value.entriesEqual entries others = true ↔
      ∀ value ∈ entries.map Prod.snd, value.Numeric := by
  induction h with
  | nil => simp [Value.entriesEqual]
  | @cons entry other _ _ halike _ ih =>
      obtain ⟨key, value⟩ := entry
      obtain ⟨own, other⟩ := other
      obtain ⟨rfl, halike⟩ : key = own ∧ value.Alike other := halike
      have hrest := ih fun value hvalue other hother =>
        hequated value (List.mem_cons_of_mem _ hvalue) other (List.mem_cons_of_mem _ hother)
      have hfirst := hequated value List.mem_cons_self other List.mem_cons_self halike
      rw [Value.entriesEqual, Bool.and_eq_true, Bool.and_eq_true, hrest, hfirst, List.map_cons,
        List.forall_mem_cons]
      simp

theorem Content.equals_iff {content other : Content} (h : content.Alike other)
    (hequated : ∀ value ∈ content.values, ∀ found ∈ other.values, value.Equated found) :
    content.equals other = true ↔ ∀ value ∈ content.values, value.Numeric := by
  cases h with
  | single hvalue =>
      rw [Content.equals, hequated _ List.mem_cons_self _ List.mem_cons_self hvalue]
      simp [Content.values]
  | list hvalues =>
      rw [Content.equals]
      exact Value.listEquals_iff hvalues hequated
  | map hkeys hvalues =>
      rw [Content.equals]
      exact Value.entriesEqual_iff (Content.alike_map_iff.mp (.map hkeys hvalues)) hequated

theorem Content.allIn_iff {contents others : List (Nat × Content)} :
    Content.allIn others contents = true ↔ ∀ number content, (number, content) ∈ contents →
      ∃ other, Entries.get? number others = some other ∧ content.equals other = true := by
  induction contents with
  | nil => simp [Content.allIn]
  | cons entry rest ih =>
      obtain ⟨number, content⟩ := entry
      have hfirst : Content.allIn others [(number, content)] = true ↔
          ∃ other, Entries.get? number others = some other ∧ content.equals other = true := by
        rw [Content.allIn, Content.allIn]
        cases Entries.get? number others <;> simp
      have hcons : Content.allIn others ((number, content) :: rest) =
          (Content.allIn others [(number, content)] && Content.allIn others rest) := by
        simp [Content.allIn]
      rw [hcons, Bool.and_eq_true, ih, hfirst]
      constructor
      · rintro ⟨hself, hrest⟩ other found hmem
        rcases List.mem_cons.mp hmem with heq | hmem
        · cases heq
          exact hself
        · exact hrest other found hmem
      · intro h
        exact ⟨h _ _ List.mem_cons_self, fun _ _ hmem => h _ _ (List.mem_cons_of_mem _ hmem)⟩

namespace Message

variable {registry : Registry} {m n : Message}

theorem equals_iff : m.equals n = true ↔
    m.descriptor = n.descriptor ∧ m.contents.length = n.contents.length ∧
      Content.allIn n.contents m.contents = true ∧
      ((m.payload? = none ∧ n.payload? = none) ∨ ∃ url inner other, m.payload? = some (url, inner) ∧
        n.payload? = some (url, other) ∧ inner.equals other = true) := by
  obtain ⟨descriptor, contents, payload⟩ := m
  obtain ⟨descriptor', contents', payload'⟩ := n
  simp only [Message.descriptor, Message.contents, Message.payload?]
  cases payload with
  | none => cases payload' <;> simp [Message.equals, and_assoc]
  | some payload =>
      cases payload' with
      | none => simp [Message.equals]
      | some payload' =>
          obtain ⟨url, inner⟩ := payload
          obtain ⟨other, found⟩ := payload'
          simp [Message.equals, and_assoc, eq_comm (a := url)]

theorem heldBy_iff {inner : Message} {content : Content} :
    inner.HeldBy content ↔ .message inner ∈ content.values := by
  constructor
  · intro h
    cases h with
    | single => exact List.mem_cons_self
    | list hmem => exact hmem
    | map hmem => exact List.mem_map_of_mem hmem
  · intro h
    cases content with
    | single value =>
        rw [← List.mem_singleton.mp h]
        exact .single
    | list values => exact .list h
    | map entries =>
        obtain ⟨⟨key, _⟩, hmem, rfl⟩ := List.mem_map.mp h
        exact .map hmem

/-- Alike messages store as many contents. -/
theorem Alike.length (hm : m.WellTyped registry) (hn : n.WellTyped registry) (h : m.Alike n) :
    m.contents.length = n.contents.length := by
  have hperm : (m.contents.map Prod.fst).Perm (n.contents.map Prod.fst) := by
    rw [List.perm_ext_iff_of_nodup hm.distinct hn.distinct]
    intro number
    rw [← Entries.get?_isSome_iff, ← Entries.get?_isSome_iff]
    exact Bool.eq_iff_iff.mp (h.rel.isSome_content? number)
  simpa using hperm.length_eq

/-- What two alike messages store is equal if what they hold is. -/
theorem Alike.allIn_iff (hm : m.WellTyped registry) (h : m.Alike n)
    (hinner : ∀ inner other : Message, inner.Inside m → other.Inside n → inner.Alike other →
      (inner.equals other = true ↔ inner.Throughout Numeric)) :
    Content.allIn n.contents m.contents = true ↔
      m.Numeric ∧ ∀ (inner : Message) number content, (number, content) ∈ m.contents →
        inner.HeldBy content → inner.Throughout Numeric := by
  have hequals {number : Nat} {content other : Content} (hmem : (number, content) ∈ m.contents)
      (hother : n.content? number = some other) (halike : content.Alike other) :
      content.equals other = true ↔ ∀ value ∈ content.values, value.Numeric := by
    refine Content.equals_iff halike fun value hvalue found hfound => Value.equated ?_
    rintro inner outer rfl rfl
    exact hinner inner outer ((heldBy_iff.mpr hvalue).inside_of_mem hmem)
      ((heldBy_iff.mpr hfound).inside hother)
  have hstored {number : Nat} {content : Content} (hmem : (number, content) ∈ m.contents) :
      ∃ other, n.content? number = some other ∧ content.Alike other := by
    rcases h.content number with ⟨hnone, _⟩ | ⟨_, other, hcontent, hother, halike⟩
    · rw [content?_eq_some_iff hm.distinct |>.mpr hmem] at hnone
      cases hnone
    · rw [content?_eq_some_iff hm.distinct |>.mpr hmem] at hcontent
      cases hcontent
      exact ⟨other, hother, halike⟩
  rw [Content.allIn_iff]
  constructor
  · intro hall
    have hnumeric {number : Nat} {content : Content} (hmem : (number, content) ∈ m.contents) :
        ∀ value ∈ content.values, value.Numeric := by
      obtain ⟨other, hother, halike⟩ := hstored hmem
      obtain ⟨_, hfound, hequal⟩ := hall number content hmem
      cases hother.symm.trans hfound
      exact (hequals hmem hother halike).mp hequal
    refine ⟨fun number content hmem value hvalue => (hnumeric hmem value hvalue).1, ?_⟩
    intro inner number content hmem hheld
    exact (hnumeric hmem _ (heldBy_iff.mp hheld)).2 inner rfl
  · rintro ⟨hself, hheld⟩ number content hmem
    obtain ⟨other, hother, halike⟩ := hstored hmem
    refine ⟨other, hother, (hequals hmem hother halike).mpr fun value hvalue => ?_⟩
    refine ⟨hself number content hmem value hvalue, ?_⟩
    rintro inner rfl
    exact hheld inner number content hmem (heldBy_iff.mpr hvalue)

/-- Alike messages are equal unless a NaN is in them. -/
theorem Alike.equals_iff (hm : m.WellTyped registry) (hn : n.WellTyped registry) (h : m.Alike n) :
    m.equals n = true ↔ m.Throughout Numeric := by
  -- By messages from those inside out, where only a NaN keeps alike values from being equal.
  induction m using inside_induction generalizing n with
  | step m ih =>
      have hinner (inner other : Message) (hinside : inner.Inside m) (hother : other.Inside n) :=
        ih inner hinside (hm.inside hinside).1 (hn.inside hother).1
      rw [Message.equals_iff, h.allIn_iff hm hinner, throughout_iff]
      constructor
      · rintro ⟨_, _, ⟨hself, hheld⟩, hpayload⟩
        refine ⟨hself, fun inner hinside => ?_⟩
        rcases inside_iff.mp hinside with ⟨number, content, hmem, hholds⟩ | ⟨url, hfound⟩
        · exact hheld inner number content hmem hholds
        · rcases h.payload with ⟨hnone, _⟩ | ⟨_, _, other, hsome, hother, halike⟩
          · rw [hnone] at hfound
            cases hfound
          · cases hsome.symm.trans hfound
            have hequal : inner.equals other = true := by simpa [hsome, hother] using hpayload
            exact (hinner inner other hinside (.payload hother) halike).mp hequal
      · rintro ⟨hself, hinside⟩
        refine ⟨h.descriptor, h.length hm hn, ⟨hself, ?_⟩, ?_⟩
        · intro inner number content hmem hholds
          exact hinside inner (hholds.inside_of_mem hmem)
        · rcases h.payload with hnone | ⟨url, inner, other, hsome, hother, halike⟩
          · exact .inl hnone
          · refine .inr ⟨url, inner, other, hsome, hother, ?_⟩
            exact (hinner inner other (.payload hsome) (.payload hother) halike).mpr
              (hinside inner (.payload hsome))

end Message

end Textproto
