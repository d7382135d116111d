import Textproto.Message.Basic
import Textproto.Proofs.Message.Key
import Textproto.Proofs.Schema.WellFormed
import Textproto.Proofs.Text.Utf8

namespace Textproto

/-! Messages that hold what their descriptors say, at any depth. -/

/-- A text that its own bytes spell. -/
def IsText (s : String) : Prop :=
  Utf8.decode (Utf8.encode s.toList) = .ok s.toList

theorem isText (s : String) : IsText s :=
  Utf8.decode_encode s.toList

inductive Key.HasKind : Kind → Key → Prop
  | bool {b : Bool} : HasKind .bool (.bool b)
  | int32 {n : Int32} : HasKind .int32 (.int n.toInt64)
  | int64 {n : Int64} : HasKind .int64 (.int n)
  | uint32 {n : UInt32} : HasKind .uint32 (.uint n.toUInt64)
  | uint64 {n : UInt64} : HasKind .uint64 (.uint n)
  | string {s : String} : IsText s → HasKind .string (.string s)

/-- Values that are no messages, of the kind that their constructor stands for. -/
inductive Value.IsScalar : Kind → Value → Prop
  | bool {b : Bool} : IsScalar .bool (.bool b)
  | int32 {n : Int32} : IsScalar .int32 (.int32 n)
  | int64 {n : Int64} : IsScalar .int64 (.int64 n)
  | uint32 {n : UInt32} : IsScalar .uint32 (.uint32 n)
  | uint64 {n : UInt64} : IsScalar .uint64 (.uint64 n)
  | float {x : Single} : IsScalar .float (.float x)
  | double {x : Double} : IsScalar .double (.double x)
  | string {s : String} : IsText s → IsScalar .string (.string s)
  | bytes {b : List UInt8} : IsScalar .bytes (.bytes b)
  | enum {name : String} {n : Int32} : IsScalar (.enum name) (.enum n)

theorem Value.IsScalar.zero?_eq {kind : Kind} {value : Value} (h : Value.IsScalar kind value)
    (hzero : value.isZero = true) : Value.zero? kind = some value := by
  cases h <;> simp_all [Value.isZero, Value.zero?]

theorem Value.IsScalar.ne_message {kind : Kind} {value : Value} (h : Value.IsScalar kind value)
    (m : Message) : value ≠ .message m := by
  rintro rfl
  cases h

namespace Message

/-- The members of oneofs that contents hold: one of each at most, and the one that is named. -/
structure OneOfEach (m : Message) : Prop where
  unique : ∀ field ∈ m.descriptor.fields, ∀ other ∈ m.descriptor.fields,
    field.oneof.isSome = true → field.oneof = other.oneof →
    (m.content? field.number).isSome = true → (m.content? other.number).isSome = true →
    field = other
  named : ∀ field ∈ m.descriptor.fields, ∀ oneof, field.oneof = some oneof →
    (m.content? field.number).isSome = true → m.member? oneof = some field.name

end Message

mutual

/-- A value of a kind. A message is of the type that its kind names. -/
inductive Value.HasKind (registry : Registry) : Kind → Value → Prop
  | scalar {kind : Kind} {value : Value} : Value.IsScalar kind value →
      Value.HasKind registry kind value
  | message {name : String} {m : Message} :
      registry.message? name = some m.descriptor → Message.WellTyped registry m →
      Value.HasKind registry (.message name) (.message m)

/-- Contents of the shape that their field has. -/
inductive Content.Fits (registry : Registry) : Field → Content → Prop
  | single {field : Field} {value : Value} :
      field.repeated = false → Value.HasKind registry field.kind value →
      Content.Fits registry field (.single value)
  | list {field : Field} {values : List Value} :
      field.repeated = true → field.mapEntry? registry = none → values ≠ [] →
      (∀ value ∈ values, Value.HasKind registry field.kind value) →
      Content.Fits registry field (.list values)
  | map {field : Field} {name : String} {entry : MapEntry} {entries : List (Key × Value)} :
      field.mapEntry? registry = some (name, entry) → entries ≠ [] →
      Key.Sorted entries → (∀ key ∈ entries.map Prod.fst, key.HasKind entry.key) →
      (∀ value ∈ entries.map Prod.snd, Value.HasKind registry entry.value value) →
      Content.Fits registry field (.map entries)

/-- Everything stored belongs to a field of the descriptor and fits it. Only an `Any` has a
payload, of the type that its URL names. -/
inductive Message.WellTyped (registry : Registry) : Message → Prop
  | mk {descriptor : Descriptor} {contents : List (Nat × Content)}
      {payload : Option (String × Message)} :
      (contents.map Prod.fst).Nodup →
      (∀ number ∈ contents.map Prod.fst, ∃ field ∈ descriptor.fields, field.number = number) →
      (∀ field ∈ descriptor.fields, ∀ content, (field.number, content) ∈ contents →
        Content.Fits registry field content) →
      Message.OneOfEach ⟨descriptor, contents, payload⟩ →
      (∀ url inner, payload = some (url, inner) →
        descriptor.wellKnown? = some .any ∧ registry.resolve? url = some inner.descriptor) →
      (∀ url inner, payload = some (url, inner) → Message.WellTyped registry inner) →
      Message.WellTyped registry ⟨descriptor, contents, payload⟩

end

theorem Value.HasKind.cases {registry : Registry} {kind : Kind} {value : Value}
    (h : Value.HasKind registry kind value) :
    Value.IsScalar kind value ∨ ∃ m, m.WellTyped registry ∧ value = .message m ∧
      ∃ name, kind = .message name ∧ registry.message? name = some m.descriptor := by
  cases h with
  | scalar hscalar => exact .inl hscalar
  | message hknown hm => exact .inr ⟨_, hm, rfl, _, rfl, hknown⟩

namespace Message.WellTyped

variable {registry : Registry} {m : Message} {field : Field} {content : Content}

theorem distinct (h : m.WellTyped registry) : (m.contents.map Prod.fst).Nodup := by
  cases h
  assumption

theorem declared (h : m.WellTyped registry) {number : Nat}
    (hnumber : number ∈ m.contents.map Prod.fst) :
    ∃ field ∈ m.descriptor.fields, field.number = number := by
  cases h with
  | mk _ hdeclared _ _ _ _ => exact hdeclared number hnumber

theorem oneOfEach (h : m.WellTyped registry) : m.OneOfEach := by
  cases h
  assumption

theorem fits (h : m.WellTyped registry) (hfield : field ∈ m.descriptor.fields)
    (hcontent : m.content? field.number = some content) : Content.Fits registry field content := by
  cases h with
  | mk _ _ hfits _ _ _ => exact hfits field hfield content (Entries.mem_of_get? hcontent)

theorem payload_any (h : m.WellTyped registry) {url : String} {inner : Message}
    (hpayload : m.payload? = some (url, inner)) :
    m.descriptor.wellKnown? = some .any ∧ registry.resolve? url = some inner.descriptor := by
  cases h with
  | mk _ _ _ _ hany _ => exact hany url inner hpayload

theorem payload (h : m.WellTyped registry) {url : String} {inner : Message}
    (hpayload : m.payload? = some (url, inner)) : inner.WellTyped registry := by
  cases h with
  | mk _ _ _ _ _ hinner => exact hinner url inner hpayload

/-- Only an `Any` has a payload. -/
theorem payload?_eq_none (h : m.WellTyped registry) (hany : m.descriptor.wellKnown? ≠ some .any) :
    m.payload? = none := by
  cases hpayload : m.payload? with
  | none => rfl
  | some payload => exact absurd (h.payload_any hpayload).1 hany

end Message.WellTyped

/-- What is read under a name is the single value of the field so named. -/
theorem Message.single?_of_fieldNamed? {m : Message} {name : String} {field : Field}
    (h : m.descriptor.fieldNamed? name = some field) :
    m.single? name = (m.content? field.number).bind Content.single? := by
  rw [single?, named?, h, Option.bind_some]

/-! Writing what fits keeps messages well-typed. -/

theorem Message.content?_eq_some_iff {m : Message} (hdistinct : (m.contents.map Prod.fst).Nodup)
    {number : Nat} {content : Content} :
    m.content? number = some content ↔ (number, content) ∈ m.contents :=
  Entries.get?_eq_some_iff hdistinct

theorem Message.OneOfEach.of_unique {m : Message}
    (unique : ∀ field ∈ m.descriptor.fields, ∀ other ∈ m.descriptor.fields,
      field.oneof.isSome = true → field.oneof = other.oneof →
      (m.content? field.number).isSome = true → (m.content? other.number).isSome = true →
      field = other) : m.OneOfEach where
  unique := unique
  named := by
    intro field hfield oneof honeof hset
    unfold member?
    cases hfound : m.descriptor.fields.find? fun other =>
        other.oneof = some oneof && (m.content? other.number).isSome with
    | none =>
        have hnone := List.find?_eq_none.mp hfound field hfield
        simp [honeof, hset] at hnone
    | some other =>
        have hother := List.find?_some hfound
        simp only [Bool.and_eq_true, decide_eq_true_eq] at hother
        rw [unique field hfield other (List.mem_of_find?_eq_some hfound) (by rw [honeof]; rfl)
          (by rw [honeof, hother.1]) hset hother.2]
        rfl

namespace Message

variable {registry : Registry} {m : Message} {field : Field}

theorem wellTyped_empty (descriptor : Descriptor) : (empty descriptor).WellTyped registry := by
  refine .mk (by simp) (by simp) (by simp) (.of_unique ?_) (by simp) (by simp)
  intro field _ other _ _ _ hset _
  cases hset

/-- No member of the oneof that a field belongs to is stored but the field itself. -/
def Free (m : Message) (field : Field) : Prop :=
  ∀ other ∈ m.descriptor.fields, field.oneof.isSome = true → field.oneof = other.oneof →
    (m.content? other.number).isSome = true → field = other

namespace WellTyped

theorem put (h : m.WellTyped registry) (hd : m.descriptor.WellFormed registry)
    (hfield : field ∈ m.descriptor.fields) (hfree : m.Free field) {content : Content}
    (hfits : Content.Fits registry field content) :
    (m.put field.number content).WellTyped registry := by
  have hcontents : (m.put field.number content).contents =
      Entries.put field.number content m.contents := rfl
  refine .mk (Entries.nodup_put h.distinct) ?_ ?_ (.of_unique ?_) ?_ ?_
  · intro number hnumber
    rcases Entries.mem_map_fst_put.mp hnumber with rfl | hnumber
    · exact ⟨field, hfield, rfl⟩
    · exact h.declared hnumber
  · intro other hother found hfound
    rcases (Entries.mem_put h.distinct).mp hfound with ⟨hnumber, rfl⟩ | ⟨_, hfound⟩
    · rw [hd.eq_of_number hother hfield hnumber]
      exact hfits
    · exact h.fits hother ((content?_eq_some_iff h.distinct).mpr hfound)
  · have hstored {other : Field} (hother : other ∈ m.descriptor.fields)
        (hset : ((m.put field.number content).content? other.number).isSome = true) :
        field = other ∨ (m.content? other.number).isSome = true := by
      by_cases hnumber : other.number = field.number
      · exact .inl (hd.eq_of_number hfield hother hnumber.symm)
      · rw [content?_put_of_ne m hnumber] at hset
        exact .inr hset
    intro first hfirst second hsecond honeof hsame hset hset'
    rcases hstored hfirst hset with rfl | hset
    · rcases hstored hsecond hset' with rfl | hset'
      · rfl
      · exact hfree second hsecond honeof hsame hset'
    · rcases hstored hsecond hset' with rfl | hset'
      · exact (hfree first hfirst (hsame ▸ honeof) hsame.symm hset).symm
      · exact h.oneOfEach.unique first hfirst second hsecond honeof hsame hset hset'
  · intro url inner hpayload
    exact h.payload_any hpayload
  · intro url inner hpayload
    exact h.payload hpayload

theorem set (h : m.WellTyped registry) (hd : m.descriptor.WellFormed registry)
    (hfield : field ∈ m.descriptor.fields) (hfree : m.Free field)
    (hsingle : field.repeated = false) {value : Value}
    (hvalue : Value.HasKind registry field.kind value) :
    (m.set field value).WellTyped registry :=
  h.put hd hfield hfree (.single hsingle hvalue)

theorem free_of_repeated (hd : m.descriptor.WellFormed registry)
    (hfield : field ∈ m.descriptor.fields) (hrepeated : field.repeated = true) :
    m.Free field := by
  intro other _ honeof
  rw [hd.choices field hfield hrepeated] at honeof
  cases honeof

theorem push (h : m.WellTyped registry) (hd : m.descriptor.WellFormed registry)
    (hfield : field ∈ m.descriptor.fields) (hrepeated : field.repeated = true)
    (hlist : field.mapEntry? registry = none) {value : Value}
    (hvalue : Value.HasKind registry field.kind value) :
    (m.push field value).WellTyped registry := by
  refine h.put hd hfield (free_of_repeated hd hfield hrepeated)
    (.list hrepeated hlist (by simp) ?_)
  intro other hother
  rcases List.mem_append.mp hother with hother | hother
  · cases hcontent : m.content? field.number with
    | none => simp [hcontent] at hother
    | some content =>
        cases h.fits hfield hcontent with
        | single hsingle _ => simp [hsingle] at hrepeated
        | list _ _ _ hvalues =>
            simp only [hcontent] at hother
            exact hvalues other hother
        | map hmap _ _ _ _ => simp [hmap] at hlist
  · rw [List.mem_singleton.mp hother]
    exact hvalue

theorem insert (h : m.WellTyped registry) (hd : m.descriptor.WellFormed registry)
    (hfield : field ∈ m.descriptor.fields) {name : String} {entry : MapEntry}
    (hmap : field.mapEntry? registry = some (name, entry)) {key : Key}
    (hkey : key.HasKind entry.key) {value : Value}
    (hvalue : Value.HasKind registry entry.value value) :
    (m.insert field key value).WellTyped registry := by
  have hrepeated := Field.repeated_of_mapEntry? hmap
  obtain ⟨before, hbefore, hsorted, hkeys, hvalues⟩ : ∃ before,
      m.insert field key value = m.put field.number (.map (key.insert value before)) ∧
        Key.Sorted before ∧ (∀ key ∈ before.map Prod.fst, key.HasKind entry.key) ∧
        (∀ value ∈ before.map Prod.snd, Value.HasKind registry entry.value value) := by
    unfold Message.insert
    cases hcontent : m.content? field.number with
    | none => exact ⟨[], rfl, .nil, by simp, by simp⟩
    | some content =>
        cases h.fits hfield hcontent with
        | single hsingle _ => simp [hsingle] at hrepeated
        | list _ hlist _ _ => simp [hmap] at hlist
        | map hother _ hsorted hkeys hvalues =>
            rw [hmap] at hother
            cases hother
            exact ⟨_, rfl, hsorted, hkeys, hvalues⟩
  rw [hbefore]
  refine h.put hd hfield (free_of_repeated hd hfield hrepeated)
    (.map hmap (Key.insert_ne_nil key value before) hsorted.insert ?_ ?_)
  · intro other hother
    obtain ⟨entry, hentry, rfl⟩ := List.mem_map.mp hother
    rcases Key.mem_insert hentry with rfl | hentry
    · exact hkey
    · exact hkeys _ (List.mem_map_of_mem hentry)
  · intro other hother
    obtain ⟨entry, hentry, rfl⟩ := List.mem_map.mp hother
    rcases Key.mem_insert hentry with rfl | hentry
    · exact hvalue
    · exact hvalues _ (List.mem_map_of_mem hentry)

theorem withPayload (h : m.WellTyped registry) (hany : m.descriptor.wellKnown? = some .any)
    {url : String} {inner : Message} (hresolve : registry.resolve? url = some inner.descriptor)
    (hinner : inner.WellTyped registry) : (m.withPayload url inner).WellTyped registry := by
  cases h with
  | mk hdistinct hdeclared hfits hone _ _ =>
      refine .mk hdistinct hdeclared hfits (.of_unique hone.unique) ?_ ?_
      · intro other found hfound
        cases hfound
        exact ⟨hany, hresolve⟩
      · intro other found hfound
        cases hfound
        exact hinner

end WellTyped

end Message

/-! Messages in messages. -/

namespace Message

/-- A message is held directly by another one. -/
inductive Inside : Message → Message → Prop
  | single {m inner : Message} {number : Nat} :
      (number, .single (.message inner)) ∈ m.contents → Inside inner m
  | list {m inner : Message} {number : Nat} {values : List Value} :
      (number, .list values) ∈ m.contents → .message inner ∈ values → Inside inner m
  | map {m inner : Message} {number : Nat} {entries : List (Key × Value)} {key : Key} :
      (number, .map entries) ∈ m.contents → (key, .message inner) ∈ entries → Inside inner m
  | payload {m inner : Message} {url : String} :
      m.payload? = some (url, inner) → Inside inner m

/-- A message is held by the content of a field. -/
inductive HeldBy (inner : Message) : Content → Prop
  | single : HeldBy inner (.single (.message inner))
  | list {values : List Value} : .message inner ∈ values → HeldBy inner (.list values)
  | map {entries : List (Key × Value)} {key : Key} :
      (key, .message inner) ∈ entries → HeldBy inner (.map entries)

theorem HeldBy.inside_of_mem {inner m : Message} {number : Nat} {content : Content}
    (h : inner.HeldBy content) (hmem : (number, content) ∈ m.contents) : inner.Inside m := by
  cases h with
  | single => exact .single hmem
  | list hvalue => exact .list hmem hvalue
  | map hvalue => exact .map hmem hvalue

theorem HeldBy.inside {inner m : Message} {number : Nat} {content : Content}
    (h : inner.HeldBy content) (hcontent : m.content? number = some content) : inner.Inside m :=
  h.inside_of_mem (Entries.mem_of_get? hcontent)

theorem inside_iff {inner m : Message} :
    inner.Inside m ↔
      (∃ number content, (number, content) ∈ m.contents ∧ inner.HeldBy content) ∨
        ∃ url, m.payload? = some (url, inner) := by
  constructor
  · intro h
    cases h with
    | single hmem => exact .inl ⟨_, _, hmem, .single⟩
    | list hmem hvalue => exact .inl ⟨_, _, hmem, .list hvalue⟩
    | map hmem hvalue => exact .inl ⟨_, _, hmem, .map hvalue⟩
    | payload hpayload => exact .inr ⟨_, hpayload⟩
  · rintro (⟨number, content, hmem, hheld⟩ | ⟨url, hpayload⟩)
    · exact hheld.inside_of_mem hmem
    · exact .payload hpayload

theorem Inside.sizeOf_lt {inner m : Message} (h : inner.Inside m) : sizeOf inner < sizeOf m := by
  obtain ⟨descriptor, contents, payload⟩ := m
  cases h with
  | single hmem =>
      have hlt := List.sizeOf_lt_of_mem hmem
      simp only [Message.contents, Message.mk.sizeOf_spec, Prod.mk.sizeOf_spec,
        Content.single.sizeOf_spec, Value.message.sizeOf_spec] at hlt ⊢
      omega
  | list hmem hvalue =>
      have hlt := List.sizeOf_lt_of_mem hmem
      have hlt' := List.sizeOf_lt_of_mem hvalue
      simp only [Message.contents, Message.mk.sizeOf_spec, Prod.mk.sizeOf_spec,
        Content.list.sizeOf_spec, Value.message.sizeOf_spec] at hlt hlt' ⊢
      omega
  | map hmem hvalue =>
      have hlt := List.sizeOf_lt_of_mem hmem
      have hlt' := List.sizeOf_lt_of_mem hvalue
      simp only [Message.contents, Message.mk.sizeOf_spec, Prod.mk.sizeOf_spec,
        Content.map.sizeOf_spec, Value.message.sizeOf_spec] at hlt hlt' ⊢
      omega
  | payload hpayload =>
      cases hpayload
      simp only [Message.mk.sizeOf_spec, Option.some.sizeOf_spec, Prod.mk.sizeOf_spec]
      omega

/-- What holds of a message if it holds of those inside it holds of every message. -/
theorem inside_induction {motive : Message → Prop}
    (step : ∀ m, (∀ inner, inner.Inside m → motive inner) → motive m) (m : Message) : motive m :=
  step m fun inner hinside =>
    have := hinside.sizeOf_lt
    inside_induction step inner
termination_by sizeOf m

/-- What is inside a well-typed message is well-typed, and its type is known. -/
theorem WellTyped.inside {registry : Registry} {m inner : Message} (h : m.WellTyped registry)
    (hinside : inner.Inside m) :
    inner.WellTyped registry ∧ ∃ name, registry.message? name = some inner.descriptor := by
  have hfits {number : Nat} {content : Content} (hmem : (number, content) ∈ m.contents) :
      ∃ field, Content.Fits registry field content := by
    obtain ⟨field, hfield, rfl⟩ := h.declared (List.mem_map_of_mem hmem)
    exact ⟨field, h.fits hfield ((content?_eq_some_iff h.distinct).mpr hmem)⟩
  have hmessage {kind : Kind} (hkind : Value.HasKind registry kind (.message inner)) :
      inner.WellTyped registry ∧ ∃ name, registry.message? name = some inner.descriptor := by
    cases hkind with
    | scalar hscalar => cases hscalar
    | message hknown hinner => exact ⟨hinner, _, hknown⟩
  cases hinside with
  | single hmem =>
      obtain ⟨field, hcontent⟩ := hfits hmem
      cases hcontent with
      | single _ hvalue => exact hmessage hvalue
  | list hmem hvalue =>
      obtain ⟨field, hcontent⟩ := hfits hmem
      cases hcontent with
      | list _ _ _ hvalues => exact hmessage (hvalues _ hvalue)
  | map hmem hvalue =>
      obtain ⟨field, hcontent⟩ := hfits hmem
      cases hcontent with
      | map _ _ _ _ hvalues => exact hmessage (hvalues _ (List.mem_map_of_mem hvalue))
  | payload hpayload =>
      obtain ⟨_, hresolve⟩ := h.payload_any hpayload
      obtain ⟨name, _, hname⟩ := Option.bind_eq_some_iff.mp hresolve
      exact ⟨h.payload hpayload, _, hname⟩

/-- A message is another one or lies in it, at any depth. -/
inductive Within : Message → Message → Prop
  | self {m : Message} : Within m m
  | inside {m outer inner : Message} : inner.Inside outer → outer.Within m → Within inner m

theorem Within.trans {part inner m : Message} (h : part.Within inner) (h' : inner.Within m) :
    part.Within m := by
  induction h with
  | self => exact h'
  | inside hinside _ ih => exact .inside hinside (ih h')

theorem WellTyped.within {registry : Registry} {m part : Message} {name : String}
    (hm : m.WellTyped registry) (hknown : registry.message? name = some m.descriptor)
    (hpart : part.Within m) :
    part.WellTyped registry ∧ ∃ name, registry.message? name = some part.descriptor := by
  induction hpart with
  | self => exact ⟨hm, name, hknown⟩
  | inside hinside _ ih => exact (ih hm hknown).1.inside hinside

theorem Within.eq_or_inside {part m : Message} (h : part.Within m) :
    part = m ∨ ∃ inner : Message, inner.Inside m ∧ part.Within inner := by
  induction h with
  | self => exact .inl rfl
  | inside hinside _ ih =>
      rcases ih with rfl | ⟨inner, hinner, hwithin⟩
      · exact .inr ⟨_, hinside, .self⟩
      · exact .inr ⟨inner, hinner, .inside hinside hwithin⟩

/-- What holds of a message and of every one in it. -/
def Throughout (motive : Message → Prop) (m : Message) : Prop :=
  ∀ part : Message, part.Within m → motive part

theorem throughout_iff {motive : Message → Prop} {m : Message} :
    m.Throughout motive ↔
      motive m ∧ ∀ inner : Message, inner.Inside m → inner.Throughout motive := by
  constructor
  · intro h
    exact ⟨h m .self, fun inner hinner part hpart => h part (hpart.trans (.inside hinner .self))⟩
  · rintro ⟨hself, hinside⟩ part hpart
    rcases hpart.eq_or_inside with rfl | ⟨inner, hinner, hwithin⟩
    · exact hself
    · exact hinside inner hinner part hwithin

/-- The member of a oneof that is named is stored as a single value. -/
theorem WellTyped.member {registry : Registry} {m : Message} (h : m.WellTyped registry)
    (hd : m.descriptor.WellFormed registry) {oneof : String} {field : Field}
    (hmember : (m.member? oneof).bind m.descriptor.fieldNamed? = some field) :
    field ∈ m.descriptor.fields ∧ field.oneof = some oneof ∧
      ∃ value, m.content? field.number = some (.single value) ∧
        Value.HasKind registry field.kind value := by
  obtain ⟨name, hname, hfield⟩ := Option.bind_eq_some_iff.mp hmember
  obtain ⟨other, hother, rfl⟩ := Option.map_eq_some_iff.mp hname
  have hmem := List.mem_of_find?_eq_some hother
  rw [hd.fieldNamed? hmem, Option.some.injEq] at hfield
  subst hfield
  have hset := List.find?_some hother
  simp only [Bool.and_eq_true, decide_eq_true_eq] at hset
  obtain ⟨content, hcontent⟩ := Option.isSome_iff_exists.mp hset.2
  refine ⟨hmem, hset.1, ?_⟩
  have hrepeated : other.repeated ≠ true := by
    intro hrepeated
    rw [hd.choices other hmem hrepeated] at hset
    cases hset.1
  cases h.fits hmem hcontent with
  | single _ hvalue => exact ⟨_, hcontent, hvalue⟩
  | list hrepeated' => exact absurd hrepeated' hrepeated
  | map hmap => exact absurd (Field.repeated_of_mapEntry? hmap) hrepeated

theorem WellTyped.member_unique {registry : Registry} {m : Message} (h : m.WellTyped registry)
    (hd : m.descriptor.WellFormed registry) {oneof : String} {field other : Field}
    (hmember : (m.member? oneof).bind m.descriptor.fieldNamed? = some field)
    (hother : other ∈ m.descriptor.fields) (honeof : other.oneof = some oneof)
    (hset : (m.content? other.number).isSome = true) : other = field := by
  obtain ⟨hfield, hown, value, hcontent, _⟩ := h.member hd hmember
  refine h.oneOfEach.unique other hother field hfield ?_ (honeof.trans hown.symm) hset ?_
  · rw [honeof]
    rfl
  · rw [hcontent]
    rfl

end Message

end Textproto
