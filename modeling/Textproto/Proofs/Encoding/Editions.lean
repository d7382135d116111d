import Textproto.Proofs.Binding.Editions
import Textproto.Proofs.Encoding.Maps

namespace Textproto

/-! What a text is written as in one edition and in the other. -/

open Bundled

/-- Single scalars and enumerators outside any oneof, where being set is not told apart from being
zero. -/
def Field.hidesZero (field : Field) : Bool :=
  !field.repeated && !field.kind.isMessage && field.oneof.isNone && !field.presence

def Content.isZero : Content → Bool
  | .single value => value.isZero
  | _ => false

/-- The members of an object that are kept, each with what is kept of it. -/
def keepMembers (keep : String → Json → Option Json) (members : List (String × Json)) :
    List (String × Json) :=
  members.filterMap fun member => (keep member.1 member.2).map fun json => (member.1, json)

mutual

def Value.prune : Value → Json → Json
  | .message m, json => m.prune json
  | _, json => json

def Value.pruneItems : List Value → List Json → List Json
  | value :: values, json :: items => value.prune json :: Value.pruneItems values items
  | _, items => items

def Value.pruneEntries : List (Key × Value) → List (String × Json) → List (String × Json)
  | (_, value) :: entries, (text, json) :: members =>
      (text, value.prune json) :: Value.pruneEntries entries members
  | _, members => members

def Content.prune : Content → Json → Json
  | .single value, json => value.prune json
  | .list values, .array items => .array (Value.pruneItems values items)
  | .map entries, .object members => .object (Value.pruneEntries entries members)
  | _, json => json

/-- What is left of the member for a field. -/
def Content.pruneMember (field : Field) : List (Nat × Content) → Json → Option Json
  | [], json => some json
  | (number, content) :: rest, json =>
      if number = field.number then
        if field.hidesZero && content.isZero then none else some (content.prune json)
      else Content.pruneMember field rest json

/-- The JSON of a message less the members that are deleted from it in the second edition: in the
objects of types of the first one, those of fields that hold zero and hide it in the second. -/
def Message.prune : Message → Json → Json
  | ⟨descriptor, contents, _⟩, json =>
      match counterpart? descriptor.fullName, json with
      | some next, .object members =>
          .object <| keepMembers (fun key json =>
            match next.fields.find? fun field => field.jsonName = key with
            | some field => Content.pruneMember field contents json
            | none => some json) members
      | _, json => json

end

namespace Encoding

variable {m : Message} {field next : Field}

theorem enumJson_toProto3 (kind : Kind) (number : Int32) :
    enumJson .bundled kind.toProto3 number = enumJson .bundled kind number := by
  cases kind with
  | enum name =>
      simp only [Kind.toProto3, enumJson, enumerationInProto3_eq_nullValue_iff]
      rcases rel_cases (rel_enumeration? name) with ⟨hnone, hnone'⟩ | ⟨_, _, hown, hother, hvalues⟩
      · rw [hnone, hnone']
      · rw [hown, hother, Option.bind_some, Option.bind_some, Enumeration.nameOf?, hvalues,
          Enumeration.nameOf?]
  | _ => rfl

theorem scalarJson_toProto3 (kind : Kind) (value : Value) :
    scalarJson .bundled kind.toProto3 value = scalarJson .bundled kind value := by
  cases value with
  | enum number => exact enumJson_toProto3 kind number
  | _ => rfl

/-- What a message is written as in the second edition is pruned from what it is in the first. -/
def IsPruned (m : Message) : Prop :=
  messageJson .bundled m.toProto3 = (messageJson .bundled m).map m.prune

theorem valueJson_toProto3 (kind : Kind) {value : Value}
    (hinner : ∀ m, value = .message m → IsPruned m) :
    valueJson .bundled kind.toProto3 value.toProto3 =
      (valueJson .bundled kind value).map value.prune := by
  cases value with
  | message m =>
      rw [Value.toProto3, valueJson_message, valueJson_message, hinner m rfl]
      cases messageJson .bundled m with
      | error error => rfl
      | ok json => rw [Except.map, Except.map, Value.prune]
  | _ =>
      rw [Value.toProto3_of_ne_message (by simp), valueJson_scalar (by simp),
        valueJson_scalar (by simp), scalarJson_toProto3]
      simp only [Except.map, Value.prune]

theorem listJson_toProto3 (kind : Kind) {values : List Value}
    (hinner : ∀ value ∈ values, ∀ m, value = .message m → IsPruned m) :
    listJson .bundled kind.toProto3 (values.map Value.toProto3) =
      (listJson .bundled kind values).map (Value.pruneItems values) := by
  induction values with
  | nil =>
      rw [List.map_nil, listJson]
      rfl
  | cons value rest ih =>
      rw [List.forall_mem_cons] at hinner
      rw [List.map_cons, listJson, listJson, valueJson_toProto3 kind hinner.1, ih hinner.2]
      cases valueJson .bundled kind value with
      | error error => rfl
      | ok json =>
          cases listJson .bundled kind rest with
          | error error => rfl
          | ok items => rfl

theorem pruneEntries_zip (entries : List (Key × Value)) (items : List Json) :
    Value.pruneEntries entries ((entries.map fun entry => entry.1.text).zip items) =
      (entries.map fun entry => entry.1.text).zip
        (Value.pruneItems (entries.map Prod.snd) items) := by
  induction entries generalizing items with
  | nil => rfl
  | cons entry rest ih =>
      cases items with
      | nil => rfl
      | cons json items =>
          obtain ⟨key, value⟩ := entry
          simp only [List.map_cons, List.zip_cons_cons, Value.pruneEntries, Value.pruneItems, ih]

theorem mapValueKind_toProto3 (h : field.CarriedTo next) :
    mapValueKind .bundled next = (mapValueKind .bundled field).toProto3 := by
  rw [mapValueKind, mapValueKind, h.mapEntry?, h.kind]
  cases field.mapEntry? .bundled <;> rfl

theorem contentJson_toProto3 (h : field.CarriedTo next) {content : Content}
    (hfits : Content.Fits .bundled field content)
    (hinner : ∀ inner : Message, inner.HeldBy content → IsPruned inner) :
    contentJson .bundled next content.toProto3 =
      (contentJson .bundled field content).map content.prune := by
  cases hfits with
  | single _ _ =>
      rw [Content.toProto3, contentJson_single, contentJson_single, h.kind, valueJson_toProto3]
      · cases valueJson .bundled field.kind _ <;> rfl
      · rintro m rfl
        exact hinner m .single
  | list _ _ _ _ =>
      rw [Content.toProto3, contentJson_list, contentJson_list, h.kind, Value.listToProto3_eq,
        listJson_toProto3]
      · cases listJson .bundled field.kind _ <;> rfl
      · rintro value hvalue m rfl
        exact hinner m (.list hvalue)
  | @map _ _ _ entries hmap _ hsorted hkeys _ =>
      have htexts := nodup_texts hsorted hkeys
      have htexts' : ((entries.map (Prod.map id Value.toProto3)).map
          fun entry => entry.1.text) = entries.map fun entry => entry.1.text := by
        rw [List.map_map]
        rfl
      have hvalues : (entries.map (Prod.map id Value.toProto3)).map Prod.snd =
          (entries.map Prod.snd).map Value.toProto3 := by
        rw [List.map_map, List.map_map]
        rfl
      rw [Content.toProto3, contentJson_map, contentJson_map, mapValueKind_toProto3 h,
        Value.entriesToProto3_eq, entriesJson_eq (htexts' ▸ htexts) (fun _ _ => List.not_mem_nil),
        entriesJson_eq htexts (fun _ _ => List.not_mem_nil), htexts', hvalues, listJson_toProto3]
      · cases listJson .bundled (mapValueKind .bundled field) (entries.map Prod.snd) with
        | error error => rfl
        | ok items =>
            simp only [Except.map, List.nil_append, Content.prune, pruneEntries_zip]
      · intro value hvalue m heq
        obtain ⟨⟨key, _⟩, hentry, rfl⟩ := List.mem_map.mp hvalue
        cases heq
        exact hinner m (.map hentry)

theorem pruneMember_eq (field : Field) (m : Message) (json : Json) :
    Content.pruneMember field m.contents json =
      (m.content? field.number).elim (some json) fun content =>
        if field.hidesZero && content.isZero then none else some (content.prune json) := by
  have hlist (contents : List (Nat × Content)) : Content.pruneMember field contents json =
      (Entries.get? field.number contents).elim (some json) fun content =>
        if field.hidesZero && content.isZero then none else some (content.prune json) := by
    induction contents with
    | nil => rw [Content.pruneMember]; rfl
    | cons entry rest ih =>
        obtain ⟨number, content⟩ := entry
        rw [Content.pruneMember, Entries.get?]
        by_cases hnumber : number = field.number
        · rw [if_pos hnumber, if_pos hnumber]
          rfl
        · rw [if_neg hnumber, if_neg hnumber]
          exact ih
  exact hlist m.contents

/-- In the second edition shows what shows in the first, unless it is a zero that its field hides. -/
theorem shows_toProto3 (h : field.CarriedTo next) {content : Content}
    (hfits : Content.Fits .bundled field content) :
    Message.shows next content.toProto3 =
      (Message.shows field content && !(next.hidesZero && content.isZero)) := by
  cases hfits with
  | @single _ value hsingle _ =>
      have hpresence := h.2
      rw [Content.toProto3, Message.shows, Message.shows, Value.isZero_toProto3, Field.hidesZero,
        Content.isZero, h.repeated, h.kind, Kind.isMessage_toProto3, h.oneof, hsingle]
      cases hnext : next.presence with
      | true => simp [hpresence hnext]
      | false =>
          cases field.kind.isMessage <;> cases field.oneof <;> cases value.isZero <;> simp
  | @list _ values _ _ _ _ =>
      simp [Content.toProto3, Message.shows, Value.listToProto3_eq, Content.isZero]
  | @map _ _ _ entries _ _ _ _ _ =>
      simp [Content.toProto3, Message.shows, Value.entriesToProto3_eq, Content.isZero]

/-- What hides its zero is no message, so that it is written. -/
theorem contentJson_of_hidesZero {content : Content}
    (hfits : Content.Fits .bundled field content)
    (hhidden : (next.hidesZero && content.isZero) = true) :
    ∃ json, contentJson .bundled field content = .ok json := by
  cases hfits with
  | single _ hvalue =>
      rcases hvalue.cases with hscalar | ⟨m, _, rfl, _⟩
      · exact ⟨_, (contentJson_single _ _).trans (valueJson_scalar hscalar.ne_message)⟩
      · simp [Content.isZero, Value.isZero] at hhidden
  | list => simp [Content.isZero] at hhidden
  | map => simp [Content.isZero] at hhidden

theorem memberJson_toProto3 (h : field.CarriedTo next) {type : Descriptor}
    (hsome : counterpart? m.descriptor.fullName = some type) (hm : m.WellTyped .bundled)
    (hfield : field ∈ m.descriptor.fields)
    (hinner : ∀ inner : Message, inner.Inside m → IsPruned inner) :
    memberJson .bundled next m.toProto3.contents =
      (memberJson .bundled field m.contents).map fun found =>
        found.bind (Content.pruneMember next m.contents) := by
  rw [memberJson_eq, memberJson_eq, Message.content?_toProto3 hsome, h.number]
  cases hcontent : m.content? field.number with
  | none => rfl
  | some content =>
      have hfits := hm.fits hfield hcontent
      have hprune (json : Json) : Content.pruneMember next m.contents json =
          if next.hidesZero && content.isZero then none else some (content.prune json) := by
        rw [pruneMember_eq, h.number, hcontent]
        rfl
      have hjson := contentJson_toProto3 h hfits fun inner hheld =>
        hinner inner (hheld.inside hcontent)
      simp only [Option.map_some, shows_toProto3 h hfits, hjson]
      cases Message.shows field content with
      | false => rfl
      | true =>
          cases hhidden : next.hidesZero && content.isZero with
          | true =>
              obtain ⟨json, hok⟩ := contentJson_of_hidesZero hfits hhidden
              simp [hok, Except.map, hprune, hhidden]
          | false =>
              cases contentJson .bundled field content with
              | error error => rfl
              | ok json => simp [Except.map, hprune, hhidden]

/-! The members of an object, field by field. -/

section

variable {member member' : Field → Except EncodeError (Option Json)} {fields others : List Field}
  {members : List (String × Json)}

/-- Fields that give nothing may be left out. -/
theorem gather_filter {wanted : Field → Bool}
    (h : ∀ field ∈ fields, wanted field = false → member field = .ok none) :
    gather member members fields = gather member members (fields.filter wanted) := by
  induction fields generalizing members with
  | nil => rfl
  | cons field rest ih =>
      rw [List.forall_mem_cons] at h
      cases hwanted : wanted field with
      | false =>
          rw [List.filter_cons_of_neg (by simp [hwanted]), gather, h.1 hwanted]
          exact ih h.2
      | true =>
          rw [List.filter_cons_of_pos hwanted, gather, gather]
          cases member field with
          | error error => rfl
          | ok given => cases given <;> exact ih h.2

theorem keepMembers_put {keep : String → Json → Option Json} {key : String} {json : Json}
    (hfresh : key ∉ members.map Prod.fst) :
    keepMembers keep (Entries.put key json members) =
      (keep key json).elim (keepMembers keep members) fun kept =>
        Entries.put key kept (keepMembers keep members) := by
  have hkept : key ∉ (keepMembers keep members).map Prod.fst := by
    intro hmem
    obtain ⟨found, hfound, rfl⟩ := List.mem_map.mp hmem
    obtain ⟨given, hgiven, heq⟩ := List.mem_filterMap.mp hfound
    obtain ⟨kept, _, rfl⟩ := Option.map_eq_some_iff.mp heq
    exact hfresh (List.mem_map.mpr ⟨given, hgiven, rfl⟩)
  rw [Entries.put_of_not_mem hfresh, keepMembers, List.filterMap_append, ← keepMembers]
  cases hkeep : keep key json with
  | none => simp [hkeep]
  | some kept =>
      rw [Option.elim_some, Entries.put_of_not_mem hkept]
      simp [hkeep]

theorem gather_keepMembers {keep : String → Json → Option Json}
    (h : List.Forall₂ Field.CarriedTo fields others)
    (hmember : ∀ field ∈ fields, ∀ other ∈ others, field.CarriedTo other →
      member' other = (member field).map fun found => found.bind (keep field.jsonName))
    (hnames : (fields.map Field.jsonName).Nodup)
    (hfresh : ∀ field ∈ fields, field.jsonName ∉ members.map Prod.fst) :
    gather member' (keepMembers keep members) others =
      (gather member members fields).map (keepMembers keep) := by
  -- By the fields: what is gathered in one edition is what is kept of what is gathered in the
  -- other.
  induction h generalizing members with
  | nil => rfl
  | @cons field other fields others hfirst _ ih =>
      rw [List.map_cons, List.nodup_cons] at hnames
      rw [List.forall_mem_cons] at hfresh
      have ih := fun {members} => @ih members
        (fun field hfield other hother => hmember field (List.mem_cons_of_mem _ hfield) other
          (List.mem_cons_of_mem _ hother)) hnames.2
      rw [gather, gather, hmember _ List.mem_cons_self _ List.mem_cons_self hfirst,
        hfirst.jsonName]
      cases member field with
      | error error => rfl
      | ok given =>
          cases given with
          | none => exact ih hfresh.2
          | some json =>
              have hfreshRest : ∀ next ∈ fields,
                  next.jsonName ∉ (Entries.put field.jsonName json members).map Prod.fst := by
                intro next hnext hmem
                rcases Entries.mem_map_fst_put.mp hmem with heq | hmem
                · exact hnames.1 (heq ▸ List.mem_map_of_mem hnext)
                · exact hfresh.2 next hnext hmem
              have hrest := ih hfreshRest
              rw [keepMembers_put hfresh.1] at hrest
              simp only [Except.map, bind, Except.bind, Option.bind_some] at hrest ⊢
              cases hkeep : keep field.jsonName json with
              | none =>
                  rw [hkeep] at hrest
                  exact hrest
              | some kept =>
                  rw [hkeep] at hrest
                  exact hrest

end

/-- What is kept of the members of a message of the first edition. -/
def keepIn (m : Message) (type : Descriptor) (key : String) (json : Json) : Option Json :=
  match type.fields.find? fun field => field.jsonName = key with
  | some field => Content.pruneMember field m.contents json
  | none => some json

theorem prune_of_none (h : counterpart? m.descriptor.fullName = none) (json : Json) :
    m.prune json = json := by
  obtain ⟨descriptor, contents, payload⟩ := m
  rw [Message.descriptor] at h
  simp only [Message.prune, h]

theorem prune_of_some {type : Descriptor} (h : counterpart? m.descriptor.fullName = some type)
    (members : List (String × Json)) :
    m.prune (.object members) = .object (keepMembers (keepIn m type) members) := by
  obtain ⟨descriptor, contents, payload⟩ := m
  rw [Message.descriptor] at h
  simp only [Message.prune, h]
  rfl

theorem membersJson_toProto3 {type : Descriptor}
    (hsome : counterpart? m.descriptor.fullName = some type)
    (hcarried : m.descriptor.CarriedTo type) (htype : type.WellFormed .bundled)
    (hd : m.descriptor.WellFormed .bundled) (hm : m.WellTyped .bundled)
    (hinner : ∀ inner : Message, inner.Inside m → IsPruned inner) :
    membersJson .bundled m.toProto3 =
      (membersJson .bundled m).map (keepMembers (keepIn m type)) := by
  have hnext : m.toProto3.descriptor = type := by
    rw [Message.descriptor_toProto3, Descriptor.toProto3, hsome]
    rfl
  have hadded : ∀ field ∈ type.fields,
      decide (field.number ∈ m.descriptor.fields.map Field.number) = false →
      memberJson .bundled field m.toProto3.contents = .ok none := by
    intro field _ hnew
    have hnone : m.content? field.number = none := by
      refine Entries.get?_eq_none_iff.mpr fun hmem => of_decide_eq_false hnew ?_
      obtain ⟨own, hown, heq⟩ := hm.declared hmem
      exact List.mem_map.mpr ⟨own, hown, heq⟩
    rw [memberJson_eq, Message.content?_toProto3 hsome, hnone]
    rfl
  rw [membersJson_eq, membersJson_eq, hnext, gather_filter hadded]
  refine @gather_keepMembers _ _ _ _ [] (keepIn m type) hcarried.fields ?_ hd.jsonNames
    fun _ _ => List.not_mem_nil
  intro field hfield next hnext hfollows
  have hfound : type.fields.find? (fun other => other.jsonName = field.jsonName) = some next := by
    obtain ⟨hmem, _⟩ := List.mem_filter.mp hnext
    cases hfind : type.fields.find? fun other => other.jsonName = field.jsonName with
    | none =>
        have hnone := List.find?_eq_none.mp hfind next hmem
        simp [hfollows.jsonName] at hnone
    | some other =>
        have hother := List.find?_some hfind
        rw [decide_eq_true_eq] at hother
        rw [htype.eq_of_jsonName (List.mem_of_find?_eq_some hfind) hmem
          (hother.trans hfollows.jsonName.symm)]
  have hkeep : keepIn m type field.jsonName = Content.pruneMember next m.contents := by
    funext json
    rw [keepIn, hfound]
  rw [hkeep]
  exact memberJson_toProto3 hfollows hsome hm hfield hinner

theorem isPruned {m : Message} (hm : m.WellTyped .bundled)
    (hknown : Registry.bundled.message? m.descriptor.fullName = some m.descriptor) :
    IsPruned m := by
  have hregistry := Registry.bundled_wellFormed
  -- By what is inside: a message of another type has nothing of the first edition in it but below
  -- payloads.
  induction m using Message.inside_induction with
  | step m ih =>
      rw [IsPruned]
      cases hsome : counterpart? m.descriptor.fullName with
      | none =>
          rw [Message.toProto3_of_none hsome]
          cases messageJson .bundled m with
          | error error => rfl
          | ok json => rw [Except.map, prune_of_none hsome]
      | some type =>
          obtain ⟨own, _, hcarried, hown, htype, _⟩ := counterpart?_spec hsome
          rw [hknown] at hown
          cases hown
          have hnext : m.toProto3.descriptor.wellKnown? = none := by
            rw [Message.descriptor_toProto3, Descriptor.toProto3, hsome]
            exact hcarried.plain.2
          rw [messageJson_plain hcarried.plain.1, messageJson_plain hnext,
            membersJson_toProto3 hsome hcarried (hregistry.descriptors _ _ htype).2
              (hregistry.descriptors _ _ hknown).2 hm]
          · cases membersJson .bundled m with
            | error error => rfl
            | ok members => simp only [Except.map, prune_of_some hsome]
          · intro inner hinside
            obtain ⟨hinner, name, hname⟩ := hm.inside hinside
            obtain ⟨rfl, _⟩ := hregistry.descriptors _ _ hname
            exact ih inner hinside hinner hname

end Encoding

/-- Decoded alike, or refused at one place. -/
theorem decode_toProto3 {name : String} {descriptor : Descriptor}
    (hknown : Registry.bundled.message? name = some descriptor) {bytes : List UInt8}
    (h : ∀ text fields, Utf8.decode bytes = .ok text → Tree.parse text = .ok fields →
      Binding.InBothEditions descriptor fields) :
    (∃ m, decode .bundled descriptor bytes = .ok m ∧
        decode .bundled descriptor.toProto3 bytes = .ok m.toProto3) ∨
      ∃ error other, decode .bundled descriptor bytes = .error error ∧
        decode .bundled descriptor.toProto3 bytes = .error other ∧
        error.position? = other.position? := by
  rw [decode, decode]
  cases htext : Utf8.decode bytes with
  | error malformed => exact .inr ⟨_, _, rfl, rfl, rfl⟩
  | ok text =>
      simp only [decodeText]
      cases hfields : Tree.parse text with
      | error failure => exact .inr ⟨_, _, rfl, rfl, rfl⟩
      | ok fields =>
          have hcarried := Binding.carried_messageOf hknown (h text fields htext hfields)
          rcases hcarried.cases with ⟨m, hm, hn⟩ | ⟨cause, other, hcause, hother, hposition⟩
          · simp only [hm, hn]
            exact .inl ⟨m, rfl, rfl⟩
          · simp only [hcause, hother]
            exact .inr ⟨_, _, rfl, rfl, congrArg some hposition⟩

/-- A text that sets no field of the second edition alone is bound in both or refused at one place in
both. It is written as JSON in both or in neither, and in the second with those members deleted that
hold zero for a field without presence. -/
theorem decode_editions {type : Edition → String}
    (htype : type = Edition.allTypes ∨ type = Edition.nestedAllTypes) {first second : Descriptor}
    (hfirst : Registry.bundled.message? (type .proto2) = some first)
    (hsecond : Registry.bundled.message? (type .proto3) = some second) {bytes : List UInt8}
    (h : ∀ text fields, Utf8.decode bytes = .ok text → Tree.parse text = .ok fields →
      Binding.InBothEditions first fields) :
    (∀ error, decode .bundled first bytes = .error error →
        ∃ other, decode .bundled second bytes = .error other ∧ other.line = error.line ∧
          other.column = error.column) ∧
      ∀ m, decode .bundled first bytes = .ok m →
        ∃ n, decode .bundled second bytes = .ok n ∧
          n.toJson .bundled = (m.toJson .bundled).map m.prune := by
  -- The second type is what the first one is carried over to.
  have hname : typeInProto3 (type .proto2) = type .proto3 :=
    typeInProto3_types type (by rcases htype with rfl | rfl <;> simp)
  have hcarried := message?_typeInProto3 (type .proto2)
  rw [hname, hsecond, hfirst] at hcarried
  obtain rfl := Option.some.inj hcarried
  rcases decode_toProto3 hfirst h with ⟨m, hm, hn⟩ | ⟨error, other, herror, hother, hposition⟩
  · rw [hm, hn]
    refine ⟨fun error herror => ?_, fun found hfound => ?_⟩
    · cases herror
    · cases hfound
      obtain ⟨hwellTyped, rfl⟩ := decode_typed Registry.bundled_wellFormed hfirst hm
      have hown := (Registry.bundled_wellFormed.descriptors _ _ hfirst).1
      exact ⟨_, rfl, Encoding.isPruned hwellTyped (by rw [hown, hfirst])⟩
  · rw [herror, hother]
    refine ⟨fun found hfound => ?_, fun m hm => ?_⟩
    · cases hfound
      refine ⟨other, rfl, ?_, ?_⟩
      · rw [DecodeError.line, DecodeError.line, hposition]
      · rw [DecodeError.column, DecodeError.column, hposition]
    · cases hm

/-- Zeros of fields without presence are written in one edition and not in the other. -/
theorem decode_editions_zeros :
    let bytes := Utf8.encode "single_int32: 0 standalone_message { bb: 0 }".toList
    ∃ first second m n json,
      Registry.bundled.message? Edition.proto2.allTypes = some first ∧
      Registry.bundled.message? Edition.proto3.allTypes = some second ∧
      decode .bundled first bytes = .ok m ∧ decode .bundled second bytes = .ok n ∧
      m.toJson .bundled = .ok json ∧ n.toJson .bundled = .ok (m.prune json) ∧
      json.compact = "\x7b\"singleInt32\":0,\"standaloneMessage\":\x7b\"bb\":0\x7d\x7d" ∧
      (m.prune json).compact = "\x7b\"standaloneMessage\":\x7b\x7d\x7d" := by
  let text := "single_int32: 0 standalone_message { bb: 0 }".toList
  let first : Descriptor := ⟨Edition.proto2.allTypes, .message Edition.proto2.fields⟩
  let second : Descriptor := ⟨Edition.proto3.allTypes, .message Edition.proto3.fields⟩
  have hfirst : Registry.bundled.message? Edition.proto2.allTypes = some first :=
    @Bundled.message?_of_mem first (by simp [types, Edition.types, first])
  have hsecond : Registry.bundled.message? Edition.proto3.allTypes = some second :=
    @Bundled.message?_of_mem second (by simp [types, Edition.types, second])
  have hparse : Tree.parse "single_int32: 0 standalone_message { bb: 0 }".toList = .ok
      [ ⟨.plain "single_int32".toList, ⟨1, 1⟩, .scalar (.integer false ['0'] .octal) ⟨1, 15⟩⟩,
        ⟨.plain "standalone_message".toList, ⟨1, 17⟩, .message
          [⟨.plain "bb".toList, ⟨1, 38⟩, .scalar (.integer false ['0'] .octal) ⟨1, 42⟩⟩]
          ⟨1, 36⟩⟩ ] := by
    cbv
  have hboth : ∀ read fields, Utf8.decode (Utf8.encode text) = .ok read →
      Tree.parse read = .ok fields → Binding.InBothEditions first fields := by
    intro read fields hread hfields
    rw [Utf8.decode_encode] at hread
    cases hread
    rw [hparse] at hfields
    cases hfields
    refine Binding.inBothEditions_of_throughout ?_
    simp [Tree.Node.throughout_field, Tree.Node.throughout_message, Tree.Node.throughout_scalar,
      Tree.Field.value, Tree.Field.name, addedNames]
  obtain ⟨m, json, hm, hjson, hcompact⟩ := @exists_of_compact .bundled first (Utf8.encode text)
    "\x7b\"singleInt32\":0,\"standaloneMessage\":\x7b\"bb\":0\x7d\x7d" (by decide +kernel)
  obtain ⟨n, other, hn, hother, hcompact'⟩ := @exists_of_compact .bundled second (Utf8.encode text)
    "\x7b\"standaloneMessage\":\x7b\x7d\x7d" (by decide +kernel)
  obtain ⟨found, hfound, hpruned⟩ := (decode_editions (.inl rfl) hfirst hsecond hboth).2 m hm
  cases hn.symm.trans hfound
  rw [hjson, Except.map] at hpruned
  cases hother.symm.trans hpruned
  exact ⟨first, second, m, n, json, hfirst, hsecond, hm, hn, hjson, hother, hcompact, hcompact'⟩

end Textproto
