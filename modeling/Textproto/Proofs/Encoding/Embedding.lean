import Textproto.Proofs.Encoding.Maps
import Textproto.Proofs.Json.Sorted

namespace Textproto

/-! JSON values as messages of the types that stand for them. -/

namespace Bundled

def nullField : Field := .member "kind" "null_value" 1 (.enum nullValue)

def numberField : Field := .member "kind" "number_value" 2 .double

def stringField : Field := .member "kind" "string_value" 3 .string

def boolField : Field := .member "kind" "bool_value" 4 .bool

def structField : Field := .member "kind" "struct_value" 5 (.message struct)

def listField : Field := .member "kind" "list_value" 6 (.message structList)

theorem fields_structValueType : structValueType.fields =
    [nullField, numberField, stringField, boolField, structField, listField] := rfl

def fieldsField : Field := .many "fields" 1 (.message structEntry)

def valuesField : Field := .many "values" 1 (.message structValue)

def structType : Descriptor := ⟨struct, .wellKnown .struct [fieldsField]⟩

theorem wellFormed_structValueType : structValueType.WellFormed .bundled :=
  (Registry.bundled_wellFormed.descriptors _ _ message?_structValue).2

theorem wellFormed_structListType : structListType.WellFormed .bundled :=
  (Registry.bundled_wellFormed.descriptors _ _ message?_structList).2

theorem wellFormed_structType : structType.WellFormed .bundled :=
  (Registry.bundled_wellFormed.descriptors _ _ message?_struct).2

theorem mapEntry?_fieldsField : fieldsField.mapEntry? .bundled =
    some (structEntry, ⟨.string, .message structValue⟩) := by
  simp [Field.mapEntry?, fieldsField, Field.many, message?_structEntry, Descriptor.mapEntry?]

theorem mapEntry?_valuesField : valuesField.mapEntry? .bundled = none := by
  simp [Field.mapEntry?, valuesField, Field.many, message?_structValue, Descriptor.mapEntry?,
    structValueType]

theorem member_of_mem : ∀ field ∈ structValueType.fields,
    field.repeated = false ∧ field.oneof = some "kind" := by
  decide +kernel

theorem jsonName_fieldsField : fieldsField.jsonName = "fields" := by
  decide +kernel

theorem jsonName_valuesField : valuesField.jsonName = "values" := by
  decide +kernel

theorem mapValueKind_fieldsField :
    Encoding.mapValueKind .bundled fieldsField = .message structValue := by
  rw [Encoding.mapValueKind, mapEntry?_fieldsField]

end Bundled

namespace Json

/-! Messages as they are built up, from nothing in them. -/

/-- A value with one of its members set. -/
def choice (field : Field) (value : Value) : Message :=
  (Message.empty Bundled.structValueType).set field value

def listOf (values : List Value) : Message :=
  values.foldl (fun m value => m.push Bundled.valuesField value) (.empty Bundled.structListType)

def structOf (entries : List (Key × Value)) : Message :=
  entries.foldl (fun m entry => m.insert Bundled.fieldsField entry.1 entry.2)
    (.empty Bundled.structType)

mutual

/-- The value that stands for a JSON value. -/
def toValue : Json → Message
  | null => choice Bundled.nullField (.enum 0)
  | bool b => choice Bundled.boolField (.bool b)
  | int n => choice Bundled.numberField (.double (.ofInt n))
  | double x => choice Bundled.numberField (.double x)
  | string s => choice Bundled.stringField (.string s)
  | array items => choice Bundled.listField (.message (listOf (toValues items)))
  | object members => choice Bundled.structField (.message (structOf (toEntries members)))

def toValues : List Json → List Value
  | [] => []
  | item :: rest => .message item.toValue :: toValues rest

def toEntries : List (String × Json) → List (Key × Value)
  | [] => []
  | (key, value) :: rest => (.string key, .message value.toValue) :: toEntries rest

end

theorem toValues_eq (items : List Json) :
    toValues items = items.map fun item => .message item.toValue := by
  induction items with
  | nil => rw [toValues, List.map_nil]
  | cons item rest ih => rw [toValues, ih, List.map_cons]

theorem toEntries_eq (members : List (String × Json)) :
    toEntries members = members.map (Prod.map Key.string fun value => .message value.toValue) := by
  induction members with
  | nil => rw [toEntries, List.map_nil]
  | cons member rest ih => rw [toEntries, ih, List.map_cons, Prod.map]

theorem listOf_snoc (values : List Value) (value : Value) :
    listOf (values ++ [value]) = (listOf values).push Bundled.valuesField value := by
  rw [listOf, List.foldl_append]
  rfl

theorem structOf_snoc (entries : List (Key × Value)) (entry : Key × Value) :
    structOf (entries ++ [entry]) =
      (structOf entries).insert Bundled.fieldsField entry.1 entry.2 := by
  rw [structOf, List.foldl_append]
  rfl

/-! What is stored. -/

theorem content?_listOf (values : List Value) :
    (listOf values).content? Bundled.valuesField.number =
      if values = [] then none else some (.list values) := by
  induction values using List.reverseRecOn with
  | nil => rfl
  | append_singleton values value ih =>
      have hne : values ++ [value] ≠ [] := by simp
      rw [if_neg hne, listOf_snoc, Message.push, Message.content?_put_self, ih]
      by_cases hvalues : values = []
      · rw [if_pos hvalues, hvalues]
        rfl
      · rw [if_neg hvalues]
        rfl

theorem content?_structOf (entries : List (Key × Value)) :
    (structOf entries).content? Bundled.fieldsField.number =
      if entries = [] then none else some (.map (Key.collect entries)) := by
  induction entries using List.reverseRecOn with
  | nil => rfl
  | append_singleton entries entry ih =>
      have hne : entries ++ [entry] ≠ [] := by simp
      rw [if_neg hne, structOf_snoc, Message.insert, Message.content?_put_self, ih,
        Key.collect_snoc]
      by_cases hentries : entries = []
      · rw [if_pos hentries, hentries]
        rfl
      · rw [if_neg hentries]

/-! Types. -/

theorem descriptor_listOf (values : List Value) :
    (listOf values).descriptor = Bundled.structListType := by
  induction values using List.reverseRecOn with
  | nil => rfl
  | append_singleton values value ih => rw [listOf_snoc, Message.push, Message.descriptor_put, ih]

theorem descriptor_structOf (entries : List (Key × Value)) :
    (structOf entries).descriptor = Bundled.structType := by
  induction entries using List.reverseRecOn with
  | nil => rfl
  | append_singleton entries entry ih =>
      rw [structOf_snoc, Message.insert, Message.descriptor_put, ih]

theorem descriptor_toValue (json : Json) : json.toValue.descriptor = Bundled.structValueType := by
  cases json <;> rw [toValue] <;> rfl

theorem wellTyped_choice {field : Field} (hfield : field ∈ Bundled.structValueType.fields)
    {value : Value} (hvalue : Value.HasKind .bundled field.kind value) :
    (choice field value).WellTyped .bundled := by
  have hsingle := (Bundled.member_of_mem field hfield).1
  exact (Message.wellTyped_empty _).set Bundled.wellFormed_structValueType hfield nofun hsingle hvalue

theorem wellTyped_listOf {values : List Value}
    (h : ∀ value ∈ values, Value.HasKind .bundled (.message Bundled.structValue) value) :
    (listOf values).WellTyped .bundled := by
  induction values using List.reverseRecOn with
  | nil => exact Message.wellTyped_empty _
  | append_singleton values value ih =>
      rw [List.forall_mem_append] at h
      rw [listOf_snoc]
      refine (ih h.1).push ?_ ?_ rfl Bundled.mapEntry?_valuesField (h.2 _ (List.mem_singleton_self _))
      · rw [descriptor_listOf]
        exact Bundled.wellFormed_structListType
      · rw [descriptor_listOf]
        exact List.mem_singleton_self _

theorem wellTyped_structOf {entries : List (Key × Value)}
    (h : ∀ entry ∈ entries, entry.1.HasKind .string ∧
      Value.HasKind .bundled (.message Bundled.structValue) entry.2) :
    (structOf entries).WellTyped .bundled := by
  induction entries using List.reverseRecOn with
  | nil => exact Message.wellTyped_empty _
  | append_singleton entries entry ih =>
      rw [List.forall_mem_append] at h
      obtain ⟨hkey, hvalue⟩ := h.2 _ (List.mem_singleton_self _)
      rw [structOf_snoc]
      refine (ih h.1).insert ?_ ?_ Bundled.mapEntry?_fieldsField hkey hvalue
      · rw [descriptor_structOf]
        exact Bundled.wellFormed_structType
      · rw [descriptor_structOf]
        exact List.mem_singleton_self _

theorem hasKind_toValue {json : Json} (h : json.toValue.WellTyped .bundled) :
    Value.HasKind .bundled (.message Bundled.structValue) (.message json.toValue) :=
  .message (by rw [descriptor_toValue, Bundled.message?_structValue]) h

theorem hasKind_listOf {values : List Value}
    (h : ∀ value ∈ values, Value.HasKind .bundled (.message Bundled.structValue) value) :
    Value.HasKind .bundled (.message Bundled.structList) (.message (listOf values)) :=
  .message (by rw [descriptor_listOf, Bundled.message?_structList]) (wellTyped_listOf h)

theorem hasKind_structOf {entries : List (Key × Value)}
    (h : ∀ entry ∈ entries, entry.1.HasKind .string ∧
      Value.HasKind .bundled (.message Bundled.structValue) entry.2) :
    Value.HasKind .bundled (.message Bundled.struct) (.message (structOf entries)) :=
  .message (by rw [descriptor_structOf]; exact Bundled.message?_struct) (wellTyped_structOf h)

theorem hasKind_toValues {items : List Json}
    (h : ∀ item ∈ items, item.toValue.WellTyped .bundled) :
    ∀ value ∈ toValues items, Value.HasKind .bundled (.message Bundled.structValue) value := by
  rw [toValues_eq]
  intro value hvalue
  obtain ⟨item, hitem, rfl⟩ := List.mem_map.mp hvalue
  exact hasKind_toValue (h item hitem)

theorem hasKind_toEntries {members : List (String × Json)}
    (h : ∀ member ∈ members, member.2.toValue.WellTyped .bundled) :
    ∀ entry ∈ toEntries members, entry.1.HasKind .string ∧
      Value.HasKind .bundled (.message Bundled.structValue) entry.2 := by
  rw [toEntries_eq]
  intro entry hentry
  obtain ⟨member, hmember, rfl⟩ := List.mem_map.mp hentry
  exact ⟨.string (isText _), hasKind_toValue (h member hmember)⟩

end Json

namespace Encoding

open Json

theorem messageJson_choice {field : Field} (hfield : field ∈ Bundled.structValueType.fields)
    {value : Value} (hvalue : Value.HasKind .bundled field.kind value)
    (hfinite : ∀ x, value = .double x → x.isFinite = true) :
    messageJson .bundled (choice field value) = valueJson .bundled field.kind value := by
  have hcontent : (choice field value).content? field.number = some (.single value) :=
    Message.content?_put_self _ _ _
  have hmember : (choice field value).member? "kind" = some field.name :=
    (wellTyped_choice hfield hvalue).oneOfEach.named field hfield "kind"
      (Bundled.member_of_mem field hfield).2 (by rw [hcontent]; rfl)
  have hnamed : (choice field value).descriptor.fieldNamed? field.name = some field :=
    Bundled.wellFormed_structValueType.fieldNamed? hfield
  have hsingle := Message.single?_of_fieldNamed? hnamed
  rw [hcontent] at hsingle
  rw [messageJson_value rfl, hmember, Option.bind_some, hnamed]
  simp only [hsingle, hcontent, Option.bind_some, Content.single?, Option.map_some,
    Option.getD_some]
  split
  next x heq =>
    cases heq
    have hscalar (m : Message) : Value.double x ≠ .message m := by rintro ⟨⟩
    rw [hfinite x rfl, if_pos rfl, valueJson_scalar hscalar]
    rfl
  next => rfl

theorem map_membersJson {registry : Registry} {m : Message} {field : Field}
    (hfields : m.descriptor.fields = [field]) (default : Json) :
    (membersJson registry m).map (memberOr default field.jsonName) =
      (memberJson registry field m.contents).map (·.getD default) := by
  rw [membersJson_eq, hfields, gather]
  cases memberJson registry field m.contents with
  | error error => rfl
  | ok found =>
      cases found with
      | none => rfl
      | some json =>
          simp [gather, Entries.put, memberOr, Entries.get?, bind, Except.bind, Except.map]

/-- Content that does not show is left out, if it is written as what stands for its absence. -/
theorem map_memberJson {registry : Registry} {m : Message} {field : Field} {content : Content}
    {default : Json}
    (h : m.content? field.number = some content ∧ Message.shows field content = true ∨
      m.content? field.number = none ∧ contentJson registry field content = .ok default) :
    (memberJson registry field m.contents).map (·.getD default) =
      contentJson registry field content := by
  rw [memberJson_eq]
  rcases h with ⟨hcontent, hshows⟩ | ⟨hnone, hdefault⟩
  · simp only [hcontent, hshows, if_true]
    cases contentJson registry field content <;> rfl
  · rw [hnone, hdefault]
    rfl

theorem messageJson_listOf (values : List Value) :
    messageJson .bundled (listOf values) =
      (listJson .bundled (.message Bundled.structValue) values).map .array := by
  have hdescriptor := descriptor_listOf values
  have hcontent := content?_listOf values
  rw [messageJson_listValue (by rw [hdescriptor]; rfl), ← Bundled.jsonName_valuesField,
    map_membersJson (by rw [hdescriptor]; rfl)]
  refine .trans (map_memberJson ?_) (contentJson_list Bundled.valuesField values)
  by_cases hvalues : values = []
  · rw [if_pos hvalues] at hcontent
    refine .inr ⟨hcontent, ?_⟩
    rw [hvalues, contentJson_list, listJson]
    rfl
  · rw [if_neg hvalues] at hcontent
    exact .inl ⟨hcontent, by simp [Message.shows, hvalues]⟩

/-- Entries are written in the order in which the members that they stand for are sorted. -/
theorem contentJson_collect {α : Type} (f : α → Value) {members : List (String × α)}
    (h : (members.map Prod.fst).Nodup) :
    contentJson .bundled Bundled.fieldsField
        (.map (Key.collect (members.map (Prod.map Key.string f)))) =
      (listJson .bundled (.message Bundled.structValue)
          ((members.mergeSort inOrder).map (f ∘ Prod.snd))).map fun items =>
        .object (((members.mergeSort inOrder).map Prod.fst).zip items) := by
  have htexts : ((members.mergeSort inOrder).map (Prod.map Key.string f)).map
      (fun entry => entry.1.text) = (members.mergeSort inOrder).map Prod.fst := by
    rw [List.map_map]
    rfl
  rw [contentJson_map, Bundled.mapValueKind_fieldsField, collect_map f h,
    entriesJson_eq (htexts ▸ nodup_mergeSort h) (fun _ _ => List.not_mem_nil), htexts, List.map_map,
    Prod.map_snd']
  cases listJson .bundled (.message Bundled.structValue)
    ((members.mergeSort inOrder).map (f ∘ Prod.snd)) <;> rfl

theorem messageJson_structOf {α : Type} (f : α → Value) {members : List (String × α)}
    (h : (members.map Prod.fst).Nodup) :
    messageJson .bundled (structOf (members.map (Prod.map Key.string f))) =
      (listJson .bundled (.message Bundled.structValue)
          ((members.mergeSort inOrder).map (f ∘ Prod.snd))).map fun items =>
        .object (((members.mergeSort inOrder).map Prod.fst).zip items) := by
  have hdescriptor := descriptor_structOf (members.map (Prod.map Key.string f))
  have hcontent := content?_structOf (members.map (Prod.map Key.string f))
  rw [messageJson_struct (by rw [hdescriptor]; rfl), ← Bundled.jsonName_fieldsField,
    map_membersJson (by rw [hdescriptor]; rfl)]
  refine .trans (map_memberJson ?_) (contentJson_collect f h)
  by_cases hmembers : members.map (Prod.map Key.string f) = []
  · rw [if_pos hmembers] at hcontent
    refine .inr ⟨hcontent, ?_⟩
    rw [hmembers, contentJson_map, Key.collect, List.foldl_nil, entriesJson]
    rfl
  · rw [if_neg hmembers] at hcontent
    exact .inl ⟨hcontent, by simp [Message.shows, Key.collect_ne_nil hmembers]⟩

/-! What stands for a JSON value is written as that value. -/

theorem asDoubles_doubleJson {x : Double} (h : x.isFinite = true) :
    (doubleJson x).asDoubles = .double x := by
  by_cases hwhole : ∃ n : Int, x.value = n
  · obtain ⟨n, hn⟩ := hwhole
    rw [doubleJson_of_value h hn]
    split
    next hint => rw [asDoubles, Ieee.ofInt_of_value h hn hint.2]
    next => simp only [asDoubles]
  · rw [doubleJson_of_fraction h (not_exists.mp hwhole)]
    simp only [asDoubles]

/-- A JSON value is given back by the message that stands for it. -/
structure Restored (json : Json) : Prop where
  typed : json.toValue.WellTyped .bundled
  written : ∃ found, messageJson .bundled json.toValue = .ok found ∧ found.asDoubles = json.sorted

theorem restored_choice {json : Json} {field : Field} {value : Value} {found : Json}
    (h : json.toValue = choice field value) (hfield : field ∈ Bundled.structValueType.fields)
    (hvalue : Value.HasKind .bundled field.kind value)
    (hfinite : ∀ x, value = .double x → x.isFinite = true)
    (hfound : valueJson .bundled field.kind value = .ok found)
    (hsorted : found.asDoubles = json.sorted) : Restored json where
  typed := h ▸ wellTyped_choice hfield hvalue
  written := ⟨found, by rw [h, messageJson_choice hfield hvalue hfinite, hfound], hsorted⟩

theorem exists_listJson {items : List Json} (h : ∀ item ∈ items, Restored item) (kind : Kind) :
    ∃ found, listJson .bundled kind (items.map fun item => .message item.toValue) = .ok found ∧
      found.map asDoubles = items.map sorted := by
  induction items with
  | nil => exact ⟨[], by rw [List.map_nil, listJson], rfl⟩
  | cons item rest ih =>
      rw [List.forall_mem_cons] at h
      obtain ⟨json, hjson, heq⟩ := h.1.written
      obtain ⟨more, hmore, hrest⟩ := ih h.2
      refine ⟨json :: more, ?_, by rw [List.map_cons, List.map_cons, heq, hrest]⟩
      rw [List.map_cons, listJson, valueJson_message, hjson, hmore]
      rfl

theorem restored_array {items : List Json} (h : ∀ item ∈ items, Restored item) :
    Restored (.array items) := by
  obtain ⟨found, hfound, heq⟩ := exists_listJson h (.message Bundled.structValue)
  have hvalues := hasKind_toValues fun item hitem => (h item hitem).typed
  refine @restored_choice _ Bundled.listField (.message (listOf (toValues items))) (.array found)
    (by rw [toValue]) (by simp [Bundled.fields_structValueType]) (hasKind_listOf hvalues) nofun
    ?_ ?_
  · rw [valueJson_message, messageJson_listOf, toValues_eq, hfound]
    rfl
  · rw [asDoubles, itemsAsDoubles_eq, heq, sorted, sortedItems_eq]

theorem restored_object {members : List (String × Json)} (hdistinct : (members.map Prod.fst).Nodup)
    (h : ∀ member ∈ members, Restored member.2) : Restored (.object members) := by
  -- The entries are kept in the order of the sorted members, so the values are told in that order.
  have hitems : ∀ item ∈ (members.mergeSort inOrder).map Prod.snd, Restored item := by
    intro item hitem
    obtain ⟨member, hmember, rfl⟩ := List.mem_map.mp hitem
    exact h member (List.mem_mergeSort.mp hmember)
  obtain ⟨found, hfound, heq⟩ := exists_listJson hitems (.message Bundled.structValue)
  have hentries := hasKind_toEntries fun member hmember => (h member hmember).typed
  refine @restored_choice _ Bundled.structField (.message (structOf (toEntries members)))
    (.object (((members.mergeSort inOrder).map Prod.fst).zip found)) (by rw [toValue])
    (by simp [Bundled.fields_structValueType]) (hasKind_structOf hentries) nofun ?_ ?_
  · rw [List.map_map] at hfound
    rw [valueJson_message, toEntries_eq, messageJson_structOf _ hdistinct]
    exact congrArg (Except.map _) hfound
  · rw [List.map_map] at heq
    rw [asDoubles, membersAsDoubles_eq, ← List.zip_map_right, heq, List.zip_map', sorted,
      sortedMembers_eq, ← map_mergeSort]
    rfl

theorem restored_scalar {json : Json} {field : Field} {value : Value} {found : Json}
    (h : json.toValue = choice field value) (hfield : field ∈ Bundled.structValueType.fields)
    (hvalue : value.IsScalar field.kind)
    (hfinite : ∀ x, value = .double x → x.isFinite = true)
    (hfound : scalarJson .bundled field.kind value = found)
    (hsorted : found.asDoubles = json.sorted) : Restored json := by
  refine restored_choice h hfield (.scalar hvalue) hfinite ?_ hsorted
  rw [valueJson_scalar hvalue.ne_message, hfound]

theorem restored_of_proper {json : Json} (h : json.Proper) : Restored json := by
  induction h with
  | null =>
      exact @restored_scalar _ Bundled.nullField (.enum 0) .null (by rw [toValue])
        (by simp [Bundled.fields_structValueType]) .enum nofun rfl
        (by simp only [asDoubles, sorted])
  | @bool b =>
      exact @restored_scalar _ Bundled.boolField (.bool b) (.bool b) (by rw [toValue])
        (by simp [Bundled.fields_structValueType]) .bool nofun rfl
        (by simp only [asDoubles, sorted])
  | @double x hfinite =>
      refine @restored_scalar _ Bundled.numberField (.double x) (doubleJson x) (by rw [toValue])
        (by simp [Bundled.fields_structValueType]) .double ?_ rfl ?_
      · rintro _ ⟨⟩
        exact hfinite
      · rw [asDoubles_doubleJson hfinite]
        simp only [sorted]
  | @string s =>
      exact @restored_scalar _ Bundled.stringField (.string s) (.string s) (by rw [toValue])
        (by simp [Bundled.fields_structValueType]) (.string (isText s)) nofun rfl
        (by simp only [asDoubles, sorted])
  | array _ ih => exact restored_array ih
  | object hdistinct _ ih => exact restored_object hdistinct ih

end Encoding

/-- A JSON value of finite numbers and distinct keys has a message of its own, which is written as
that value: with its members in the order of their keys, and with numbers that denote the same
doubles. -/
theorem toJson_toValue {json : Json} (h : json.Proper) :
    Registry.bundled.message? Bundled.structValue = some json.toValue.descriptor ∧
      json.toValue.WellTyped .bundled ∧
      ∃ found, json.toValue.toJson .bundled = .ok found ∧ found.asDoubles = json.sorted := by
  obtain ⟨htyped, hwritten⟩ := Encoding.restored_of_proper h
  refine ⟨?_, htyped, hwritten⟩
  rw [Json.descriptor_toValue, Bundled.message?_structValue]

/-- An object whose members stand in another order, with an empty list and a negative zero. -/
theorem toJson_toValue_nested :
    let json : Json := .object
      [("b", .array [.null, .array [], .double Ieee.zero.neg]), ("a", .object [("", .bool false)])]
    json.Proper ∧
      json.sorted = .object [("a", .object [("", .bool false)]),
        ("b", .array [.null, .array [], .double Ieee.zero.neg])] ∧
      ∃ found, json.toValue.toJson .bundled = .ok found ∧ found.asDoubles = json.sorted := by
  intro json
  have hproper : json.Proper := by
    have hitems : ∀ item ∈ [Json.null, .array [], .double Ieee.zero.neg], item.Proper := by
      simp only [List.forall_mem_cons]
      exact ⟨.null, .array (List.forall_mem_nil _), .double (by decide), List.forall_mem_nil _⟩
    refine .object (by simp) ?_
    simp only [List.forall_mem_cons]
    refine ⟨.array hitems, .object (by simp) ?_, List.forall_mem_nil _⟩
    simp only [List.forall_mem_cons]
    exact ⟨.bool, List.forall_mem_nil _⟩
  refine ⟨hproper, ?_, (toJson_toValue hproper).2.2⟩
  have horder (first second : Json) : Json.inOrder ("b", first) ("a", second) = false :=
    show decide (Utf8.encode "b".toList ≤ Utf8.encode "a".toList) = false by decide +kernel
  simp [json, Json.sorted, Json.sortedMembers, Json.sortedItems, List.mergeSort, horder]

end Textproto
