import Textproto.Proofs.Binding.Alike
import Textproto.Proofs.Encoding.Forms
import Textproto.Proofs.Schema.Bundled

namespace Textproto

namespace Encoding

/-! Messages are written the same in whatever order their contents are stored. -/

open Message

variable {registry : Registry} {m n : Message}

/-- Two messages are written the same, by their type and field by field. -/
structure WrittenAs (registry : Registry) (m n : Message) : Prop where
  message : messageJson registry m = messageJson registry n
  members : membersJson registry m = membersJson registry n

theorem valueJson_alike (kind : Kind) {value other : Value} (h : value.Alike other)
    (hinner : ∀ m n, value = .message m → other = .message n → m.Alike n →
      WrittenAs registry m n) : valueJson registry kind value = valueJson registry kind other := by
  cases h with
  | scalar => rfl
  | message h => rw [valueJson_message, valueJson_message, (hinner _ _ rfl rfl h).message]

theorem listJson_alike {kind : Kind} {values others : List Value}
    (h : List.Forall₂ Value.Alike values others)
    (hinner : ∀ m n, .message m ∈ values → .message n ∈ others → m.Alike n →
      WrittenAs registry m n) : listJson registry kind values = listJson registry kind others := by
  induction h with
  | nil => rfl
  | cons halike _ ih =>
      have hfirst := valueJson_alike kind halike fun m n hm hn =>
        hinner m n (hm ▸ List.mem_cons_self) (hn ▸ List.mem_cons_self)
      have hrest := ih fun m n hm hn =>
        hinner m n (List.mem_cons_of_mem _ hm) (List.mem_cons_of_mem _ hn)
      rw [listJson, listJson, hfirst, hrest]

theorem entriesJson_alike {kind : Kind} {entries others : List (Key × Value)}
    (h : List.Forall₂ EntryAlike entries others)
    (hinner : ∀ m n, .message m ∈ entries.map Prod.snd → .message n ∈ others.map Prod.snd →
      m.Alike n → WrittenAs registry m n) (members : List (String × Json)) :
    entriesJson registry kind members entries = entriesJson registry kind members others := by
  induction h generalizing members with
  | nil => rfl
  | @cons entry other _ _ halike _ ih =>
      obtain ⟨key, value⟩ := entry
      obtain ⟨own, other⟩ := other
      obtain ⟨rfl, halike⟩ : key = own ∧ value.Alike other := halike
      have hfirst := valueJson_alike kind halike fun m n hm hn =>
        hinner m n (hm ▸ List.mem_cons_self) (hn ▸ List.mem_cons_self)
      rw [entriesJson, entriesJson, hfirst]
      cases valueJson registry kind other with
      | error => rfl
      | ok json =>
          exact ih (fun m n hm hn =>
            hinner m n (List.mem_cons_of_mem _ hm) (List.mem_cons_of_mem _ hn)) _

theorem contentJson_alike (field : Field) {content other : Content} (h : content.Alike other)
    (hinner : ∀ m n : Message, m.HeldBy content → n.HeldBy other → m.Alike n →
      WrittenAs registry m n) :
    contentJson registry field content = contentJson registry field other := by
  simp only [heldBy_iff] at hinner
  cases h with
  | single h =>
      rw [contentJson_single, contentJson_single]
      refine valueJson_alike _ h fun m n hm hn => hinner m n ?_ ?_
      · rw [hm]; exact List.mem_cons_self
      · rw [hn]; exact List.mem_cons_self
  | list h => rw [contentJson_list, contentJson_list, listJson_alike h hinner]
  | map hkeys h =>
      have hentries := Content.alike_map_iff.mp (.map hkeys h)
      rw [contentJson_map, contentJson_map, entriesJson_alike hentries hinner]

/-- What is held by two messages that are alike is written the same. -/
def InnerWritten (registry : Registry) (m n : Message) : Prop :=
  ∀ inner other : Message, inner.Inside m → other.Inside n → inner.Alike other →
    WrittenAs registry inner other

theorem memberJson_alike (h : m.Alike n) (hinner : InnerWritten registry m n) (field : Field) :
    memberJson registry field m.contents = memberJson registry field n.contents := by
  rw [memberJson_eq, memberJson_eq]
  rcases h.content field.number with ⟨hm, hn⟩ | ⟨content, other, hm, hn, halike⟩
  · rw [hm, hn]
  · have hjson := contentJson_alike field halike fun inner found hheld hfound =>
      hinner inner found (hheld.inside hm) (hfound.inside hn)
    rw [hm, hn]
    simp only [halike.shows, hjson]

theorem membersJson_alike (h : m.Alike n) (hinner : InnerWritten registry m n) :
    membersJson registry m = membersJson registry n := by
  rw [membersJson_eq, membersJson_eq, ← h.descriptor]
  simp only [memberJson_alike h hinner]

theorem singleJson?_alike (h : m.Alike n) (hinner : InnerWritten registry m n) (kind : Kind)
    (number : Nat) :
    singleJson? registry kind number m.contents = singleJson? registry kind number n.contents := by
  rw [singleJson?_eq, singleJson?_eq]
  rcases h.content number with ⟨hm, hn⟩ | ⟨content, other, hm, hn, halike⟩
  · rw [hm, hn]
  · rw [hm, hn]
    cases halike with
    | list => rfl
    | map => rfl
    | single hvalue =>
        refine congrArg some (valueJson_alike kind hvalue ?_)
        rintro inner found rfl rfl
        exact hinner inner found (HeldBy.single.inside hm) (HeldBy.single.inside hn)

theorem seconds_alike (h : m.Alike n) : seconds m = seconds n := by
  rw [seconds, seconds]
  rcases rel_cases (h.rel.single? "seconds") with ⟨hm, hn⟩ | ⟨_, _, hm, hn, hvalue⟩
  · rw [hm, hn]
  · rw [hm, hn]
    cases hvalue <;> rfl

theorem nanos_alike (h : m.Alike n) : nanos m = nanos n := by
  rw [nanos, nanos]
  rcases rel_cases (h.rel.single? "nanos") with ⟨hm, hn⟩ | ⟨_, _, hm, hn, hvalue⟩
  · rw [hm, hn]
  · rw [hm, hn]
    cases hvalue <;> rfl

theorem fieldMaskJson_congr {paths others : List Value}
    (h : List.Forall₂ (fun path other => path.string? = other.string?) paths others) :
    fieldMaskJson paths = fieldMaskJson others := by
  have hcamel : camelPaths paths = camelPaths others := by
    induction h with
    | nil => rfl
    | cons hpath _ ih => rw [camelPaths, camelPaths, hpath, ih]
  rw [fieldMaskJson, fieldMaskJson, hcamel]

/-- Alike messages are written the same, or they are refused for the same reason. -/
theorem writtenAs_of_alike (h : m.Alike n) : WrittenAs registry m n := by
  -- By messages from those inside out.
  induction m using inside_induction generalizing n with
  | step m ih =>
      have hinner : InnerWritten registry m n := fun inner _ hinside _ halike =>
        ih inner hinside halike
      have hmembers := membersJson_alike h hinner
      refine ⟨?_, hmembers⟩
      have hsingle := singleJson?_alike h hinner
      have hsame : m.descriptor.wellKnown? = n.descriptor.wellKnown? := by rw [h.descriptor]
      cases htype : m.descriptor.wellKnown? with
      | none =>
          rw [messageJson_plain htype, messageJson_plain (hsame ▸ htype), hmembers]
      | some type =>
          have htype' := hsame ▸ htype
          cases type with
          | any =>
              rw [messageJson_any htype, messageJson_any htype']
              rcases h.payload with ⟨hm, hn⟩ | ⟨url, inner, other, hm, hn, halike⟩
              · rw [hm, hn]
              · obtain ⟨hmessage, hmembers⟩ := ih inner (.payload hm) halike
                rw [hm, hn]
                simp only [halike.descriptor, hmessage, hmembers]
          | empty => rw [messageJson_empty htype, messageJson_empty htype']
          | wrapper =>
              rw [messageJson_first htype, messageJson_first htype', ← h.descriptor]
              simp only [hsingle]
          | duration =>
              rw [messageJson_duration htype, messageJson_duration htype', seconds_alike h,
                nanos_alike h]
          | timestamp =>
              rw [messageJson_timestamp htype, messageJson_timestamp htype', seconds_alike h,
                nanos_alike h]
          | struct => rw [messageJson_struct htype, messageJson_struct htype', hmembers]
          | listValue => rw [messageJson_listValue htype, messageJson_listValue htype', hmembers]
          | value =>
              rw [messageJson_value htype, messageJson_value htype', ← h.descriptor, h.rel.member?]
              simp only [← singleJson?_eq, hsingle]
              cases (n.member? "kind").bind m.descriptor.fieldNamed? with
              | none => rfl
              | some field =>
                  rcases rel_cases (h.rel.single? field.name) with ⟨hm, hn⟩ | ⟨_, _, hm, hn, hvalue⟩
                  · simp only [hm, hn]
                  · simp only [hm, hn]
                    cases hvalue <;> rfl
          | fieldMask =>
              rw [messageJson_fieldMask htype, messageJson_fieldMask htype',
                fieldMaskJson_congr ((h.rel.list "paths").imp fun _ _ hpath => hpath.string?)]

end Encoding

/-- Fields in another order make up a message if these do, and it is the same message but for the
order in which its contents are stored: the two are equal unless a NaN is in them, and they are
written as the same JSON or refused for the same reason. -/
theorem Binding.messageOf_alike {name : String} {descriptor : Descriptor}
    (hknown : Registry.bundled.message? name = some descriptor) {fields others : List Tree.Field}
    (h : Tree.Alike fields others) :
    ((∃ m, messageOf .bundled descriptor fields = .ok m) ↔
        ∃ n, messageOf .bundled descriptor others = .ok n) ∧
      ∀ m n, messageOf .bundled descriptor fields = .ok m →
        messageOf .bundled descriptor others = .ok n →
        m.Alike n ∧ (m.equals n = true ↔ m.Throughout Message.Numeric) ∧
          m.toJson .bundled = n.toJson .bundled := by
  have hd := (Registry.bundled_wellFormed.descriptors name descriptor hknown).2
  refine ⟨?_, fun m n hm hn => ?_⟩
  · rw [messageOf_iff_valid Registry.bundled_wellFormed hd,
      messageOf_iff_valid Registry.bundled_wellFormed hd]
    exact ⟨Valid.alike h, Valid.alike h.symm⟩
  · have halike := makesAlike Registry.bundled_wellFormed fields descriptor others m n hd h hm hn
    have hmTyped := (messageOf_typed Registry.bundled_wellFormed hd hm).1
    have hnTyped := (messageOf_typed Registry.bundled_wellFormed hd hn).1
    exact ⟨halike, halike.equals_iff hmTyped hnTyped, (Encoding.writtenAs_of_alike halike).message⟩

def Bundled.durationType : Descriptor :=
  ⟨duration, .wellKnown .duration secondsAndNanos⟩

/-- A field that a whole number is written to. -/
def Tree.Field.whole (name digits : String) : Tree.Field :=
  ⟨.plain name.toList, .start, .scalar (.integer false digits.toList .decimal) .start⟩

/-- The two fields of a duration, in either order. -/
theorem Binding.messageOf_alike_duration :
    messageOf .bundled Bundled.durationType [.whole "seconds" "3", .whole "nanos" "5"] =
        .ok ⟨Bundled.durationType, [(1, .single (.int64 3)), (2, .single (.int32 5))], none⟩ ∧
      messageOf .bundled Bundled.durationType [.whole "nanos" "5", .whole "seconds" "3"] =
        .ok ⟨Bundled.durationType, [(2, .single (.int32 5)), (1, .single (.int64 3))], none⟩ ∧
      Message.toJson .bundled
          ⟨Bundled.durationType, [(1, .single (.int64 3)), (2, .single (.int32 5))], none⟩ =
        Message.toJson .bundled
          ⟨Bundled.durationType, [(2, .single (.int32 5)), (1, .single (.int64 3))], none⟩ := by
  have hknown : Registry.bundled.message? Bundled.duration = some Bundled.durationType :=
    @Bundled.message?_of_mem Bundled.durationType
      (Bundled.mem_types_of_wellKnown (by simp [Bundled.wellKnownTypes, Bundled.durationType]))
  have hseconds : messageOf .bundled Bundled.durationType
      [.whole "seconds" "3", .whole "nanos" "5"] =
        .ok ⟨Bundled.durationType, [(1, .single (.int64 3)), (2, .single (.int32 5))], none⟩ := by
    cbv
  have hnanos : messageOf .bundled Bundled.durationType
      [.whole "nanos" "5", .whole "seconds" "3"] =
        .ok ⟨Bundled.durationType, [(2, .single (.int32 5)), (1, .single (.int64 3))], none⟩ := by
    cbv
  have hswap : Tree.Alike [.whole "seconds" "3", .whole "nanos" "5"]
      [.whole "nanos" "5", .whole "seconds" "3"] :=
    @Tree.alike_swap [] [] (.whole "seconds" "3") (.whole "nanos" "5")
      (by simp [Tree.Field.whole, Tree.Field.name])
  exact ⟨hseconds, hnanos, ((messageOf_alike hknown hswap).2 _ _ hseconds hnanos).2.2⟩

end Textproto
