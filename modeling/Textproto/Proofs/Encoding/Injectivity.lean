import Textproto.Proofs.Binding.Bare
import Textproto.Proofs.Encoding.Scalar
import Textproto.Proofs.Encoding.Typed
import Textproto.Proofs.Encoding.Written
import Textproto.Proofs.Time.Text

namespace Textproto

/-! Messages that are written alike agree. -/

namespace Encoding

open Message

variable {registry : Registry} {m n : Message} {field : Field}

/-- Two messages agree where equal JSON is written for them. -/
def Told (registry : Registry) (m n : Message) : Prop :=
  ∀ json other, messageJson registry m = .ok json → messageJson registry n = .ok other →
    Json.Same json other → m.Agrees registry n

/-- What is held by two contents is told apart. -/
def ToldIn (registry : Registry) (content other : Content) : Prop :=
  ∀ inner found : Message, inner.HeldBy content → found.HeldBy other →
    inner.descriptor = found.descriptor → Told registry inner found

theorem valueJson_same (hregistry : registry.WellFormed) {kind : Kind} {v w : Value}
    (hv : Value.HasKind registry kind v) (hw : Value.HasKind registry kind w)
    (htold : ∀ inner found, v = .message inner → w = .message found →
      inner.descriptor = found.descriptor → Told registry inner found) {json other : Json}
    (hjson : valueJson registry kind v = .ok json) (hother : valueJson registry kind w = .ok other)
    (h : Json.Same json other) : Value.Agrees registry kind v w := by
  rcases hv.cases with hv | ⟨inner, _, rfl, name, rfl, hinner⟩
  · rcases hw.cases with hw | ⟨_, _, _, _, rfl, _⟩
    · rw [valueJson_scalar hv.ne_message] at hjson
      rw [valueJson_scalar hw.ne_message] at hother
      cases hjson
      cases hother
      exact scalarJson_same hregistry hv hw h
    · cases hv
  · rcases hw.cases with hw | ⟨found, _, rfl, other, heq, hfound⟩
    · cases hw
    · cases heq
      rw [hinner, Option.some.injEq] at hfound
      rw [valueJson_message] at hjson hother
      exact .message (htold inner found rfl rfl hfound _ _ hjson hother h)

theorem listJson_same (hregistry : registry.WellFormed) {values others : List Value}
    (hvalues : ∀ value ∈ values, Value.HasKind registry field.kind value)
    (hothers : ∀ value ∈ others, Value.HasKind registry field.kind value)
    (htold : ToldIn registry (.list values) (.list others)) {items found : List Json}
    (hitems : listJson registry field.kind values = .ok items)
    (hfound : listJson registry field.kind others = .ok found)
    (h : Json.Same (.array items) (.array found)) :
    Content.Agrees registry field (.list values) (.list others) := by
  obtain ⟨hlength, hitems⟩ := listJson_eq_ok hitems
  obtain ⟨hlength', hfound⟩ := listJson_eq_ok hfound
  cases h with
  | array hsame hitem =>
      refine .list (by omega) ?_
      intro i v w hv hw
      obtain ⟨json, hjson, hvalue⟩ := hitems i v hv
      obtain ⟨other, hother, hvalue'⟩ := hfound i w hw
      have hmem := List.mem_of_getElem? hv
      have hmem' := List.mem_of_getElem? hw
      refine valueJson_same hregistry (hvalues v hmem) (hothers w hmem') ?_ hvalue hvalue'
        (hitem i json other hjson hother)
      rintro inner found rfl rfl hdescriptor
      exact htold inner found (.list hmem) (.list hmem') hdescriptor

/-- Keys of one kind have texts of their own. -/
theorem nodup_texts {kind : Kind} {entries : List (Key × Value)} (hsorted : Key.Sorted entries)
    (hkeys : ∀ key ∈ entries.map Prod.fst, key.HasKind kind) :
    (entries.map fun entry => entry.1.text).Nodup := by
  have hnodup := hsorted.nodup
  rw [show (entries.map fun entry => entry.1.text) = (entries.map Prod.fst).map Key.text by simp]
  exact hnodup.map_on fun a ha b hb heq => Key.text_injective (hkeys a ha) (hkeys b hb) heq

/-- A key under which something is written is one of the keys. -/
theorem mem_keys_of_get? {kind valueKind : Kind} {entries : List (Key × Value)}
    (hsorted : Key.Sorted entries) (hkeys : ∀ key ∈ entries.map Prod.fst, key.HasKind kind)
    {members : List (String × Json)}
    (hmembers : entriesJson registry valueKind [] entries = .ok members) {key : Key}
    (hkey : key.HasKind kind) :
    key ∈ entries.map Prod.fst ↔ (Entries.get? key.text members).isSome = true := by
  obtain ⟨hgiven, hnone⟩ := entriesJson_eq_ok (nodup_texts hsorted hkeys) hmembers
  constructor
  · intro hmem
    obtain ⟨entry, hentry, rfl⟩ := List.mem_map.mp hmem
    obtain ⟨json, hjson, _⟩ := hgiven entry hentry
    rw [hjson]
    rfl
  · intro hsome
    by_contra hnot
    have htext : key.text ∉ entries.map fun entry => entry.1.text := by
      intro hmem
      obtain ⟨entry, hentry, htext⟩ := List.mem_map.mp hmem
      have hentry := List.mem_map_of_mem (f := Prod.fst) hentry
      rw [Key.text_injective (hkeys _ hentry) hkey htext] at hentry
      exact hnot hentry
    rw [hnone _ htext] at hsome
    cases hsome

theorem mapJson_same (hregistry : registry.WellFormed) {name : String} {entry : MapEntry}
    (hmap : field.mapEntry? registry = some (name, entry)) {entries others : List (Key × Value)}
    (hsorted : Key.Sorted entries) (hsorted' : Key.Sorted others)
    (hkeys : ∀ key ∈ entries.map Prod.fst, key.HasKind entry.key)
    (hkeys' : ∀ key ∈ others.map Prod.fst, key.HasKind entry.key)
    (hvalues : ∀ value ∈ entries.map Prod.snd, Value.HasKind registry entry.value value)
    (hvalues' : ∀ value ∈ others.map Prod.snd, Value.HasKind registry entry.value value)
    (htold : ToldIn registry (.map entries) (.map others)) {members written : List (String × Json)}
    (hmembers : entriesJson registry entry.value [] entries = .ok members)
    (hwritten : entriesJson registry entry.value [] others = .ok written)
    (h : Json.Same (.object members) (.object written)) :
    Content.Agrees registry field (.map entries) (.map others) := by
  cases h with
  | object hsame hmember =>
      have hmem (key : Key) : key ∈ entries.map Prod.fst ↔ key ∈ others.map Prod.fst := by
        constructor
        · intro hkey
          have hkind := hkeys key hkey
          rw [mem_keys_of_get? hsorted hkeys hmembers hkind, hsame] at hkey
          exact (mem_keys_of_get? hsorted' hkeys' hwritten hkind).mpr hkey
        · intro hkey
          have hkind := hkeys' key hkey
          rw [mem_keys_of_get? hsorted' hkeys' hwritten hkind, ← hsame] at hkey
          exact (mem_keys_of_get? hsorted hkeys hmembers hkind).mpr hkey
      -- Sorted entries of the same keys have them in one order.
      refine .map hmap (hsorted.map_fst_eq hsorted' hmem) ?_
      intro key v w hv hw
      obtain ⟨json, hjson, hvalue⟩ :=
        (entriesJson_eq_ok (nodup_texts hsorted hkeys) hmembers).1 _ hv
      obtain ⟨other, hother, hvalue'⟩ :=
        (entriesJson_eq_ok (nodup_texts hsorted' hkeys') hwritten).1 _ hw
      refine valueJson_same hregistry (hvalues v (List.mem_map_of_mem (f := Prod.snd) hv))
        (hvalues' w (List.mem_map_of_mem (f := Prod.snd) hw)) ?_ hvalue hvalue'
        (hmember key.text json other hjson hother)
      rintro inner found rfl rfl hdescriptor
      exact htold inner found (.map hv) (.map hw) hdescriptor

/-- What two fields hold agrees where it is written alike, if the messages in it are told apart. -/
theorem contentJson_same (hregistry : registry.WellFormed) {content other : Content}
    (hcontent : Content.Fits registry field content) (hother : Content.Fits registry field other)
    (htold : ToldIn registry content other) {json found : Json}
    (hjson : contentJson registry field content = .ok json)
    (hfound : contentJson registry field other = .ok found) (h : Json.Same json found) :
    Content.Agrees registry field content other := by
  cases hcontent with
  | single hsingle hvalue =>
      cases hother with
      | single _ hvalue' =>
          rw [contentJson_single] at hjson hfound
          refine .single (valueJson_same hregistry hvalue hvalue' ?_ hjson hfound h)
          rintro inner found rfl rfl hdescriptor
          exact htold inner found .single .single hdescriptor
      | list hrepeated => simp [hsingle] at hrepeated
      | map hmap => simp [Field.repeated_of_mapEntry? hmap] at hsingle
  | list hrepeated hlist hne hvalues =>
      cases hother with
      | single hsingle => simp [hsingle] at hrepeated
      | map hmap => simp [hlist] at hmap
      | list _ _ _ hvalues' =>
          rw [contentJson_list] at hjson hfound
          obtain ⟨items, hitems, rfl⟩ := Except.map_eq_ok_iff.mp hjson
          obtain ⟨others, hothers, rfl⟩ := Except.map_eq_ok_iff.mp hfound
          exact listJson_same hregistry hvalues hvalues' htold hitems hothers h
  | @map _ name entry entries hmap hne hsorted hkeys hvalues =>
      cases hother with
      | single hsingle => simp [Field.repeated_of_mapEntry? hmap] at hsingle
      | list _ hlist => simp [hlist] at hmap
      | @map _ _ _ others hmap' _ hsorted' hkeys' hvalues' =>
          rw [hmap] at hmap'
          cases hmap'
          rw [contentJson_map, show mapValueKind registry field = entry.value by
            simp [mapValueKind, hmap]] at hjson hfound
          obtain ⟨members, hmembers, rfl⟩ := Except.map_eq_ok_iff.mp hjson
          obtain ⟨written, hwritten, rfl⟩ := Except.map_eq_ok_iff.mp hfound
          exact mapJson_same hregistry hmap hsorted hsorted' hkeys hkeys' hvalues hvalues' htold
            hmembers hwritten h

/-! Whole messages. -/

/-- What two messages hold in a field agrees where its members are alike. -/
theorem memberJson_same (hregistry : registry.WellFormed) (hm : m.WellTyped registry)
    (hn : n.WellTyped registry) (hdescriptor : m.descriptor = n.descriptor)
    (hfield : field ∈ m.descriptor.fields)
    (htold : ∀ inner found : Message, inner.Inside m → found.Inside n →
      inner.descriptor = found.descriptor → Told registry inner found)
    {json? other? : Option Json} (hjson : memberJson registry field m.contents = .ok json?)
    (hfound : memberJson registry field n.contents = .ok other?)
    (hsome : json?.isSome = other?.isSome)
    (h : ∀ json other, json? = some json → other? = some other → Json.Same json other) :
    m.AgreesOn registry n field := by
  have hfield' : field ∈ n.descriptor.fields := hdescriptor ▸ hfield
  obtain ⟨hshows, hgiven⟩ := memberJson_eq_ok hjson
  obtain ⟨hshows', hgiven'⟩ := memberJson_eq_ok hfound
  refine ⟨?_, ?_⟩
  · rw [hm.blank_iff hfield, hn.blank_iff hfield', ← hshows, ← hshows', hsome]
  · intro content other hcontent hother hblank
    rw [hm.blank_iff hfield, ← hshows, Bool.not_eq_false] at hblank
    obtain ⟨json, rfl⟩ := Option.isSome_iff_exists.mp hblank
    obtain ⟨found, rfl⟩ := Option.isSome_iff_exists.mp (hsome ▸ hblank)
    obtain ⟨stored, hstored, hjson⟩ := hgiven json rfl
    obtain ⟨stored', hstored', hfound⟩ := hgiven' found rfl
    rw [hcontent] at hstored
    rw [hother] at hstored'
    cases hstored
    cases hstored'
    refine contentJson_same hregistry (hm.fits hfield hcontent) (hn.fits hfield' hother) ?_ hjson
      hfound (h json found rfl rfl)
    intro inner held hinner hheld
    exact htold inner held (hinner.inside hcontent) (hheld.inside hother)

theorem membersJson_same (hregistry : registry.WellFormed) (hm : m.WellTyped registry)
    (hn : n.WellTyped registry) (hd : m.descriptor.WellFormed registry)
    (hdescriptor : m.descriptor = n.descriptor)
    (htold : ∀ inner found : Message, inner.Inside m → found.Inside n →
      inner.descriptor = found.descriptor → Told registry inner found)
    {members found : List (String × Json)} (hmembers : membersJson registry m = .ok members)
    (hfound : membersJson registry n = .ok found)
    (h : Json.Same (.object members) (.object found)) :
    ∀ field ∈ m.descriptor.fields, m.AgreesOn registry n field := by
  intro field hfield
  have hjson := (membersJson_eq_ok hd hmembers).1 field hfield
  have hother := (membersJson_eq_ok (hdescriptor ▸ hd) hfound).1 field (hdescriptor ▸ hfield)
  cases h with
  | object hsame hmember =>
      exact memberJson_same hregistry hm hn hdescriptor hfield htold hjson hother
        (hsame field.jsonName) (hmember field.jsonName)

end Encoding

end Textproto
