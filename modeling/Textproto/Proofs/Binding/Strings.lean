import Textproto.Proofs.Binding.Literals
import Textproto.Proofs.Tree.Strings

namespace Textproto

/-! Strings as the values of fields, and a literal for all bytes. -/

namespace Tree

/-- A byte as an escape of two hexadecimal digits. -/
def hexEscape (byte : UInt8) : List Char :=
  ['\\', 'x', Nat.digitChar (byte.toNat / 16), Nat.digitChar (byte.toNat % 16)]

/-- A literal of nothing but escapes. -/
def hexLiteral (quote : Char) (bytes : List UInt8) : List Char :=
  quote :: (bytes.flatMap hexEscape ++ [quote])

theorem digitChar_hex : ∀ value < 256,
    [Nat.digitChar (value / 16), Nat.digitChar (value % 16)].all isHexDigit = true ∧
      valueOf 16 [Nat.digitChar (value / 16), Nat.digitChar (value % 16)] = value := by
  decide +kernel

theorem literalBody_hexEscapes (quote : Char) (bytes : List UInt8) :
    LiteralBody quote (bytes.flatMap hexEscape) bytes := by
  induction bytes with
  | nil => exact .nil
  | cons byte bytes ih =>
      obtain ⟨hdigits, hvalue⟩ := digitChar_hex byte.toNat byte.toNat_lt
      have hspells := @Escape.Spells.hex 'x'
        [Nat.digitChar (byte.toNat / 16), Nat.digitChar (byte.toNat % 16)]
        (bytes.flatMap hexEscape) (.inl rfl) (List.cons_ne_nil _ _) (Nat.le_refl 2) hdigits
        (.inl rfl)
      rw [hvalue, UInt8.ofNat_toNat] at hspells
      exact .escape hspells ih

theorem literalText_hexLiteral {quote : Char} (hquote : isQuote quote = true)
    (bytes : List UInt8) : LiteralText (hexLiteral quote bytes) bytes :=
  .mk hquote (literalBody_hexEscapes quote bytes)

theorem FurtherLiterals.written {text : List Char} {bytes : List UInt8}
    (h : FurtherLiterals text bytes) :
    ∃ values : List (List UInt8), values.flatten = bytes ∧
      Written (values.map .literal) text := by
  induction h with
  | nil => exact ⟨[], rfl, .done (.layout .nil)⟩
  | @cons gap text rest bytes more hgap htext _ ih =>
      obtain ⟨values, rfl, hwritten⟩ := ih
      exact ⟨bytes :: values, rfl, .token hgap (.literal htext) (fun _ _ => rfl) hwritten⟩

/-- Literals with layout between them are the tokens of one string. -/
theorem LiteralTexts.written {text : List Char} {bytes : List UInt8} (h : LiteralTexts text bytes) :
    ∃ tokens, ScalarTokens (.string bytes) tokens ∧ Written tokens text := by
  obtain ⟨htext, hrest⟩ := h
  obtain ⟨values, rfl, hwritten⟩ := hrest.written
  exact ⟨_, .string, .token .nil (.literal htext) (fun _ _ => rfl) hwritten⟩

end Tree

namespace Binding

variable {registry : Registry} {field : Field} {bytes : List UInt8}

/-- What a field stores of a string: all its bytes, or the text that they encode. -/
inductive StringValue : Kind → List UInt8 → Value → Prop
  | bytes {bytes : List UInt8} : StringValue .bytes bytes (.bytes bytes)
  | text {bytes : List UInt8} {text : List Char} :
      Utf8.decode bytes = .ok text → StringValue .string bytes (.string (String.ofList text))

theorem scalarAs_string (registry : Registry) (hkind : field.kind = .bytes ∨ field.kind = .string)
    (bytes : List UInt8) :
    (∃ value, StringValue field.kind bytes value ∧
        scalarAs registry field (.string bytes) = .ok value) ∨
      (∃ error, field.kind = .string ∧ Utf8.decode bytes = .error error ∧
        scalarAs registry field (.string bytes) = .error (.invalidText field.name)) := by
  rcases hkind with hkind | hkind
  · rw [hkind]
    exact .inl ⟨.bytes bytes, .bytes, by simp only [scalarAs, hkind]⟩
  · rw [hkind]
    cases htext : Utf8.decode bytes with
    | ok text => exact .inl ⟨_, .text htext, by simp only [scalarAs, hkind, htext]⟩
    | error error => exact .inr ⟨error, rfl, rfl, by simp only [scalarAs, hkind, htext]⟩

end Binding

open Binding Textproto.Tree in
/-- A string begins with a quote and is read up to the end of its last literal, as the bytes of all
of them. Where a literal goes wrong, so does the string. All bytes have a literal; a field of bytes
stores what a string spells, and a field of text what is encoded so, or nothing at all. -/
theorem decode_strings {name : String} {root : Descriptor}
    (hknown : Registry.bundled.message? name = some root) :
    (∀ c scalar d, (string c).Reads scalar d ↔ ∃ text bytes, LiteralTexts text bytes ∧
      scalar = .string bytes ∧ c.rest = text ++ d.rest ∧ LiteralsEnd d.rest ∧
        d = c.advance text.length) ∧
    (∀ c, string c = .absent ↔ Stops isQuote c.rest) ∧
    (∀ c failure, string c = .failed failure ↔
      ∃ complaint offset, StringFlaw complaint offset c.rest ∧
        failure = .complain complaint (c.advance offset)) ∧
    (∀ quote bytes, isQuote quote = true → LiteralText (hexLiteral quote bytes) bytes) ∧
    (root.wellKnown? ≠ some .any → ∀ field ∈ root.fields,
      field.kind = .bytes ∨ field.kind = .string → ∀ text bytes, LiteralTexts text bytes →
        let document := Utf8.encode (field.name.toList ++ ':' :: text)
        (∃ value m, StringValue field.kind bytes value ∧
            decode .bundled root document = .ok m ∧ m.Stores field value) ∨
          (field.kind = .string ∧ (∃ error, Utf8.decode bytes = .error error) ∧
            ∃ error, decode .bundled root document = .error error)) ∧
    ∀ bytes m, decode .bundled root bytes = .ok m →
      ∃ text fields, Utf8.decode bytes = .ok text ∧ parse text = .ok fields ∧
        ∀ outer given, Site .bundled root fields outer given → outer.wellKnown? ≠ some .any →
          ∀ field ∈ outer.fields, field.kind = .bytes ∨ field.kind = .string →
            ∀ written place, .scalar (.string written) place ∈ writtenTo field given →
              ∃ part value, messageOf .bundled outer given = .ok part ∧
                StringValue field.kind written value ∧ part.Stores field value := by
  have hregistry := Registry.bundled_wellFormed
  have hd := (hregistry.descriptors name root hknown).2
  refine ⟨fun _ _ _ => reads_string_iff, fun _ => string_eq_absent_iff,
    fun _ _ => string_eq_failed_iff, fun _ bytes h => literalText_hexLiteral h bytes, ?_, ?_⟩
  · intro hplain field hfield hkind text bytes h document
    obtain ⟨tokens, htokens, hwritten⟩ := h.written
    obtain ⟨_, _, hparse⟩ := @parse_singleton _ _ (.string bytes) _
      (Bundled.spells_name hknown hfield) htokens hwritten nofun
    -- The document is decoded or refused as the string is for its field.
    rcases decode_singleton hregistry hd hplain hfield hparse with
      ⟨value, m, hvalue, hm, hstores⟩ | ⟨refused, error, hrefused, herror⟩
    · rcases scalarAs_string .bundled hkind bytes with ⟨other, hother, heq⟩ | ⟨_, _, _, heq⟩
      · cases hvalue.symm.trans heq
        exact .inl ⟨value, m, hother, hm, hstores⟩
      · cases hvalue.symm.trans heq
    · rcases scalarAs_string .bundled hkind bytes with ⟨_, _, heq⟩ | ⟨other, hstring, hinvalid, _⟩
      · cases hrefused.symm.trans heq
      · exact .inr ⟨hstring, ⟨other, hinvalid⟩, error, herror⟩
  · intro bytes m h
    obtain ⟨text, fields, htext, hfields, hm⟩ := decode_eq_ok_iff.mp h
    refine ⟨text, fields, htext, hfields, fun outer given hsite hplain field hfield hkind => ?_⟩
    intro written place hwritten
    obtain ⟨part, value, hpart, hvalue, hstores⟩ :=
      stores_of_site hregistry hd hm hsite hplain hfield hwritten
    rcases scalarAs_string .bundled hkind written with ⟨other, hother, heq⟩ | ⟨_, _, _, heq⟩
    · cases hvalue.symm.trans heq
      exact ⟨part, value, hpart, hother, hstores⟩
    · cases hvalue.symm.trans heq

open Textproto.Tree in
/-- A byte in octal digits and a character from two surrogates, with a comment between them. As text
the byte is refused. -/
theorem decode_strings_surrogates :
    (∃ m, decode .bundled (Bundled.wrapper "BytesValue" .bytes)
        (Utf8.encode "value:'\\377' # more\n\"\\ud83d\\uDE00\"".toList) = .ok m ∧
      m.Stores (.single "value" 1 .bytes) (.bytes [0xFF, 0xF0, 0x9F, 0x98, 0x80])) ∧
    ∃ error, decode .bundled (Bundled.wrapper "StringValue" .string)
      (Utf8.encode "value:\"\\xff\"".toList) = .error error := by
  have hbytes := Bundled.message?_of_mem (Bundled.mem_types_of_wellKnown
    (show Bundled.wrapper "BytesValue" .bytes ∈ Bundled.wellKnownTypes by
      simp [Bundled.wellKnownTypes]))
  have hstring := Bundled.message?_of_mem (Bundled.mem_types_of_wellKnown
    (show Bundled.wrapper "StringValue" .string ∈ Bundled.wellKnownTypes by
      simp [Bundled.wellKnownTypes]))
  have hoctal : LiteralText "'\\377'".toList [0xFF] :=
    .mk rfl (.escape (@Escape.Spells.octal "377".toList [] (by decide) (by decide) (by decide)
      (by decide) (.inl rfl)) .nil)
  have hpair : LiteralText "\"\\ud83d\\uDE00\"".toList [0xF0, 0x9F, 0x98, 0x80] :=
    .mk rfl (.escape (@Escape.Spells.pair "d83d".toList "DE00".toList [] rfl rfl rfl rfl
      (by decide) (by decide)) .nil)
  have hgap : Layout " # more\n".toList :=
    .blank rfl (@Layout.comment " more".toList [] (by decide) .nil)
  have hboth := LiteralTexts.mk hoctal (.cons hgap hpair .nil)
  have halone := LiteralTexts.mk (@literalText_hexLiteral '"' rfl [0xFF]) .nil
  have hinvalid : Utf8.decode [0xFF] = .error ⟨0, some 1⟩ := by cbv
  obtain ⟨_, _, _, _, hstored, _⟩ := decode_strings hbytes
  obtain ⟨_, _, _, _, hrefused, _⟩ := decode_strings hstring
  constructor
  · rcases hstored (by decide) _ List.mem_cons_self (.inl rfl) _ _ hboth with
      ⟨value, m, hvalue, hm, hstores⟩ | ⟨hkind, _⟩
    · cases hvalue
      exact ⟨m, hm, hstores⟩
    · cases hkind
  · rcases hrefused (by decide) _ List.mem_cons_self (.inr rfl) _ _ halone with
      ⟨value, m, hvalue, _⟩ | ⟨_, _, herror⟩
    · cases hvalue with
      | text htext => cases hinvalid.symm.trans htext
    · exact herror

end Textproto
