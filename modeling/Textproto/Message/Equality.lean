import Textproto.Message.Basic

namespace Textproto

/-!
When messages compare as equal. Contents count by field number, whatever the order in which
they were stored, and numbers compare as numbers: what is no number differs from itself.
-/

mutual

def Value.equals : Value → Value → Bool
  | .bool a, .bool b => a = b
  | .int32 a, .int32 b => a = b
  | .int64 a, .int64 b => a = b
  | .uint32 a, .uint32 b => a = b
  | .uint64 a, .uint64 b => a = b
  | .float x, .float y => x.equals y
  | .double x, .double y => x.equals y
  | .string a, .string b => a = b
  | .bytes a, .bytes b => a = b
  | .enum a, .enum b => a = b
  | .message m, .message n => m.equals n
  | _, _ => false

def Value.listEquals : List Value → List Value → Bool
  | [], [] => true
  | v :: vs, w :: ws => v.equals w && Value.listEquals vs ws
  | _, _ => false

def Value.entriesEqual : List (Key × Value) → List (Key × Value) → Bool
  | [], [] => true
  | (k, v) :: rest, (l, w) :: others => k = l && v.equals w && Value.entriesEqual rest others
  | _, _ => false

def Content.equals : Content → Content → Bool
  | .single v, .single w => v.equals w
  | .list vs, .list ws => Value.listEquals vs ws
  | .map es, .map fs => Value.entriesEqual es fs
  | _, _ => false

/-- Whether every content stands equal in `others`. -/
def Content.allIn (others : List (Nat × Content)) : List (Nat × Content) → Bool
  | [] => true
  | (number, content) :: rest =>
      (match Entries.get? number others with
        | some other => content.equals other
        | none => false)
      && Content.allIn others rest

def Message.equals : Message → Message → Bool
  | ⟨d, cs, none⟩, ⟨e, ds, none⟩ =>
      d = e && cs.length = ds.length && Content.allIn ds cs
  | ⟨d, cs, some (url, m)⟩, ⟨e, ds, some (other, n)⟩ =>
      d = e && cs.length = ds.length && Content.allIn ds cs && url = other && m.equals n
  | _, _ => false

end

end Textproto
