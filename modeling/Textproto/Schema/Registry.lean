import Textproto.Data.Entries
import Textproto.Schema.Descriptor

namespace Textproto

/-- The message types and enumerations known by their full names, in the order in which the
names were first added. -/
structure Registry where
  messages : List (String × Descriptor) := []
  enumerations : List (String × Enumeration) := []
  deriving Repr, DecidableEq

namespace Registry

def addMessage (registry : Registry) (descriptor : Descriptor) : Registry :=
  { registry with messages := Entries.put descriptor.fullName descriptor registry.messages }

def addEnumeration (registry : Registry) (enumeration : Enumeration) : Registry :=
  { registry with
    enumerations := Entries.put enumeration.fullName enumeration registry.enumerations }

def ofLists (messages : List Descriptor) (enumerations : List Enumeration) : Registry :=
  enumerations.foldl addEnumeration (messages.foldl addMessage {})

def message? (registry : Registry) (fullName : String) : Option Descriptor :=
  Entries.get? fullName registry.messages

def enumeration? (registry : Registry) (fullName : String) : Option Enumeration :=
  Entries.get? fullName registry.enumerations

def messageNames (registry : Registry) : List String :=
  registry.messages.map Prod.fst

/-- What follows the last `/`, if there is one. -/
def afterSlash? (url : List Char) : Option (List Char) :=
  if '/' ∈ url then some (url.reverse.takeWhile (· ≠ '/')).reverse else none

/-- The message type that the last segment of a type URL names. -/
def resolve? (registry : Registry) (url : String) : Option Descriptor :=
  (afterSlash? url.toList).bind fun name => registry.message? (String.ofList name)

@[simp] theorem message?_addMessage_self (registry : Registry) (descriptor : Descriptor) :
    (registry.addMessage descriptor).message? descriptor.fullName = some descriptor := by
  simp [message?, addMessage]

theorem message?_addMessage_of_ne (registry : Registry) (descriptor : Descriptor)
    {fullName : String} (hne : fullName ≠ descriptor.fullName) :
    (registry.addMessage descriptor).message? fullName = registry.message? fullName := by
  simp [message?, addMessage, Entries.get?_put_of_ne hne]

end Registry

/-- The name and kinds of a map's entries. A map is a repeated field of a map entry type. -/
def Field.mapEntry? (registry : Registry) (field : Field) : Option (String × MapEntry) :=
  match field.repeated, field.kind with
  | true, .message name => do
      let descriptor ← registry.message? name
      let entry ← descriptor.mapEntry?
      pure (descriptor.fullName, entry)
  | _, _ => none

theorem Field.repeated_of_mapEntry? {registry : Registry} {field : Field}
    {found : String × MapEntry} (h : field.mapEntry? registry = some found) :
    field.repeated = true := by
  unfold Field.mapEntry? at h
  split at h
  · assumption
  · cases h

end Textproto
