import Textproto.Text.Utf8

namespace Textproto.Terminal

/-!
What a terminal would show of a stream of bytes: escape and control sequences show nothing,
and of the bytes below the blank only the line feed is kept.
-/

/-- What the bytes so far have begun. -/
inductive State where
  | text
  | escape
  | escapeIntermediate
  /-- A control sequence, ended by its final byte. -/
  | control
  /-- An operating system command, ended by BEL. -/
  | command
  | deviceEntry
  | deviceParameters
  | deviceIntermediate
  /-- A string that only its terminator ends. -/
  | string
  deriving Repr, DecidableEq

/-- The next state outside plain text. -/
def State.next (b : UInt8) : State → State
  | .text => if b = 0x1B then .escape else .text
  | .escape =>
      if b = 0x1B then .escape
      else if b = 0x18 || b = 0x1A then .text
      else if 0x20 ≤ b && b ≤ 0x2F then .escapeIntermediate
      else if b = 0x5B then .control
      else if b = 0x5D then .command
      else if b = 0x50 then .deviceEntry
      else if b = 0x58 || b = 0x5E || b = 0x5F then .string
      else if 0x30 ≤ b && b ≤ 0x7E then .text
      else .escape
  | .escapeIntermediate =>
      if b = 0x1B then .escape
      else if b = 0x18 || b = 0x1A then .text
      else if 0x30 ≤ b && b ≤ 0x7E then .text
      else .escapeIntermediate
  | .control =>
      if b = 0x1B then .escape
      else if b = 0x18 || b = 0x1A then .text
      else if 0x40 ≤ b && b ≤ 0x7E then .text
      else .control
  | .command =>
      if b = 0x1B then .escape
      else if b = 0x18 || b = 0x1A || b = 0x07 then .text
      else .command
  | .deviceEntry =>
      if b = 0x1B then .escape
      else if b = 0x18 || b = 0x1A then .text
      else if 0x20 ≤ b && b ≤ 0x2F then .deviceIntermediate
      else if 0x30 ≤ b && b ≤ 0x3F then .deviceParameters
      else if 0x40 ≤ b && b ≤ 0x7E then .string
      else .deviceEntry
  | .deviceParameters =>
      if b = 0x1B then .escape
      else if b = 0x18 || b = 0x1A then .text
      else if 0x20 ≤ b && b ≤ 0x2F then .deviceIntermediate
      else if 0x3C ≤ b && b ≤ 0x7E then .string
      else .deviceParameters
  | .deviceIntermediate =>
      if b = 0x1B then .escape
      else if b = 0x18 || b = 0x1A then .text
      else if 0x30 ≤ b && b ≤ 0x7E then .string
      else .deviceIntermediate
  | .string =>
      if b = 0x1B then .escape
      else if b = 0x18 || b = 0x1A || b = 0x9C then .text
      else .string

/-- Whether a line feed met in this state still moves to the next line. -/
def State.feeds : State → Bool
  | .text | .escape | .escapeIntermediate | .control => true
  | .command | .deviceEntry | .deviceParameters | .deviceIntermediate | .string => false

def stripFrom (state : State) (bytes : List UInt8) : List Char :=
  match bytes with
  | [] => []
  | b :: tail =>
      if b = 0x0A && state.feeds then
        '\n' :: stripFrom (state.next b) tail
      else if state = .text && 0x20 ≤ b then
        match Utf8.step b tail with
        | .char c rest _ => c :: stripFrom .text rest
        | .broken _ rest _ =>
            -- a byte that begins no character shows nothing; a character broken off shows as
            -- one replacement, and the byte that breaks it is lost with it
            if b < 0xC2 || 0xF4 < b then stripFrom .text rest
            else
              match rest with
              | [] => ['\uFFFD']
              | _ :: rest => '\uFFFD' :: stripFrom .text rest
        | .unfinished => []
      else stripFrom (state.next b) tail
termination_by bytes.length
decreasing_by all_goals simp_all <;> omega

def strip (bytes : List UInt8) : List Char :=
  stripFrom .text bytes

end Textproto.Terminal
