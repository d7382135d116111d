namespace Textproto.Utf8

/-! Characters as bytes. -/

def encodeChar (c : Char) : List UInt8 :=
  let n := c.toNat
  if n < 0x80 then [UInt8.ofNat n]
  else if n < 0x800 then [UInt8.ofNat (0xC0 + n / 0x40), UInt8.ofNat (0x80 + n % 0x40)]
  else if n < 0x10000 then
    [UInt8.ofNat (0xE0 + n / 0x1000), UInt8.ofNat (0x80 + n / 0x40 % 0x40),
      UInt8.ofNat (0x80 + n % 0x40)]
  else
    [UInt8.ofNat (0xF0 + n / 0x40000), UInt8.ofNat (0x80 + n / 0x1000 % 0x40),
      UInt8.ofNat (0x80 + n / 0x40 % 0x40), UInt8.ofNat (0x80 + n % 0x40)]

def encode (text : List Char) : List UInt8 :=
  text.flatMap encodeChar

@[simp] theorem encode_nil : encode [] = [] := rfl

@[simp] theorem encode_cons (c : Char) (text : List Char) :
    encode (c :: text) = encodeChar c ++ encode text := rfl

@[simp] theorem encode_append (first second : List Char) :
    encode (first ++ second) = encode first ++ encode second := by
  simp [encode]

/-! Bytes as characters. -/

def isTail (b : UInt8) : Bool := 0x80 ≤ b && b ≤ 0xBF

/-- What may follow a lead byte: narrower than a tail where a longer form than needed, a
surrogate or a number above the last character would begin. -/
def isSecond (lead b : UInt8) : Bool :=
  if lead = 0xE0 then 0xA0 ≤ b && b ≤ 0xBF
  else if lead = 0xED then 0x80 ≤ b && b ≤ 0x9F
  else if lead = 0xF0 then 0x90 ≤ b && b ≤ 0xBF
  else if lead = 0xF4 then 0x80 ≤ b && b ≤ 0x8F
  else isTail b

/-- The start of `bytes`: a character, bytes that belong to none, or the end inside one. -/
inductive Step (bytes : List UInt8) where
  | char (c : Char) (rest : List UInt8) (shorter : rest.length < bytes.length)
  | broken (size : Nat) (rest : List UInt8) (shorter : rest.length < bytes.length)
  | unfinished

/-- What a byte carries above the least of its kind. -/
def bits (b : UInt8) (least : Nat) : Nat := b.toNat - least

def step (lead : UInt8) (tail : List UInt8) : Step (lead :: tail) :=
  if lead < 0x80 then
    .char (Char.ofNat lead.toNat) tail (by grind)
  else if lead < 0xC2 then
    .broken 1 tail (by grind)
  else if lead < 0xE0 then
    match tail with
    | [] => .unfinished
    | b :: rest =>
        if isTail b then
          .char (Char.ofNat (bits lead 0xC0 * 0x40 + bits b 0x80)) rest (by grind)
        else .broken 1 (b :: rest) (by grind)
  else if lead < 0xF0 then
    match tail with
    | [] => .unfinished
    | b :: rest =>
        if isSecond lead b then
          match rest with
          | [] => .unfinished
          | c :: rest =>
              if isTail c then
                .char (Char.ofNat (bits lead 0xE0 * 0x1000 + bits b 0x80 * 0x40 + bits c 0x80))
                  rest (by grind)
              else .broken 2 (c :: rest) (by grind)
        else .broken 1 (b :: rest) (by grind)
  else if lead < 0xF5 then
    match tail with
    | [] => .unfinished
    | b :: rest =>
        if isSecond lead b then
          match rest with
          | [] => .unfinished
          | c :: rest =>
              if isTail c then
                match rest with
                | [] => .unfinished
                | d :: rest =>
                    if isTail d then
                      .char (Char.ofNat (bits lead 0xF0 * 0x40000 + bits b 0x80 * 0x1000
                        + bits c 0x80 * 0x40 + bits d 0x80)) rest (by grind)
                    else .broken 3 (d :: rest) (by grind)
              else .broken 2 (c :: rest) (by grind)
        else .broken 1 (b :: rest) (by grind)
  else .broken 1 tail (by grind)

/-- Where bytes stop being text: at `index`, with `size` bytes that belong to no character or,
without a size, with a character that the end cuts off. -/
structure Malformed where
  index : Nat
  size : Option Nat
  deriving Repr, DecidableEq

def Malformed.message : Malformed → String
  | ⟨index, some size⟩ => s!"invalid utf-8 sequence of {size} bytes from index {index}"
  | ⟨index, none⟩ => s!"incomplete utf-8 byte sequence from index {index}"

def decodeFrom (index : Nat) (read : List Char) (bytes : List UInt8) :
    Except Malformed (List Char) :=
  match bytes with
  | [] => .ok read.reverse
  | lead :: tail =>
      match step lead tail with
      | .char c rest _ => decodeFrom (index + c.utf8Size) (c :: read) rest
      | .broken size _ _ => .error ⟨index, some size⟩
      | .unfinished => .error ⟨index, none⟩
termination_by bytes.length
decreasing_by assumption

def decode (bytes : List UInt8) : Except Malformed (List Char) :=
  decodeFrom 0 [] bytes

/-- Each run of bytes that belongs to no character becomes one replacement character. -/
def decodeLossy (bytes : List UInt8) : List Char :=
  match bytes with
  | [] => []
  | lead :: tail =>
      match step lead tail with
      | .char c rest _ => c :: decodeLossy rest
      | .broken _ rest _ => '\uFFFD' :: decodeLossy rest
      | .unfinished => ['\uFFFD']
termination_by bytes.length
decreasing_by all_goals assumption

end Textproto.Utf8
