import Textproto.Tree.Numeral

namespace Textproto.Tree

/-!
From texts to fields. A message ends where no further field begins, so what stands there is
refused by whoever expected the message to end.
-/

/-- The fields of a message body, from behind its opening brace. -/
abbrev Body := (c : Cursor) → Except Failure (Extent c (List Field))

def closingOf? : Char → Option Char
  | '{' => some '}'
  | '<' => some '>'
  | _ => none

/-- A message in braces. Without a body messages lie too deep here. -/
def message (body : Option Body) (c : Cursor) : Attempt c Value :=
  (accept (fun x => (closingOf? x).isSome) c).andThen fun d before opening =>
    match body with
    | none => .failed (.complain .nestedTooDeep c)
    | some fields =>
        match fields d with
        | .error failure => .failed failure
        | .ok ⟨members, e, reaches⟩ =>
            let closing := e.skipLayout
            ((accept (fun x => closingOf? opening = some x) closing).orFail
                (.unexpected [.closingBrace] closing)
              |>.map fun _ => Value.message members c.position).since
                (before.reaches.trans (reaches.trans e.reaches_skipLayout))

def scalarValue (c : Cursor) : Attempt c Value :=
  (scalar c).map fun scalar => .scalar scalar c.position

/-- An element of a list behind a comma. -/
def furtherElement (element : (c : Cursor) → Attempt c Value) (c : Cursor) :
    Attempt c Value :=
  ((accept (· = ',') c.skipLayout).andThen fun d before _ =>
    (element d.skipLayout).since (before.reaches.trans d.reaches_skipLayout)).since
      c.reaches_skipLayout

/-- The elements of a list: none, or one and those behind commas. -/
def elements (element : (c : Cursor) → Attempt c Value) (c : Cursor) :
    Except Failure (Extent c (List Value)) :=
  match element c.skipLayout with
  | .absent => .ok ⟨[], c, .refl c⟩
  | .failed failure => .error failure
  | .read first d before =>
      match many (furtherElement element) d with
      | .error failure => .error failure
      | .ok ⟨more, e, reaches⟩ =>
          .ok ⟨first :: more, e, c.reaches_skipLayout.trans (before.reaches.trans reaches)⟩

def list (element : (c : Cursor) → Attempt c Value) (c : Cursor) : Attempt c Value :=
  (accept (· = '[') c).andThen fun d before _ =>
    match elements element d with
    | .error failure => .failed failure
    | .ok ⟨values, e, reaches⟩ =>
        let closing := e.skipLayout
        ((accept (· = ']') closing).orFail (.unexpected [.closingBracket] closing)
          |>.map fun _ => Value.list values c.position).since
            (before.reaches.trans (reaches.trans e.reaches_skipLayout))

/-- What follows a colon: a message, a list of messages and scalars, or a scalar. -/
def valueAfterColon (body : Option Body) (c : Cursor) : Attempt c Value :=
  ((message body c).orElse fun _ =>
    (list (fun d => (message body d).orElse fun _ => scalarValue d) c).orElse fun _ =>
      (scalarValue c).orFail (.unexpected [.scalarValue] c)).within .fieldValue

/-- What follows a name without a colon: a message or a list of messages. -/
def valueWithoutColon (body : Option Body) (c : Cursor) : Attempt c Value :=
  (((message body c).orElse fun _ => list (message body) c).orFail
    (.unexpected [] c)).within .messageValue

def isUrlChar (c : Char) : Bool :=
  c.isAlphanum || c = '.' || c = '_' || c = '/' || c = '-'

/-- A type URL in brackets. Brackets without one do not begin a field. -/
def expandedName (c : Cursor) : Attempt c Name :=
  (accept (· = '[') c).andThen fun d before _ =>
    match acceptRun isUrlChar d.skipLayout with
    | .read url e after =>
        let closing := e.skipLayout
        ((accept (· = ']') closing).orFail (.unexpected [] closing)
          |>.map fun _ => Name.expanded url).since
            (before.reaches.trans (d.reaches_skipLayout.trans
              (after.reaches.trans e.reaches_skipLayout)))
    | _ => .absent

def fieldName (c : Cursor) : Attempt c Name :=
  ((identifier c).map Name.plain).orElse fun _ => expandedName c

def fieldValue (body : Option Body) (c : Cursor) : Attempt c Value :=
  let d := c.skipLayout
  (match accept (· = ':') d with
    | .read _ e before =>
        (valueAfterColon body e.skipLayout).since
          (before.reaches.trans e.reaches_skipLayout)
    | _ => valueWithoutColon body d).since c.reaches_skipLayout

/-- The comma or semicolon that may end a field. -/
def skipSeparator (c : Cursor) : Extent c Unit :=
  match accept (fun x => x = ',' || x = ';') c.skipLayout with
  | .read _ d before => ⟨(), d, c.reaches_skipLayout.trans before.reaches⟩
  | _ => ⟨(), c, .refl c⟩

def field (body : Option Body) (c : Cursor) : Attempt c Field :=
  let start := c.skipLayout
  ((fieldName start).andThen fun d before name =>
    ((fieldValue body d).since before.reaches).andThen fun e after value =>
      let rest := skipSeparator e
      .read ⟨name, start.position, value⟩ rest.next (after.trans_reaches rest.reaches)).since
        c.reaches_skipLayout

/-- Fields with so many levels of messages below them. -/
def fields : Nat → Body
  | 0 => many (field none)
  | levels + 1 => many (field (some (fields levels)))

/-- The fields of a whole document. -/
def parse (text : List Char) : Except Failure (List Field) :=
  match fields nestingLimit (.ofText text) with
  | .error failure => .error failure
  | .ok ⟨members, d, _⟩ =>
      let rest := d.skipLayout
      match rest.next? with
      | none => .ok members
      | some _ => .error ⟨.trailing, [], rest⟩

end Textproto.Tree
