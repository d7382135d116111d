import Textproto.Tree.Failure

namespace Textproto.Tree

/-! Reading at a cursor. Whatever is read takes at least one character. -/

/-- What comes of reading something at a cursor: it does not begin there, it is read, or it
begins there and goes wrong. -/
inductive Attempt (c : Cursor) (α : Type) where
  | absent
  | read (value : α) (next : Cursor) (before : c.Before next)
  | failed (failure : Failure)

/-- What was read, possibly nothing, and where it ends. -/
structure Extent (c : Cursor) (α : Type) where
  value : α
  next : Cursor
  reaches : c.Reaches next

namespace Attempt

variable {c : Cursor} {α β : Type}

def map (f : α → β) : Attempt c α → Attempt c β
  | absent => absent
  | read value next before => read (f value) next before
  | failed failure => failed failure

/-- The second reading where the first does not begin. -/
def orElse (first : Attempt c α) (second : Unit → Attempt c α) : Attempt c α :=
  match first with
  | absent => second ()
  | other => other

/-- Names what was being read when a reading goes wrong. -/
def within (construct : Construct) : Attempt c α → Attempt c α
  | failed failure => failed (failure.within construct)
  | other => other

/-- Refuses a text where something has to begin. -/
def orFail (failure : Failure) : Attempt c α → Attempt c α
  | absent => failed failure
  | other => other

/-- The same reading, begun further back. -/
def since {d : Cursor} (reaches : d.Reaches c) : Attempt c α → Attempt d α
  | absent => absent
  | read value next before => read value next (reaches.trans_before before)
  | failed failure => failed failure

/-- Goes on after what was read. -/
def andThen (attempt : Attempt c α) (go : (d : Cursor) → c.Before d → α → Attempt c β) :
    Attempt c β :=
  match attempt with
  | absent => absent
  | read value next before => go next before value
  | failed failure => failed failure

end Attempt

/-- One character of a class. -/
def accept (isWanted : Char → Bool) (c : Cursor) : Attempt c Char :=
  match h : c.rest with
  | [] => .absent
  | x :: _ => if isWanted x then .read x (c.advance 1) (Cursor.before_advance h 0) else .absent

/-- The longest run of characters of a class, if there is one at all. -/
def acceptRun (isWanted : Char → Bool) (c : Cursor) : Attempt c (List Char) :=
  match h : c.rest with
  | [] => .absent
  | x :: rest =>
      if isWanted x then
        let run := rest.takeWhile isWanted
        .read (x :: run) (c.advance (run.length + 1)) (Cursor.before_advance h run.length)
      else .absent

/-- Reads one thing after another, as long as there are any. -/
def many {α : Type} (step : (c : Cursor) → Attempt c α) (c : Cursor) :
    Except Failure (Extent c (List α)) :=
  match step c with
  | .absent => .ok ⟨[], c, .refl c⟩
  | .failed failure => .error failure
  | .read value next before =>
      match many step next with
      | .error failure => .error failure
      | .ok rest => .ok ⟨value :: rest.value, rest.next, before.reaches.trans rest.reaches⟩
termination_by c.rest.length
decreasing_by exact before.shorter

end Textproto.Tree
