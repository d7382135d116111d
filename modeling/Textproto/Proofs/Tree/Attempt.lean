import Textproto.Proofs.Data.Runs
import Textproto.Tree.Attempt

namespace Textproto.Tree

/-! What is read, and where it ends, through the combinators of attempts. -/

/-- The attempt reads `value` and ends at `d`. -/
def Attempt.Reads {c : Cursor} {α : Type} (attempt : Attempt c α) (value : α) (d : Cursor) :
    Prop :=
  ∃ before, attempt = .read value d before

namespace Attempt

variable {c d e : Cursor} {α β : Type}

theorem reads_read (value : α) (before : c.Before d) :
    (Attempt.read value d before).Reads value d :=
  ⟨before, rfl⟩

theorem Reads.before {attempt : Attempt c α} {value : α} (h : attempt.Reads value d) :
    c.Before d :=
  h.1

@[simp] theorem not_reads_absent (value : α) :
    ¬ (Attempt.absent : Attempt c α).Reads value d := by
  rintro ⟨_, h⟩
  cases h

@[simp] theorem not_reads_failed (failure : Failure) (value : α) :
    ¬ (Attempt.failed failure : Attempt c α).Reads value d := by
  rintro ⟨_, h⟩
  cases h

@[simp] theorem reads_read_iff {value other : α} {before : c.Before d} :
    (Attempt.read value d before).Reads other e ↔ other = value ∧ e = d := by
  constructor
  · rintro ⟨_, h⟩
    cases h
    exact ⟨rfl, rfl⟩
  · rintro ⟨rfl, rfl⟩
    exact ⟨before, rfl⟩

@[simp] theorem reads_map {f : α → β} {attempt : Attempt c α} {value : β} :
    (attempt.map f).Reads value d ↔ ∃ a, attempt.Reads a d ∧ f a = value := by
  cases attempt with
  | absent => simp [map]
  | read found next before =>
      simp only [map, reads_read_iff]
      constructor
      · rintro ⟨rfl, rfl⟩
        exact ⟨found, ⟨rfl, rfl⟩, rfl⟩
      · rintro ⟨_, ⟨rfl, rfl⟩, rfl⟩
        exact ⟨rfl, rfl⟩
  | failed failure => simp [map]

@[simp] theorem reads_within {construct : Construct} {attempt : Attempt c α} {value : α} :
    (attempt.within construct).Reads value d ↔ attempt.Reads value d := by
  cases attempt <;> simp [within]

@[simp] theorem reads_orFail {failure : Failure} {attempt : Attempt c α} {value : α} :
    (attempt.orFail failure).Reads value d ↔ attempt.Reads value d := by
  cases attempt <;> simp [orFail]

@[simp] theorem reads_since {reaches : d.Reaches c} {attempt : Attempt c α} {value : α} :
    (attempt.since reaches).Reads value e ↔ attempt.Reads value e := by
  cases attempt <;> simp [since]

theorem reads_orElse {first : Attempt c α} {second : Unit → Attempt c α} {value : α} :
    (first.orElse second).Reads value d ↔
      first.Reads value d ∨ first = .absent ∧ (second ()).Reads value d := by
  cases first <;> simp [orElse]

theorem reads_andThen {attempt : Attempt c α}
    {go : (d : Cursor) → c.Before d → α → Attempt c β} {value : β} :
    (attempt.andThen go).Reads value e ↔
      ∃ a d before, attempt = .read a d before ∧ (go d before a).Reads value e := by
  cases attempt with
  | absent => simp [andThen]
  | failed failure => simp [andThen]
  | read a d before =>
      constructor
      · exact fun h => ⟨a, d, before, rfl, h⟩
      · rintro ⟨_, _, _, heq, h⟩
        cases heq
        exact h

theorem andThen_eq_failed {attempt : Attempt c α}
    {go : (d : Cursor) → c.Before d → α → Attempt c β} {failure : Failure} :
    attempt.andThen go = .failed failure ↔ attempt = .failed failure ∨
      ∃ a d before, attempt = .read a d before ∧ go d before a = .failed failure := by
  cases attempt with
  | absent => simp [andThen]
  | failed other => simp [andThen]
  | read a d before =>
      constructor
      · exact fun h => .inr ⟨a, d, before, rfl, h⟩
      · rintro (heq | ⟨_, _, _, heq, h⟩)
        · cases heq
        · cases heq
          exact h

@[simp] theorem since_eq_failed {reaches : d.Reaches c} {attempt : Attempt c α}
    {failure : Failure} : attempt.since reaches = .failed failure ↔ attempt = .failed failure := by
  cases attempt <;> simp [since]

@[simp] theorem map_eq_absent {f : α → β} {attempt : Attempt c α} :
    attempt.map f = .absent ↔ attempt = .absent := by
  cases attempt <;> simp [map]

@[simp] theorem within_eq_absent {construct : Construct} {attempt : Attempt c α} :
    attempt.within construct = .absent ↔ attempt = .absent := by
  cases attempt <;> simp [within]

@[simp] theorem since_eq_absent {reaches : d.Reaches c} {attempt : Attempt c α} :
    attempt.since reaches = .absent ↔ attempt = .absent := by
  cases attempt <;> simp [since]

@[simp] theorem orElse_eq_absent {first : Attempt c α} {second : Unit → Attempt c α} :
    first.orElse second = .absent ↔ first = .absent ∧ second () = .absent := by
  cases first <;> simp [orElse]

@[simp] theorem absent_andThen {go : (d : Cursor) → c.Before d → α → Attempt c β} :
    (Attempt.absent : Attempt c α).andThen go = .absent := rfl

end Attempt

/-! Single characters and runs of them. -/

variable {c d : Cursor} {isWanted : Char → Bool}

theorem reads_accept {x : Char} :
    (accept isWanted c).Reads x d ↔
      ∃ rest, c.rest = x :: rest ∧ isWanted x = true ∧ d = c.advance 1 := by
  unfold accept
  split
  next h => simp [h]
  next y rest h =>
    split
    next hy => simp [h]; grind
    next hy => simp [h]; grind

theorem accept_eq_absent : accept isWanted c = .absent ↔ Stops isWanted c.rest := by
  unfold accept
  split
  next h => simp [h]
  next y rest h =>
    split
    next hy => simp [h, hy]
    next hy => simp [h, hy]

theorem accept_ne_failed {failure : Failure} : accept isWanted c ≠ .failed failure := by
  unfold accept
  split
  next => exact nofun
  next => split <;> exact nofun

theorem reads_acceptRun {run : List Char} :
    (acceptRun isWanted c).Reads run d ↔
      run ≠ [] ∧ run = c.rest.takeWhile isWanted ∧ d = c.advance run.length := by
  unfold acceptRun
  split
  next h => simp +contextual [h]
  next x rest h =>
    split
    next hx => simp [h, hx]; grind
    next hx => simp +contextual [h, hx]

theorem acceptRun_eq_absent : acceptRun isWanted c = .absent ↔ Stops isWanted c.rest := by
  unfold acceptRun
  split
  next h => simp [h]
  next x rest h =>
    split
    next hx => simp [h, hx]
    next hx => simp [h, hx]

theorem acceptRun_ne_failed {failure : Failure} : acceptRun isWanted c ≠ .failed failure := by
  unfold acceptRun
  split
  next => exact nofun
  next => split <;> exact nofun

/-! Reading one thing after another. -/

/-- The readings that lead from `c` to `d`, where no further one begins. -/
inductive Run {α : Type} (step : (c : Cursor) → Attempt c α) :
    Cursor → List α → Cursor → Prop
  | stop {c : Cursor} : step c = .absent → Run step c [] c
  | go {c d e : Cursor} {value : α} {values : List α} :
      (step c).Reads value d → Run step d values e → Run step c (value :: values) e

theorem many_eq_ok_iff {α : Type} {step : (c : Cursor) → Attempt c α} {values : List α} :
    (∃ reaches, many step c = .ok ⟨values, d, reaches⟩) ↔ Run step c values d := by
  constructor
  · rintro ⟨reaches, h⟩
    fun_induction many step c generalizing values d with
    | case1 c habsent =>
        cases h
        exact .stop habsent
    | case2 c failure hfailed => cases h
    | case3 c value next before hread failure hmore ih => cases h
    | case4 c value next before hread rest hmore ih =>
        cases h
        exact .go ⟨before, hread⟩ (ih rest.reaches hmore)
  · intro run
    induction run with
    | stop habsent =>
        rename_i c
        exact ⟨.refl c, by rw [many, habsent]⟩
    | go hread run ih =>
        obtain ⟨before, hread⟩ := hread
        obtain ⟨reaches, hmore⟩ := ih
        refine ⟨before.reaches.trans reaches, ?_⟩
        rw [many, hread]
        simp only [hmore]

/-- The readings that lead from `c` to one that goes wrong. -/
inductive Breaks {α : Type} (step : (c : Cursor) → Attempt c α) : Cursor → Failure → Prop
  | here {c : Cursor} {failure : Failure} : step c = .failed failure → Breaks step c failure
  | later {c d : Cursor} {value : α} {failure : Failure} :
      (step c).Reads value d → Breaks step d failure → Breaks step c failure

theorem many_eq_error_iff {α : Type} {step : (c : Cursor) → Attempt c α} {failure : Failure} :
    many step c = .error failure ↔ Breaks step c failure := by
  constructor
  · intro h
    fun_induction many step c with
    | case1 c habsent => cases h
    | case2 c other hfailed =>
        cases h
        exact .here hfailed
    | case3 c value next before hread other hmore ih =>
        cases h
        exact .later ⟨before, hread⟩ (ih hmore)
    | case4 c value next before hread rest hmore ih => cases h
  · intro breaks
    induction breaks with
    | here hfailed => rw [many, hfailed]
    | later hread _ ih =>
        obtain ⟨before, hread⟩ := hread
        rw [many, hread]
        simp only [ih]

/-- The readings that lead from `c` to `d`, whatever follows there. -/
inductive Chain {α : Type} (step : (c : Cursor) → Attempt c α) :
    Cursor → List α → Cursor → Prop
  | refl {c : Cursor} : Chain step c [] c
  | go {c d e : Cursor} {value : α} {values : List α} :
      (step c).Reads value d → Chain step d values e → Chain step c (value :: values) e

theorem run_iff_chain {α : Type} {step : (c : Cursor) → Attempt c α} {values : List α} :
    Run step c values d ↔ Chain step c values d ∧ step d = .absent := by
  constructor
  · intro run
    induction run with
    | stop habsent => exact ⟨.refl, habsent⟩
    | go hread _ ih => exact ⟨.go hread ih.1, ih.2⟩
  · rintro ⟨chain, habsent⟩
    induction chain with
    | refl => exact .stop habsent
    | go hread _ ih => exact .go hread (ih habsent)

theorem breaks_iff_chain {α : Type} {step : (c : Cursor) → Attempt c α} {failure : Failure} :
    Breaks step c failure ↔ ∃ values d, Chain step c values d ∧ step d = .failed failure := by
  constructor
  · intro breaks
    induction breaks with
    | here hfailed => exact ⟨[], _, .refl, hfailed⟩
    | later hread _ ih =>
        obtain ⟨values, d, hchain, hfailed⟩ := ih
        exact ⟨_ :: values, d, .go hread hchain, hfailed⟩
  · rintro ⟨values, d, chain, hfailed⟩
    induction chain with
    | refl => exact .here hfailed
    | go hread _ ih => exact .later hread (ih hfailed)

theorem Run.chain {α : Type} {step : (c : Cursor) → Attempt c α} {values : List α}
    (run : Run step c values d) : Chain step c values d :=
  (run_iff_chain.mp run).1

end Textproto.Tree
