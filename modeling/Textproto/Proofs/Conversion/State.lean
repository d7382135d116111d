import Textproto.Proofs.Conversion.Confinement

namespace Textproto.Converter

/-! The state that a run leaves a converter in, for any surroundings, those that take no lines
among them. -/

variable {σ : Type} {host : Host (StateM σ)} {directory : String} {state last : σ} {index : Nat}
  {inputs : List Input} {outputs : List String}

/-- Inputs that are reported and converted one after the other, with what is written. -/
inductive Handled (host : Host (StateM σ)) (directory : String) :
    σ → List Input → List String → σ → Prop
  | nil {state : σ} : Handled host directory state [] [] state
  | cons {state told next last : σ} {input : Input} {inputs : List Input} {output : String}
      {outputs : List String} :
      host.report ("Writing " ++ input.path) state = (.ok (), told) →
      (convert host directory input.path).run told = (.ok output, next) →
      Handled host directory next inputs outputs last →
      Handled host directory state (input :: inputs) (output :: outputs) last

/-- An input that ends a run, with the state that its converter is left in. -/
inductive Stops (host : Host (StateM σ)) (directory : String) (index : Nat) (state : σ)
    (input : Input) : RunState → ConversionError → σ → Prop
  | refused {told last : σ} {error : ConversionError} :
      host.report ("Writing " ++ input.path) state = (.ok (), told) →
      (convert host directory input.path).run told = (.error error, last) →
      Stops host directory index state input (.failed index) error last
  -- The input is never looked at, and its converter stays at it.
  | untold {last : σ} {fault : Fault} :
      host.report ("Writing " ++ input.path) state = (.error fault, last) →
      Stops host directory index state input (.processing index) (.io input.path fault) last

/-- What becomes of inputs from some state of the surroundings on. -/
inductive Finishes (host : Host (StateM σ)) (directory : String) (index : Nat) (state : σ)
    (inputs : List Input) :
    RunState → Except ConversionError (List String) → σ → Prop
  | done {outputs : List String} {last : σ} :
      Handled host directory state inputs outputs last →
      Finishes host directory index state inputs .done (.ok outputs) last
  | stopped {before after : List Input} {input : Input} {outputs : List String} {next last : σ}
      {final : RunState} {error : ConversionError} :
      inputs = before ++ input :: after → Handled host directory state before outputs next →
      Stops host directory (index + before.length) next input final error last →
      Finishes host directory index state inputs final (.error error) last

theorem Finishes.of_stops {input : Input} {rest : List Input} {final : RunState}
    {error : ConversionError} (h : Stops host directory index state input final error last) :
    Finishes host directory index state (input :: rest) final (.error error) last :=
  .stopped (show input :: rest = [] ++ input :: rest from rfl) .nil h

/-- An input that is handled leaves the rest to be dealt with from the next place on. -/
theorem Finishes.cons {told next : σ} {input : Input} {output : String} {final : RunState}
    {result : Except ConversionError (List String)}
    (hreport : host.report ("Writing " ++ input.path) state = (.ok (), told))
    (hconvert : (convert host directory input.path).run told = (.ok output, next))
    (h : Finishes host directory (index + 1) next inputs final result last) :
    Finishes host directory index state (input :: inputs) final (result.map (output :: ·)) last := by
  cases h with
  | done hall => exact .done (.cons hreport hconvert hall)
  | @stopped before after refused _ _ _ _ _ hsplit hall hstops =>
      rw [Nat.add_assoc, Nat.add_comm 1] at hstops
      have hmore : input :: inputs = (input :: before) ++ refused :: after := by
        rw [hsplit]
        rfl
      exact .stopped hmore (.cons hreport hconvert hall) hstops

theorem exists_finishes (host : Host (StateM σ)) (directory : String) (index : Nat)
    (inputs : List Input) (state : σ) :
    ∃ final result last, Finishes host directory index state inputs final result last := by
  induction inputs generalizing index state with
  | nil => exact ⟨_, _, _, .done .nil⟩
  | cons input rest ih =>
      rcases hreport : host.report ("Writing " ++ input.path) state with ⟨fault | _, told⟩
      · exact ⟨_, _, _, .of_stops (.untold hreport)⟩
      · rcases hconvert : (convert host directory input.path).run told with ⟨error | output, next⟩
        · exact ⟨_, _, _, .of_stops (.refused hreport hconvert)⟩
        · obtain ⟨final, result, last, hfinishes⟩ := ih (index + 1) next
          exact ⟨_, _, _, hfinishes.cons hreport hconvert⟩

/-- The inputs that are handled leave their outputs behind and the run goes on. -/
theorem Handled.runFrom {next : σ} (h : Handled host directory state inputs outputs next)
    (index : Nat) (written : List String) (rest : List Input) :
    (runFrom host directory index written (inputs ++ rest)).run state =
      (runFrom host directory (index + inputs.length) (outputs.reverse ++ written) rest).run
        next := by
  induction h generalizing index written with
  | nil => rfl
  | cons hreport hconvert _ ih =>
      rw [List.cons_append, runFrom_run, hreport]
      simp only [hconvert]
      rw [ih, List.length_cons, List.reverse_cons, List.append_assoc, Nat.add_right_comm,
        Nat.add_assoc]
      rfl

theorem Stops.runFrom {input : Input} {final : RunState} {error : ConversionError}
    (h : Stops host directory index state input final error last) (written : List String)
    (rest : List Input) :
    (runFrom host directory index written (input :: rest)).run state =
      ((final, .error error), last) := by
  rw [runFrom_run]
  cases h with
  | refused hreport hconvert => simp only [hreport, hconvert]
  | untold hreport => simp only [hreport]

theorem Finishes.runFrom {final : RunState} {result : Except ConversionError (List String)}
    (h : Finishes host directory 0 state inputs final result last) :
    (runFrom host directory 0 [] inputs).run state = ((final, result), last) := by
  cases h with
  | done hall =>
      have hrun := hall.runFrom 0 [] []
      rw [List.append_nil, List.append_nil] at hrun
      rw [hrun, Converter.runFrom, List.reverse_reverse]
      rfl
  | stopped hsplit hall hstops => rw [hsplit, hall.runFrom, hstops.runFrom]

theorem run_stateM (host : Host (StateM σ)) (converter : Converter) (state : σ) :
    (converter.run host).run state =
      let ((final, result), last) :=
        (Converter.runFrom host converter.outputDir 0 [] converter.inputs).run state
      (({ converter with state := final }, result), last) := rfl

/-- A converter is done once all its inputs are handled. Otherwise it stops at the first that is
not: it has failed if that input was refused, and is left in the middle of it if the stream took
no line about it. -/
theorem run_eq_iff (host : Host (StateM σ)) (converter after : Converter) (state last : σ)
    (result : Except ConversionError (List String)) :
    (converter.run host).run state = ((after, result), last) ↔
      after = { converter with state := after.state } ∧
        Finishes host converter.outputDir 0 state converter.inputs after.state result last := by
  obtain ⟨final, own, world, hfinishes⟩ := exists_finishes host converter.outputDir 0 converter.inputs state
  rw [run_stateM, hfinishes.runFrom]
  -- The run finishes somehow, and to finish in another way would be another result.
  constructor
  · rintro hsame
    cases hsame
    exact ⟨rfl, hfinishes⟩
  · rintro ⟨hafter, hother⟩
    cases hfinishes.runFrom.symm.trans hother.runFrom
    exact congrArg (fun converter : Converter => ((converter, result), last)) hafter.symm

/-- The stream has no room for the line about the only input. -/
theorem run_untold :
    let converter : Converter := ⟨[⟨"a", "a.textproto"⟩], "", .ready⟩
    let world : World := { diagnostics := { room := some 0 } }
    ofConfig ⟨"", "", ["a"]⟩ = .ok converter ∧
      (converter.run World.host).run world =
        (({ converter with state := .processing 0 }, .error (.io "a.textproto" .noSpace)),
          world) := by
  intro converter world
  exact ⟨by decide, rfl⟩

/-- As long as the stream takes every line, a run ends with all inputs handled or one failed. -/
theorem Finishes.state_of_told {final : RunState} {result : Except ConversionError (List String)}
    (h : Finishes host directory index state inputs final result last)
    (htold : ∀ line state, (host.report line state).1 = .ok ()) :
    (final = .done ∧ ∃ outputs, result = .ok outputs) ∨
      ∃ before input after error, inputs = before ++ input :: after ∧
        final = .failed (index + before.length) ∧ result = .error error := by
  cases h with
  | done hall => exact .inl ⟨rfl, _, rfl⟩
  | @stopped _ _ input _ next _ _ _ hsplit _ hstops =>
      cases hstops with
      | refused _ _ => exact .inr ⟨_, _, _, _, hsplit, rfl, rfl⟩
      | @untold _ fault hreport =>
          have hok := htold ("Writing " ++ input.path) next
          rw [hreport] at hok
          cases hok

end Textproto.Converter
