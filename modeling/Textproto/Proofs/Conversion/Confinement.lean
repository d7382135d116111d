import Textproto.Proofs.Conversion.Outputs

namespace Textproto

/-! A run reads from its input directory and writes to its output directory, whatever it is
answered. -/

/-- What is asked of the surroundings, with what they answer. -/
inductive Call where
  | read (path : String) (answer : Except Fault (List UInt8))
  | write (path : String) (bytes : List UInt8) (answer : Except Fault Unit)
  | report (line : String) (answer : Except Fault Unit)

/-- The same surroundings, which also keep what they are asked. -/
def Host.recording {σ : Type} (host : Host (StateM σ)) : Host (StateM (σ × List Call)) where
  read path := fun (state, calls) =>
    let (answer, next) := host.read path state
    (answer, next, calls ++ [.read path answer])
  write path bytes := fun (state, calls) =>
    let (answer, next) := host.write path bytes state
    (answer, next, calls ++ [.write path bytes answer])
  report line := fun (state, calls) =>
    let (answer, next) := host.report line state
    (answer, next, calls ++ [.report line answer])

/-- A single step down: neither empty nor `.` or `..`, and without separators. -/
structure Path.IsComponent (name : String) : Prop where
  ne_empty : name ≠ ""
  ne_dot : name ≠ "."
  ne_dots : name ≠ ".."
  slash : '/' ∉ name.toList
  backslash : '\\' ∉ name.toList

/-- A path is one step down from a directory. -/
structure Path.IsChild (directory name path : String) : Prop where
  component : IsComponent name
  path_eq : path = join directory name
  components_eq : components path = components directory ++ [name]

theorem Path.IsComponent.isChild {name : String} (h : IsComponent name) (directory : String) :
    IsChild directory name (join directory name) :=
  ⟨h, rfl, components_join h.slash h.ne_empty h.ne_dot⟩

theorem Path.isComponent_extension {name extension : String} (hslash : '/' ∉ name.toList)
    (hbackslash : '\\' ∉ name.toList) (hextension : '/' ∉ extension.toList)
    (hextension' : '\\' ∉ extension.toList) (hlength : 2 < extension.toList.length) :
    IsComponent (name ++ extension) := by
  obtain ⟨hne, hdot, hdots⟩ := Converter.ne_step_of_extension name hlength
  refine ⟨hne, hdot, hdots, Converter.mark_not_mem_append hslash hextension, ?_⟩
  rw [String.toList_append, List.mem_append, not_or]
  exact ⟨hbackslash, hextension'⟩

namespace TestFile

theorem isComponent_iff {name : String} :
    Path.IsComponent name ↔ name ≠ "" ∧ isFileName name = true := by
  simp only [isFileName, Bool.and_eq_true, decide_eq_true_eq]
  constructor
  · rintro ⟨hempty, hdot, hdots, hslash, hbackslash⟩
    exact ⟨hempty, ⟨⟨hdot, hdots⟩, hslash⟩, hbackslash⟩
  · rintro ⟨hempty, ⟨⟨hdot, hdots⟩, hslash⟩, hbackslash⟩
    exact ⟨hempty, hdot, hdots, hslash, hbackslash⟩

/-- Why no file is named after a document of this name. -/
def nameFault (name : String) : Unwritable :=
  if name = "" then .noName else .notFileName name

theorem fileName_of_isComponent {file : TestFile} (h : Path.IsComponent file.name) :
    file.fileName = .ok (file.name ++ ".json") := by
  obtain ⟨hempty, hplain⟩ := isComponent_iff.mp h
  rw [fileName, if_neg hempty, if_pos hplain]

theorem fileName_of_not_isComponent {file : TestFile} (h : ¬Path.IsComponent file.name) :
    file.fileName = .error (.unwritable file.source (nameFault file.name)) := by
  rw [isComponent_iff, not_and] at h
  by_cases hempty : file.name = ""
  · rw [fileName, if_pos hempty, nameFault, if_pos hempty]
  · rw [fileName, if_neg hempty, if_neg (h hempty), nameFault, if_neg hempty]

end TestFile

namespace Converter

/-- What is asked for one input, and what comes of it. -/
inductive Handles (directory path : String) : List Call → Except ConversionError String → Prop
  | unread {fault : Fault} :
      Handles directory path [.read path (.error fault)] (.error (.io path fault))
  | undecoded {bytes : List UInt8} {error : DecodeError} :
      decode .bundled Bundled.testFileType bytes = .error error →
      Handles directory path [.read path (.ok bytes)] (.error (.unreadable path error))
  | unnamed {bytes : List UInt8} {document : Message} :
      decode .bundled Bundled.testFileType bytes = .ok document →
      ¬Path.IsComponent (document.string "name") →
      Handles directory path [.read path (.ok bytes)]
        (.error (.unwritable path (TestFile.nameFault (document.string "name"))))
  | noJson {bytes : List UInt8} {document : Message} {error : EncodeError} :
      decode .bundled Bundled.testFileType bytes = .ok document →
      Path.IsComponent (document.string "name") →
      Handles directory path [.read path (.ok bytes)] (.error (.unwritable path (.noJson error)))
  | unwritten {bytes written : List UInt8} {document : Message} {fault : Fault} :
      decode .bundled Bundled.testFileType bytes = .ok document →
      Path.IsComponent (document.string "name") →
      Handles directory path
        [.read path (.ok bytes), .write (outputOf directory document) written (.error fault)]
        (.error (.io (outputOf directory document) fault))
  | written {bytes written : List UInt8} {document : Message} :
      decode .bundled Bundled.testFileType bytes = .ok document →
      Path.IsComponent (document.string "name") →
      Handles directory path
        [.read path (.ok bytes), .write (outputOf directory document) written (.ok ())]
        (.ok (outputOf directory document))

/-- What is asked for inputs one after the other, up to the first that is refused, and the error
that ends the run. -/
inductive Asks (directory : String) : List Input → List Call → Option ConversionError → Prop
  | done : Asks directory [] [] none
  | untold {input : Input} {rest : List Input} {line : String} {fault : Fault} :
      Asks directory (input :: rest) [.report line (.error fault)] (some (.io input.path fault))
  | refused {input : Input} {rest : List Input} {line : String} {own : List Call}
      {error : ConversionError} :
      Handles directory input.path own (.error error) →
      Asks directory (input :: rest) (.report line (.ok ()) :: own) (some error)
  | handled {input : Input} {rest : List Input} {line output : String} {own more : List Call}
      {error : Option ConversionError} :
      Handles directory input.path own (.ok output) → Asks directory rest more error →
      Asks directory (input :: rest) (.report line (.ok ()) :: (own ++ more)) error

/-- The error that a result holds. -/
def errorOf? {α : Type} : Except ConversionError α → Option ConversionError
  | .error error => some error
  | .ok _ => none

variable {σ : Type} {directory path : String} {calls own : List Call} {inputs : List Input}
  {result : Except ConversionError String} {error : Option ConversionError}

theorem convert_run (host : Host (StateM σ)) (directory path : String) (state : σ) :
    (convert host directory path).run state =
      match host.read path state with
      | (.error fault, next) => (.error (.io path fault), next)
      | (.ok bytes, next) =>
          match TestFile.decode path bytes with
          | .error error => (.error error, next)
          | .ok file =>
              match file.fileName, file.json with
              | .error error, _ => (.error error, next)
              | _, .error error => (.error error, next)
              | .ok name, .ok json =>
                  match host.write (Path.join directory name) (Utf8.encode json.pretty.toList)
                      next with
                  | (.error fault, last) => (.error (.io (Path.join directory name) fault), last)
                  | (.ok (), last) => (.ok (Path.join directory name), last) := by
  simp only [convert, readDocument, StateT.run, bind, StateT.bind, pure]
  rcases host.read path state with ⟨fault | bytes, next⟩
  · rfl
  · simp only
    cases TestFile.decode path bytes with
    | error error => rfl
    | ok file =>
        simp only [writeDocument, bind, pure, StateT.pure]
        cases file.fileName with
        | error error => rfl
        | ok name =>
            cases file.json with
            | error error => rfl
            | ok json =>
                simp only [StateT.bind]
                rcases host.write (Path.join directory name) (Utf8.encode json.pretty.toList) next
                  with ⟨_ | _, _⟩ <;> rfl

theorem handles_convert (host : Host (StateM σ)) (directory path : String) (state : σ)
    (calls : List Call) :
    ∃ own, (convert host.recording directory path).run (state, calls) =
        (let (result, next) := (convert host directory path).run state
         (result, next, calls ++ own)) ∧
      Handles directory path own ((convert host directory path).run state).1 := by
  rw [convert_run, convert_run]
  simp only [Host.recording]
  rcases host.read path state with ⟨fault | bytes, next⟩
  · exact ⟨_, rfl, .unread⟩
  · cases hdecode : decode .bundled Bundled.testFileType bytes with
    | error error =>
        simp only [TestFile.decode, hdecode]
        exact ⟨_, rfl, .undecoded hdecode⟩
    | ok document =>
        simp only [TestFile.decode, hdecode]
        by_cases hname : Path.IsComponent (document.string "name")
        · simp only [@TestFile.fileName_of_isComponent ⟨path, document⟩ hname, TestFile.json]
          cases document.toJson .bundled with
          | error error => exact ⟨_, rfl, .noJson hdecode hname⟩
          | ok json =>
              simp only
              rcases host.write (Path.join directory _) (Utf8.encode json.pretty.toList) next
                with ⟨fault | _, last⟩
              · exact ⟨_, by simp; rfl, .unwritten hdecode hname⟩
              · exact ⟨_, by simp; rfl, .written hdecode hname⟩
        · simp only [@TestFile.fileName_of_not_isComponent ⟨path, document⟩ hname]
          exact ⟨_, rfl, .unnamed hdecode hname⟩

theorem runFrom_run (host : Host (StateM σ)) (directory : String) (index : Nat)
    (written : List String) (input : Input) (rest : List Input) (state : σ) :
    (runFrom host directory index written (input :: rest)).run state =
      match host.report ("Writing " ++ input.path) state with
      | (.error fault, next) => ((.processing index, .error (.io input.path fault)), next)
      | (.ok (), next) =>
          match (convert host directory input.path).run next with
          | (.error error, last) => ((.failed index, .error error), last)
          | (.ok path, last) =>
              (runFrom host directory (index + 1) (path :: written) rest).run last := by
  rw [runFrom]
  simp only [StateT.run, bind, StateT.bind, pure]
  rcases host.report ("Writing " ++ input.path) state with ⟨fault | _, next⟩
  · rfl
  · simp only [StateT.bind]
    rcases convert host directory input.path next with ⟨_ | _, _⟩ <;> rfl

/-- Recording changes nothing in a run, and what is recorded is what its inputs ask for. -/
theorem asks_runFrom (host : Host (StateM σ)) (directory : String) (inputs : List Input)
    (index : Nat) (written : List String) (state : σ) (calls : List Call) :
    ∃ own, (runFrom host.recording directory index written inputs).run (state, calls) =
        (let (outcome, next) := (runFrom host directory index written inputs).run state
         (outcome, next, calls ++ own)) ∧
      Asks directory inputs own
        (errorOf? ((runFrom host directory index written inputs).run state).1.2) := by
  induction inputs generalizing index written state calls with
  | nil => exact ⟨[], by simp [runFrom]; rfl, .done⟩
  | cons input rest ih =>
      have hreport : host.recording.report ("Writing " ++ input.path) (state, calls) =
          (let (answer, next) := host.report ("Writing " ++ input.path) state
           (answer, next, calls ++ [.report ("Writing " ++ input.path) answer])) := rfl
      rw [runFrom_run, runFrom_run, hreport]
      rcases host.report ("Writing " ++ input.path) state with ⟨fault | _, next⟩
      · exact ⟨_, rfl, .untold⟩
      · obtain ⟨own, hown, hhandles⟩ := handles_convert host directory input.path next
          (calls ++ [.report ("Writing " ++ input.path) (.ok ())])
        simp only [hown]
        generalize (convert host directory input.path).run next = outcome at hhandles ⊢
        rcases outcome with ⟨error | path, last⟩
        · exact ⟨_, by simp; rfl, .refused hhandles⟩
        · obtain ⟨more, hmore, hasks⟩ := ih (index + 1) (path :: written) last
            (calls ++ [.report ("Writing " ++ input.path) (.ok ())] ++ own)
          simp only [hmore]
          exact ⟨_, by simp; rfl, .handled hhandles hasks⟩

/-! What the calls of a run tell. -/

theorem Handles.read_path {source : String} (h : Handles directory source own result)
    {answer : Except Fault (List UInt8)} (hcall : .read path answer ∈ own) : path = source := by
  cases h <;> simp at hcall <;> exact hcall.1

/-- A write follows the read of the document that it is for. -/
theorem Handles.write_path {source : String} (h : Handles directory source own result)
    {before after : List Call} {bytes : List UInt8} {answer : Except Fault Unit}
    (hcalls : own = before ++ .write path bytes answer :: after) :
    ∃ content document, before = [.read source (.ok content)] ∧
      decode .bundled Bundled.testFileType content = .ok document ∧
      Path.IsComponent (document.string "name") ∧ path = outputOf directory document := by
  cases h with
  | unread | undecoded _ => simp [List.singleton_eq_append_iff] at hcalls
  | unnamed _ _ | noJson _ _ => simp [List.singleton_eq_append_iff] at hcalls
  | unwritten hdecode hname | written hdecode hname =>
      simp only [List.cons_eq_append_iff, List.cons.injEq, Call.write.injEq, reduceCtorEq,
        false_and, and_false, false_or] at hcalls
      obtain ⟨_, rfl, ⟨rfl, ⟨rfl, _⟩, _⟩ | ⟨_, _, hnil⟩⟩ := hcalls
      · exact ⟨_, _, rfl, hdecode, hname, rfl⟩
      · simp at hnil

/-- A document without a name for a file is the last that is read. -/
theorem Handles.unnamed_ends {source : String} (h : Handles directory source own result)
    {before after : List Call} {content : List UInt8} {document : Message}
    (hcalls : own = before ++ .read path (.ok content) :: after)
    (hdecode : decode .bundled Bundled.testFileType content = .ok document)
    (hname : ¬Path.IsComponent (document.string "name")) :
    after = [] ∧
      result = .error (.unwritable path (TestFile.nameFault (document.string "name"))) := by
  cases h with
  | unread | undecoded hrefused => simp_all [List.singleton_eq_append_iff]
  | unnamed hread _ | noJson hread _ => simp_all [List.singleton_eq_append_iff]
  | unwritten hread _ | written hread _ => simp_all [List.cons_eq_append_iff]

/-- A call among those for one input and those for the inputs after it. -/
theorem append_eq_append_cons {more before after : List Call} {call : Call}
    (h : own ++ more = before ++ call :: after) :
    (∃ rest, own = before ++ call :: rest) ∨
      ∃ lead, before = own ++ lead ∧ more = lead ++ call :: after := by
  obtain ⟨lead, rfl, hmore⟩ | ⟨last, rfl, hlast⟩ := List.append_eq_append_iff.mp h
  · exact .inr ⟨lead, rfl, hmore⟩
  · obtain ⟨rfl, hmore⟩ | ⟨rest, rfl, _⟩ := List.cons_eq_append_iff.mp hlast
    · exact .inr ⟨[], by simp, hmore⟩
    · exact .inl ⟨rest, rfl⟩

/-- Each call of a run but the reports is one for an input, and none follow those for an input
that is refused. -/
theorem Asks.exists_handles (h : Asks directory inputs calls error) {before after : List Call}
    {call : Call} (hcalls : calls = before ++ call :: after)
    (hcall : ∀ line answer, call ≠ .report line answer) :
    ∃ input ∈ inputs, ∃ own result earlier lead rest,
      Handles directory input.path own result ∧ before = earlier ++ lead ∧
      own = lead ++ call :: rest ∧
      ∀ cause, result = .error cause → after = rest ∧ error = some cause := by
  induction h generalizing before with
  | done => simp at hcalls
  | untold =>
      rcases List.cons_eq_append_iff.mp hcalls with ⟨rfl, heq⟩ | ⟨before, rfl, hnil⟩
      · exact absurd (List.cons.inj heq).1 (hcall _ _)
      · simp at hnil
  | refused hhandles =>
      rcases List.cons_eq_append_iff.mp hcalls with ⟨rfl, heq⟩ | ⟨before, rfl, hown⟩
      · exact absurd (List.cons.inj heq).1 (hcall _ _)
      · refine ⟨_, List.mem_cons_self, _, _, [_], before, after, hhandles, rfl, hown, ?_⟩
        rintro _ ⟨⟩
        exact ⟨rfl, rfl⟩
  | handled hhandles _ ih =>
      rcases List.cons_eq_append_iff.mp hcalls with ⟨rfl, heq⟩ | ⟨before, rfl, hall⟩
      · exact absurd (List.cons.inj heq).1 (hcall _ _)
      · obtain ⟨rest, hown⟩ | ⟨lead, rfl, hmore⟩ := append_eq_append_cons hall
        · refine ⟨_, List.mem_cons_self, _, _, [_], before, rest, hhandles, rfl, hown, ?_⟩
          rintro _ ⟨⟩
        · obtain ⟨input, hinput, own, result, earlier, last, rest, hown, rfl, hsplit, hend⟩ :=
            ih hmore
          exact ⟨input, List.mem_cons_of_mem _ hinput, own, result, _, last, rest, hown,
            (List.append_assoc (_ :: _) earlier last).symm, hsplit, hend⟩

theorem Asks.read_path (h : Asks directory inputs calls error)
    {answer : Except Fault (List UInt8)} (hcall : .read path answer ∈ calls) :
    ∃ input ∈ inputs, path = input.path := by
  obtain ⟨before, after, hcalls⟩ := List.append_of_mem hcall
  obtain ⟨input, hinput, own, _, _, lead, rest, hhandles, _, rfl, _⟩ :=
    h.exists_handles hcalls (by simp)
  exact ⟨input, hinput, hhandles.read_path (List.mem_append_right lead List.mem_cons_self)⟩

theorem Asks.write_path (h : Asks directory inputs calls error) {before after : List Call}
    {bytes : List UInt8} {answer : Except Fault Unit}
    (hcalls : calls = before ++ .write path bytes answer :: after) :
    ∃ earlier source content document, before = earlier ++ [.read source (.ok content)] ∧
      decode .bundled Bundled.testFileType content = .ok document ∧
      Path.IsComponent (document.string "name") ∧ path = outputOf directory document := by
  obtain ⟨input, _, own, _, earlier, lead, rest, hhandles, rfl, hown, _⟩ :=
    h.exists_handles hcalls (by simp)
  obtain ⟨content, document, rfl, hdocument⟩ := hhandles.write_path hown
  exact ⟨earlier, input.path, content, document, rfl, hdocument⟩

theorem Asks.unnamed_ends (h : Asks directory inputs calls error) {before after : List Call}
    {source : String} {content : List UInt8} {document : Message}
    (hcalls : calls = before ++ .read source (.ok content) :: after)
    (hdecode : decode .bundled Bundled.testFileType content = .ok document)
    (hname : ¬Path.IsComponent (document.string "name")) :
    after = [] ∧
      error = some (.unwritable source (TestFile.nameFault (document.string "name"))) := by
  obtain ⟨input, _, own, _, earlier, lead, rest, hhandles, _, hown, hend⟩ :=
    h.exists_handles hcalls (by simp)
  obtain ⟨rfl, hresult⟩ := hhandles.unnamed_ends hown hdecode hname
  exact hend _ hresult

/-- Recording changes nothing in a run. -/
theorem run_recording (host : Host (StateM σ)) (converter : Converter) (state : σ) :
    ∃ own, (converter.run host.recording).run (state, []) =
        (let (outcome, last) := (converter.run host).run state
         (outcome, last, own)) ∧
      Asks converter.outputDir converter.inputs own
        (errorOf? ((converter.run host).run state).1.2) := by
  obtain ⟨own, hown, hasks⟩ :=
    asks_runFrom host converter.outputDir converter.inputs 0 [] state []
  refine ⟨own, ?_, hasks⟩
  simp only [run, StateT.run, bind, StateT.bind] at hown ⊢
  rw [hown]
  rfl

/-- Whatever a run is answered, each path that it reads is that of an input, one step down from
the input directory, and each path that it writes is one step down from the output directory,
named after the document that was read last. A document without a name for a file ends the run,
and there is one for every single step down. -/
theorem run_confined {config : Config} {converter : Converter}
    (hconfig : ofConfig config = .ok converter) (host : Host (StateM σ)) (state : σ) :
    ∃ calls : List Call,
      (converter.run host.recording).run (state, []) =
        (let (outcome, last) := (converter.run host).run state
         (outcome, last, calls)) ∧
      (∀ path answer, .read path answer ∈ calls →
        ∃ name ∈ config.inputs, Path.IsChild config.inputDir (name ++ ".textproto") path) ∧
      (∀ before path bytes answer after, calls = before ++ .write path bytes answer :: after →
        ∃ earlier source content document, before = earlier ++ [.read source (.ok content)] ∧
          decode .bundled Bundled.testFileType content = .ok document ∧
          Path.IsChild config.outputDir (document.string "name" ++ ".json") path) ∧
      (∀ before source content after document,
        calls = before ++ .read source (.ok content) :: after →
        decode .bundled Bundled.testFileType content = .ok document →
        ¬Path.IsComponent (document.string "name") →
        after = [] ∧ ((converter.run host).run state).1.2 =
          .error (.unwritable source (TestFile.nameFault (document.string "name")))) ∧
      ∀ file : TestFile,
        (Path.IsComponent file.name → file.fileName = .ok (file.name ++ ".json")) ∧
        (¬Path.IsComponent file.name →
          file.fileName = .error (.unwritable file.source (TestFile.nameFault file.name))) := by
  obtain ⟨calls, hcalls, hasks⟩ := run_recording host converter state
  refine ⟨calls, hcalls, ?_, ?_, ?_, fun file =>
    ⟨TestFile.fileName_of_isComponent, TestFile.fileName_of_not_isComponent⟩⟩
  · intro path answer hcall
    obtain ⟨input, hinput, rfl⟩ := hasks.read_path hcall
    rw [ofConfig_eq_ok hconfig] at hinput
    obtain ⟨name, hname, rfl⟩ := List.mem_map.mp hinput
    have hlogical := isLogicalName_of_ofConfig hconfig name hname
    simp only [isLogicalName, Bool.and_eq_true, decide_eq_true_eq] at hlogical
    obtain ⟨⟨_, hslash⟩, hbackslash⟩ := hlogical
    -- A logical name with an extension is a component, and so one step down.
    have hcomponent : Path.IsComponent (name ++ ".textproto") :=
      Path.isComponent_extension hslash hbackslash (by decide) (by decide) (by decide)
    exact ⟨name, hname, hcomponent.isChild _⟩
  · intro before path bytes answer after heq
    obtain ⟨earlier, source, content, document, hbefore, hdecode, hname, rfl⟩ :=
      hasks.write_path heq
    have hcomponent : Path.IsComponent (document.string "name" ++ ".json") :=
      Path.isComponent_extension hname.slash hname.backslash (by decide) (by decide) (by decide)
    refine ⟨earlier, source, content, document, hbefore, hdecode, ?_⟩
    rw [ofConfig_eq_ok hconfig]
    exact hcomponent.isChild _
  · intro before source content after document heq hdecode hname
    obtain ⟨hafter, herror⟩ := hasks.unnamed_ends heq hdecode hname
    refine ⟨hafter, ?_⟩
    cases hresult : ((converter.run host).run state).1.2 with
    | ok outputs =>
        rw [hresult] at herror
        cases herror
    | error error =>
        rw [hresult] at herror
        exact congrArg _ (Option.some.inj herror)

/-- A document that is named after a place above the output directory. -/
theorem run_confined_refused :
    let bytes := Utf8.encode "name:\"../x\"".toList
    let host : Host (StateM Unit) :=
      ⟨fun _ => return .ok bytes, fun _ _ => return .ok (), fun _ => return .ok ()⟩
    let converter : Converter := ⟨[⟨"a", "in/a.textproto"⟩, ⟨"b", "in/b.textproto"⟩], "out", .ready⟩
    ofConfig ⟨"in", "out", ["a", "b"]⟩ = .ok converter ∧
      ((converter.run host.recording).run ((), [])).2.2 =
        [.report "Writing in/a.textproto" (.ok ()), .read "in/a.textproto" (.ok bytes)] ∧
      ((converter.run host).run ()).1.2 =
        .error (.unwritable "in/a.textproto" (.notFileName "../x")) := by
  intro bytes host converter
  have hconfig : ofConfig ⟨"in", "out", ["a", "b"]⟩ = .ok converter := by decide
  let document : Message := ⟨Bundled.testFileType, [(1, .single (.string "../x"))], none⟩
  have hdecode : decode .bundled Bundled.testFileType bytes = .ok document := by
    rw [decode_encode]
    cbv
  have hname : ¬Path.IsComponent (document.string "name") := by
    rw [TestFile.isComponent_iff]
    decide
  obtain ⟨calls, hrun, _, _, hends, _⟩ := run_confined hconfig host ()
  have hasked : (runFrom host.recording "out" 0 [] converter.inputs).run ((), []) =
      ((.failed 0, .error (.unwritable "in/a.textproto" (.notFileName "../x"))), (),
        [.report "Writing in/a.textproto" (.ok ()), .read "in/a.textproto" (.ok bytes)]) := by
    rw [runFrom_run]
    simp only [Host.recording, host, pure, StateT.pure, List.nil_append, convert_run,
      TestFile.decode, hdecode, @TestFile.fileName_of_not_isComponent ⟨_, document⟩ hname]
    rfl
  have hcalls : calls =
      [.report "Writing in/a.textproto" (.ok ()), .read "in/a.textproto" (.ok bytes)] := by
    have hlast := congrArg (fun last => last.2.2) hrun
    simp only [run, StateT.run, bind, StateT.bind] at hasked hlast
    rw [hasked] at hlast
    exact hlast.symm
  have hresult := (hends [.report _ _] _ _ [] _ hcalls hdecode hname).2
  exact ⟨hconfig, (congrArg (fun last => last.2.2) hrun).trans hcalls, hresult⟩

end Converter

end Textproto
