import Textproto.CommandLine.Program
import Textproto.Proofs.Binding.Lines
import Textproto.Proofs.Conversion.Run

namespace Textproto

/-! A text that is refused is told of in one line, but for three kinds of errors. -/

/-- Errors that show a line end: one behind a backslash, or else one that the fields show. -/
inductive DecodeError.BreaksLine : DecodeError → Prop
  | escape {failure : Tree.Failure} :
      failure.cause = .described (.invalidEscape '\n') → BreaksLine (.refused failure)
  | fields {error : Binding.Error} : error.cause.BreaksLine → BreaksLine (.unbound error)

theorem Utf8.isLine_message (malformed : Malformed) : IsLine malformed.message := by
  obtain ⟨index, _ | size⟩ := malformed
  · change IsLine (toString "incomplete utf-8 byte sequence from index " ++ toString index)
    simp +decide
  · change IsLine (toString "invalid utf-8 sequence of " ++ toString size
      ++ toString " bytes from index " ++ toString index)
    simp +decide

section

variable {registry : Registry} {descriptor : Descriptor} {bytes : List UInt8} {error : DecodeError}

/-- For names that are lines, as those of the bundled types are. -/
theorem isLine_message_of_decode (hregistry : registry.OneLine) (hdescriptor : descriptor.OneLine)
    (h : decode registry descriptor bytes = .error error) :
    IsLine error.message ↔ ¬error.BreaksLine := by
  unfold decode at h
  split at h
  next malformed _ =>
    cases h
    refine iff_of_true ?_ nofun
    change IsLine (toString "input is not valid UTF-8 (" ++ toString malformed.message
      ++ toString ")")
    simp +decide [Utf8.isLine_message]
  next text _ =>
    unfold decodeText at h
    split at h
    next failure hparse =>
      cases h
      change IsLine failure.message ↔ _
      rw [Tree.isLine_message_iff hparse]
      refine not_congr ⟨.escape, ?_⟩
      rintro ⟨hcause⟩
      exact hcause
    next fields hparse =>
      cases hbound : Binding.messageOf registry descriptor fields with
      | ok message =>
          rw [hbound] at h
          cases h
      | error cause =>
          rw [hbound] at h
          cases h
          have htold := Binding.failsInLine_messageOf hregistry hdescriptor fields
            (fun written hwritten node hnode => Tree.oneLine_of_parse hparse ⟨written, hwritten, hnode⟩)
            cause hbound
          change IsLine cause.cause.message ↔ _
          constructor
          · intro hline hbreaks
            cases hbreaks with
            | fields hcause => exact hcause.not_isLine hline
          · intro hnone
            exact htold.resolve_right fun hbreaks => hnone (.fields hbreaks)

theorem isLine_message_of_bundled {name : String}
    (hknown : Registry.bundled.message? name = some descriptor)
    (h : decode .bundled descriptor bytes = .error error) :
    IsLine error.message ↔ ¬error.BreaksLine :=
  isLine_message_of_decode Registry.bundled_oneLine (Registry.bundled_oneLine name _ hknown) h

end

theorem DecodeError.isLine_text (error : DecodeError) : IsLine error.text ↔ IsLine error.message := by
  change IsLine (toString "line " ++ toString error.line ++ toString " column "
    ++ toString error.column ++ toString ": " ++ toString error.message) ↔ _
  simp +decide

theorem ConversionError.isLine_unreadable {path : String} {error : DecodeError} :
    IsLine (unreadable path error).message ↔ IsLine path ∧ IsLine error.message := by
  change IsLine (toString "Parser Error when parsing `" ++ toString path ++ toString "`: "
    ++ toString error.text) ↔ _
  simp +decide [DecodeError.isLine_text]

namespace CommandLine

/-- The line that the program ends with when an input can not be read as a document. -/
def errorLine (path : String) (error : DecodeError) : String :=
  "Error occurred " ++ (ConversionError.unreadable path error).message

theorem isLine_errorLine {path : String} {error : DecodeError} :
    IsLine (errorLine path error) ↔ IsLine path ∧ IsLine error.message := by
  have hlead : IsLine "Error occurred " := by decide
  rw [errorLine, isLine_append, and_iff_right hlead, ConversionError.isLine_unreadable]

/-- The paths of the inputs that settings ask for. -/
def Settings.paths (settings : Settings) : List String :=
  settings.config.inputs.map fun name => Path.join settings.config.inputDir (name ++ ".textproto")

variable {settings : Settings} {world next : World} {log : List String} {path : String}
  {error : DecodeError}

theorem convert_run (settings : Settings) (world : World) :
    (convert World.host settings).run world =
      match Converter.ofConfig settings.config with
      | .error error => ((configLog settings.verbosity settings.config, .error error), world)
      | .ok converter =>
          let ((converter, result), next) := (converter.run World.host).run world
          ((configLog settings.verbosity settings.config ++ runLog settings.verbosity converter,
            result), next) := by
  unfold convert
  simp only
  cases Converter.ofConfig settings.config <;> rfl

theorem report_of_room (hroom : world.diagnostics.room = none) (line : String) :
    World.host.report line world = (.ok (), { world with
      diagnostics := world.diagnostics.write (Utf8.encode (line.toList ++ ['\n'])) }) := by
  simp only [World.host, Diagnostics.writeLine, hroom]

theorem run_of_request {arguments : List String} (h : request arguments = .ok settings)
    (world : World) :
    (run World.host arguments).run world =
      match (convert World.host settings).run world with
      | ((log, .ok _), next) => (⟨log, 0⟩, next)
      | ((log, .error error), next) =>
          (⟨log, 255⟩, (World.host.report ("Error occurred " ++ error.message) next).2) := by
  unfold run
  rw [h]
  simp only [StateT.run, bind, StateT.bind, pure]
  rcases convert World.host settings world with ⟨⟨log, _ | _⟩, next⟩ <;> rfl

/-- A run over inputs up to the first that is refused. -/
theorem runFrom_of_refuses {directory : String} {files last : FileSystem} {stream : Diagnostics}
    {inputs : List Input} {before after outputs : List String} {cause : ConversionError}
    (hroom : stream.room = none) (hsplit : inputs.map Input.path = before ++ path :: after)
    (hall : Converter.ConvertsAll directory files before outputs last)
    (hrefuses : Converter.Refuses directory last path cause) :
    (Converter.runFrom World.host directory 0 [] inputs).run ⟨files, stream⟩ =
      ((.failed before.length, .error cause), ⟨last, stream.told (before ++ [path])⟩) := by
  obtain ⟨first, others, rfl, rfl, hothers⟩ := List.map_eq_append_iff.mp hsplit
  obtain ⟨input, rest, rfl, rfl, _⟩ := List.map_eq_cons_iff.mp hothers
  have htold : (stream.told (first.map Input.path)).room = none := hroom
  rw [Converter.runFrom_append hroom hall 0 [] (input :: rest),
    Converter.runFrom_refused htold hrefuses, stream.told_append, Nat.zero_add, List.length_map]

/-- A conversion that ends with an unreadable input has told of all inputs up to that one. -/
theorem told_of_unreadable (hroom : world.diagnostics.room = none)
    (h : (convert World.host settings).run world = ((log, .error (.unreadable path error)), next)) :
    ∃ before after bytes, settings.paths = before ++ path :: after ∧
      decode .bundled Bundled.testFileType bytes = .error error ∧
      next.diagnostics = world.diagnostics.told (before ++ [path]) := by
  obtain ⟨files, stream⟩ := world
  rw [convert_run] at h
  cases hconfig : Converter.ofConfig settings.config with
  | error cause =>
      rw [hconfig] at h
      unfold Converter.ofConfig at hconfig
      cases h
      split at hconfig
      next => cases hconfig
      next => split at hconfig <;> cases hconfig
  | ok converter =>
      rw [hconfig] at h
      obtain rfl := Converter.ofConfig_eq_ok hconfig
      have hpaths : (settings.config.inputs.map (.inDirectory settings.config.inputDir)).map
          Input.path = settings.paths := by
        rw [List.map_map]
        rfl
      simp only [Converter.run_run] at h
      rcases Converter.convertsAll_or_refuses settings.config.outputDir files settings.paths with
        ⟨outputs, last, hall⟩ | ⟨before, own, after, outputs, last, cause, hsplit, hall, hrefuses⟩
      · rw [← hpaths] at hall
        have hrun := Converter.runFrom_append hroom hall 0 [] []
        rw [List.append_nil, List.append_nil] at hrun
        rw [hrun, Converter.runFrom] at h
        cases h
      · rw [runFrom_of_refuses hroom (hpaths.trans hsplit) hall hrefuses] at h
        cases h
        cases hrefuses with
        | undecoded _ hdecode => exact ⟨before, after, _, hsplit, hdecode, rfl⟩

theorem message?_testFile :
    Registry.bundled.message? Bundled.testFile = some Bundled.testFileType :=
  @Bundled.message?_of_mem Bundled.testFileType
    (by simp [Bundled.types, Bundled.conformanceTypes])

/-- Every text that is refused as a bundled type is told of in one line, unless the error shows a
line end. So the program, when an input can not be read as a document, leaves a line for each input
up to that one and then the error, on a line of its own if its path is one and the error shows no
line end. -/
theorem run_unreadable {name : String} {descriptor : Descriptor} {bytes : List UInt8}
    (hknown : Registry.bundled.message? name = some descriptor)
    (h : decode .bundled descriptor bytes = .error error) :
    (IsLine error.message ↔ ¬error.BreaksLine) ∧
    ∀ (arguments : List String) (settings : Settings) (world next : World) (log : List String)
        (path : String) (cause : DecodeError),
      request arguments = .ok settings → world.diagnostics.room = none →
      (convert World.host settings).run world =
        ((log, .error (.unreadable path cause)), next) →
      ∃ before after, settings.paths = before ++ path :: after ∧
        (run World.host arguments).run world = (⟨log, 255⟩, { next with
          diagnostics := (world.diagnostics.told (before ++ [path])).write
            (Utf8.encode ((errorLine path cause).toList ++ ['\n'])) }) ∧
        (IsLine (errorLine path cause) ↔ IsLine path ∧ ¬cause.BreaksLine) := by
  refine ⟨isLine_message_of_bundled hknown h, ?_⟩
  intro arguments settings world next log path cause hrequest hroom hconvert
  obtain ⟨before, after, bytes, hpaths, hdecode, htold⟩ := told_of_unreadable hroom hconvert
  refine ⟨before, after, hpaths, ?_, ?_⟩
  · rw [run_of_request hrequest, hconvert]
    -- Telling of the inputs leaves room for the error.
    have hnext : next.diagnostics.room = none := by
      rw [htold]
      exact hroom
    simp only [report_of_room hnext, htold, errorLine]
  · rw [isLine_errorLine, isLine_message_of_bundled message?_testFile hdecode]

/-- A name in which a line ends behind a backslash, and a string with a line end in it where there
has to be a number. -/
theorem run_unreadable_escape :
    let bytes := Utf8.encode "name:\"\\\n\"".toList
    let world : World := ⟨⟨[(["a.textproto"], .file bytes)]⟩, {}⟩
    (∃ error log before after,
      decode .bundled Bundled.testFileType bytes = .error error ∧ ¬IsLine error.message ∧
      ["a.textproto"] = before ++ "a.textproto" :: after ∧
      (run World.host ["-i", "", "-f", "a"]).run world = (⟨log, 255⟩, { world with
        diagnostics := (world.diagnostics.told (before ++ ["a.textproto"])).write
          (Utf8.encode ((errorLine "a.textproto" error).toList ++ ['\n'])) }) ∧
      ¬IsLine (errorLine "a.textproto" error)) ∧
    ∃ error, decode .bundled (Bundled.wrapper "Int32Value" .int32)
        (Utf8.encode "value:\"a\\nb\"".toList) = .error error ∧ ¬IsLine error.message := by
  intro bytes world
  constructor
  · let error : DecodeError :=
      .refused (.complain (.invalidEscape '\n') ⟨⟨1, 7⟩, "\\\n\"".toList⟩)
    let settings : Settings := { inputDir := some "", files := ["a"] }
    have hbreaks : error.BreaksLine := .escape rfl
    have hdecode : decode .bundled Bundled.testFileType bytes = .error error := by
      rw [decode_encode]
      cbv
    have hrequest : request ["-i", "", "-f", "a"] = .ok settings := by
      decide
    have hconvert : (convert World.host settings).run world =
        (([], .error (.unreadable "a.textproto" error)),
          ⟨world.files, world.diagnostics.told ["a.textproto"]⟩) := by
      have hread : world.files.read "a.textproto" = .ok bytes := by
        decide +kernel
      have hconfig : Converter.ofConfig settings.config =
          .ok ⟨[⟨"a", "a.textproto"⟩], "", .ready⟩ := by
        decide
      have hstopped := @runFrom_of_refuses _ "" _ _ world.diagnostics [⟨"a", "a.textproto"⟩] [] [] [] _
        rfl rfl .nil (.undecoded hread hdecode)
      rw [convert_run, hconfig]
      simp only [Converter.run_run, hstopped]
      rfl
    obtain ⟨hmessage, hrun⟩ := run_unreadable message?_testFile hdecode
    obtain ⟨before, after, hpaths, hended, hline⟩ := hrun _ _ _ _ _ _ _ hrequest rfl hconvert
    refine ⟨error, _, before, after, hdecode, ?_, hpaths, hended, ?_⟩
    · exact fun h => hmessage.mp h hbreaks
    · exact fun h => (hline.mp h).2 hbreaks
  · let root := Bundled.wrapper "Int32Value" .int32
    have hknown : Registry.bundled.message? root.fullName = some root :=
      Bundled.message?_of_mem
        (Bundled.mem_types_of_wellKnown (by simp [Bundled.wellKnownTypes, root]))
    have hdecode : decode .bundled root (Utf8.encode "value:\"a\\nb\"".toList) =
          .error (.unbound ⟨⟨1, 7⟩, .mismatch "int32" "value" (.string [0x61, 0x0A, 0x62])⟩) := by
      rw [decode_encode]
      cbv
    obtain ⟨hmessage, _⟩ := run_unreadable hknown hdecode
    refine ⟨_, hdecode, fun h => hmessage.mp h (.fields (.string ?_))⟩
    decide

end CommandLine

end Textproto
