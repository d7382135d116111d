import Textproto.Schema.Bundled.Value
import Textproto.Schema.Bundled.Checked

namespace Textproto.Bundled

/-! Files of conformance tests: sections of tests, each with the outcome it expects. -/

def testFile : String := "cel.expr.conformance.test.SimpleTestFile"

def testSection : String := "cel.expr.conformance.test.SimpleTestSection"

def test : String := "cel.expr.conformance.test.SimpleTest"

def bindingsEntry : String := "cel.expr.conformance.test.SimpleTest.BindingsEntry"

def typedResult : String := "cel.expr.conformance.test.TypedResult"

def errorSetMatcher : String := "cel.expr.conformance.test.ErrorSetMatcher"

def unknownSetMatcher : String := "cel.expr.conformance.test.UnknownSetMatcher"

def testFileType : Descriptor where
  fullName := testFile
  shape := .message
    [ .single "name" 1 .string,
      .single "description" 2 .string,
      .many "section" 3 (.message testSection) ]

def conformanceTypes : List Descriptor :=
  [ testFileType,
    ⟨testSection, .message
      [ .single "name" 1 .string,
        .single "description" 2 .string,
        .many "test" 3 (.message test) ]⟩,
    ⟨test, .message
      [ .single "name" 1 .string,
        .single "description" 2 .string,
        .single "expr" 3 .string,
        .single "disable_macros" 4 .bool,
        .single "disable_check" 5 .bool,
        .single "check_only" 15 .bool,
        .many "type_env" 6 (.message declaration),
        .single "container" 13 .string,
        .single "locale" 14 .string,
        .many "bindings" 7 (.message bindingsEntry),
        .member "result_matcher" "value" 8 (.message value),
        .member "result_matcher" "typed_result" 16 (.message typedResult),
        .member "result_matcher" "eval_error" 9 (.message errorSet),
        .member "result_matcher" "any_eval_errors" 10 (.message errorSetMatcher),
        .member "result_matcher" "unknown" 11 (.message unknownSet),
        .member "result_matcher" "any_unknowns" 12 (.message unknownSetMatcher) ]⟩,
    ⟨bindingsEntry, .mapEntry ⟨.string, .message exprValue⟩⟩,
    ⟨typedResult, .message
      [ .single "result" 1 (.message value),
        .single "deduced_type" 2 (.message type) ]⟩,
    ⟨errorSetMatcher, .message [.many "errors" 1 (.message errorSet)]⟩,
    ⟨unknownSetMatcher, .message [.many "unknowns" 1 (.message unknownSet)]⟩ ]

end Textproto.Bundled
