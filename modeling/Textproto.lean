import Textproto.Main
import Textproto.Message.Equality
import Textproto.Proofs.Data.Runs
import Textproto.Proofs.Data.Entries
import Textproto.Proofs.Text.Utf8
import Textproto.Proofs.Text.Base64
import Textproto.Proofs.Text.Camel
import Textproto.Proofs.Text.Lines
import Textproto.Proofs.Time.Calendar
import Textproto.Proofs.Time.Text
import Textproto.Proofs.Time.Duration
import Textproto.Proofs.Time.Distance
import Textproto.Proofs.Time.Timestamp
import Textproto.Proofs.Ieee.Range
import Textproto.Proofs.Tree.Completeness
import Textproto.Proofs.Tree.Alike
import Textproto.Proofs.Tree.Nodes
import Textproto.Proofs.Tree.Places
import Textproto.Proofs.Tree.Signed
import Textproto.Proofs.Tree.Strings
import Textproto.Proofs.Tree.Failures
import Textproto.Proofs.Tree.Faults
import Textproto.Proofs.Tree.Overrun
import Textproto.Proofs.Tree.Nesting
import Textproto.Proofs.Tree.Interrupted
import Textproto.Proofs.Tree.Paths
import Textproto.Proofs.Tree.Lines
import Textproto.Proofs.Schema.WellFormed
import Textproto.Proofs.Schema.Bundled
import Textproto.Proofs.Schema.Names
import Textproto.Proofs.Schema.Editions
import Textproto.Proofs.Message.Typed
import Textproto.Proofs.Message.Agreement
import Textproto.Proofs.Message.Alike
import Textproto.Proofs.Message.Opposed
import Textproto.Proofs.Message.Editions
import Textproto.Proofs.Binding.Typed
import Textproto.Proofs.Binding.Bare
import Textproto.Proofs.Binding.Order
import Textproto.Proofs.Binding.Occurrences
import Textproto.Proofs.Binding.Alike
import Textproto.Proofs.Binding.Stored
import Textproto.Proofs.Binding.Sites
import Textproto.Proofs.Binding.Spread
import Textproto.Proofs.Binding.Places
import Textproto.Proofs.Binding.Editions
import Textproto.Proofs.Binding.Literals
import Textproto.Proofs.Binding.Integers
import Textproto.Proofs.Binding.Floats
import Textproto.Proofs.Binding.Strings
import Textproto.Proofs.Binding.Lines
import Textproto.Proofs.Decoding
import Textproto.Proofs.Encoding.Forms
import Textproto.Proofs.Encoding.Typed
import Textproto.Proofs.Json.Near
import Textproto.Proofs.Encoding.Number
import Textproto.Proofs.Encoding.Whole
import Textproto.Proofs.Json.Sorted
import Textproto.Proofs.Encoding.Flaw
import Textproto.Proofs.Encoding.Refusal
import Textproto.Proofs.Encoding.Scalar
import Textproto.Proofs.Encoding.Written
import Textproto.Proofs.Encoding.Injectivity
import Textproto.Proofs.Encoding.Agreement
import Textproto.Proofs.Encoding.Decoded
import Textproto.Proofs.Encoding.Order
import Textproto.Proofs.Encoding.Equality
import Textproto.Proofs.Encoding.Shown
import Textproto.Proofs.Encoding.Maps
import Textproto.Proofs.Encoding.Embedding
import Textproto.Proofs.Encoding.Lists
import Textproto.Proofs.Encoding.FieldMask
import Textproto.Proofs.Encoding.Payload
import Textproto.Proofs.Encoding.Editions
import Textproto.Proofs.Conversion.Place
import Textproto.Proofs.Conversion.Run
import Textproto.Proofs.Conversion.Outputs
import Textproto.Proofs.Conversion.Repetition
import Textproto.Proofs.Conversion.Confinement
import Textproto.Proofs.Conversion.State
import Textproto.Proofs.Conversion.Lines
