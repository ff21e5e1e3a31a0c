import TensorGraph.Action
import TensorGraph.Arena
import TensorGraph.CommandLine.Arguments
import TensorGraph.CommandLine.Response
import TensorGraph.Decimal.Reading
import TensorGraph.Decimal.Shortest
import TensorGraph.Decimal.Text
import TensorGraph.Dominance
import TensorGraph.ElementType
import TensorGraph.Error
import TensorGraph.Event
import TensorGraph.Fault
import TensorGraph.Handle
import TensorGraph.Json.Basic
import TensorGraph.Json.Decode
import TensorGraph.Json.Reader
import TensorGraph.Json.Writer
import TensorGraph.Literal.Basic
import TensorGraph.Literal.Codec
import TensorGraph.Main
import TensorGraph.Module.Basic
import TensorGraph.Module.Edit
import TensorGraph.Module.Evaluation
import TensorGraph.Module.Text
import TensorGraph.Module.Validation
import TensorGraph.Operator.Basic
import TensorGraph.Operator.Codec
import TensorGraph.Operator.Evaluation
import TensorGraph.Operator.Fingerprint
import TensorGraph.Operator.Inference
import TensorGraph.Pass.Algebra
import TensorGraph.Pass.Basic
import TensorGraph.Pass.CommonSubexpression
import TensorGraph.Pass.ConstantFolding
import TensorGraph.Pass.Contiguous
import TensorGraph.Pass.Convert
import TensorGraph.Pass.DeadCode
import TensorGraph.Pass.Gelu
import TensorGraph.Pass.Identity
import TensorGraph.Pass.Layernorm
import TensorGraph.Pass.Pad
import TensorGraph.Pass.Quantization
import TensorGraph.Pattern.Basic
import TensorGraph.Pattern.Rule
import TensorGraph.Pipeline.Basic
import TensorGraph.Pipeline.Config
import TensorGraph.Pipeline.Level
import TensorGraph.Pipeline.Registry
import TensorGraph.Program.Basic
import TensorGraph.Program.Codec
import TensorGraph.Program.Record
import TensorGraph.Program.Text
import TensorGraph.Proofs.Action
import TensorGraph.Proofs.Arena
import TensorGraph.Proofs.Arena.History
import TensorGraph.Proofs.Arithmetic
import TensorGraph.Proofs.Codec
import TensorGraph.Proofs.Conversion
import TensorGraph.Proofs.Dominance
import TensorGraph.Proofs.Except
import TensorGraph.Proofs.Fingerprint
import TensorGraph.Proofs.Finite
import TensorGraph.Proofs.Footprint
import TensorGraph.Proofs.Indexing
import TensorGraph.Proofs.Json
import TensorGraph.Proofs.Literal
import TensorGraph.Proofs.Module.Accepted
import TensorGraph.Proofs.Module.Built
import TensorGraph.Proofs.Module.Changes
import TensorGraph.Proofs.Module.Consistency
import TensorGraph.Proofs.Module.Cycles
import TensorGraph.Proofs.Module.Derived
import TensorGraph.Proofs.Module.Edit
import TensorGraph.Proofs.Module.Evaluation
import TensorGraph.Proofs.Module.Exactness
import TensorGraph.Proofs.Module.Expansion
import TensorGraph.Proofs.Module.Forward
import TensorGraph.Proofs.Module.InPlace
import TensorGraph.Proofs.Module.Lookup
import TensorGraph.Proofs.Module.Memo
import TensorGraph.Proofs.Module.Order
import TensorGraph.Proofs.Module.Outputs
import TensorGraph.Proofs.Module.Preservation
import TensorGraph.Proofs.Module.Refinement
import TensorGraph.Proofs.Module.Retyping
import TensorGraph.Proofs.Module.Typed
import TensorGraph.Proofs.Module.Validation
import TensorGraph.Proofs.Module.Values
import TensorGraph.Proofs.Operator.Elements
import TensorGraph.Proofs.Operator.Elementwise
import TensorGraph.Proofs.Operator.Equality
import TensorGraph.Proofs.Operator.Evaluation
import TensorGraph.Proofs.Operator.Inference
import TensorGraph.Proofs.Operator.Means
import TensorGraph.Proofs.Operator.Padding
import TensorGraph.Proofs.Operator.Places
import TensorGraph.Proofs.Operator.Refusals
import TensorGraph.Proofs.Operator.Reshaping
import TensorGraph.Proofs.Operator.Safety
import TensorGraph.Proofs.Operator.Strides
import TensorGraph.Proofs.Operator.Views
import TensorGraph.Proofs.Pass.Algebra
import TensorGraph.Proofs.Pass.Border
import TensorGraph.Proofs.Pass.Computes
import TensorGraph.Proofs.Pass.Contiguity
import TensorGraph.Proofs.Pass.Conversion
import TensorGraph.Proofs.Pass.DeadCode
import TensorGraph.Proofs.Pass.DeadSet
import TensorGraph.Proofs.Pass.Derived
import TensorGraph.Proofs.Pass.Folding
import TensorGraph.Proofs.Pass.Gelu
import TensorGraph.Proofs.Pass.Identity
import TensorGraph.Proofs.Pass.Layout
import TensorGraph.Proofs.Pass.Meaning
import TensorGraph.Proofs.Pass.Merging
import TensorGraph.Proofs.Pass.Normalization
import TensorGraph.Proofs.Pass.Padding
import TensorGraph.Proofs.Pass.Quantization
import TensorGraph.Proofs.Pass.Simplification
import TensorGraph.Proofs.Pattern
import TensorGraph.Proofs.Pattern.Bindings
import TensorGraph.Proofs.Pattern.Outcome
import TensorGraph.Proofs.Pipeline.Levels
import TensorGraph.Proofs.Pipeline.Preservation
import TensorGraph.Proofs.Pipeline.Snapshots
import TensorGraph.Proofs.Pipeline.Unchanged
import TensorGraph.Proofs.Positions
import TensorGraph.Proofs.Program.Atomicity
import TensorGraph.Proofs.Program.Edits
import TensorGraph.Proofs.Program.Loading
import TensorGraph.Proofs.Program.References
import TensorGraph.Proofs.Program.Reload
import TensorGraph.Proofs.Program.RoundTrip
import TensorGraph.Proofs.Program.Safety
import TensorGraph.Proofs.Reach
import TensorGraph.Proofs.Rereading
import TensorGraph.Proofs.RowMajor
import TensorGraph.Proofs.Semantics
import TensorGraph.Proofs.Shape
import TensorGraph.Proofs.Word
import TensorGraph.Reach
import TensorGraph.Scalar
import TensorGraph.Shape.Basic
import TensorGraph.Shape.Codec
import TensorGraph.Shape.Text
import TensorGraph.Word
