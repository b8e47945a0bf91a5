import JsonAssert.Main
import JsonAssert.Value.Edit
import JsonAssert.Value.Equality
import JsonAssert.Data.Equality
import JsonAssert.Proofs.Number.DecimalRounding
import JsonAssert.Proofs.Json.Grammar
import JsonAssert.Proofs.Json.NumeralReading
import JsonAssert.Proofs.Json.StringReading
import JsonAssert.Proofs.Json.Completeness
import JsonAssert.Proofs.Json.Soundness
import JsonAssert.Proofs.Json.Acceptance
import JsonAssert.Proofs.Decoding
import JsonAssert.Proofs.Data.Dict
import JsonAssert.Proofs.Json.NumeralWriting
import JsonAssert.Proofs.Json.StringWriting
import JsonAssert.Proofs.Json.Writing
import JsonAssert.Proofs.Json.Decoded
import JsonAssert.Proofs.Assertion.Generation
import JsonAssert.Proofs.Command.Run
import JsonAssert.Proofs.Assertion.Reading
import JsonAssert.Proofs.Assertion.Lines
import JsonAssert.Proofs.Assertion.Validity
import JsonAssert.Proofs.Assertion.Injectivity
import JsonAssert.Proofs.Assertion.Changes
import JsonAssert.Proofs.Dispatch
import JsonAssert.Proofs.TextAndBytes
import JsonAssert.Proofs.Joining
import JsonAssert.Proofs.Truncation
import JsonAssert.Proofs.Command.Arguments
import JsonAssert.Proofs.Command.Effects
import JsonAssert.Proofs.Assertion.Trace
import JsonAssert.Proofs.Command.Messages
import JsonAssert.Proofs.Command.Verbosity
import JsonAssert.Proofs.Files.Target
import JsonAssert.Proofs.Command.Independence
import JsonAssert.Proofs.Worklist
import JsonAssert.Proofs.Value.Structure
import JsonAssert.Proofs.Value.Building
import JsonAssert.Proofs.Value.Structural
import JsonAssert.Proofs.Assertion.Emission
import JsonAssert.Proofs.Json.Unambiguity
import JsonAssert.Proofs.Data.Merging
import JsonAssert.Proofs.Json.Denotation
import JsonAssert.Proofs.Number.FloatLiterals
import JsonAssert.Proofs.Json.NumberLiterals
import JsonAssert.Proofs.Json.StringTokens
import JsonAssert.Proofs.Value.Equality
import JsonAssert.Proofs.Command.Input
import JsonAssert.Proofs.Assertion.LoggedLines
import JsonAssert.Proofs.Json.FaultPlaces
import JsonAssert.Proofs.Value.Edits
import JsonAssert.Proofs.Raw.Reader
import JsonAssert.Proofs.Raw.ListMode
import JsonAssert.Proofs.Assertion.PathCode
import JsonAssert.Proofs.Quoting
import JsonAssert.Proofs.Command.ArgumentScan
