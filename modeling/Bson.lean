import Bson.Access.Lookup
import Bson.Access.Reach
import Bson.Bytes
import Bson.Config
import Bson.Digest.Sha256
import Bson.Document.Store
import Bson.Double
import Bson.Double.Nearest
import Bson.Double.Shortest
import Bson.Double.Text
import Bson.ElementType
import Bson.Error
import Bson.FieldPath
import Bson.Fields
import Bson.Host
import Bson.Host.Coercion
import Bson.Host.Projection
import Bson.Host.Record
import Bson.Json
import Bson.Json.Extended
import Bson.Json.Printer
import Bson.Json.Reader
import Bson.Json.Settings
import Bson.ObjectId
import Bson.ObjectId.Generator
import Bson.Text.Base64
import Bson.Text.Decimal
import Bson.Text.Hex
import Bson.Text.Quoted
import Bson.Time
import Bson.Value
import Bson.Value.Blank
import Bson.Value.Display
import Bson.Value.Equality
import Bson.Value.FreeOrder
import Bson.Wire.Decode
import Bson.Wire.Encode
import Bson.Wire.Framed
import Bson.Wire.Reader
import Bson.Wire.Stream
import Bson.Wire.Writer
import Bson.Proofs.Array.Order
import Bson.Proofs.Value.Children
import Bson.Proofs.Wire.Grammar
import Bson.Proofs.Wire.Elements
import Bson.Proofs.Wire.Formats
import Bson.Proofs.Wire.Decoding
import Bson.Proofs.Wire.Unambiguous
import Bson.Proofs.Wire.Acceptance
import Bson.Proofs.Wire.Simulation
import Bson.Proofs.Shape.Maps
import Bson.Proofs.Text.Decimal
import Bson.Proofs.Wire.Encoding
import Bson.Proofs.Wire.Limits
import Bson.Proofs.Wire.Size
import Bson.Proofs.Wire.RoundTrip
import Bson.Proofs.Shape.Reordering
import Bson.Proofs.Wire.Canonical
import Bson.Proofs.Wire.NoNest
import Bson.Proofs.Access.Walk
import Bson.Proofs.Access.Transparency
import Bson.Proofs.Wire.Sources
import Bson.Proofs.Wire.Sequence
import Bson.Proofs.Text.Hex
import Bson.Proofs.Fields.Merged
import Bson.Proofs.Value.Frames
import Bson.Proofs.Host.PassThrough
import Bson.Proofs.Host.Rebuilt
import Bson.Proofs.Wire.Frames
import Bson.Proofs.Raw.Origins
import Bson.Proofs.ObjectId.Order
import Bson.Proofs.ObjectId.Callers
import Bson.Proofs.Text.Base64
import Bson.Proofs.Double.Standard
import Bson.Proofs.Json.Markers
import Bson.Proofs.Json.Rendered
import Bson.Proofs.Json.RoundTrip
import Bson.Proofs.Json.Distinct
import Bson.Proofs.Json.FixedPoint
import Bson.Proofs.Value.Totals
import Bson.Proofs.Wire.Bounds
import Bson.Proofs.Wire.Cursor
import Bson.Proofs.Wire.Checked
import Bson.Proofs.Fields.Alike
import Bson.Proofs.Document.Runs
import Bson.Proofs.Access.Failures
import Bson.Proofs.Host.Decoded
import Bson.Proofs.Error.Paths
import Bson.Proofs.Access.Refusals
import Bson.Proofs.Wire.NulBytes
import Bson.Proofs.Wire.Violations
import Bson.Proofs.Wire.Failures
import Bson.Proofs.Array.Stable
import Bson.Proofs.Array.Decoding
import Bson.Proofs.Wire.Refused
import Bson.Proofs.Access.Maps
import Bson.Proofs.Json.Kept
import Bson.Proofs.ObjectId.Lengths
import Bson.Proofs.Host.Unsupported
import Bson.Proofs.ObjectId.Digits
import Bson.Proofs.Access.Dotted
import Bson.Proofs.Json.Undecoded
import Bson.Proofs.Shape.Conversion
import Bson.Proofs.Error.EmptyNames
import Bson.Proofs.Host.Clocks
import Bson.Proofs.Wire.Packed
import Bson.Proofs.Wire.Calls
