import QJson.Action.Basic
import QJson.Action.Raises
import QJson.Action.Reach
import QJson.Action.Related
import QJson.Bits.Carry
import QJson.Bits.Mask
import QJson.Decode.Integers
import QJson.Decode.Numbers
import QJson.Decode.Strings
import QJson.Decode.Text
import QJson.Doc.Accessors
import QJson.Doc.Bounds
import QJson.Doc.Compose
import QJson.Doc.Crossing
import QJson.Doc.Cursor
import QJson.Doc.Depth
import QJson.Doc.Dispatch
import QJson.Doc.Handed
import QJson.Doc.Lazy
import QJson.Doc.Located
import QJson.Doc.Navigate
import QJson.Doc.Parse
import QJson.Doc.Path
import QJson.Doc.Places
import QJson.Doc.Positions
import QJson.Doc.Resolve
import QJson.Doc.RootEnd
import QJson.Doc.Segments
import QJson.Doc.Separators
import QJson.Doc.Sits
import QJson.Doc.Slots
import QJson.Doc.Walked
import QJson.Doc.Walks
import QJson.Doc.Widths
import QJson.Ffi.Again
import QJson.Ffi.Behind
import QJson.Ffi.Calls
import QJson.Ffi.CutOff
import QJson.Ffi.Getters
import QJson.Ffi.Iteration
import QJson.Ffi.Live
import QJson.Ffi.Members
import QJson.Ffi.Messages
import QJson.Ffi.Modes
import QJson.Ffi.Nodes
import QJson.Ffi.Offsets
import QJson.Ffi.Panics
import QJson.Ffi.Program
import QJson.Ffi.Proper
import QJson.Ffi.Reader
import QJson.Ffi.Spans
import QJson.Ffi.Transparent
import QJson.Lua.Bound
import QJson.Lua.Cursors
import QJson.Lua.Messages
import QJson.Lua.OrderedMap
import QJson.Lua.Parsing
import QJson.Lua.Raised
import QJson.Rfc8259.Assemble
import QJson.Rfc8259.Bytes
import QJson.Rfc8259.Front
import QJson.Rfc8259.Layout
import QJson.Rfc8259.Outline
import QJson.Rfc8259.Token
import QJson.Rfc8259.Tree
import QJson.Rfc8259.Unique
import QJson.Rfc8259.Utf8
import QJson.Scan.Agree
import QJson.Scan.Chunks
import QJson.Scan.Index
import QJson.Scan.Lockstep
import QJson.Scan.Masks
import QJson.Scan.Parity
import QJson.Scan.Scalar
import QJson.Scan.Skeleton
import QJson.Scan.Skips
import QJson.Scan.Trees
import QJson.Scan.Vector
import QJson.Source.Calm
import QJson.Source.Ends
import QJson.Source.Error
import QJson.Source.Framed
import QJson.Table.Carried
import QJson.Table.Circular
import QJson.Table.Cycles
import QJson.Table.Decoding
import QJson.Table.Descents
import QJson.Table.Encode
import QJson.Table.Encoded
import QJson.Table.Encoding
import QJson.Table.Escapes
import QJson.Table.Failed
import QJson.Table.Fields
import QJson.Table.Glanced
import QJson.Table.Grounded
import QJson.Table.Heap
import QJson.Table.Leftover
import QJson.Table.Library
import QJson.Table.Loops
import QJson.Table.Marked
import QJson.Table.Matched
import QJson.Table.Materialize
import QJson.Table.Materialized
import QJson.Table.Mirrored
import QJson.Table.Naturals
import QJson.Table.Observed
import QJson.Table.Observing
import QJson.Table.Opening
import QJson.Table.Ordered
import QJson.Table.Ordering
import QJson.Table.Programs
import QJson.Table.Provenance
import QJson.Table.Proxies
import QJson.Table.Raising
import QJson.Table.Recalled
import QJson.Table.Remains
import QJson.Table.Remembered
import QJson.Table.Rendered
import QJson.Table.Respelled
import QJson.Table.Resting
import QJson.Table.Returned
import QJson.Table.Roots
import QJson.Table.Sessions
import QJson.Table.Shifted
import QJson.Table.Siblings
import QJson.Table.Spelled
import QJson.Table.Spelling
import QJson.Table.Steps
import QJson.Table.Untouched
import QJson.Table.Values
import QJson.Table.Verbatim
import QJson.Table.Yielded
import QJson.Validate.Codes
import QJson.Validate.Commands
import QJson.Validate.Eager
import QJson.Validate.Failures
import QJson.Validate.Grammar
import QJson.Validate.Number
import QJson.Validate.Runs
import QJson.Validate.Strings
import QJson.Validate.Trailing
