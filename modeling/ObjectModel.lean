import ObjectModel.Bytes.Basic
import ObjectModel.Bytes.Parts
import ObjectModel.Bytes.Utf8
import ObjectModel.Class.Access
import ObjectModel.Class.Basic
import ObjectModel.Class.Composition
import ObjectModel.Class.Enum
import ObjectModel.Class.InPlace
import ObjectModel.Class.Inheritance
import ObjectModel.Class.Kind
import ObjectModel.Class.Lookup
import ObjectModel.Class.Member
import ObjectModel.Class.Static
import ObjectModel.Class.Table
import ObjectModel.Class.Type
import ObjectModel.Class.Typing
import ObjectModel.Double.Basic
import ObjectModel.Double.Digits
import ObjectModel.Double.Layout
import ObjectModel.Double.Rounding
import ObjectModel.Error
import ObjectModel.Heap.Basic
import ObjectModel.Inspection.Basic
import ObjectModel.Inspection.Hidden
import ObjectModel.Interner
import ObjectModel.Json.Basic
import ObjectModel.Json.Decoder
import ObjectModel.Json.Encoder
import ObjectModel.Json.Error
import ObjectModel.Json.Number
import ObjectModel.Json.Parser
import ObjectModel.Json.Reader
import ObjectModel.Json.Token
import ObjectModel.Numeral
import ObjectModel.Object.Access
import ObjectModel.Object.Basic
import ObjectModel.Object.Conversion
import ObjectModel.OrderedArray.Basic
import ObjectModel.OrderedMap
import ObjectModel.Proofs.Bytes.Cutting
import ObjectModel.Proofs.Bytes.Splitting
import ObjectModel.Proofs.Class.Abstract
import ObjectModel.Proofs.Class.Aliases
import ObjectModel.Proofs.Class.Atomicity
import ObjectModel.Proofs.Class.Cases
import ObjectModel.Proofs.Class.Composing
import ObjectModel.Proofs.Class.Constants
import ObjectModel.Proofs.Class.Independence
import ObjectModel.Proofs.Class.Interfaces
import ObjectModel.Proofs.Class.Layout
import ObjectModel.Proofs.Class.Linking
import ObjectModel.Proofs.Class.Locality
import ObjectModel.Proofs.Class.Lookup
import ObjectModel.Proofs.Class.Overriding
import ObjectModel.Proofs.Class.Precedence
import ObjectModel.Proofs.Class.Reachable
import ObjectModel.Proofs.Class.Readonly
import ObjectModel.Proofs.Class.Redeclaring
import ObjectModel.Proofs.Class.Spelling
import ObjectModel.Proofs.Class.StaticSharing
import ObjectModel.Proofs.Class.Subtyping
import ObjectModel.Proofs.Class.Supertypes
import ObjectModel.Proofs.Class.TraitConstants
import ObjectModel.Proofs.Class.Winners
import ObjectModel.Proofs.Class.Yielding
import ObjectModel.Proofs.Double.Digits
import ObjectModel.Proofs.Double.Grid
import ObjectModel.Proofs.Double.Interval
import ObjectModel.Proofs.Double.Layout
import ObjectModel.Proofs.Double.Order
import ObjectModel.Proofs.Double.Rounding
import ObjectModel.Proofs.Double.Shortest
import ObjectModel.Proofs.Except
import ObjectModel.Proofs.Forall2
import ObjectModel.Proofs.Heap.Addition
import ObjectModel.Proofs.Heap.Assignment
import ObjectModel.Proofs.Heap.Copying
import ObjectModel.Proofs.Heap.DeepCopy
import ObjectModel.Proofs.Heap.Mirroring
import ObjectModel.Proofs.Heap.Reachability
import ObjectModel.Proofs.Heap.References
import ObjectModel.Proofs.Heap.Renumbering
import ObjectModel.Proofs.Interner
import ObjectModel.Proofs.Json.Correctness
import ObjectModel.Proofs.Json.Decoding
import ObjectModel.Proofs.Json.DepthLimit
import ObjectModel.Proofs.Json.Document
import ObjectModel.Proofs.Json.DocumentRoundTrip
import ObjectModel.Proofs.Json.DocumentWriting
import ObjectModel.Proofs.Json.Grammar
import ObjectModel.Proofs.Json.Holding
import ObjectModel.Proofs.Json.Layout
import ObjectModel.Proofs.Json.Lexing
import ObjectModel.Proofs.Json.ObjectDecoding
import ObjectModel.Proofs.Json.Reading
import ObjectModel.Proofs.Json.Recursion
import ObjectModel.Proofs.Json.Refusals
import ObjectModel.Proofs.Json.RoundTrip
import ObjectModel.Proofs.Json.Validation
import ObjectModel.Proofs.Json.ValueTree
import ObjectModel.Proofs.Json.Walk
import ObjectModel.Proofs.Json.Writing
import ObjectModel.Proofs.Numeral
import ObjectModel.Proofs.Numeral.Form
import ObjectModel.Proofs.Numeral.Saturation
import ObjectModel.Proofs.Numeral.Scanning
import ObjectModel.Proofs.Object.Access
import ObjectModel.Proofs.Object.ArrayCast
import ObjectModel.Proofs.Object.Confidentiality
import ObjectModel.Proofs.Object.Immutability
import ObjectModel.Proofs.Object.Instance
import ObjectModel.Proofs.Object.Typing
import ObjectModel.Proofs.Object.WriteOnce
import ObjectModel.Proofs.OrderedArray.Appending
import ObjectModel.Proofs.OrderedArray.Forms
import ObjectModel.Proofs.OrderedArray.FreshKeys
import ObjectModel.Proofs.OrderedArray.Index
import ObjectModel.Proofs.OrderedArray.IndexSign
import ObjectModel.Proofs.OrderedArray.Key
import ObjectModel.Proofs.OrderedArray.Merging
import ObjectModel.Proofs.OrderedArray.NextIndex
import ObjectModel.Proofs.OrderedArray.Slicing
import ObjectModel.Proofs.OrderedArray.View
import ObjectModel.Proofs.OrderedMap
import ObjectModel.Proofs.Resources.Closing
import ObjectModel.Proofs.Resources.Destructors
import ObjectModel.Proofs.Resources.History
import ObjectModel.Proofs.Resources.Lifecycle
import ObjectModel.Proofs.Resources.Registry
import ObjectModel.Proofs.Session
import ObjectModel.Proofs.Utf8
import ObjectModel.Proofs.Value.Comparison
import ObjectModel.Registry
import ObjectModel.Resources
import ObjectModel.Session
import ObjectModel.Settings
import ObjectModel.Value.Basic
import ObjectModel.Value.Comparison
import ObjectModel.Value.Conversion
import ObjectModel.Visibility
