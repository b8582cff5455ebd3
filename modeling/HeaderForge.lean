import HeaderForge.Build.Basic
import HeaderForge.Build.Classes
import HeaderForge.Build.Composition
import HeaderForge.Build.Fields
import HeaderForge.Build.Types
import HeaderForge.Build.UnionPlan
import HeaderForge.Bytes
import HeaderForge.Bytes.KeySet
import HeaderForge.Bytes.Sorted
import HeaderForge.Cache
import HeaderForge.Cache.Record
import HeaderForge.Class.Basic
import HeaderForge.Class.Overrides
import HeaderForge.Class.Registry
import HeaderForge.Class.TypeRef
import HeaderForge.CommandLine
import HeaderForge.CommandLine.Options
import HeaderForge.CommandLine.Texts
import HeaderForge.Config
import HeaderForge.Diagnostic
import HeaderForge.Document.Draft
import HeaderForge.Document.Json
import HeaderForge.Document.Node
import HeaderForge.Document.Number
import HeaderForge.Document.Printer
import HeaderForge.Document.Quoted
import HeaderForge.Document.Reader
import HeaderForge.Document.Yaml
import HeaderForge.Document.Yaml.Line
import HeaderForge.Document.Yaml.Scalar
import HeaderForge.Failure
import HeaderForge.Files.Changes
import HeaderForge.Files.Owned
import HeaderForge.Files.Path
import HeaderForge.Files.Search
import HeaderForge.Files.Tree
import HeaderForge.Files.Work
import HeaderForge.Hash
import HeaderForge.Header.Basic
import HeaderForge.Header.Compose
import HeaderForge.Header.Declarations
import HeaderForge.Header.Fields
import HeaderForge.Header.Includes
import HeaderForge.Header.Record
import HeaderForge.Header.Runtime
import HeaderForge.Header.Style
import HeaderForge.Lint
import HeaderForge.Log
import HeaderForge.Main
import HeaderForge.Naming
import HeaderForge.Proofs.Build.Agreement
import HeaderForge.Proofs.Build.Alike
import HeaderForge.Proofs.Build.Calls
import HeaderForge.Proofs.Build.Checked
import HeaderForge.Proofs.Build.Classes
import HeaderForge.Proofs.Build.Composition
import HeaderForge.Proofs.Build.Containment
import HeaderForge.Proofs.Build.Coverage
import HeaderForge.Proofs.Build.Dependencies
import HeaderForge.Proofs.Build.FieldOrigins
import HeaderForge.Proofs.Build.Flattening
import HeaderForge.Proofs.Build.Inclusion
import HeaderForge.Proofs.Build.InlineEnums
import HeaderForge.Proofs.Build.LastProperty
import HeaderForge.Proofs.Build.Locality
import HeaderForge.Proofs.Build.Makes
import HeaderForge.Proofs.Build.Merging
import HeaderForge.Proofs.Build.OpenNames
import HeaderForge.Proofs.Build.PropertySearch
import HeaderForge.Proofs.Build.References
import HeaderForge.Proofs.Build.Registry
import HeaderForge.Proofs.Build.RequiredFlags
import HeaderForge.Proofs.Build.Requirements
import HeaderForge.Proofs.Build.Resemblance
import HeaderForge.Proofs.Build.Shapes
import HeaderForge.Proofs.Build.SharedKeys
import HeaderForge.Proofs.Build.Tagging
import HeaderForge.Proofs.Build.Traversal
import HeaderForge.Proofs.Build.Types
import HeaderForge.Proofs.Build.Typing
import HeaderForge.Proofs.Build.UnionAgreement
import HeaderForge.Proofs.Build.UnionOrder
import HeaderForge.Proofs.Build.UnionPlan
import HeaderForge.Proofs.Build.Visits
import HeaderForge.Proofs.Build.WellFormed
import HeaderForge.Proofs.Bytes.Entries
import HeaderForge.Proofs.Bytes.Sorting
import HeaderForge.Proofs.Cache
import HeaderForge.Proofs.Cache.History
import HeaderForge.Proofs.Cache.Record
import HeaderForge.Proofs.Cache.Saving
import HeaderForge.Proofs.Cache.Staying
import HeaderForge.Proofs.Class.Dispatch
import HeaderForge.Proofs.Class.Registrations
import HeaderForge.Proofs.Class.Registry
import HeaderForge.Proofs.Config.Fingerprint
import HeaderForge.Proofs.Config.Namespaces
import HeaderForge.Proofs.Config.Settings
import HeaderForge.Proofs.Document.Blocks
import HeaderForge.Proofs.Document.Brackets
import HeaderForge.Proofs.Document.Canonical
import HeaderForge.Proofs.Document.Collections
import HeaderForge.Proofs.Document.Cuts
import HeaderForge.Proofs.Document.Derivation
import HeaderForge.Proofs.Document.Inline
import HeaderForge.Proofs.Document.Layout
import HeaderForge.Proofs.Document.Literal
import HeaderForge.Proofs.Document.Lookup
import HeaderForge.Proofs.Document.Moves
import HeaderForge.Proofs.Document.Nesting
import HeaderForge.Proofs.Document.Parts
import HeaderForge.Proofs.Document.Reading
import HeaderForge.Proofs.Document.RoundTrip
import HeaderForge.Proofs.Document.Termination
import HeaderForge.Proofs.Document.WellFormed
import HeaderForge.Proofs.Files.Children
import HeaderForge.Proofs.Files.Owned
import HeaderForge.Proofs.Files.Path
import HeaderForge.Proofs.Files.Places
import HeaderForge.Proofs.Files.Region
import HeaderForge.Proofs.Files.RegionLens
import HeaderForge.Proofs.Files.Remerging
import HeaderForge.Proofs.Files.Repeating
import HeaderForge.Proofs.Files.Sparing
import HeaderForge.Proofs.Files.Tree
import HeaderForge.Proofs.Files.WellMarked
import HeaderForge.Proofs.Files.Work
import HeaderForge.Proofs.Gives
import HeaderForge.Proofs.Header.Comments
import HeaderForge.Proofs.Header.Compose
import HeaderForge.Proofs.Header.Includes
import HeaderForge.Proofs.Header.Literals
import HeaderForge.Proofs.Header.Placement
import HeaderForge.Proofs.Header.Runtime
import HeaderForge.Proofs.Lint
import HeaderForge.Proofs.Naming
import HeaderForge.Proofs.Naming.FileNames
import HeaderForge.Proofs.Naming.Identifiers
import HeaderForge.Proofs.Naming.Literals
import HeaderForge.Proofs.Run.Frame
import HeaderForge.Proofs.Run.Idempotence
import HeaderForge.Proofs.Run.Logging
import HeaderForge.Proofs.Run.Record
import HeaderForge.Proofs.Run.Rest
import HeaderForge.Proofs.Run.Series
import HeaderForge.Proofs.Run.Settling
import HeaderForge.Proofs.Run.Sparing
import HeaderForge.Proofs.Run.Turns
import HeaderForge.Proofs.Schema.Dependence
import HeaderForge.Proofs.Schema.Index
import HeaderForge.Proofs.Schema.Keys
import HeaderForge.Proofs.Schema.Mentions
import HeaderForge.Proofs.Schema.Reachability
import HeaderForge.Proofs.Schema.Reference
import HeaderForge.Proofs.Schema.Resemblance
import HeaderForge.Proofs.Schema.Twins
import HeaderForge.Region
import HeaderForge.Run
import HeaderForge.Run.Report
import HeaderForge.Schema.Basic
import HeaderForge.Schema.Dependence
import HeaderForge.Schema.Index
import HeaderForge.Schema.Reader
import HeaderForge.Schema.Reference
