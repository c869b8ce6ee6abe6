import ResourceCompiler.Text.Blank
import ResourceCompiler.Text.Decimal
import ResourceCompiler.Text.Fields
import ResourceCompiler.Text.Hex
import ResourceCompiler.Text.Lowercase
import ResourceCompiler.OrderedMap
import ResourceCompiler.Digest
import ResourceCompiler.Path
import ResourceCompiler.Resource.Invalid
import ResourceCompiler.Resource.Name
import ResourceCompiler.Resource.Locale
import ResourceCompiler.Resource.Scale
import ResourceCompiler.Resource.Color
import ResourceCompiler.Resource.Kind
import ResourceCompiler.Resource.Entry
import ResourceCompiler.Json.Number
import ResourceCompiler.Json.Value
import ResourceCompiler.Json.Printer
import ResourceCompiler.Json.Reader
import ResourceCompiler.Metadata.Container
import ResourceCompiler.Metadata.Encoding
import ResourceCompiler.Metadata.Decoding
import ResourceCompiler.Metadata.Artifact
import ResourceCompiler.Merge
import ResourceCompiler.FileTree.Basic
import ResourceCompiler.FileTree.Access
import ResourceCompiler.FileTree.Change
import ResourceCompiler.FileTree.Action
import ResourceCompiler.Platform
import ResourceCompiler.Toml.Scalar
import ResourceCompiler.Toml.Value
import ResourceCompiler.Toml.Reader
import ResourceCompiler.OutputPaths
import ResourceCompiler.Config.Settings
import ResourceCompiler.Config.Decoding
import ResourceCompiler.Config.Configuration
import ResourceCompiler.Config.Load
import ResourceCompiler.Xml.Element
import ResourceCompiler.Xml.Escape
import ResourceCompiler.Xml.Token
import ResourceCompiler.Xml.Reader
import ResourceCompiler.Source.Escape
import ResourceCompiler.Source.Error
import ResourceCompiler.Source.Declaration
import ResourceCompiler.Source.Document
import ResourceCompiler.Source.LocalizedText
import ResourceCompiler.Source.ImageName
import ResourceCompiler.Source.ColorTable
import ResourceCompiler.Source.Build
import ResourceCompiler.Source.Collect
import ResourceCompiler.Metadata.Store
import ResourceCompiler.Native.Plan
import ResourceCompiler.Native.AndroidTable
import ResourceCompiler.Native.PropertyList
import ResourceCompiler.Native.AppleTable
import ResourceCompiler.Native.AssetCatalog
import ResourceCompiler.Native.ImageFolder
import ResourceCompiler.Native.PropertyBundle
import ResourceCompiler.Native.JsonMap
import ResourceCompiler.Native.Holder
import ResourceCompiler.Native.Generators
import ResourceCompiler.Pass.Linking
import ResourceCompiler.Pass.Failure
import ResourceCompiler.Pass.Run
import ResourceCompiler.Command.Report
import ResourceCompiler.Command.Arguments
import ResourceCompiler.Command.Execution
import ResourceCompiler.Main
import ResourceCompiler.Proofs.Sequence
import ResourceCompiler.Proofs.Overlay
import ResourceCompiler.Proofs.Merging
import ResourceCompiler.Proofs.Defaults
import ResourceCompiler.Proofs.Precedence
import ResourceCompiler.Proofs.Json.Nesting
import ResourceCompiler.Proofs.Json.Token
import ResourceCompiler.Proofs.Json.ReadBack
import ResourceCompiler.Proofs.Metadata.Decoding
import ResourceCompiler.Proofs.Metadata.RoundTrip
import ResourceCompiler.Proofs.Assembly
import ResourceCompiler.Proofs.Linking
import ResourceCompiler.Proofs.FileTree.Running
import ResourceCompiler.Proofs.FileTree.Walking
import ResourceCompiler.Proofs.FileTree.Ways
import ResourceCompiler.Proofs.FileTree.Removal
import ResourceCompiler.Proofs.FileTree.Writing
import ResourceCompiler.Proofs.Stages
import ResourceCompiler.Proofs.FailedPass
import ResourceCompiler.Proofs.Naming
import ResourceCompiler.Proofs.Native.Performing
import ResourceCompiler.Proofs.Characters
import ResourceCompiler.Proofs.Native.Places
import ResourceCompiler.Proofs.Native.Images
import ResourceCompiler.Proofs.FileTree.Clearing
import ResourceCompiler.Proofs.Metadata.Storing
import ResourceCompiler.Proofs.SuccessfulPass
import ResourceCompiler.Proofs.Native.Properties
import ResourceCompiler.Proofs.Native.AppleTables
import ResourceCompiler.Proofs.Native.Bundles
import ResourceCompiler.Proofs.Xml.Spelling
import ResourceCompiler.Proofs.Native.AndroidTables
import ResourceCompiler.Proofs.Source.Gathering
import ResourceCompiler.Proofs.Native.AndroidReadBack
import ResourceCompiler.Proofs.Provision
import ResourceCompiler.Proofs.Relinking
import ResourceCompiler.Proofs.Retention
import ResourceCompiler.Proofs.Source.Plurals
import ResourceCompiler.Proofs.Succession
import ResourceCompiler.Proofs.FileTree.Climbing
import ResourceCompiler.Proofs.FileTree.Locality
import ResourceCompiler.Proofs.FileTree.Renewal
import ResourceCompiler.Proofs.Metadata.Restoring
import ResourceCompiler.Proofs.Source.Scanning
import ResourceCompiler.Proofs.Source.Rereading
import ResourceCompiler.Proofs.Native.Sources
import ResourceCompiler.Proofs.Growth
import ResourceCompiler.Proofs.FileTree.Confinement
import ResourceCompiler.Proofs.Footprint
import ResourceCompiler.Proofs.Repetition
import ResourceCompiler.Proofs.FileTree.Accepting
import ResourceCompiler.Proofs.Metadata.Progress
import ResourceCompiler.Proofs.Metadata.Writers
import ResourceCompiler.Proofs.Metadata.Interim
import ResourceCompiler.Proofs.Native.JsonMaps
import ResourceCompiler.Proofs.Exclusion
import ResourceCompiler.Proofs.Platforms
import ResourceCompiler.Proofs.FileTree.Variation
import ResourceCompiler.Proofs.Metadata.Sealing
import ResourceCompiler.Proofs.MissingValues
import ResourceCompiler.Proofs.Source.Documents
import ResourceCompiler.Proofs.Source.PluralDeclarations
import ResourceCompiler.Proofs.Source.ColorDeclarations
import ResourceCompiler.Proofs.Source.Strings
import ResourceCompiler.Proofs.Independence
import ResourceCompiler.Proofs.Xml.Writing
import ResourceCompiler.Proofs.Source.ImageNames
import ResourceCompiler.Proofs.Native.ImageNames
import ResourceCompiler.Proofs.Metadata.Validation
import ResourceCompiler.Proofs.Native.PropertyLists
import ResourceCompiler.Proofs.Native.PluralDocuments
import ResourceCompiler.Proofs.Json.Grammar
import ResourceCompiler.Proofs.Metadata.Identifying
import ResourceCompiler.Proofs.FileTree.Emptying
import ResourceCompiler.Proofs.Native.Collecting
import ResourceCompiler.Proofs.Native.BaseLocales
import ResourceCompiler.Proofs.Holders
import ResourceCompiler.Proofs.Config.Layers
import ResourceCompiler.Proofs.Config.Rebasing
import ResourceCompiler.Proofs.Config.Checks
import ResourceCompiler.Proofs.Config.OutputPlaces
import ResourceCompiler.Proofs.Failures
import ResourceCompiler.Proofs.Source.LineBreaks
import ResourceCompiler.Proofs.Locales
import ResourceCompiler.Proofs.Colors
import ResourceCompiler.Proofs.Source.Patterns
import ResourceCompiler.Proofs.PathOrder
import ResourceCompiler.Proofs.Source.Finding
import ResourceCompiler.Proofs.Scales
