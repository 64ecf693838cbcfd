import CallSchema.Binary64
import CallSchema.Command.Args
import CallSchema.Command.Run
import CallSchema.Compilation
import CallSchema.Decimal.Shortest
import CallSchema.Decimal.Style
import CallSchema.Discovery
import CallSchema.Dotted
import CallSchema.Environment.Basic
import CallSchema.Environment.Lookup
import CallSchema.Extraction.Basic
import CallSchema.Extraction.Lowering
import CallSchema.Extraction.TypingNames
import CallSchema.Fault
import CallSchema.FileTree.Basic
import CallSchema.FileTree.Write
import CallSchema.Json.Basic
import CallSchema.Json.Number
import CallSchema.Json.Printer
import CallSchema.Json.Reader
import CallSchema.Json.Skip
import CallSchema.Literal
import CallSchema.Main
import CallSchema.ModulePath
import CallSchema.NameFilter
import CallSchema.Pattern.Basic
import CallSchema.Pattern.Matching
import CallSchema.Proofs.Acceptance
import CallSchema.Proofs.Accounting
import CallSchema.Proofs.Aliases
import CallSchema.Proofs.Annotations
import CallSchema.Proofs.AttributeChains
import CallSchema.Proofs.CallLimits
import CallSchema.Proofs.Constants
import CallSchema.Proofs.ContextIsolation
import CallSchema.Proofs.Cycles
import CallSchema.Proofs.Declarations
import CallSchema.Proofs.Derivation
import CallSchema.Proofs.DirectResolution
import CallSchema.Proofs.DocumentEdits
import CallSchema.Proofs.Editing
import CallSchema.Proofs.Extracts
import CallSchema.Proofs.FileContents
import CallSchema.Proofs.Inhabitation
import CallSchema.Proofs.JsonGrammar
import CallSchema.Proofs.JsonNumbers
import CallSchema.Proofs.JsonReading
import CallSchema.Proofs.JsonText
import CallSchema.Proofs.LegalCalls
import CallSchema.Proofs.Locality
import CallSchema.Proofs.Memo
import CallSchema.Proofs.ModuleFilter
import CallSchema.Proofs.ModuleIdentity
import CallSchema.Proofs.ModulePaths
import CallSchema.Proofs.NameOrder
import CallSchema.Proofs.NodeAgreement
import CallSchema.Proofs.NodeEdits
import CallSchema.Proofs.NodeFields
import CallSchema.Proofs.NodeLayout
import CallSchema.Proofs.NormalForm
import CallSchema.Proofs.Outcomes
import CallSchema.Proofs.PackageContext
import CallSchema.Proofs.PackageDocuments
import CallSchema.Proofs.PackageWalk
import CallSchema.Proofs.Paths
import CallSchema.Proofs.Pointwise
import CallSchema.Proofs.Reachability
import CallSchema.Proofs.Reexports
import CallSchema.Proofs.References
import CallSchema.Proofs.Rendering
import CallSchema.Proofs.ResolverState
import CallSchema.Proofs.Results
import CallSchema.Proofs.RoundTrip
import CallSchema.Proofs.Saturation
import CallSchema.Proofs.ScanOrder
import CallSchema.Proofs.Search
import CallSchema.Proofs.Signatures
import CallSchema.Proofs.Sources
import CallSchema.Proofs.Spelling
import CallSchema.Proofs.Tables
import CallSchema.Proofs.TreeDocuments
import CallSchema.Proofs.Unions
import CallSchema.Proofs.Validation
import CallSchema.Resolution
import CallSchema.Schema
import CallSchema.Separated
import CallSchema.SourceFile
import CallSchema.SyntaxTree.Basic
import CallSchema.SyntaxTree.Build
import CallSchema.SyntaxTree.Decode
import CallSchema.SyntaxTree.Encode
import CallSchema.SyntaxTree.Kind
import CallSchema.SyntaxTree.Text
import CallSchema.Table
import CallSchema.Target
import CallSchema.Text
import CallSchema.TypeExpr
