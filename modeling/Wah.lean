import Wah.Types
import Wah.Instr
import Wah.Validate
import Wah.Analyze
import Wah.Lower
import Wah.Exec
import Wah.Records
import Wah.Labels
import Wah.Patches
import Wah.LowerCorrect
import Wah.LowerPass
import Wah.Layout
import Wah.Structured
import Wah.Effects
import Wah.Trace
import Wah.Nesting
import Wah.Positions
import Wah.Program
import Wah.Lifecycle
import Wah.Heap
import Wah.Tricolour
import Wah.Mark
import Wah.DirectMapped
import Wah.FuncTypes
import Wah.Sharing
import Wah.Aliases
import Wah.Accounts
import Wah.Bisimilarity
import Wah.TypeIdentity
import Wah.TypeMeaning
import Wah.Pins
import Wah.Boundary
import Wah.PinRuns
import Wah.Interrupts
import Wah.TypeSection
import Wah.Canonical
import Wah.Subtyping
import Wah.Native
import Wah.Confined
import Wah.NativeOps
import Wah.NativeAgree
import Wah.Blocks
import Wah.StructLayout
import Wah.Refine
import Wah.SubtypeLayout
import Wah.StackMoves
import Wah.RefMaps
import Wah.LocalInits
import Wah.Packing
import Wah.Stamped
import Wah.BrTables
import Wah.ConstExpr
import Wah.ElemSegments
import Wah.DepthFirst
import Wah.GlobalImports
import Wah.GlobalInit
import Wah.OpenAddressing
import Wah.TypeEqMemo
import Wah.CrossTypes
import Wah.LebGrammar
import Wah.Leb128
import Wah.Utf8
import Wah.PaddedAlloc
import Wah.Bisect
import Wah.Reader
import Wah.LocalRuns
import Wah.Exports
import Wah.SegmentTypes
import Wah.LimitsRoundTrip
import Wah.TokenGrammar
import Wah.TypeSpec
import Wah.TypeTokens
import Wah.TypeGrammar
import Wah.TypeDialects
import Wah.GrownTypes
import Wah.DefinedTypes
import Wah.Observed
import Wah.Relocation
import Wah.RecordRuns
import Wah.Resumable
import Wah.Spaces
import Wah.BulkOps
import Wah.BulkInstrs
import Wah.Interp
import Wah.Places
import Wah.InterpRuns
import Wah.BulkCosts
import Wah.Transparency
import Wah.Successors
import Wah.Weights
import Wah.Reservations
import Wah.Scopes
import Wah.Fuel
import Wah.LengthPrefixed
import Wah.ModuleSections
import Wah.Gating
import Wah.Features
import Wah.Formats
import Wah.Declarations
import Wah.RequiredFeatures
