import SyntaxWalk.NameMap
import SyntaxWalk.Location
import SyntaxWalk.Decimal.Layout
import SyntaxWalk.Text.Width
import SyntaxWalk.Text.Quoted
import SyntaxWalk.Json.Reader
import SyntaxWalk.Json.Printer
import SyntaxWalk.Node.Json
import SyntaxWalk.VisitorKeys.ESTree
import SyntaxWalk.Walk
import SyntaxWalk.Scope
import SyntaxWalk.Pass
import SyntaxWalk.Lint
import SyntaxWalk.Diagnostic.Excerpt
import SyntaxWalk.Toml.Reader
import SyntaxWalk.Config
import SyntaxWalk.Main
import SyntaxWalk.Proofs.Recorded
import SyntaxWalk.Proofs.FieldByField
import SyntaxWalk.Proofs.Journal
import SyntaxWalk.Proofs.Invariant
import SyntaxWalk.Proofs.Conduct
import SyntaxWalk.Proofs.OnBaseline
import SyntaxWalk.Proofs.OpenScopes
import SyntaxWalk.Proofs.ScopeMirror
import SyntaxWalk.Proofs.ScopeTears
import SyntaxWalk.Proofs.ScopeIsolation
import SyntaxWalk.Proofs.OrderedTree
import SyntaxWalk.Proofs.Places
import SyntaxWalk.Proofs.Tracks
import SyntaxWalk.Proofs.Tour
import SyntaxWalk.Proofs.DepthFirst
import SyntaxWalk.Proofs.OrderedJson
import SyntaxWalk.Proofs.OrderedEntries
import SyntaxWalk.Proofs.CanonicalTree
import SyntaxWalk.Proofs.TreeRoundTrip
import SyntaxWalk.Proofs.Rewriting
import SyntaxWalk.Proofs.Shadowing
import SyntaxWalk.Proofs.DescentByHand
import SyntaxWalk.Proofs.Slots
import SyntaxWalk.Proofs.InStep
import SyntaxWalk.Proofs.PlainHandlers
import SyntaxWalk.Proofs.EngineTrace
import SyntaxWalk.Proofs.ScopedScripts
import SyntaxWalk.Proofs.LintKeys
import SyntaxWalk.Proofs.LintsApart
import SyntaxWalk.Proofs.SkipRequests
import SyntaxWalk.Proofs.PrintedJson
import SyntaxWalk.Proofs.PrintedTokens
import SyntaxWalk.Proofs.PrintedTree
import SyntaxWalk.Proofs.Chronicle
import SyntaxWalk.Proofs.LastCall
import SyntaxWalk.Proofs.VisitPoints
import SyntaxWalk.Proofs.OpenVisits
import SyntaxWalk.Proofs.Errands
import SyntaxWalk.Proofs.PooledWarnings
import SyntaxWalk.Proofs.LoggingHandlers
import SyntaxWalk.Proofs.LoggingVisitors
import SyntaxWalk.Proofs.UnwrittenTree
import SyntaxWalk.Proofs.Positions
import SyntaxWalk.Proofs.NodePositions
import SyntaxWalk.Proofs.ValidSlices
import SyntaxWalk.Proofs.ReaderGrammar
import SyntaxWalk.Proofs.FittingNumbers
import SyntaxWalk.Proofs.RespeltLocations
import SyntaxWalk.Proofs.RespeltTree
import SyntaxWalk.Proofs.PrettyJson
import SyntaxWalk.Proofs.AskedLints
import SyntaxWalk.Proofs.CheckInputs
import SyntaxWalk.Proofs.CheckOutcome
import SyntaxWalk.Proofs.Composition
import SyntaxWalk.Proofs.ParentViews
import SyntaxWalk.Proofs.VisitBounds
import SyntaxWalk.Proofs.BrokenTours
import SyntaxWalk.Proofs.UnknownKinds
import SyntaxWalk.Proofs.VisitCounts
import SyntaxWalk.Proofs.ScopeReplay
import SyntaxWalk.Proofs.ConfiguredKeys
import SyntaxWalk.Proofs.CurrentNode
import SyntaxWalk.Proofs.WordArithmetic
import SyntaxWalk.Proofs.LocatedText
import SyntaxWalk.Proofs.Inventory
import SyntaxWalk.Proofs.BoundNames
