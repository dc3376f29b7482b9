import StockMesh.Foundation.Rounding
import StockMesh.Foundation.Stateful
import StockMesh.Foundation.Alongside
import StockMesh.Foundation.Budgeted
import StockMesh.Basic
import StockMesh.Foundation.Bands
import StockMesh.Compiler.Curve
import StockMesh.Compiler.Compile
import StockMesh.Foundation.Hyperbola
import StockMesh.Foundation.Merge
import StockMesh.Foundation.BellmanFord
import StockMesh.Foundation.Circulation
import StockMesh.Compiler.PoolMath
import StockMesh.Compiler.Chords
import StockMesh.Compiler.Emit
import StockMesh.Compiler.Envelope
import StockMesh.Optimizer.Mask
import StockMesh.Optimizer.Waterfill
import StockMesh.Optimizer.Tape
import StockMesh.Optimizer.TapeBuild
import StockMesh.Optimizer.TapeSelect
import StockMesh.Optimizer.TapeAllocate
import StockMesh.Optimizer.Search
import StockMesh.Optimizer.TapeRefinement
import StockMesh.Optimizer.Certificate
import StockMesh.Optimizer.Feasible
import StockMesh.Runtime.Host
import StockMesh.Runtime.Fixture
import StockMesh.Reflow.Execute
import StockMesh.Reflow.Safety
import StockMesh.Reflow.Fresh
import StockMesh.Reflow.Caching
import StockMesh.Clearing.Fold
import StockMesh.Clearing.Cycle
import StockMesh.Clearing.Pivot
import StockMesh.Clearing.Ledger
import StockMesh.Clearing.FoldSound
import StockMesh.Clearing.Optimality
import StockMesh.Clearing.Residuals
import StockMesh.Clearing.Settlement
import StockMesh.Clearing.Equivariance
import StockMesh.Foundation.Instalments
import StockMesh.Foundation.Buffer
import StockMesh.Adapters.Layout
import StockMesh.Adapters.Phoenix
import StockMesh.Adapters.PhoenixQuote
import StockMesh.Adapters.Raydium
import StockMesh.Adapters.Graph
import StockMesh.Foundation.PrefixFree
import StockMesh.Adapters.Wire
import StockMesh.Adapters.GraphEncode
import StockMesh.Native.Curves
import StockMesh.Optimizer.Oracle
import StockMesh.Optimizer.OracleTrace
import StockMesh.Optimizer.OracleRuns
import StockMesh.Optimizer.OracleBest
import StockMesh.Settle.Program
import StockMesh.Settle.Token
import StockMesh.Foundation.Tlv
import StockMesh.Settle.Mint
import StockMesh.Settle.Allocation
import StockMesh.Settle.Graph
import StockMesh.Foundation.Transfers
import StockMesh.Settle.FixedRun
import StockMesh.Settle.Conservation
import StockMesh.Settle.Receipt
import StockMesh.Settle.Runtime
import StockMesh.Settle.Stock
import StockMesh.Settle.Capsule
import StockMesh.Host.Answer
import StockMesh.Host.Capsule
import StockMesh.Host.Feed
import StockMesh.Host.Publication
import StockMesh.Settle.CapsuleRun
import StockMesh.Foundation.Binary64
import StockMesh.Native.Exposure
import StockMesh.Native.Segments
import StockMesh.Native.DynamicFee
import StockMesh.Native.Clmm
import StockMesh.Native.ClmmHead
import StockMesh.Native.Steps
import StockMesh.Native.ClmmCache
import StockMesh.Native.Orca
import StockMesh.Native.OrcaWalk
import StockMesh.Settle.Converter
import StockMesh.Settle.Claim
import StockMesh.Settle.Order
import StockMesh.Vault.Token
import StockMesh.Vault.Program
import StockMesh.Vault.Exchange
import StockMesh.Vault.Basket
import StockMesh.Vault.Solvency
import StockMesh.Foundation.Table
import StockMesh.Foundation.Coverage
import StockMesh.Foundation.History
import StockMesh.Foundation.Format
import StockMesh.Journal.Investment
import StockMesh.Journal.Log
import StockMesh.Journal.Progress
import StockMesh.Journal.Records
import StockMesh.Journal.Index
import StockMesh.Journal.Batch
import StockMesh.Journal.Frames
import StockMesh.Journal.Recovery
import StockMesh.Journal.Json
import StockMesh.Journal.Crash
import StockMesh.Journal.Custody
import StockMesh.Journal.Completion
import StockMesh.Journal.Investing
import StockMesh.Host.Value
import StockMesh.Journal.Sender
import StockMesh.Journal.Sending
import StockMesh.Journal.Entries
import StockMesh.Journal.Delivery
import StockMesh.Runtime.Admission
import StockMesh.Runtime.Lane
import StockMesh.Host.Mesh
import StockMesh.Host.PreparedQuotes
import StockMesh.Host.Selection
import StockMesh.Foundation.Frontier
import StockMesh.Host.SellRoute
import StockMesh.Host.SellBest
import StockMesh.Foundation.Stamped
import StockMesh.Native.Memo
import StockMesh.Optimizer.OracleState
import StockMesh.Host.WorldQuote
import StockMesh.Foundation.Breakpoints
import StockMesh.Native.Surface
import StockMesh.Host.Fair
import StockMesh.Host.Consensus
import StockMesh.Host.FairRuns
import StockMesh.Foundation.Matching
import StockMesh.Onebook.Book
import StockMesh.Onebook.Orders
import StockMesh.Onebook.Match
import StockMesh.Foundation.Insertion
import StockMesh.Onebook.VirtualBook
import StockMesh.Host.Strategy
import StockMesh.Host.StrategyJson
import StockMesh.Host.StrategyRuns
import StockMesh.Foundation.Apportionment
import StockMesh.Host.Basket
import StockMesh.Host.Preimages
import StockMesh.Host.SwapWire
import StockMesh.Host.SwapAccounts
import StockMesh.Host.SwapRoundTrip
import StockMesh.Host.RemapGraph
import StockMesh.Host.Catalog
import StockMesh.Host.CatalogMerge
import StockMesh.Host.SwapExecution
import StockMesh.Host.CapsuleReceipt
import StockMesh.Host.CostModel
import StockMesh.Foundation.Renames
import StockMesh.Host.ModelStore
import StockMesh.Host.ModelJson
import StockMesh.Host.ModelRuns
import StockMesh.Optimizer.OracleAsked
import StockMesh.Foundation.Frame
import StockMesh.Settle.Records
import StockMesh.Settle.Nonce
import StockMesh.Settle.Publish
import StockMesh.Settle.Crossing
import StockMesh.Settle.Exposure
import StockMesh.Settle.FlowCell
import StockMesh.Settle.Economic
import StockMesh.Settle.EconomicRun
import StockMesh.Settle.Funding
import StockMesh.Settle.MeshCell
import StockMesh.Settle.Commits
import StockMesh.Settle.CellCommits
import StockMesh.Settle.Outcomes
import StockMesh.Settle.Instruction
import StockMesh.Foundation.Counted
import StockMesh.Settle.ProgramRuns
import StockMesh.Settle.OrderRuns
