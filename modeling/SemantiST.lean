import SemantiST.Lib.Text
import SemantiST.Lib.Rust
import SemantiST.Lib.Python
import SemantiST.Lib.Intern
import SemantiST.Lib.Loop
import SemantiST.Lib.Map
import SemantiST.Lib.Fold
import SemantiST.Lib.Sort
import SemantiST.Abi
import SemantiST.Testcase
import SemantiST.Engine.Frames
import SemantiST.Engine.ParseLemmas
import SemantiST.Engine.Bundle
import SemantiST.Engine.Records
import SemantiST.Engine.Hashes
import SemantiST.Engine.PrefixCache
import SemantiST.Engine.CacheInvariant
import SemantiST.Engine.CacheRuns
import SemantiST.Engine.Execute
import SemantiST.Engine.ColdRuns
import SemantiST.Engine.CachedRuns
import SemantiST.Engine.CacheOps
import SemantiST.Engine.Serialize
import SemantiST.Engine.Transparency
import SemantiST.Engine.GoalHits
import SemantiST.Corpus.Frames
import SemantiST.Corpus.Records
import SemantiST.Corpus.Hashes
import SemantiST.Corpus.Agreement
import SemantiST.Semantic.Plan
import SemantiST.Semantic.Runtime
import SemantiST.Semantic.Transitions
import SemantiST.Semantic.Selection
import SemantiST.Semantic.Lifecycle
import SemantiST.Semantic.Credit
import SemantiST.Semantic.CreditRuns
import SemantiST.Semantic.Invalidation
import SemantiST.Semantic.Ranking
import SemantiST.Lib.Bytes
import SemantiST.Semantic.Telemetry
import SemantiST.Semantic.Objective
import SemantiST.Lib.Dfs
import SemantiST.Compiler.LoopBudget
import SemantiST.Lib.Writes
import SemantiST.Semantic.Expression
import SemantiST.Semantic.Definitions
import SemantiST.Lib.State
import SemantiST.Stg.Unique
import SemantiST.Lib.Tiles
import SemantiST.Intake.SourceMap
import SemantiST.Intake.Tracking
import SemantiST.Goals.Faithful
import SemantiST.Snapshot.RoundTrip
import SemantiST.Campaign.Soundness
import SemantiST.Lib.Footprint
import SemantiST.Stg.Meaning
import SemantiST.Stg.Operations
import SemantiST.Stg.SoundSummaries
import SemantiST.Lib.Worklist
import SemantiST.Stg.Slices
import SemantiST.Symbolic.BitCopy
import SemantiST.Lib.CString
import SemantiST.Harness.Splitting
import SemantiST.Lib.CNumber
import SemantiST.Harness.Integers
import SemantiST.Symbolic.Integers
import SemantiST.Lib.Along
import SemantiST.Campaign.Solver
import SemantiST.Campaign.Budget
import SemantiST.Campaign.Reached
import SemantiST.Symbolic.Timers
import SemantiST.Intake.Structure
import SemantiST.Intake.Lossless
import SemantiST.Intake.AppliedKeys
import SemantiST.Symbolic.Query
import SemantiST.Intake.Units
import SemantiST.Intake.UnitLoops
import SemantiST.Intake.Build
import SemantiST.Intake.Declarations
import SemantiST.Intake.Accepted
import SemantiST.Symbolic.Ktest
import SemantiST.Intake.Comments
import SemantiST.Intake.Link
import SemantiST.Intake.Qualifiers
import SemantiST.Lib.Fresh
import SemantiST.Lib.Spans
import SemantiST.Intake.Renaming
import SemantiST.Intake.Simultaneous
import SemantiST.Intake.RenameRuns
import SemantiST.Reporting.Persistence
import SemantiST.Intake.ChainRuns
import SemantiST.Stg.Ir
import SemantiST.Lib.FloatNumber
import SemantiST.Stg.Hazards
import SemantiST.Stg.ArrayBounds
import SemantiST.Snapshot.Import
import SemantiST.Corpus.Acceptance
import SemantiST.Corpus.Building
import SemantiST.Stg.EdgeProbes
import SemantiST.Mutation.RoundTrip
import SemantiST.Semantic.Budget
import SemantiST.Semantic.TopSeeds
import SemantiST.Harness.Strings
import SemantiST.Engine.Pool
import SemantiST.Semantic.Readers
import SemantiST.Semantic.Paths
import SemantiST.Reporting.Shrinking
import SemantiST.Reporting.Reduction
import SemantiST.Compiler.TickedCycles
import SemantiST.Harness.TypeLayout
import SemantiST.Semantic.OrderedPrefix
import SemantiST.Goals.BoundedPrefixes
import SemantiST.Harness.Decoding
import SemantiST.Harness.TableRoundTrip
import SemantiST.Campaign.Shortened
