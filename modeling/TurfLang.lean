import TurfLang.Lib.Loop
import TurfLang.Lib.Probing
import TurfLang.Lib.Bisect
import TurfLang.Lib.Worklist
import TurfLang.Lib.Dataflow
import TurfLang.Std.Strings
import TurfLang.Std.Json.Value
import TurfLang.Std.Json.Parse
import TurfLang.Std.Json.RoundTrip
import TurfLang.Std.Convert.Scanners
import TurfLang.Std.Convert.Int
import TurfLang.Std.Convert.Double
import TurfLang.Std.Map.Header
import TurfLang.Std.Map.Invariant
import TurfLang.Std.Map.Operations
import TurfLang.Std.Map.Refinement
import TurfLang.Runtime.PendingIndex
import TurfLang.Runtime.BlockTable
import TurfLang.Runtime.TableOperations
import TurfLang.Runtime.Collect
import TurfLang.Runtime.Reachability
import TurfLang.Runtime.CollectCorrect
import TurfLang.Runtime.Allocation
import TurfLang.Runtime.Pins
import TurfLang.Runtime.PinsCorrect
import TurfLang.Analysis.Alias
import TurfLang.Analysis.AliasSound
import TurfLang.Sema.Types
import TurfLang.Sema.Compatible
import TurfLang.Sema.Names
import TurfLang.Sema.Assignable
import TurfLang.Lib.Search
import TurfLang.Sema.Slices
import TurfLang.Sema.SliceSearch
import TurfLang.Sema.SliceWrites
import TurfLang.Sema.SliceRecursion
import TurfLang.Lib.Sweep
import TurfLang.Sema.Instantiate
import TurfLang.Sema.InstantiateCache
import TurfLang.Sema.InstantiateDrain
import TurfLang.Sema.InstantiateLinks
import TurfLang.Sema.InstantiateFixedPoint
import TurfLang.Sema.InstanceNames
import TurfLang.Codegen.FallibleReturn
import TurfLang.Codegen.FallibleCorrect
import TurfLang.Codegen.TypeDesc
import TurfLang.Codegen.Machine
import TurfLang.Codegen.MachineRun
import TurfLang.Codegen.SymbolNames
import TurfLang.Codegen.SymbolTable
import TurfLang.Codegen.SymbolsApart
import TurfLang.Sema.Matching
import TurfLang.Sema.Exhaustive
import TurfLang.Codegen.CompareCode
import TurfLang.Codegen.CompareCorrect
import TurfLang.Frontend.Ast
import TurfLang.Lib.Behaviour
import TurfLang.Frontend.Run
import TurfLang.Codegen.Defer
import TurfLang.Frontend.Placed
import TurfLang.Frontend.RunLaws
import TurfLang.Codegen.DeferCorrect
import TurfLang.Analysis.Escape
import TurfLang.Analysis.EscapePlaces
import TurfLang.Analysis.Cfg
import TurfLang.Analysis.DefiniteAssignment
import TurfLang.Analysis.DefiniteAssignmentPaths
import TurfLang.Analysis.Constants
import TurfLang.Analysis.ConstantsConverge
import TurfLang.Analysis.ConstantsSound
import TurfLang.Lib.Firsts
import TurfLang.Sema.TypeWalk
import TurfLang.Sema.TypeWalkInverse
import TurfLang.Sema.Written
import TurfLang.Sema.Equivalence
import TurfLang.Std.Set.Header
import TurfLang.Std.Set.Refinement
import TurfLang.Analysis.InfiniteLoop
import TurfLang.Frontend.FileTree
import TurfLang.Frontend.PackageGraph
import TurfLang.Frontend.ModuleImport
import TurfLang.Codegen.CheckedInt
import TurfLang.Codegen.IntPow
import TurfLang.Frontend.Lexer
import TurfLang.Frontend.Lookahead
import TurfLang.Frontend.NumberLiteral
import TurfLang.Frontend.ParseType
import TurfLang.Frontend.ArrayDimensions
import TurfLang.Frontend.ClosingBrackets
import TurfLang.Codegen.ArraySlice
import TurfLang.Codegen.LiteralFold
import TurfLang.Frontend.Positions
import TurfLang.Codegen.CompareRepeats
import TurfLang.Frontend.Precedence
import TurfLang.Frontend.Recovery
import TurfLang.Frontend.PrecedenceSound
import TurfLang.Frontend.PrecedenceUnique
import TurfLang.Codegen.IntOperators
import TurfLang.Frontend.Diagnostics
import TurfLang.Analysis.Recursion
import TurfLang.Lib.StableInsertion
import TurfLang.Std.List.Sort
import TurfLang.Std.Queue.Header
import TurfLang.Std.Queue.Refinement
import TurfLang.Lib.Pieces
import TurfLang.Std.StringBuilder
import TurfLang.Std.StringSearch
import TurfLang.Codegen.DefaultValue
import TurfLang.Runtime.StringCapacity
import TurfLang.Codegen.DefaultValueCorrect
import TurfLang.Codegen.StructuralHash
import TurfLang.Codegen.StructuralHashCorrect
import TurfLang.Analysis.AliasConverge
import TurfLang.Analysis.AliasDiverge
import TurfLang.Lib.JsonString
import TurfLang.Std.Json.Escape
import TurfLang.Std.List.Header
import TurfLang.Std.List.Refinement
import TurfLang.Diagnostics.CompilerFix
import TurfLang.Lib.Spans
import TurfLang.Diagnostics.CompilerFixCorrect
import TurfLang.Analysis.Algorithms
import TurfLang.Analysis.AlgorithmsCorrect
import TurfLang.Diagnostics.SuggestionIndex
import TurfLang.Diagnostics.SuggestionIndexCorrect
import TurfLang.Lib.ColourSearch
import TurfLang.Resolve.Defer
import TurfLang.Resolve.StructLayout
import TurfLang.Resolve.StructLayoutCorrect
import TurfLang.Sema.Overload
import TurfLang.Sema.OverloadCorrect
import TurfLang.Std.Json.Accepts
import TurfLang.Std.Math.Wrapping
import TurfLang.Std.Random
import TurfLang.Std.StringTrim
import TurfLang.Std.Http.Request
import TurfLang.Std.Http.RequestCorrect
import TurfLang.Lib.TextLines
import TurfLang.Tooling.TestExpectations
import TurfLang.Tooling.TestExpectationsCorrect
import TurfLang.Frontend.Nodes
import TurfLang.Analysis.LoopLints
import TurfLang.Lib.Abrupt
import TurfLang.Sema.Recover
import TurfLang.Codegen.RecoverMerge
import TurfLang.Codegen.RecoverDefined
import TurfLang.Analysis.Fingerprint
import TurfLang.Analysis.SelfComparison
import TurfLang.Resolve.ErrorReturns
import TurfLang.Resolve.ErrorReturnsCorrect
import TurfLang.Runtime.PendingIndexRun
import TurfLang.Std.Int
import TurfLang.Std.Map.BucketIndex
import TurfLang.Std.Set.BucketIndex
import TurfLang.Std.StringBuilderCopies
import TurfLang.Std.Net.Sockets
import TurfLang.Std.Net.SocketRuns
import TurfLang.Std.Http.Server
import TurfLang.Std.Files
import TurfLang.Analysis.CfgBuilder
import TurfLang.Analysis.CfgBuilderBranches
import TurfLang.Analysis.CfgChecks
import TurfLang.Analysis.CfgAccepts
import TurfLang.Analysis.DefiniteAssignmentRuns
