import Siesta.Lib.Table
import Siesta.Lib.Text
import Siesta.Lib.Precedence
import Siesta.Support.Utils
import Siesta.Frontend.AST
import Siesta.IR.DependencyGraph
import Siesta.IR.CycleDetection
import Siesta.IR.TopologicalSort
import Siesta.IR.SortTypes
import Siesta.Lib.Record
import Siesta.Lib.ListM
import Siesta.Lib.Definitions
import Siesta.Support.Json
import Siesta.IR.Endpoint
import Siesta.Backend.BeastServer
import Siesta.IR.CppTypes
import Siesta.IR.StructSerialization
import Siesta.IR.VariantSerialization
import Siesta.IR.TypeTexts
import Siesta.IR.DefsGenerator
import Siesta.IR.Emission
import Siesta.Frontend.OpenApi
import Siesta.Frontend.SchemaParser
import Siesta.Lib.Growing
import Siesta.Frontend.ParserInvariant
import Siesta.IR.ParsedAST
import Siesta.IR.UndefinedNames
import Siesta.IR.EndpointParser
import Siesta.IR.PathItems
import Siesta.Lib.Trie
import Siesta.Runtime.PathTree
import Siesta.Lib.Runs
import Siesta.Runtime.AsyncQueue
import Siesta.IR.EndpointParams
import Siesta.Runtime.Client
import Siesta.Runtime.Encoding
import Siesta.Runtime.ServerSession
import Siesta.Backend.BeastClient
import Siesta.Backend.ClientPaths
import Siesta.Backend.ClientServer
import Siesta.Frontend.Origins
import Siesta.IR.WireFormat
import Siesta.IR.Inlining
import Siesta.IR.HeaderAndSource
import Siesta.Frontend.Naming
import Siesta.JsonSchema.SchemaTypes
import Siesta.Runtime.WakeUps
import Siesta.JsonSchema.SchemaCompiler
import Siesta.JsonSchema.Validator
import Siesta.JsonSchema.PlainSchemas
import Siesta.JsonSchema.Combinators
import Siesta.JsonSchema.RefTargets
import Siesta.JsonSchema.Subschemas
import Siesta.Lib.CallChains
import Siesta.Driver.ComponentTypes
import Siesta.Driver.NamesAgree
import Siesta.JsonSchema.Termination
import Siesta.JsonSchema.KeyOrder
import Siesta.JsonSchema.SameVerdict
import Siesta.Backend.RouteMatching
import Siesta.IR.AlternativeOrder
import Siesta.IR.ChainExits
import Siesta.IR.ResolvedTypes
import Siesta.IR.ParameterMerge
import Siesta.Lib.SlotScan
import Siesta.Backend.PathTemplates
import Siesta.Backend.Reachability
import Siesta.Driver.SecuritySchemes
import Siesta.Frontend.ObjectForms
import Siesta.IR.TranslatedTypes
import Siesta.Lib.CppLexer
import Siesta.Support.Literals
import Siesta.IR.DocComments
import Siesta.IR.Identifiers
import Siesta.IR.UniqueNames
import Siesta.IR.EnumSerialization
import Siesta.JsonSchema.Equality
import Siesta.Lib.CppCalls
import Siesta.Backend.PythonBindings
import Siesta.Frontend.Flattening
import Siesta.Runtime.TokenizedString
import Siesta.JsonSchema.Requirements
import Siesta.JsonSchema.NodeUris
import Siesta.JsonSchema.NodeGraph
import Siesta.JsonSchema.NodeGraphRuns
import Siesta.Runtime.PythonUtil
import Siesta.Lib.CallTrace
import Siesta.JsonSchema.PropertyRouting
import Siesta.Lib.Padding
import Siesta.JsonSchema.RelatedNodes
import Siesta.JsonSchema.TreeNodes
import Siesta.JsonSchema.Annotations
import Siesta.JsonSchema.AnnotatedVerdict
import Siesta.JsonSchema.Faults
import Siesta.JsonSchema.CallDepth
import Siesta.Runtime.ConditionVariable
import Siesta.Runtime.Connection
import Siesta.Backend.SegmentRouter
import Siesta.Driver.PipelineRuns
import Siesta.Backend.ClientRequests
import Siesta.Frontend.DataSchemas
import Siesta.JsonSchema.GeneratedData
import Siesta.Lib.Pool
import Siesta.Runtime.GeneratedCalls
import Siesta.Runtime.PythonServer
import Siesta.Frontend.InlineStructs
