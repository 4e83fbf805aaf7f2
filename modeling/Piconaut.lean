import Piconaut.CppStd.Strings
import Piconaut.Formats.Json.BuilderAppends
import Piconaut.Formats.Json.BuilderClasses
import Piconaut.Formats.Json.BuilderCursor
import Piconaut.Formats.Json.BuilderDenotation
import Piconaut.Formats.Json.BuilderInvariant
import Piconaut.Formats.Json.BuilderPrograms
import Piconaut.Formats.Json.BuilderSafety
import Piconaut.Formats.Json.BuilderStatements
import Piconaut.Formats.Json.StringStorage
import Piconaut.Formats.Json.Value
import Piconaut.Formats.Json.ValueArrays
import Piconaut.Formats.Json.ValueBuilder
import Piconaut.Formats.Json.ValueEmbedding
import Piconaut.Formats.Json.ValueMap
import Piconaut.Formats.Json.ValueSessions
import Piconaut.Formats.Json.WritersAgree
import Piconaut.Handlers.Concurrency
import Piconaut.Handlers.DispatchSpec
import Piconaut.Handlers.GlobalDispatcher
import Piconaut.Handlers.HandlerCallback
import Piconaut.Handlers.InterleavedRequests
import Piconaut.Handlers.RouteTable
import Piconaut.Http.Headers
import Piconaut.Http.HttpServer
import Piconaut.Http.QueryParameters
import Piconaut.Http.QueryString
import Piconaut.Http.Request
import Piconaut.Http.Response
import Piconaut.Http.ServerLifecycle
import Piconaut.Http.WorkerLifecycle
import Piconaut.Lib.CallChain
import Piconaut.Lib.ExceptRun
import Piconaut.Lib.GreedyWalk
import Piconaut.Lib.InfixSearch
import Piconaut.Lib.JsonTree
import Piconaut.Lib.LastMatch
import Piconaut.Lib.LastWins
import Piconaut.Lib.MemberNames
import Piconaut.Lib.MemberWrites
import Piconaut.Lib.Outline
import Piconaut.Lib.PartialMap
import Piconaut.Lib.PrefixTrie
import Piconaut.Lib.SeparatedList
import Piconaut.Lib.StepRun
import Piconaut.Lib.WhileLoop
import Piconaut.Lib.WildcardCover
import Piconaut.Lib.WildcardInsert
import Piconaut.Main.HelloWorldHandler
import Piconaut.Main.MainProgram
import Piconaut.Main.Shutdown
import Piconaut.Middleware.CsrfMiddleware
import Piconaut.Middleware.MiddlewareManager
import Piconaut.Rapidjson.Value
import Piconaut.Routers.BraceExpressions
import Piconaut.Routers.Compaction
import Piconaut.Routers.Completeness
import Piconaut.Routers.MatchRoute
import Piconaut.Routers.ParameterNames
import Piconaut.Routers.Parameters
import Piconaut.Routers.PathTemplates
import Piconaut.Routers.Resolution
import Piconaut.Routers.RouteGrammar
import Piconaut.Routers.RouteOrder
import Piconaut.Routers.RouteSyntax
import Piconaut.Routers.RouteUpdates
import Piconaut.Routers.Router
import Piconaut.Routers.RouterTree
import Piconaut.Routers.RouterTrie
import Piconaut.Routers.StringPreconditions
import Piconaut.Sys.SignalHandler
import Piconaut.Sys.SignalThread
import Piconaut.Utils.Splitting
import Piconaut.Utils.StringUtils
