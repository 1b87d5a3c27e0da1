import OhosBun.Collections.BitSetRuns
import OhosBun.Collections.IndexSort
import OhosBun.Collections.LinearFifoRuns
import OhosBun.Collections.StaticHashMapRuns
import OhosBun.EventLoop.EventLoopTimer
import OhosBun.Http2.FlowControl
import OhosBun.Http2.Incoming
import OhosBun.Http2.Lifecycle
import OhosBun.Http2.ReceiveCredit
import OhosBun.Ini.Quoted
import OhosBun.Install.GlobalStoreLeaks
import OhosBun.Install.GlobalStoreLinks
import OhosBun.Install.OverrideAnswer
import OhosBun.Install.PackageManifest
import OhosBun.Install.Termination
import OhosBun.JsPrinter.CaptureFree
import OhosBun.MySql.Attribution
import OhosBun.MySql.Chunks
import OhosBun.MySql.Writer
import OhosBun.OhosSign.Binding
import OhosBun.OhosSign.ElfPreserved
import OhosBun.Patch.Hunks
import OhosBun.Patch.PatchNames
import OhosBun.Paths.LongestCommonPath
import OhosBun.Postgres.Segments
import OhosBun.Router.Matching
import OhosBun.Semver.Overlap
import OhosBun.Semver.StringBuilder
import OhosBun.Semver.UpperBound
import OhosBun.SourceMap.GeneratedPosition
import OhosBun.SourceMap.LineLookup
import OhosBun.SourceMap.Lookups
import OhosBun.SourceMap.Shifts
import OhosBun.TestRunner.TextDiff
import OhosBun.Valkey.Injection
import OhosBun.Valkey.OnData
import OhosBun.Valkey.Subscriptions
import OhosBun.WebSocket.Acceptance
import OhosBun.WebSocket.Outgoing
import OhosBun.Webcore.Streaming
