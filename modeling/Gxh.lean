import Gxh.Lib.TSys
import Gxh.Lib.Word
import Gxh.Lib.OrdSet
import Gxh.Lib.Tally
import Gxh.Scheduler.Task
import Gxh.IOManager.FdContext
import Gxh.IOManager.ContextTable
import Gxh.IOManager.Dispatch
import Gxh.Timer.Basic
import Gxh.Timer.Order
import Gxh.Timer.Expiry
import Gxh.Timer.Armed
import Gxh.Hook.FdManager
import Gxh.Hook.DoIo
import Gxh.Workers.Basic
import Gxh.Workers.OneThread
import Gxh.Workers.Steps
import Gxh.Workers.Wakeup
import Gxh.Workers.TimerWait
import Gxh.Workers.Drain
import Gxh.HttpParser.Basic
import Gxh.HttpParser.Execute
import Gxh.HttpParser.Steady
import Gxh.HttpParser.Url
import Gxh.HttpParser.Segments
import Gxh.Http.Message
import Gxh.Http.Parser
import Gxh.Http.Segmentation
import Gxh.Http.Server
import Gxh.HttpParser.Headers
import Gxh.Http.FailingCuts
import Gxh.Timer.Delivery
import Gxh.Timer.Membership
import Gxh.Workers.Ledger
import Gxh.IOManager.Mirror
import Gxh.Hook.Timeout
import Gxh.ByteArray.Basic
import Gxh.ByteArray.Codec
import Gxh.ByteArray.Invariant
import Gxh.ByteArray.Numbers
import Gxh.ByteArray.Strings
import Gxh.Http.Dump
import Gxh.Http.Framing
import Gxh.HttpParser.Reads
import Gxh.HttpParser.HeaderLine
import Gxh.HttpParser.ResponseRun
import Gxh.Http.Client
import Gxh.Hook.Nonblock
import Gxh.Hook.Close
import Gxh.Config.ConfigVar
import Gxh.Db.MysqlPool
import Gxh.Db.Lending
import Gxh.Log.Define
import Gxh.Http.ConnectionAge
import Gxh.Lib.LazyMap
import Gxh.Http.Params
import Gxh.Http.LazyParams
import Gxh.ByteArray.Positional
import Gxh.ByteArray.File
import Gxh.ByteArray.Flat
import Gxh.ByteArray.Failing
import Gxh.Streams.SocketStream
import Gxh.Lib.SqlLiteral
import Gxh.Web.TinyWebserver
import Gxh.Web.Register
import Gxh.Http.UrlCoding
import Gxh.Http.FormEncoding
import Gxh.HttpParser.UrlLayout
import Gxh.HttpParser.UrlAuthority
import Gxh.HttpParser.UrlForms
import Gxh.Uri.Create
import Gxh.Uri.Printed
import Gxh.Uri.RoundTrip
import Gxh.Timer.Answers
import Gxh.Workers.EpollWait
import Gxh.Lib.Registry
import Gxh.Http.Servlet
import Gxh.Http.FormGrammar
import Gxh.Http.ResponseLines
import Gxh.Http.ContentLength
import Gxh.Http.ConnectionHeader
import Gxh.ByteArray.LengthField
import Gxh.HttpParser.BodyBytes
import Gxh.Http.BodyLimit
import Gxh.Lib.Signed
import Gxh.Workers.EpollRetry
import Gxh.Hook.Sleep
import Gxh.Hook.SocketTimeout
import Gxh.Streams.FixSize
import Gxh.Address.IPv4
import Gxh.Address.IPv6
import Gxh.Scheduler.Fiber
import Gxh.Scheduler.CurrentFiber
import Gxh.Config.Keys
import Gxh.Log.Formatter
import Gxh.Log.PatternGrammar
import Gxh.Log.Composition
import Gxh.Lib.Trimming
import Gxh.Util.Trim
import Gxh.ByteArray.Zigzag
import Gxh.Address.Lookup
import Gxh.Lib.ColonHex
import Gxh.Address.IPv6Text
import Gxh.Lib.FileTree
import Gxh.Util.FileSystem
import Gxh.Util.Remove
import Gxh.Util.RemoveTree
import Gxh.HttpParser.Protocol
import Gxh.HttpParser.ProtocolRuns
import Gxh.HttpParser.UpgradeHeader
import Gxh.HttpParser.RequestRun
import Gxh.Http.Received
import Gxh.Http.Exchange
import Gxh.Http.Fetch
import Gxh.Http.FetchAnswer
import Gxh.Log.Output
import Gxh.TcpServer.Lifecycle
import Gxh.TcpServer.Shutdown
import Gxh.Util.ListFiles
import Gxh.Config.ConfDir
import Gxh.Lib.Positions
import Gxh.Web.Login
