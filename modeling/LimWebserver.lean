import LimWebserver.Lib.Transition
import LimWebserver.Lib.Chain
import LimWebserver.Base.LFQueue
import LimWebserver.Base.LFQueueInv
import LimWebserver.Base.LFQueueEnqueue
import LimWebserver.Base.LFQueueKept
import LimWebserver.Base.LFQueueList
import LimWebserver.Base.LFQueuePair
import LimWebserver.Coroutine.RunLoop
import LimWebserver.Coroutine.Processor
import LimWebserver.Net.EventLoop
import LimWebserver.Coroutine.Scheduler
import LimWebserver.Coroutine.SchedulerAddTask
import LimWebserver.Coroutine.Timer
import LimWebserver.Coroutine.TimerApart
import LimWebserver.Coroutine.TimerCalls
import LimWebserver.Coroutine.TimerHistory
import LimWebserver.Coroutine.TimerSafe
import LimWebserver.Net.IoChannel
import LimWebserver.Coroutine.Hook
import LimWebserver.Coroutine.HookAwake
import LimWebserver.Net.ByteArray
import LimWebserver.Net.ByteArrayRep
import LimWebserver.Net.ByteArrayFifo
import LimWebserver.Net.ByteArraySocket
import LimWebserver.Net.Http.Request
import LimWebserver.Net.Http.Parser
import LimWebserver.Net.Http.Session
import LimWebserver.Net.Http.Registers
import LimWebserver.Net.Http.Table
import LimWebserver.Net.Http.Cut
import LimWebserver.Net.Http.Pipeline
import LimWebserver.Net.Http.Body
import LimWebserver.Splog.AsyncAppender
import LimWebserver.Splog.AsyncAppenderStop
import LimWebserver.Splog.LogInitializer
import LimWebserver.Splog.LogSink
import LimWebserver.Lib.Yaml
import LimWebserver.Splog.LogLexicalCast
import LimWebserver.Net.Socket
import LimWebserver.Lib.Ownership
import LimWebserver.Net.EpollPoller
import LimWebserver.Base.Configer
import LimWebserver.Coroutine.ProcessorTasks
import LimWebserver.Coroutine.HookSleep
import LimWebserver.Coroutine.HookSleepOwn
import LimWebserver.Coroutine.HookClose
import LimWebserver.Lib.Narrow
import LimWebserver.Coroutine.HookDuration
import LimWebserver.Coroutine.TimerWait
import LimWebserver.Coroutine.TimerRun
import LimWebserver.Coroutine.FdManager
import LimWebserver.Coroutine.HookFcntl
import LimWebserver.Net.ByteArrayHistory
import LimWebserver.Lib.Bytes
import LimWebserver.Lib.Varint
import LimWebserver.Net.ByteArrayCodec
import LimWebserver.Net.ByteArrayVarint
import LimWebserver.Net.ByteArrayString
import LimWebserver.Net.ByteArrayTruncated
import LimWebserver.Net.ByteArrayPosition
import LimWebserver.Net.ByteArrayBuffers
import LimWebserver.Net.ByteArrayFile
import LimWebserver.Net.Http.Limits
import LimWebserver.Lib.Lines
import LimWebserver.Net.Http.Headers
import LimWebserver.Net.Http.Message
import LimWebserver.Net.Http.Dump
import LimWebserver.Net.Http.Tokens
import LimWebserver.Net.Http.Framing
import LimWebserver.Lib.Pieces
import LimWebserver.Net.Http.Params
import LimWebserver.Net.Http.Url
import LimWebserver.Net.Http.Form
import LimWebserver.Net.Http.Method
import LimWebserver.Net.Http.SendResponse
import LimWebserver.Net.Server
import LimWebserver.Splog.LogManager
import LimWebserver.Splog.LogManagerInv
import LimWebserver.Splog.LogManagerUpdate
import LimWebserver.Splog.LogManagerNull
import LimWebserver.Splog.LoggerLog
import LimWebserver.Lib.CString
import LimWebserver.Net.AddressOrder
import LimWebserver.Net.Address
import LimWebserver.Net.AddressPrefix
import LimWebserver.Net.AddressString
import LimWebserver.Net.AddressLookup
import LimWebserver.Splog.LogStream
import LimWebserver.Splog.LogFormatter
import LimWebserver.Base.TimeManager
import LimWebserver.Lib.Regex
import LimWebserver.Base.ConfigerLookup
import LimWebserver.Base.ConfigerLoad
import LimWebserver.Base.ConfigerName
import LimWebserver.Base.Trim
import LimWebserver.Splog.LogConvert
import LimWebserver.Net.Http.ResponseParser
import LimWebserver.Base.ReclaimPool
import LimWebserver.Base.Reclaimer
import LimWebserver.Base.ReclaimerStep
import LimWebserver.Base.ReclaimerShape
import LimWebserver.Base.ReclaimerMarks
import LimWebserver.Base.ReclaimerSafety
import LimWebserver.Base.ReclaimerPass
import LimWebserver.Base.ReclaimerAccount
import LimWebserver.Base.HazardPointer
import LimWebserver.Coroutine.ProcessorOrder
import LimWebserver.Net.Http.HttpServer
import LimWebserver.Coroutine.SchedulerSpread
import LimWebserver.Splog.LogAppender
import LimWebserver.Splog.AsyncAppenderLines
