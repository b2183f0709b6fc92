import Wrk.Core.Transition
import Wrk.Core.Interleave
import Wrk.Core.Word
import Wrk.Core.Loop
import Wrk.Core.Samples
import Wrk.Core.Scanf
import Wrk.Stats.Basic
import Wrk.Stats.Atomic
import Wrk.Stats.Summary
import Wrk.Stats.Correct
import Wrk.Stats.Percentile
import Wrk.HttpParser.Types
import Wrk.HttpParser.Step
import Wrk.HttpParser.Execute
import Wrk.HttpParser.Orderly
import Wrk.HttpParser.Rule
import Wrk.HttpParser.Count
import Wrk.HttpParser.Split
import Wrk.HttpParser.Body
import Wrk.Connection.Buffer
import Wrk.Connection.World
import Wrk.Connection.Events
import Wrk.Connection.Writer
import Wrk.Connection.Framing
import Wrk.Connection.Wedge
import Wrk.Connection.Pending
import Wrk.Connection.Worker
import Wrk.Connection.Timers
import Wrk.Connection.Reader
import Wrk.Connection.Responses
import Wrk.Connection.Peer
import Wrk.Connection.ClosedLoop
import Wrk.Connection.Tls
import Wrk.Connection.Requests
import Wrk.Connection.EndOfStream
import Wrk.Connection.Transport
import Wrk.Connection.Timeouts
import Wrk.Script.CopyValue
import Wrk.Core.Decimal
import Wrk.Core.Regex
import Wrk.Units.Bandwidth
import Wrk.Connection.Descriptors
import Wrk.Connection.Calls
import Wrk.Connection.Attempts
import Wrk.Connection.Fleet
import Wrk.HttpParser.Request
import Wrk.HttpParser.RequestRun
import Wrk.Script.VerifyRequest
import Wrk.Http.Response
import Wrk.HttpParser.Alike
import Wrk.HttpParser.Deliver
import Wrk.HttpParser.Cost
import Wrk.HttpParser.Chars
import Wrk.HttpParser.Name
import Wrk.HttpParser.Value
import Wrk.HttpParser.Fields
import Wrk.HttpParser.Heads
import Wrk.HttpParser.Bodies
import Wrk.HttpParser.Framed
import Wrk.Connection.Method
import Wrk.Stats.Closed
import Wrk.Stats.Interval
import Wrk.Core.OrderStatistic
import Wrk.Stats.Order
import Wrk.Stats.Enumerate
import Wrk.Connection.Fragments
import Wrk.Core.Lines
import Wrk.Script.Format
import Wrk.Script.Sharing
import Wrk.Script.Head
import Wrk.Http.Url
import Wrk.HttpParser.Url
import Wrk.Script.Create
import Wrk.HttpParser.UrlPath
import Wrk.Script.Target
import Wrk.Units.Choose
import Wrk.Units.Scan
import Wrk.Units.Durations
import Wrk.Main.Options
import Wrk.Stats.Allocation
import Wrk.Core.Division
import Wrk.Stats.Spread
import Wrk.Main.Report
import Wrk.Main.Columns
import Wrk.Core.Retry
import Wrk.Stats.Contention
import Wrk.Connection.Bounds
import Wrk.Core.Process
import Wrk.Script.Done
import Wrk.Core.Refinement
import Wrk.Ae.Runs
import Wrk.Ae.Once
import Wrk.Ae.Interest
import Wrk.Ae.Returns
import Wrk.Connection.Answers
import Wrk.Connection.Epoll
import Wrk.Script.Pipeline
