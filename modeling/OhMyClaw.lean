import OhMyClaw.Lib.Steps
import OhMyClaw.Lib.SingleWriter
import OhMyClaw.Lib.Upgrade
import OhMyClaw.Store.Writer
import OhMyClaw.Store.Migrate
import OhMyClaw.Http.Auth
import OhMyClaw.Http.WebResume
import OhMyClaw.Server.RunRequests
import OhMyClaw.Server.RunOwn
import OhMyClaw.Tui.Screen
import OhMyClaw.Tui.Told
import OhMyClaw.Core.Agent
import OhMyClaw.Core.Compaction
import OhMyClaw.Core.CompactionTotal
import OhMyClaw.Store.Transcript
import OhMyClaw.Llm.Protocol
import OhMyClaw.Server.History
import OhMyClaw.Proto.Event
import OhMyClaw.Core.Tool
import OhMyClaw.Server.Run
import OhMyClaw.Server.RunMessages
import OhMyClaw.Server.RunEvents
import OhMyClaw.Llm.Sse
import OhMyClaw.Server.Session
import OhMyClaw.Server.SessionLane
import OhMyClaw.Server.SessionAbort
import OhMyClaw.Server.Registry
import OhMyClaw.Tools.Approval
import OhMyClaw.Tools.Granted
import OhMyClaw.Server.Summarize
import OhMyClaw.Server.Dreaming
import OhMyClaw.Server.Compact
import OhMyClaw.Server.CompactOffered
import OhMyClaw.Server.CompactPairs
import OhMyClaw.Server.RunLog
import OhMyClaw.Server.Idem
import OhMyClaw.Http.Delivery
import OhMyClaw.Server.RunLegs
import OhMyClaw.Server.RunCancel
import OhMyClaw.Server.RunOutbound
import OhMyClaw.Server.RunSpoken
import OhMyClaw.Server.Detached
import OhMyClaw.Server.Resume
import OhMyClaw.Server.Watermark
import OhMyClaw.Server.Serial
import OhMyClaw.Server.BeginRun
import OhMyClaw.Server.CompactMeasure
import OhMyClaw.Lib.Json
import OhMyClaw.Lib.Js
import OhMyClaw.Proto.EventJson
import OhMyClaw.Http.WebDelivery
import OhMyClaw.Server.RunText
import OhMyClaw.Server.RunBounds
import OhMyClaw.Server.ToolPump
import OhMyClaw.Lib.Adjacent
import OhMyClaw.Server.HistoryRounds
import OhMyClaw.Server.RunRounds
import OhMyClaw.Tui.Keys
import OhMyClaw.Lib.Windows
import OhMyClaw.Lib.Like
import OhMyClaw.Store.Fts
import OhMyClaw.Store.Memory
import OhMyClaw.Lib.SqlExpr
import OhMyClaw.Store.MemorySearch
import OhMyClaw.Core.Memory
import OhMyClaw.Core.Dreaming
import OhMyClaw.Store.MemoryRows
import OhMyClaw.Server.Consolidate
import OhMyClaw.Server.ConsolidateKept
import OhMyClaw.Server.MemoryMd
import OhMyClaw.Server.Episodic
import OhMyClaw.Server.Explicit
import OhMyClaw.Server.RunReported
import OhMyClaw.Store.TranscriptRuns
import OhMyClaw.Server.SessionMirror
import OhMyClaw.Server.Preference
import OhMyClaw.Lib.Ledger
import OhMyClaw.Core.Proactive
import OhMyClaw.Store.Intents
import OhMyClaw.Server.Intents
import OhMyClaw.Core.Cron
import OhMyClaw.Store.Cron
import OhMyClaw.Server.Cron
import OhMyClaw.Server.CronNext
import OhMyClaw.Server.CronPushes
import OhMyClaw.Server.CronRemoved
import OhMyClaw.Server.Evict
import OhMyClaw.Server.Recall
import OhMyClaw.Http.ConnPool
import OhMyClaw.Server.Ledger
import OhMyClaw.Tools.Children
import OhMyClaw.Http.SseText
import OhMyClaw.Http.ResponsesAgree
import OhMyClaw.Lib.Posix
import OhMyClaw.Lib.Enclosed
import OhMyClaw.Tools.PathGuard
import OhMyClaw.Tools.Sandbox
import OhMyClaw.Lib.Stretch
import OhMyClaw.Core.CommandLines
import OhMyClaw.Lib.Serde
import OhMyClaw.Lib.BufRead
import OhMyClaw.Proto.MethodWire
import OhMyClaw.Proto.EventWire
import OhMyClaw.Proto.FrameWire
import OhMyClaw.Server.Codec
import OhMyClaw.Lib.Find
import OhMyClaw.Core.Skill
import OhMyClaw.Lib.Bytes
import OhMyClaw.Tools.Sanitize
import OhMyClaw.Tools.FileEdit
import OhMyClaw.Tools.LineEndings
import OhMyClaw.Core.CronField
import OhMyClaw.Core.CronTimes
import OhMyClaw.Llm.OpenAi
import OhMyClaw.Server.RunCall
import OhMyClaw.Server.RunUsage
import OhMyClaw.Lib.CutOut
import OhMyClaw.Tools.Html
import OhMyClaw.Lib.Escape
import OhMyClaw.Tools.HtmlEscape
import OhMyClaw.Core.Episodes
import OhMyClaw.Lib.Ties
import OhMyClaw.Core.Prompt
import OhMyClaw.Lib.Standing
import OhMyClaw.Server.PrefTopics
import OhMyClaw.Core.Remember
import OhMyClaw.Lib.Joined
import OhMyClaw.Store.Audit
import OhMyClaw.Lib.Base64
import OhMyClaw.Http.Base64
import OhMyClaw.Http.Adapter
import OhMyClaw.Tui.Consent
