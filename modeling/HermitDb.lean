import HermitDb.Library.Consumer
import HermitDb.Library.Torn
import HermitDb.Library.FiniteMap
import HermitDb.Library.TimedMap
import HermitDb.Library.Machine
import HermitDb.Library.Task
import HermitDb.Library.Locality
import HermitDb.Library.PrefixCode
import HermitDb.Library.ByteOrder
import HermitDb.Library.Reader
import HermitDb.Library.LastWrite
import HermitDb.Library.StarPattern
import HermitDb.Bytes
import HermitDb.Protocol.RespWriter
import HermitDb.Protocol.RespParser
import HermitDb.Protocol.ChunkIndependence
import HermitDb.Protocol.Grammar
import HermitDb.Protocol.Acceptance
import HermitDb.Protocol.Serving
import HermitDb.Protocol.FrameLimits
import HermitDb.Protocol.CommandRate
import HermitDb.Persist.Wal
import HermitDb.Persist.CanonicalFrames
import HermitDb.Persist.TornTail
import HermitDb.Persist.Append
import HermitDb.Persist.ReplayLimits
import HermitDb.Persist.ReplayTwice
import HermitDb.Persist.SyncCadence
import HermitDb.Persist.Continuation
import HermitDb.Util.Config
import HermitDb.Util.Flags
import HermitDb.Core.Glob
import HermitDb.Core.GlobPattern
import HermitDb.Core.Db
import HermitDb.Core.Expiry
import HermitDb.Persist.Snapshot
import HermitDb.Persist.SnapshotFormat
import HermitDb.Persist.SnapshotRoundTrip
import HermitDb.Persist.SnapshotBounds
import HermitDb.Core.Server
import HermitDb.Core.Commands
import HermitDb.Core.TtlStore
import HermitDb.Core.View
import HermitDb.Core.KeyHandlers
import HermitDb.Core.ListHandlers
import HermitDb.Core.ListRange
import HermitDb.Core.Refinement
import HermitDb.Core.Execute
import HermitDb.Core.Logs
import HermitDb.Core.ActiveExpiry
import HermitDb.Core.Run
import HermitDb.Core.LogReplay
import HermitDb.Core.LaterRecovery
import HermitDb.Core.FailStop
import HermitDb.Core.RecordLimits
import HermitDb.Core.CrashPoints
import HermitDb.Core.RunningClock
import HermitDb.Core.StoreRefinement
import HermitDb.Core.Isolation
import HermitDb.Core.Reachable
import HermitDb.Core.SnapshotBoot
import HermitDb.Core.Boot
import HermitDb.Core.Lives
import HermitDb.Core.Progress
import HermitDb.Core.Restart
import HermitDb.Core.OptionOrder
import HermitDb.Core.CycleSoundness
import HermitDb.Core.CycleProgress
import HermitDb.Core.DeadlineMap
import HermitDb.Core.ReplyStream
import HermitDb.Core.Deadlines
import HermitDb.Core.Frame
import HermitDb.Core.Interleaving
import HermitDb.Core.QuietRuns
import HermitDb.Net.EventLoop
import HermitDb.Net.Session
import HermitDb.Net.Streams
import HermitDb.Net.ProtocolErrors
import HermitDb.Net.LostCommands
import HermitDb.Net.Batches
import HermitDb.Net.ClientCap
import HermitDb.Net.FairShare
import HermitDb.Net.Reactors
import HermitDb.Net.Linearization
import HermitDb.Net.Process
import HermitDb.Net.Durability
import HermitDb.Net.Stopping
import HermitDb.Net.Services
import HermitDb.Net.StoreView
import HermitDb.Net.Isolation
import HermitDb.Net.Ticks
import HermitDb.Net.Exposure
