import QStorage.Db.SPSCRingBuffer
import QStorage.Io.Transfer
import QStorage.Io.Split
import QStorage.Infra.BoundedQueue
import QStorage.Infra.IoUring
import QStorage.Db.LogWriter
import QStorage.Db.LogWriter.Invariant
import QStorage.Db.LogWriter.Group
import QStorage.Db.LogWriter.Handshake
import QStorage.Db.LogWriter.Durability
import QStorage.Db.LogWriter.FileImage
import QStorage.Db.LogWriter.Leader
import QStorage.Infra.SkipList.TablePrefix
import QStorage.Lib.Segment
import QStorage.Tools.Histogram
import QStorage.Tools.List
import QStorage.Lib.Threads
import QStorage.Infra.SkipList.Node
import QStorage.Db.RingBuffer
import QStorage.Db.LogWriter.Commit
import QStorage.Io.Completion
import QStorage.Io.Fragments
import QStorage.Io.Parts
import QStorage.Tools.Histogram.Buckets
import QStorage.Tools.Histogram.Creation
import QStorage.Tools.Histogram.Family
import QStorage.Db.LogWriter.Terminator
import QStorage.Db.LogWriter.Header
import QStorage.Tools.Histogram.Bounds
import QStorage.Db.RingBuffer.Grants
import QStorage.Tools.Buffer
import QStorage.Io.IoSink
import QStorage.Tools.FailPoint
import QStorage.Tools.FailPoint.Scope
import QStorage.Tools.FailPoint.Race
import QStorage.Db.LogWriter.Hang
import QStorage.Db.LogWriter.Progress
import QStorage.Db.SPSCRingBuffer.Mapping
import QStorage.Db.SPSCRingBuffer.Memory
import QStorage.Db.SPSCRingBuffer.Opening
import QStorage.Infra.BoundedQueue.Progress
import QStorage.Infra.IoUring.Progress
import QStorage.Db.LogWriter.Extent
import QStorage.Db.LogWriter.Lifecycle
import QStorage.Infra.SkipList.Sealed
import QStorage.Tools.FailPoint.Linear
import QStorage.Db.RingBuffer.Retry
import QStorage.Infra.SkipList.Spin
import QStorage.Io.Resplit
import QStorage.Tools.Buffer.Settles
import QStorage.Tools.List.Validate
import QStorage.Db.LogWriter.Acknowledge
