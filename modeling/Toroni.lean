import Toroni.Java.Freshness
import Toroni.Java.InPlace
import Toroni.Java.Interchange
import Toroni.Java.LifeCycle
import Toroni.Java.Membership
import Toroni.Java.Mixed
import Toroni.Java.ReaderSteps
import Toroni.Java.Rmp
import Toroni.Java.Service
import Toroni.Java.Stop
import Toroni.Java.Strings
import Toroni.Java.Subscribers
import Toroni.Java.TopicMsg
import Toroni.Language
import Toroni.Library.CircularMemory
import Toroni.Library.Fairness
import Toroni.Library.LittleEndian
import Toroni.Library.LogBroadcast
import Toroni.Library.Refinement
import Toroni.Library.SerialNumber
import Toroni.Library.Stretch
import Toroni.Library.Transition
import Toroni.Library.TwosComplement
import Toroni.Library.Unicode
import Toroni.Rmp.ActiveRange
import Toroni.Rmp.AllOrNothing
import Toroni.Rmp.AskedExpiry
import Toroni.Rmp.Broadcast
import Toroni.Rmp.ByteRingBuffer
import Toroni.Rmp.Completion
import Toroni.Rmp.Cooperation
import Toroni.Rmp.DeadReaders
import Toroni.Rmp.Deliveries
import Toroni.Rmp.Initialization
import Toroni.Rmp.Interleaved
import Toroni.Rmp.Ledger
import Toroni.Rmp.Liveness
import Toroni.Rmp.Progress
import Toroni.Rmp.Protocol
import Toroni.Rmp.ReadBack
import Toroni.Rmp.Reader
import Toroni.Rmp.ReaderInfo
import Toroni.Rmp.ReaderSteps
import Toroni.Rmp.SlotLifeCycle
import Toroni.Rmp.StalePositions
import Toroni.Rmp.Stream
import Toroni.Rmp.Termination
import Toroni.Rmp.TornReads
import Toroni.Rmp.UnforcedWrite
import Toroni.Rmp.Writer
import Toroni.Rmp.WriterCrash
import Toroni.Rmp.WriterSteps
import Toroni.Tp.AsyncWriter
import Toroni.Tp.Closed
import Toroni.Tp.Delivery
import Toroni.Tp.Dispatch
import Toroni.Tp.Drainer
import Toroni.Tp.FailingHandlers
import Toroni.Tp.Generations
import Toroni.Tp.Handlers
import Toroni.Tp.InPlace
import Toroni.Tp.Members
import Toroni.Tp.Pipeline
import Toroni.Tp.Positions
import Toroni.Tp.PublishSubscribe
import Toroni.Tp.Reactivation
import Toroni.Tp.Reader
import Toroni.Tp.TopicMsgBinary
import Toroni.Tp.WakeUps
import Toroni.Traits.MPSCMessageQueue
import Toroni.Traits.RobustProcMutex
import Toroni.Traits.SerialWorkItemQueue
import Toroni.Traits.SingleSteps
import Toroni.Traits.Stop
