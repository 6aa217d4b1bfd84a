import JhCommon.Agenda
import JhCommon.AgentCalls
import JhCommon.Allocator
import JhCommon.AllocatorCounter
import JhCommon.AllocatorHeap
import JhCommon.AllocatorRetry
import JhCommon.AllocatorSizes
import JhCommon.BracketNesting
import JhCommon.BufferObservers
import JhCommon.BufferWait
import JhCommon.ByteQueue
import JhCommon.CancelledEvents
import JhCommon.CatchUp
import JhCommon.ChunkSize
import JhCommon.ChunkedCoding
import JhCommon.CircularBuffer
import JhCommon.CircularBufferRefinement
import JhCommon.ClassFile
import JhCommon.ClassImages
import JhCommon.ClockThread
import JhCommon.ComServices
import JhCommon.ComponentManager
import JhCommon.CountedHeap
import JhCommon.CounterMatch
import JhCommon.DelayTicks
import JhCommon.Directory
import JhCommon.DumpCPlusPlus
import JhCommon.DumpXML
import JhCommon.EventAgent
import JhCommon.EventDispatcher
import JhCommon.EventQueue
import JhCommon.EventQueueOrder
import JhCommon.Exec
import JhCommon.FairTurns
import JhCommon.FieldTable
import JhCommon.FrontEnd
import JhCommon.FrontEndTable
import JhCommon.FunctionName
import JhCommon.GCHeap
import JhCommon.HeaderArrival
import JhCommon.HeaderCache
import JhCommon.HeaderProgress
import JhCommon.HttpAgent
import JhCommon.HttpAnswers
import JhCommon.HttpBody
import JhCommon.HttpBodyRuns
import JhCommon.HttpDelivery
import JhCommon.HttpHeader
import JhCommon.HttpRequest
import JhCommon.HttpRoundTrip
import JhCommon.HttpStatus
import JhCommon.IncludeScan
import JhCommon.InheritedMethods
import JhCommon.JhListCopies
import JhCommon.JhString
import JhCommon.JhVectorRuns
import JhCommon.KeyOrder
import JhCommon.LineReading
import JhCommon.LineScan
import JhCommon.LineSearch
import JhCommon.Linearization
import JhCommon.ListCuts
import JhCommon.ListPlus
import JhCommon.ListenerDispatch
import JhCommon.LogBuffer
import JhCommon.LoggingRegistry
import JhCommon.MixedRemoval
import JhCommon.MutexOwner
import JhCommon.NullHandler
import JhCommon.NumberText
import JhCommon.Path
import JhCommon.PathCanonical
import JhCommon.PathMeaning
import JhCommon.PeriodicLoop
import JhCommon.PeriodicTimer
import JhCommon.PrintBuffer
import JhCommon.QueryLoss
import JhCommon.References
import JhCommon.Regex
import JhCommon.RegexMatching
import JhCommon.RegexPrefix
import JhCommon.RegexPrepare
import JhCommon.RegexPrinting
import JhCommon.RegexReplacing
import JhCommon.RegexReuse
import JhCommon.RegexRuns
import JhCommon.RegexTermination
import JhCommon.RemoteCalls
import JhCommon.RequestLine
import JhCommon.Rotation
import JhCommon.SelectorCallbacks
import JhCommon.SelectorHandshake
import JhCommon.SelectorListeners
import JhCommon.SelectorLock
import JhCommon.SelectorWakeups
import JhCommon.SharedBuffer
import JhCommon.SmartPtrs
import JhCommon.Split
import JhCommon.SplitPieces
import JhCommon.StatusLine
import JhCommon.StdString
import JhCommon.StreamCalls
import JhCommon.StringCompare
import JhCommon.StringEditRuns
import JhCommon.StringReturns
import JhCommon.StringSharing
import JhCommon.StringValues
import JhCommon.SyncSend
import JhCommon.SyncSendProgress
import JhCommon.SyncSendRuns
import JhCommon.TickTermination
import JhCommon.TimeOffsets
import JhCommon.TimeUtils
import JhCommon.TimedEvents
import JhCommon.Timer
import JhCommon.TimerDelivery
import JhCommon.TimerRemoval
import JhCommon.TinyXml
import JhCommon.Transition
import JhCommon.TypeStore
import JhCommon.URI
import JhCommon.URICopy
import JhCommon.URIParse
import JhCommon.URIQuery
import JhCommon.URIRuns
import JhCommon.URISeparation
import JhCommon.VariantRuns
import JhCommon.WalkNames
import JhCommon.Watching
import JhCommon.WatchingNodes
import JhCommon.WatchingRuns
import JhCommon.XmlText
