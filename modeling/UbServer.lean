import UbServer.Lib.Runs
import UbServer.Lib.Handles
import UbServer.Lib.MinHeap
import UbServer.Lib.Decimal
import UbServer.Lib.Getopt
import UbServer.Connection
import UbServer.Queue
import UbServer.Queue.Index
import UbServer.Queue.Ops
import UbServer.Queue.Refine
import UbServer.Queue.Order
import UbServer.Queue.Heapify
import UbServer.Lib.CString
import UbServer.Lib.SharedFile
import UbServer.Lib.Paths
import UbServer.Lib.FileTree
import UbServer.Lib.Framing
import UbServer.Request
import UbServer.Segmentation
import UbServer.Response
import UbServer.Dispatch
import UbServer.Worker
import UbServer.Sweep
import UbServer.Queue.Priority
import UbServer.Queue.Bounds
import UbServer.Admission
import UbServer.CleanSlate
import UbServer.BodyDescriptors
import UbServer.SendAll
import UbServer.Delivery
import UbServer.RequestLine
import UbServer.DocumentRoot
import UbServer.BlockedSocket
import UbServer.ParsedOnce
import UbServer.Logger
import UbServer.ResponseHead
import UbServer.AnnouncedFate
import UbServer.RoundTrip
import UbServer.BodyBoundary
import UbServer.HeaderLines
import UbServer.RequestLog
import UbServer.OptionalWhiteSpace
import UbServer.ReceiveBuffer
import UbServer.GzipCache
import UbServer.GzipPaths
import UbServer.GzipNames
import UbServer.Directories
import UbServer.GzipThreads
import UbServer.Options
import UbServer.ResponseFormat
import UbServer.Session
import UbServer.Memory
import UbServer.LogFile
import UbServer.Threads.Incarnation
import UbServer.Threads.Timeout
import UbServer.Threads.Exclusive
import UbServer.Threads.Facade
import UbServer.Threads.Projection
import UbServer.Threads.Sessions
import UbServer.Lib.Tokenizer
import UbServer.Threads.Strtok
import UbServer.Threads.Attention
import UbServer.Threads.Coverage
import UbServer.Threads.Heap
