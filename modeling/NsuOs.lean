import NsuOs.Base.Run
import NsuOs.Base.Heap
import NsuOs.Base.CString
import NsuOs.Base.FirstWins
import NsuOs.Proxy.CacheList
import NsuOs.Proxy.CacheStore
import NsuOs.Proxy.CacheTeardown
import NsuOs.Proxy.CacheHistory
import NsuOs.Proxy.CacheHead
import NsuOs.Proxy.Handler
import NsuOs.Proxy.System
import NsuOs.Proxy.Permits
import NsuOs.Proxy.ServiceLife
import NsuOs.Proxy.Context
import NsuOs.Proxy.Descriptors
import NsuOs.Proxy.Relay
import NsuOs.Proxy.Delivery
import NsuOs.Proxy.Segments
import NsuOs.Base.Threads
import NsuOs.Locks.CasLock
import NsuOs.Locks.Exclusion
import NsuOs.Locks.Wakeups
import NsuOs.Echo.Streams
import NsuOs.Queues.CondVar
import NsuOs.Queues.Alternation
import NsuOs.Queues.Deadlock
import NsuOs.Queues.Destroy
import NsuOs.Queues.Locked
import NsuOs.Queues.Fifo
import NsuOs.Queues.Workers
import NsuOs.Base.LockTable
import NsuOs.Storage.HandOverHand
import NsuOs.Storage.LockOrder
import NsuOs.Queues.Teardown
import NsuOs.Queues.TeardownOrder
import NsuOs.Base.Memory
import NsuOs.Mirror.ReverseFile
import NsuOs.Base.FileSystem
import NsuOs.Mirror.Folder
import NsuOs.Mirror.Disk
import NsuOs.Mirror.Mirroring
import NsuOs.Mirror.Faults
import NsuOs.Mirror.Reports
import NsuOs.Mirror.ErrorStatus
import NsuOs.Queues.Single
import NsuOs.Storage.PairCounts
import NsuOs.Base.Search
import NsuOs.Echo.Answers
import NsuOs.Proxy.HostName
import NsuOs.Base.Ledger
import NsuOs.Proxy.RequestBuffers
import NsuOs.Proxy.ResponseBounds
import NsuOs.Proxy.MemoryLedger
import NsuOs.Uthreads.Checker
import NsuOs.Uthreads.Hang
import NsuOs.Storage.SwapCounts
import NsuOs.Mirror.FileCopy
import NsuOs.Mirror.Leftovers
import NsuOs.Mirror.Targets
import NsuOs.Mirror.EntryNames
import NsuOs.Mirror.FillBounds
import NsuOs.Base.LinkedFiles
import NsuOs.Base.LinkedNames
import NsuOs.Commands.SetCommands
import NsuOs.Commands.DiskCommands
import NsuOs.Commands.PrintFile
import NsuOs.Commands.SymLinks
import NsuOs.Commands.Sessions
import NsuOs.Commands.Undo
import NsuOs.Echo.Disconnect
import NsuOs.Echo.Reaping
import NsuOs.Echo.Standstill
import NsuOs.Storage.SwapNodes
import NsuOs.Storage.Window
import NsuOs.Proxy.CacheKey
import NsuOs.Base.Fairness
import NsuOs.Locks.Termination
import NsuOs.Storage.Progress
import NsuOs.Queues.Progress
import NsuOs.Queues.HandedOut
