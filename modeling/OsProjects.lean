import OsProjects.Transition
import OsProjects.Monitor
import OsProjects.Guarded
import OsProjects.CTypes
import OsProjects.Channel
import OsProjects.ChannelInv
import OsProjects.Handoff
import OsProjects.Transfer
import OsProjects.Wakeup
import OsProjects.Handshake
import OsProjects.Pool
import OsProjects.Decimal
import OsProjects.Proxy
import OsProjects.ProxyCalls
import OsProjects.SegmentPool
import OsProjects.Resources
import OsProjects.Simplecached
import OsProjects.RequestHandover
import OsProjects.RequestQueue
import OsProjects.MtServer
import OsProjects.TaskHandover
import OsProjects.WorkerPool
import OsProjects.MtDownload
import OsProjects.DownloadCount
import OsProjects.LocalNames
import OsProjects.OpenFile
import OsProjects.DownloadSize
import OsProjects.TransferFailures
import OsProjects.LinkedList
import OsProjects.Steque
import OsProjects.CString
import OsProjects.GetfileClient
import OsProjects.GetfileRuns
import OsProjects.GetfileCuts
import OsProjects.GetfileServer
import OsProjects.GetfileRoundTrip
import OsProjects.RequestBuffer
import OsProjects.RequestCuts
import OsProjects.HandlerPath
import OsProjects.RequestRoundTrip
import OsProjects.HeaderTokens
import OsProjects.ResponseGrammar
import OsProjects.ClientCallbacks
import OsProjects.HeaderShape
import OsProjects.EarlyClose
import OsProjects.CurlHandler
import OsProjects.ReturnConvention
import OsProjects.SharedMemory
import OsProjects.MemoryMoves
import OsProjects.SegmentNames
import OsProjects.SegmentReuse
import OsProjects.Transferfile
import OsProjects.GetfileConnections
import OsProjects.ConnectionDiscipline
import OsProjects.FileSending
import OsProjects.SortedSearch
import OsProjects.ContentIndex
import OsProjects.ContentRows
import OsProjects.Fscanf
import OsProjects.Workload
import OsProjects.WorkloadCalls
import OsProjects.GetfileHandles
import OsProjects.ConcurrentTransfers
import OsProjects.Ledger
import OsProjects.MinifyClient
import OsProjects.MinifyRequests
import OsProjects.MinifyWork
import OsProjects.ProxyShutdown
import OsProjects.AnnouncedLength
import OsProjects.PublishedChunks
import OsProjects.SegmentSize
import OsProjects.Termination
import OsProjects.DownloadRuns
import OsProjects.MinifyRuns
import OsProjects.FileSystem
import OsProjects.LocalFiles
import OsProjects.OwnFiles
import OsProjects.MinifyFiles
import OsProjects.Xdr
import OsProjects.MinifyRpc
import OsProjects.ServerRest
import OsProjects.ExchangeRuns
import OsProjects.ProxyAnswers
import OsProjects.ProxyTurns
import OsProjects.ProxyRuns
import OsProjects.ProxyEnds
import OsProjects.RequestSequence
import OsProjects.GetfileSessions
import OsProjects.RequestUses
import OsProjects.CacheRest
import OsProjects.RequestMessage
