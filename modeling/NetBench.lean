import NetBench.Lib.Run
import NetBench.Lib.Framing
import NetBench.Lib.Ring
import NetBench.Lib.CellRing
import NetBench.Msg
import NetBench.BytesBuffer
import NetBench.Session
import NetBench.Deframe
import NetBench.Wedge
import NetBench.Lib.Block
import NetBench.Lib.Dict
import NetBench.Lib.Positions
import NetBench.Socket
import NetBench.Table
import NetBench.SysArgs
import NetBench.TcpClient
import NetBench.ClientSlot
import NetBench.ClientSend
import NetBench.ClientProcess
import NetBench.Received
import NetBench.Wire
import NetBench.TcpServer
import NetBench.ServerSlot
import NetBench.ServerRelay
import NetBench.ClientWire
import NetBench.TcpUpstream
import NetBench.Chain
import NetBench.ChainRecords
import NetBench.UdpClient
import NetBench.UdpContext
import NetBench.Latency
import NetBench.Transmission
import NetBench.ChainLatency
import NetBench.MsgLimit
import NetBench.BufferFull
import NetBench.Pacing
import NetBench.UdpPacing
import NetBench.SendEnd
import NetBench.FrameRecords
import NetBench.TableSize
import NetBench.UdpSend
import NetBench.Lib.CString
import NetBench.Lib.Getopt
import NetBench.Lib.Csv
import NetBench.Lib.Decimal
import NetBench.Script
import NetBench.ScriptLoops
import NetBench.Quantiles
import NetBench.LatencyOrder
import NetBench.LatencyScript
import NetBench.Rerun
import NetBench.ThreadApp
import NetBench.ThreadDelivery
import NetBench.UdpReceive
import NetBench.UdpSafe
import NetBench.UdpChain
import NetBench.RecordFile
import NetBench.RecordRoundTrip
import NetBench.ParseArgs
import NetBench.Lib.Lanes
import NetBench.MaRing
import NetBench.RecordPipe
import NetBench.ThreadScript
import NetBench.ThreadRecords
import NetBench.ThreadLatency
import NetBench.Lib.Retry
import NetBench.Retries
import NetBench.Lib.Forever
import NetBench.ClientEnds
import NetBench.ChainComplete
import NetBench.ChainCounts
import NetBench.ChainReports
import NetBench.UdpRelay
import NetBench.UdpCounts
import NetBench.Lib.Heap
import NetBench.SessionMemory
import NetBench.Startup
import NetBench.SideBySide
import NetBench.Sweep
