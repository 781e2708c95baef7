import HevTunnel.RBTree
import HevTunnel.RBTreeBalance
import HevTunnel.MemoryPieces
import HevTunnel.RBTreeHeap
import HevTunnel.RBTreeShape
import HevTunnel.RBTreeSteps
import HevTunnel.RBTreeInsert
import HevTunnel.RBTreeEraseColor
import HevTunnel.RBTreeErase
import HevTunnel.RBTreeRun
import HevTunnel.RBTreeWalk
import HevTunnel.RBTreeCached
import HevTunnel.CString
import HevTunnel.Addr
import HevTunnel.Lru
import HevTunnel.Transition
import HevTunnel.Recency
import HevTunnel.MappedDNS
import HevTunnel.MappedDNSLinks
import HevTunnel.MappedDNSInv
import HevTunnel.MappedDNSRun
import HevTunnel.MappedDNSLookup
import HevTunnel.MappedDNSRep
import HevTunnel.MappedDNSAddress
import HevTunnel.DNSFormat
import HevTunnel.MappedDNSParse
import HevTunnel.MappedDNSResponse
import HevTunnel.MappedDNSBounds
import HevTunnel.MappedDNSName
import HevTunnel.TaskIO
import HevTunnel.UDPCodec
import HevTunnel.PrefixCode
import HevTunnel.UDPReceive
import HevTunnel.UDPFormat
import HevTunnel.UDPRelay
import HevTunnel.UDPAssociate
import HevTunnel.SessionUDP
import HevTunnel.UDPReply
import HevTunnel.UDPFrame
import HevTunnel.UDPBack
import HevTunnel.RingBuffer
import HevTunnel.AckQueue
import HevTunnel.RingQueue
import HevTunnel.TCPDown
import HevTunnel.TCPMem
import HevTunnel.TCPUp
import HevTunnel.HevList
import HevTunnel.FrameQueue
import HevTunnel.UDPSegments
import HevTunnel.Authenticator
import HevTunnel.AuthenticatorMap
import HevTunnel.Process
import HevTunnel.ProcessStream
import HevTunnel.Client
import HevTunnel.HandshakeModes
import HevTunnel.Server
import HevTunnel.ServerLocals
import HevTunnel.Handshake
import HevTunnel.ServerAuth
import HevTunnel.SessionTask
import HevTunnel.FairQueue
import HevTunnel.GuardedRun
import HevTunnel.LinkedStack
import HevTunnel.TaskSystem
import HevTunnel.TaskReady
import HevTunnel.TaskInv
import HevTunnel.TaskRefine
import HevTunnel.TaskFair
import HevTunnel.TaskTree
import HevTunnel.TaskMutex
import HevTunnel.Timespec
import HevTunnel.TaskTimer
import HevTunnel.TimerSched
import HevTunnel.TimerInv
import HevTunnel.TimerRun
import HevTunnel.TimerFair
import HevTunnel.SliceAllocator
import HevTunnel.SliceCache
import HevTunnel.SliceSystem
import HevTunnel.SessionSet
import HevTunnel.SessionEvict
import HevTunnel.SessionHeap
import HevTunnel.SessionList
import HevTunnel.SessionRefine
import HevTunnel.SessionTerminate
import HevTunnel.Gateway
import HevTunnel.GatewayDNS
import HevTunnel.TunnelInit
import HevTunnel.Service
import HevTunnel.Config
import HevTunnel.ConfigVars
import HevTunnel.ConfigEntries
import HevTunnel.ConfigHistory
import HevTunnel.ConfigSizes
import HevTunnel.YamlReorder
import HevTunnel.ConfigReorder
import HevTunnel.ConfigOrder
import HevTunnel.YamlQuoted
import HevTunnel.YamlText
import HevTunnel.YamlLoad
import HevTunnel.TProxyConf
import HevTunnel.Preferences
import HevTunnel.CircularBuffer
import HevTunnel.TaskSplice
import HevTunnel.DNSProxy
