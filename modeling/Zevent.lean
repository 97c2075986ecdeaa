import Zevent.Lib.Brigade
import Zevent.Lib.ByteMemory
import Zevent.Lib.Chain
import Zevent.Lib.CString
import Zevent.Lib.Encoded
import Zevent.Lib.HeapOrder
import Zevent.Lib.Interleaving
import Zevent.Lib.Numerals
import Zevent.Lib.Redis
import Zevent.Lib.RedisCommands
import Zevent.Lib.Ring
import Zevent.Lib.Scanf
import Zevent.Lib.Transcode
import Zevent.Lib.Utf
import Zevent.Cache.Segment
import Zevent.Cache.Cyclic
import Zevent.Cache.Division
import Zevent.Cache.Store
import Zevent.Cache.Integrity
import Zevent.Cache.LastWrite
import Zevent.Cache.Statistics
import Zevent.Cache.Removal
import Zevent.Cache.Room
import Zevent.Cache.Freed
import Zevent.Cache.Layout
import Zevent.Cache.Usage
import Zevent.CacheDev.Store
import Zevent.CacheDev.KeepOld
import Zevent.CacheDev.Update
import Zevent.Server.FdQueue
import Zevent.Server.Handoff
import Zevent.Server.PoolStack
import Zevent.Server.QueueWork
import Zevent.Server.Scoreboard
import Zevent.Server.Parent
import Zevent.Server.Maintenance
import Zevent.Lib.Timeval
import Zevent.Server.Alarm
import Zevent.Server.AlarmRuns
import Zevent.Znet.SendBytes
import Zevent.Znet.SendPath
import Zevent.Znet.Interest
import Zevent.Znet.Peer
import Zevent.Znet.Hash
import Zevent.Znet.HashMap
import Zevent.Znet.Iobuf
import Zevent.Lib.Executions
import Zevent.Znet.IobufFifo
import Zevent.Znet.Receive
import Zevent.Znet.Framing
import Zevent.Znet.Progress
import Zevent.Znet.Allocator
import Zevent.Znet.Disconnect
import Zevent.Znet.MsgQueue
import Zevent.Znet.Reslist
import Zevent.Znet.ReslistWaiters
import Zevent.Znet.RecvQueue
import Zevent.Znet.Timeheap
import Zevent.Znet.Timer
import Zevent.Upunch.Wire
import Zevent.Upunch.Datagram
import Zevent.Upunch.PeerList
import Zevent.Upunch.Edge
import Zevent.Upunch.KnownPeers
import Zevent.Upunch.Supernode
import Zevent.Upunch.Forward
import Zevent.Upunch.EdgeReceive
import Zevent.Upunch.EdgeLoop
import Zevent.Upunch.Truncated
import Zevent.Apps.Rtserver
import Zevent.Apps.Store
import Zevent.Apps.Dispose
import Zevent.Apps.Replies
import Zevent.Rtsearch.CacheExpiry
import Zevent.Rtsearch.Request
import Zevent.Rtsearch.Framing
import Zevent.Rtsearch.Get
import Zevent.Rtsearch.Index
import Zevent.Rtsearch.Parse
import Zevent.Webgame.Uuid
import Zevent.Webgame.GetGs
import Zevent.Webgame.GsManager
import Zevent.Webgame.Binding
import Zevent.Webgame.PeerIds
import Zevent.Webgame.Quadtree
import Zevent.Webgame.Scene
import Zevent.Webgame.SceneManager
import Zevent.Webgame.Aoi
import Zevent.Minidownloader.Dllist
import Zevent.Minidownloader.Download
import Zevent.Minidownloader.RateLimit
import Zevent.Minidownloader.Encode
import Zevent.Minidownloader.Url
import Zevent.Minidownloader.Post
import Zevent.Minidownloader.Response
import Zevent.Znet.Htbl
import Zevent.Znet.HtblVector
import Zevent.Znet.Log
import Zevent.Znet.Memfind
import Zevent.Locks.RwLock
import Zevent.Locks.CondVar
import Zevent.Lib.SlotTable
import Zevent.Lib.Lines
import Zevent.Ini.Dictionary
import Zevent.Ini.Iniparser
import Zevent.Znet.PeerLink
import Zevent.Lib.PagedFile
import Zevent.Mdb.Mpool
import Zevent.Mdb.Contents
import Zevent.Mdb.PoolCalls
import Zevent.Mdb.Transparent
import Zevent.Mdb.PoolSize
import Zevent.Lib.Bencode
import Zevent.Libbt.Benc
import Zevent.Libbt.BencLookup
import Zevent.Libbt.BitTornado
import Zevent.Server.Reclaim
import Zevent.Server.Shutdown
import Zevent.Lib.Demand
import Zevent.Libbt.NetBuf
import Zevent.Libbt.NetState
import Zevent.Libbt.NetChecked
