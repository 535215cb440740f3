import Yfs.Lib.System
import Yfs.Lib.Link
import Yfs.Lib.Insert
import Yfs.Lib.Word
import Yfs.Lib.Frame
import Yfs.Lock.Safety
import Yfs.Lock.Tenure
import Yfs.Lock.Requests
import Yfs.Lock.Plain
import Yfs.Lock.Completion
import Yfs.Rpc.AtMostOnce
import Yfs.Rpc.Classification
import Yfs.Rpc.Survival
import Yfs.Rpc.RefCount
import Yfs.Rpc.Deadline
import Yfs.Rpc.Backoff
import Yfs.Rpc.ReplyConn
import Yfs.Rpc.ThrPool
import Yfs.Rpc.PoolWakeups
import Yfs.Rpc.Safebind
import Yfs.Extents.Coherence
import Yfs.Extents.WriteBack
import Yfs.Extents.Flush
import Yfs.Fs.Creates
import Yfs.Fs.Atomic
import Yfs.Fs.Clients
import Yfs.Fs.Handlers
import Yfs.Fs.Fresh
import Yfs.Fs.Directory
import Yfs.Fs.File
import Yfs.Fs.Readdir
import Yfs.Fs.Fuse
import Yfs.Wire.Memory
import Yfs.Wire.Into
import Yfs.Wire.Capacity
import Yfs.Net.Framing
import Yfs.Net.ReadBuffer
import Yfs.Net.Segments
import Yfs.Net.WriteCb
import Yfs.Net.Select
import Yfs.Net.Accept
import Yfs.Lib.Walk
