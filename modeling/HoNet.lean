import HoNet.Lib.Linked
import HoNet.Lib.Chain
import HoNet.Timer.Place
import HoNet.Timer.Wheel
import HoNet.Timer.Refine
import HoNet.Timer.History
import HoNet.Timer.Wrap
import HoNet.Timer.Threads
import HoNet.Timer.Heap
import HoNet.Timer.HeapRep
import HoNet.Timer.HeapLinks
import HoNet.Timer.HeapSafe
import HoNet.Timer.HeapInv
import HoNet.Timer.Delete
import HoNet.Timer.Update
import HoNet.Timer.Clock
import HoNet.Timer.NodePool
import HoNet.Timer.FreeNode
import HoNet.Timer.StartTimer
import HoNet.ErrMsg
import HoNet.ErrTable
import HoNet.Lib.Mutex
import HoNet.Lib.FreeList
import HoNet.Lib.Schedule
import HoNet.Lib.Section
import HoNet.ErrTable.Threads
import HoNet.LogicStore
import HoNet.LogicStore.Construct
import HoNet.BinaryArry
import HoNet.BinaryArry.Find
import HoNet.Lib.CString
import HoNet.Cfg.Csv
import HoNet.Cfg.CsvRoundTrip
import HoNet.Cfg.CsvSafe
import HoNet.Cfg.CsvTable
import HoNet.Cfg.CsvEnd
import HoNet.Cfg.CsvHistory
import HoNet.Cfg.CsvGrid
import HoNet.Cfg.Ini
import HoNet.Cfg.IniMeaning
import HoNet.Cfg.IniIterate
import HoNet.Lib.Stdio
import HoNet.Lib.Numeral
import HoNet.Cfg.Load
import HoNet.Cfg.StringUtil
import HoNet.Cfg.IniRoundTrip
import HoNet.RingBuffer
import HoNet.Lib.Ring
import HoNet.RingFifo
import HoNet.RingSplit
import HoNet.BufferHead
import HoNet.BufferQueue
import HoNet.BufferHead.Threads
import HoNet.Lib.Pool
import HoNet.SocketServer.Conn
import HoNet.SocketServer.SendProtocol
import HoNet.Lib.Simulation
import HoNet.SocketServer.Duplex
import HoNet.SocketServer.RefCount
import HoNet.SocketServer.Close
import HoNet.CoreSocket.Server
import HoNet.CoreSocket.RefCount
import HoNet.CoreSocket.AcceptSlots
import HoNet.SlotTable
import HoNet.SocketServer.Connect
import HoNet.CoreSocket.Exclusive
import HoNet.CorePoller.Workers
import HoNet.CorePoller.Stop
import HoNet.CorePoller.Posts
import HoNet.CorePoller.Election
import HoNet.CoreLock
import HoNet.CoreLock.Progress
import HoNet.LogicRef
import HoNet.LogicStore.Threads
import HoNet.LogicMsg
import HoNet.CoreBuffer
import HoNet.CoreBuffer.ZeroCopy
import HoNet.CoreBuffer.Fill
import HoNet.CoreBuffer.Queue
import HoNet.CoreSocket.Transfer
import HoNet.CoreSocket.ReadSize
import HoNet.CoreSocket.Stale
