import CFunction.Queue.Proofs.ArrayQueueFifo
import CFunction.Queue.Proofs.LinkedQueueDeque
import CFunction.Encode.Base64
import CFunction.Encode.Proofs.Base64RoundTrip
import CFunction.Misc.ByteMemory
import CFunction.Misc.Framer
import CFunction.Uart.ReadGps
import CFunction.Misc.Fields
import CFunction.Uart.GpsInfo
import CFunction.Uart.Proofs.Columns
import CFunction.Misc.Checksum
import CFunction.Uart.Proofs.PacketTest
import CFunction.Uart.Proofs.PacketBounds
import CFunction.Uart.Receiver
import CFunction.Uart.Proofs.PacketReads
import CFunction.Uart.Proofs.ParseBuf
import CFunction.Uart.Proofs.StrayLine
import CFunction.Uart.Proofs.ReceiveLoop
import CFunction.Uart.Proofs.Framing
import CFunction.Uart.Proofs.WellFormedStream
import CFunction.Misc.Table
import CFunction.ParseKv.ParseKv
import CFunction.ParseKv.Proofs.Lines
import CFunction.ParseKv.Proofs.FileMap
import CFunction.ParseKv.Proofs.UpdateRuns
import CFunction.Misc.Gregorian
import CFunction.Time.Proofs.Utc2btcRuns
import CFunction.Database.ModifySql
import CFunction.Database.Proofs.ModifySqlRuns
import CFunction.Epoll.EpollClassic
import CFunction.Epoll.Proofs.EchoRuns
import CFunction.Misc.CharArray
import CFunction.Json.CJson
import CFunction.Json.Mkey
import CFunction.Json.Proofs.MkeyRoundTrip
import CFunction.Misc.BoundedBuffer
import CFunction.Pthread.SemPc
import CFunction.Pthread.Proofs.SemBaseRuns
import CFunction.Pthread.Proofs.SemPcRuns
import CFunction.Queue.Interchange
import CFunction.Queue.Proofs.Interchange
import CFunction.Crc.Crc8
import CFunction.Crc.Proofs.Crc8
import CFunction.Queue.Proofs.LinkedQueueDequeueFront
import CFunction.Queue.Proofs.LinkedQueueDestroy
import CFunction.Lte.Mat
import CFunction.Lte.Proofs.MatChecks
import CFunction.Lte.Proofs.MatRuns
import CFunction.Lte.PppCall
import CFunction.Lte.Proofs.PppCallRuns
import CFunction.Misc.LittleEndian
import CFunction.Net.Gateway
import CFunction.Net.RouteDump
import CFunction.Net.Proofs.DumpParsing
import CFunction.Net.Proofs.GatewayRuns
import CFunction.Queue.ArrayQueueDestroy
import CFunction.Queue.Proofs.ArrayQueueDestroy
import CFunction.Queue.Proofs.ArrayQueueLife
import CFunction.Queue.Proofs.ArrayQueueOwners
import CFunction.Encode.Proofs.Base64Bits
import CFunction.Encode.Proofs.Base64Decode
import CFunction.Encode.Proofs.Base64Canonical
import CFunction.Number.CommonItoa
import CFunction.Misc.Numeral
import CFunction.Number.Proofs.ItoaNumeral
import CFunction.Uart.Proofs.GnrmcColumns
import CFunction.Uart.Proofs.GnggaColumns
import CFunction.Uart.Proofs.ReceiveRoom
import CFunction.Misc.Trim
import CFunction.ParseKv.Proofs.DelBlank
import CFunction.ParseKv.Proofs.KeyMatch
import CFunction.Misc.BoundedLines
import CFunction.ParseKv.Proofs.FileLines
import CFunction.ParseKv.Proofs.LookupBuffer
import CFunction.ParseKv.Proofs.AddKey
import CFunction.Lte.Muart
import CFunction.Lte.Proofs.MuartReads
import CFunction.Lte.Proofs.MuartWrites
import CFunction.Lte.AtUart
import CFunction.Lte.Proofs.AtExchange
import CFunction.Lte.Proofs.OperatorName
import CFunction.Lte.Proofs.PingReset
import CFunction.Socket.LargeData
import CFunction.Socket.Proofs.LargeDataRuns
import CFunction.Epoll.Proofs.ClosesOnly
import CFunction.Uart.Proofs.LeavesNoPacket
import CFunction.Uart.Proofs.ReceiveBounds
import CFunction.Json.Proofs.MkeyCalls
import CFunction.Json.Proofs.MkeySafety
import CFunction.Misc.Tokens
import CFunction.Uart.HexInput
import CFunction.Uart.Proofs.HexLines
import CFunction.Uart.Proofs.HexRuns
import CFunction.Uart.Proofs.HexAccepts
import CFunction.Json.Item
import CFunction.Json.Number
import CFunction.Json.Parse
import CFunction.Json.Proofs.ParseSafety
import CFunction.Json.Print
import CFunction.Json.Proofs.Literal
import CFunction.Json.Proofs.NumberTrip
import CFunction.Json.Proofs.Reprint
import CFunction.Json.MkeyText
import CFunction.Json.Proofs.MkeyTextTrip
import CFunction.Misc.Segment
import CFunction.Misc.StrictMerge
import CFunction.Misc.Forest
import CFunction.Json.Siblings
import CFunction.Json.Proofs.SiblingLinks
import CFunction.Json.Proofs.SiblingDelete
import CFunction.Json.Proofs.SiblingRuns
import CFunction.Json.Compare
import CFunction.Json.SortList
import CFunction.Json.Proofs.SortLinks
import CFunction.Json.Proofs.SortAppend
import CFunction.Json.Pointer
import CFunction.Json.Proofs.PointerTrip
import CFunction.Misc.MergePatch
import CFunction.Json.MergePatch
import CFunction.Json.Proofs.MergeMeaning
import CFunction.Json.Proofs.GenerateSpec
import CFunction.Json.Proofs.GenerateTrip
import CFunction.Misc.InPlace
import CFunction.Json.Minify
import CFunction.Json.Proofs.MinifyText
import CFunction.Json.Proofs.MinifyPrint
import CFunction.Misc.Notices
import CFunction.Process.Sigchld
import CFunction.Process.Proofs.SigchldRuns
import CFunction.Epoll.EpollBlock
import CFunction.Epoll.Proofs.BlockRuns
import CFunction.Pthread.Rwlock
import CFunction.Pthread.Proofs.RwlockRuns
import CFunction.Crc.Crc16
import CFunction.Crc.Proofs.Crc16
