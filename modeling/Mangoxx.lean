import Mangoxx.Fsm.Defs
import Mangoxx.Fsm.Steps
import Mangoxx.Fsm.Queue
import Mangoxx.Fsm.Delivery
import Mangoxx.Fsm.Timer
import Mangoxx.Fsm.TimerRuns
import Mangoxx.Fsm.Transition
import Mangoxx.Fsm.Wakeup
import Mangoxx.Fcmd.CStr
import Mangoxx.Lib.Loop
import Mangoxx.Fcmd.GetArgs
import Mangoxx.Fcmd.Reading
import Mangoxx.Fcmd.Scan
import Mangoxx.Fcmd.Limits
import Mangoxx.Fcmd.CallArgs
import Mangoxx.Fcmd.Exec
import Mangoxx.Fcmd.Login
import Mangoxx.Fcmd.Format
import Mangoxx.Fcmd.Prototype
import Mangoxx.Fcmd.Dispatch
import Mangoxx.Fsm.Expiry
import Mangoxx.Jpge.FbIo
import Mangoxx.Jpge.FbRing
import Mangoxx.Jpge.FbDma
import Mangoxx.Jpge.Cache
import Mangoxx.Jpge.CacheBounds
import Mangoxx.Jpge.CacheStore
import Mangoxx.Lib.Bits
import Mangoxx.Spiffs.FlashDevice
import Mangoxx.CmdMem.Sfmw
import Mangoxx.Spiffs.Lowlevel
import Mangoxx.Spiffs.FlashImage
import Mangoxx.Lib.Heap
import Mangoxx.Spiffs.Platform
import Mangoxx.Lib.BitString
import Mangoxx.Lib.Huffman
import Mangoxx.Jpge.Output
import Mangoxx.Jpge.PutBits
import Mangoxx.Jpge.HuffmanTable
import Mangoxx.Jpge.Decoder
import Mangoxx.Jpge.Tables
import Mangoxx.Jpge.Coefficients
import Mangoxx.Jpge.Lossless
import Mangoxx.CmdMem.Sfmd
import Mangoxx.CmdMem.Sfmu
import Mangoxx.Fsm.ReloadTimer
import Mangoxx.Jpge.CacheFifo
import Mangoxx.Mango.SslRead
import Mangoxx.Jpge.Dct
import Mangoxx.Jpge.Encoders
import Mangoxx.Jpge.Headers
import Mangoxx.Jpge.LineBuffer
import Mangoxx.Jpge.ToJpg
import Mangoxx.Jpge.WholeImage
import Mangoxx.Lib.Program
import Mangoxx.Mango.Client
import Mangoxx.Mango.DataProcessor
import Mangoxx.Mango.Frames
import Mangoxx.Mango.Steady
import Mangoxx.Mango.Routing
import Mangoxx.Jpge.OutBuffer
import Mangoxx.Jpge.DctRange
import Mangoxx.Jpge.LineFormat
import Mangoxx.Mango.SslPort
import Mangoxx.Fcmd.ArgsNum
import Mangoxx.Lib.Rows
import Mangoxx.CmdJpge.Camera
import Mangoxx.CmdJpge.Bmp
import Mangoxx.Crc.Detection
import Mangoxx.Lzo.Safety
import Mangoxx.Lzo.Agreement
import Mangoxx.Lzo.RoundTrip
import Mangoxx.CJson.Accepts
import Mangoxx.CJson.Whole
import Mangoxx.CJson.Buffered
import Mangoxx.Jpge.ScanCoded
import Mangoxx.Jpge.Recovered
import Mangoxx.Jpge.Convert
import Mangoxx.Lib.Linked
import Mangoxx.Lib.Forest
import Mangoxx.CJson.Arrays
import Mangoxx.CJson.Content
import Mangoxx.CJson.Objects
