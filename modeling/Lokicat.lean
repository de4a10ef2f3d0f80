import Lokicat.SelectSet
import Lokicat.Outcomes
import Lokicat.Chunks
import Lokicat.Calendar
import Lokicat.AgeFlush
import Lokicat.Delivery
import Lokicat.EndOfInput
import Lokicat.PrintedDates
import Lokicat.YearInference
import Lokicat.WallClock
import Lokicat.AgeArithmetic
import Lokicat.InnerLoop
import Lokicat.Reports
import Lokicat.Message
import Lokicat.OpenwrtDates
import Lokicat.CommandLine
import Lokicat.Heaps
import Lokicat.Memory
import Lokicat.Footprint
import Lokicat.Ownership
import Lokicat.Buffers
import Lokicat.Bytes
import Lokicat.ByteSafety
import Lokicat.ByteRuns
import Lokicat.BlockCount
import Lokicat.LogForwarding
import Lokicat.Noninterference
import Lokicat.LineEndings
import Lokicat.Regrouping
import Lokicat.Stall
import Lokicat.Codecs
import Lokicat.StampWindow
import Lokicat.Libraries
import Lokicat.Packing
import Lokicat.Concrete
import Lokicat.Curl
import Lokicat.Posting
import Lokicat.FileReader
import Lokicat.Sending
import Lokicat.Deadlines
import Lokicat.Endings
import Lokicat.Program
import Lokicat.StampOrder
import Lokicat.Network
import Lokicat.AtMostOnce
import Lokicat.Curl
import Lokicat.Libraries
