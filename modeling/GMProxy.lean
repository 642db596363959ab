import GMProxy.Library.WhileLoop
import GMProxy.Library.CMemory
import GMProxy.Library.BitString
import GMProxy.Library.Transducer
import GMProxy.Library.Delimited
import GMProxy.Library.Machine
import GMProxy.Library.Custody
import GMProxy.Library.Lines
import GMProxy.Library.CharData
import GMProxy.Library.Decimal
import GMProxy.Library.Locks
import GMProxy.Library.FileTree
import GMProxy.Library.Heap
import GMProxy.Library.Service
import GMProxy.Ps.DemuxTermination
import GMProxy.Ps.DemuxResult
import GMProxy.Ps.PayloadLength
import GMProxy.Ps.BitsWrite
import GMProxy.Ps.TdBits
import GMProxy.Ps.TimeStamps
import GMProxy.Ps.MuxUnits
import GMProxy.Ps.MuxPack
import GMProxy.Ps.RoundTrip
import GMProxy.Ps.Clock
import GMProxy.Ps.Headers
import GMProxy.Ps.PackStructure
import GMProxy.Ps.Overflow
import GMProxy.Rtp.Reassembly
import GMProxy.Rtp.Fragments
import GMProxy.Rtp.SendLoop
import GMProxy.Rtp.FrameQueue
import GMProxy.Fifo.Delivery
import GMProxy.Channel.Manager
import GMProxy.Channel.Ledger
import GMProxy.Channel.Refinement
import GMProxy.Channel.Frame
import GMProxy.Channel.Table
import GMProxy.Channel.Signals
import GMProxy.Channel.Reservation
import GMProxy.Channel.Teardown
import GMProxy.Channel.FifoNodes
import GMProxy.Channel.Conservation
import GMProxy.Channel.Requests
import GMProxy.Channel.Removal
import GMProxy.Channel.Draining
import GMProxy.Channel.Order
import GMProxy.Channel.Locks
import GMProxy.Channel.Unlink
import GMProxy.Channel.Parameters
import GMProxy.Codec.TdCodec
import GMProxy.Codec.Convert
import GMProxy.Codec.Refresh
import GMProxy.Codec.Encode
import GMProxy.Codec.X264
import GMProxy.Codec.Blocks
import GMProxy.Scale.Buffers
import GMProxy.Scale.Frames
import GMProxy.Device.Processes
import GMProxy.Device.Steps
import GMProxy.Device.Roles
import GMProxy.Device.Original
import GMProxy.Device.Answers
import GMProxy.Device.Registration
import GMProxy.Device.Invite
import GMProxy.Device.SipUri
import GMProxy.Device.Numbers
import GMProxy.Conf.IniFile
import GMProxy.Conf.IniText
import GMProxy.Conf.Reload
import GMProxy.Conf.SetValue
import GMProxy.Conf.TdConf
import GMProxy.Conf.RoundTrip
import GMProxy.Conf.Rejected
import GMProxy.Conf.ReadConfig
import GMProxy.Library.BigEndian
import GMProxy.Library.Serial
import GMProxy.Library.Reorder
import GMProxy.Library.KeyTable
import GMProxy.Jrtplib.Packet
import GMProxy.Jrtplib.WireFormat
import GMProxy.Jrtplib.SourceStats
import GMProxy.Jrtplib.SourceData
import GMProxy.Jrtplib.Probation
import GMProxy.Jrtplib.Startup
import GMProxy.Jrtplib.Sources
import GMProxy.Jrtplib.SourceIsolation
import GMProxy.Jrtplib.Taken
import GMProxy.Rtp.Wire
import GMProxy.Rtp.Transport
import GMProxy.Rtp.EndToEnd
import GMProxy.Rtp.Relay
import GMProxy.Rtp.Chain
import GMProxy.Json.RoundTrip
import GMProxy.Server.AllChannels
import GMProxy.Server.TdHttpServer
