import RemotePlay.Term.Decode
import RemotePlay.Lossless.Sync
import RemotePlay.Lossless.CopyEncode
import RemotePlay.Lossless.Source
import RemotePlay.Jpeg.Cover
import RemotePlay.Jpeg.CacheDraw
import RemotePlay.Work.Adaptive
import RemotePlay.Lib.Bits
import RemotePlay.Encode.BitStream
import RemotePlay.Udp.Buffers
import RemotePlay.Work.SizeCount
import RemotePlay.Work.ScreenSafe
import RemotePlay.Work.Pacing
import RemotePlay.Work.SendBounds
import RemotePlay.Work.DispatchSafe
import RemotePlay.Udp.PacketProgress
import RemotePlay.Udp.LosslessHdr
import RemotePlay.Udp.IpHeader
import RemotePlay.Udp.RateLimit
import RemotePlay.Audio.Sequence
import RemotePlay.Audio.Kcp
import RemotePlay.Fec.Group
import RemotePlay.Sync.HandedOver
import RemotePlay.Jpeg.QualitySync
import RemotePlay.Jpeg.History
import RemotePlay.Jpeg.HuffOptimal
import RemotePlay.Jpeg.Mcu
import RemotePlay.Jpeg.Source
import RemotePlay.Arq.Nack
import RemotePlay.Arq.Segment
import RemotePlay.Arq.Send
import RemotePlay.Arq.Groups
import RemotePlay.Arq.Account
import RemotePlay.Arq.Input
import RemotePlay.Arq.Answer
import RemotePlay.Arq.Slots
import RemotePlay.Arq.QueueCur
import RemotePlay.Arq.Sender
import RemotePlay.Arq.Reached
import RemotePlay.Arq.Acknowledged
import RemotePlay.Arq.Pids
import RemotePlay.Jpeg.HuffBound
import RemotePlay.Lossless.Code
import RemotePlay.Lossless.Source
