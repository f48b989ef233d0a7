import NginxDtls.StunRoundTrip
import NginxDtls.StunBounds
import NginxDtls.ProbeBounds
import NginxDtls.ProbeLeak
import NginxDtls.DtlsCookie
import NginxDtls.Run
import NginxDtls.SslSend
import NginxDtls.Rbtree
import NginxDtls.SslDatagram
import NginxDtls.RbtreeRep
import NginxDtls.RbtreeInsert
import NginxDtls.RbtreeDelete
import NginxDtls.UdpTable
import NginxDtls.Controller
import NginxDtls.Credit
import NginxDtls.ProxyAccounting
import NginxDtls.ProxyRetry
import NginxDtls.StunAccept
import NginxDtls.StunReply
import NginxDtls.UdpSessions
import NginxDtls.UpstreamFair
import NginxDtls.UpstreamLeast
import NginxDtls.ConnectionSlots
import NginxDtls.Relay
import NginxDtls.RelayChain
import NginxDtls.RelayDatagram
import NginxDtls.RelayHandshake
import NginxDtls.RelayStream
import NginxDtls.Preread
import NginxDtls.PrereadCut
import NginxDtls.PrereadHello
import NginxDtls.RbtreeOrder
import NginxDtls.Reading
import NginxDtls.Resolver
import NginxDtls.ResolverAnswer
import NginxDtls.ResolverBounds
import NginxDtls.ResolverCopy
import NginxDtls.ResolverDropped
import NginxDtls.ResolverPtr
import NginxDtls.ResolverQuery
import NginxDtls.Sendmsg
import NginxDtls.SendmsgOrder
import NginxDtls.TimerRuns
import NginxDtls.HashRing
import NginxDtls.LimitConn
import NginxDtls.LimitConnRecords
import NginxDtls.LimitConnRuns
import NginxDtls.UpstreamRing
import NginxDtls.ProbeAnswers
import NginxDtls.ProbeTimer
import NginxDtls.Cidr
import NginxDtls.ConfComment
import NginxDtls.ConfQuoting
import NginxDtls.ScriptPasses
import NginxDtls.GeoBucket
import NginxDtls.GeoTable
import NginxDtls.InetParse
import NginxDtls.InetRoundTrip
import NginxDtls.RadixDelete
import NginxDtls.UpdateConfig
import NginxDtls.GeoReload
import NginxDtls.InitEnv
import NginxDtls.ProxyProtocolWrite
import NginxDtls.InetForms
import NginxDtls.LimitReqRate
import NginxDtls.LimitReqRuns
import NginxDtls.LocationLookup
import NginxDtls.ByteRanges
import NginxDtls.SplitCover
import NginxDtls.UnsafeUri
import NginxDtls.StreamSelect
import NginxDtls.PhaseRuns
import NginxDtls.ChunkedDecode
import NginxDtls.ChunkedFilter
import NginxDtls.ChunkedBodies
import NginxDtls.Crc32Agree
import NginxDtls.Base64
import NginxDtls.ParseTime
import NginxDtls.EscapeAllowed
import NginxDtls.WeightedSelection
import NginxDtls.SprintfBounds
import NginxDtls.HttpTimeRoundTrip
import NginxDtls.GeoLoadSafe
import NginxDtls.PallocRuns
import NginxDtls.RequestPathLine
import NginxDtls.ShmtxRuns
import NginxDtls.Rwlock
import NginxDtls.HpackRefines
import NginxDtls.RequestEscape
import NginxDtls.BitString
import NginxDtls.HuffDecode
import NginxDtls.HuffEncode
