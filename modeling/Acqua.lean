import Acqua.Asio.BeatTimer
import Acqua.Asio.EchoRequest
import Acqua.Asio.InotifyListener
import Acqua.Asio.InternetServer
import Acqua.Asio.IrcClient
import Acqua.Asio.NetlinkMessages
import Acqua.Asio.Pinger
import Acqua.Asio.ServerCancel
import Acqua.Asio.SmtpData
import Acqua.Asio.SmtpReplies
import Acqua.Asio.SmtpTls
import Acqua.Container.LruBuckets
import Acqua.Container.LruCopy
import Acqua.Container.PointerContainerIterator
import Acqua.Container.RecursiveIterator
import Acqua.Container.SequencedMap
import Acqua.Container.SequencedOrder
import Acqua.Container.TimedEviction
import Acqua.Email.AbruptHeaders
import Acqua.Email.AddressList
import Acqua.Email.AddressOrder
import Acqua.Email.EmailRoundTrip
import Acqua.Email.FieldText
import Acqua.Email.GeneratedParts
import Acqua.Email.HeaderInjection
import Acqua.Email.HeaderRoundTrip
import Acqua.Email.IndependentWords
import Acqua.Email.ParamRoundTrip
import Acqua.Email.PayloadLines
import Acqua.Email.PercentDecode
import Acqua.Email.Rfc2231Termination
import Acqua.Email.TransferEncodings
import Acqua.Email.WordPieces
import Acqua.Email.WriteChunks
import Acqua.Example.FcopyTransfer
import Acqua.Iostreams.AsciiPush
import Acqua.Iostreams.AsciiRoundTrip
import Acqua.Iostreams.Base64DecoderPull
import Acqua.Iostreams.Base64Lines
import Acqua.Iostreams.Base64Pull
import Acqua.Iostreams.CodecvtSource
import Acqua.Iostreams.IstreamReads
import Acqua.Iostreams.LineLengths
import Acqua.Iostreams.OstreamCodecvt
import Acqua.Iostreams.QprintPush
import Acqua.Iostreams.QprintRoundTrip
import Acqua.Iostreams.QprintSafe
import Acqua.Json.Completeness
import Acqua.Json.Numbers
import Acqua.Json.Redispatch
import Acqua.Json.Soundness
import Acqua.Json.StringTokens
import Acqua.Log.Composition
import Acqua.Network.AddressOffset
import Acqua.Network.Checksum
import Acqua.Network.FromString
import Acqua.Network.LinklayerAddress
import Acqua.Network.Netmask
import Acqua.Network.Parse
import Acqua.Network.PrefixOffset
import Acqua.Network.PrefixOrder
import Acqua.Network.PrefixText
import Acqua.Network.PseudoChecksum
import Acqua.Utility.HexdumpFaithful
import Acqua.Webclient.BufferCopy
import Acqua.Webclient.RedirectPost
import Acqua.Webclient.RequestOrdering
import Acqua.Webclient.RequestUrl
