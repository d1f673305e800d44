import Titun.IpLookupTable
import Titun.TransportChannel
import Titun.TransportNonce
import Titun.CryptokeyRouting
import Titun.Replay
import Titun.IncrementalUpdate
import Titun.SocketHandover
import Titun.HandshakeAgreement
import Titun.KeyChange
import Titun.PinnedEndpoint
import Titun.PeerRemoval
import Titun.PacketQueue
import Titun.CrossingHandshakes
import Titun.ReloadIdempotence
import Titun.ReloadPinning
import Titun.ResponseLoss
import Titun.StatusRoundTrip
import Titun.IpcServe
import Titun.TunRing
import Titun.CookieRoundTrip
import Titun.WgFormat
import Titun.TomlFormat
import Titun.TrieIteration
import Titun.PaddingSecrecy
import Titun.HChaCha
import Titun.LoadMonitoring
import Titun.DnsBlocking
import Titun.RingSafety
import Titun.ResponsePanics
import Titun.DeadSession
import Titun.CookieReplay
import Titun.SessionSteps
import Titun.KeyConfirmation
import Titun.SessionEviction
import Titun.AnswerTimer
import Titun.LifeTimers
import Titun.Delivery
import Titun.RingWakeups
