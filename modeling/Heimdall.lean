import Heimdall.Runs
import Heimdall.BigEndian
import Heimdall.Octets
import Heimdall.Crypto
import Heimdall.Wire
import Heimdall.Replay
import Heimdall.Session
import Heimdall.SessionSpec
import Heimdall.Channel
import Heimdall.Secrecy
import Heimdall.Fifo
import Heimdall.Handshake
import Heimdall.HandshakeSpec
import Heimdall.Knowledge
import Heimdall.World
import Heimdall.Origins
import Heimdall.Agreement
import Heimdall.Pairing
import Heimdall.Heap
import Heimdall.Peers
import Heimdall.Trust
import Heimdall.Duplicates
import Heimdall.Maps
import Heimdall.Relay
import Heimdall.RelaySteps
import Heimdall.RelayInv
import Heimdall.RelaySlots
import Heimdall.RelaySplice
import Heimdall.RelayPairing
import Heimdall.Names
import Heimdall.Expect
import Heimdall.Race
import Heimdall.Client
import Heimdall.Dialer
import Heimdall.Invite
import Heimdall.Streams
import Heimdall.WebSocket
import Heimdall.Hop
import Heimdall.Pipe
import Heimdall.PipeInv
import Heimdall.Pair
import Heimdall.Exchange
import Heimdall.Custody
import Heimdall.Punch
import Heimdall.GoNet
import Heimdall.Selection
import Heimdall.Candidates
import Heimdall.Targets
import Heimdall.Answers
import Heimdall.Settle
import Heimdall.Keepalive
import Heimdall.RunHandshake
import Heimdall.Utf8
import Heimdall.JsonString
import Heimdall.Json
import Heimdall.PeerFile
import Heimdall.Saved
import Heimdall.Decoding
import Heimdall.Formats
import Heimdall.OneShot
import Heimdall.Loops
import Heimdall.Publishing
import Heimdall.FixedWindow
import Heimdall.RateLimit
import Heimdall.JsonCompact
import Heimdall.Envelope
import Heimdall.GoStrings
import Heimdall.Base32
import Heimdall.Code
import Heimdall.Registrations
import Heimdall.Waiters
import Heimdall.Confidential
import Heimdall.Conversation
import Heimdall.Control
import Heimdall.IpText
import Heimdall.Advertise
import Heimdall.Meet
import Heimdall.Durable
import Heimdall.Lifetimes
import Heimdall.IdentityFile
import Heimdall.Starts
import Heimdall.Spaces
import Heimdall.Expiry
import Heimdall.Serving
import Heimdall.Told
import Heimdall.HostileRelay
