import TcpHandler.Foundation.Io
import TcpHandler.Foundation.Reading
import TcpHandler.Foundation.Grammar
import TcpHandler.Foundation.Arrival
import TcpHandler.Foundation.Transcript
import TcpHandler.Foundation.Buffered
import TcpHandler.Foundation.Pipe
import TcpHandler.Foundation.Leb128
import TcpHandler.Foundation.Run
import TcpHandler.Foundation.Ratchet
import TcpHandler.Foundation.Lockstep
import TcpHandler.Foundation.Mutex
import TcpHandler.Foundation.Conversation
import TcpHandler.Foundation.Requests
import TcpHandler.Protocols.External
import TcpHandler.Protocols.Reference
import TcpHandler.Protocols.Common
import TcpHandler.Protocols.Plain
import TcpHandler.Protocols.Sealed
import TcpHandler.Protocols.Variants
import TcpHandler.Protocols.Patience
import TcpHandler.Streams.Handlers
import TcpHandler.Streams.Connection
import TcpHandler.Streams.Calls
import TcpHandler.Streams.Linked
import TcpHandler.Streams.Opening
import TcpHandler.Streams.Delivery
import TcpHandler.Handshake.Head
import TcpHandler.Handshake.Agreement
import TcpHandler.Handshake.Rejection
import TcpHandler.Handshake.Cut
import TcpHandler.Handshake.Reply
import TcpHandler.Session.Stateless
import TcpHandler.Session.Ciphered
import TcpHandler.Session.Whole
import TcpHandler.Session.Scripted
import TcpHandler.Session.Requests
import TcpHandler.Session.Moves
import TcpHandler.Streams.Sealing
import TcpHandler.Streams.Exchange
import TcpHandler.Streams.Requests
import TcpHandler.Streams.Secure
import TcpHandler.Session.Crossing
import TcpHandler.Streams.Parting
import TcpHandler.Session.Nonces
import TcpHandler.Session.Lockstep
import TcpHandler.Session.Refused
import TcpHandler.Session.Life
import TcpHandler.Session.Bounds
import TcpHandler.Session.Packets
import TcpHandler.Session.Sections
import TcpHandler.Session.Threads
import TcpHandler.Session.Linear
import TcpHandler.Session.Shared
import TcpHandler.Session.Cut
