/-
  Streams/Connection.lean --- two handlers on a connection.

  A connection is a pipe in each direction, with a `BufWriter` at its head and the
  reader of the peer at its end, and what has become of the two ends: a
  constructor that is not finished, a handler, or nothing.  A step is one thing
  that happens: bytes arrive, a constructor gets past one of its halves, a method
  of a handler returns, a handler is dropped.  Nothing is said about their order
  beyond what makes each of them possible: a call that reads returns when it needs
  no more than has arrived, which is what the readers of `V.opened` tell, or when
  there is no more.

  A constructor that fails drops its reader and its writer, with what the writer
  holds.  A `send` may fail in the transport (`lost`), which then has taken nothing
  of its packet.
-/
import TcpHandler.Foundation.Pipe
import TcpHandler.Foundation.Run
import TcpHandler.Protocols.Patience
import TcpHandler.Session.Stateless
import TcpHandler.Session.Whole
import TcpHandler.Streams.Handlers

set_option autoImplicit false

namespace TcpHandler.Streams

open TcpHandler.Foundation TcpHandler.Protocols

/-! ## Handlers -/

/-- The protocols whose handlers have no cipher, each with what stands between a
message and its packet. -/
def plainBody (flate : Flate) : ProtocolVariant → Option Body
  | .raw => some Raw.body
  | .compression => some (Compress.body flate)
  | .encryption | .compressEncryption => none

/-- The protocols whose handlers have a cipher, each with the layout of its
plaintexts. -/
def sealedPayload (V : VariableLen) (flate : Flate) : ProtocolVariant → Option Payload
  | .raw | .compression => none
  | .encryption => some (Encrypt.payload V)
  | .compressEncryption => some (CompressEncrypt.payload V flate)

/-- What two parties are given to open a connection with. -/
structure Setup (Sk Seed : Type) where
  protocol : Party → ProtocolVariant
  identifier : Party → String
  version : Party → String
  versionPrediction : String → Bool
  /-- the outcome of drawing the client's private key -/
  drawn : Except RsaError Sk
  aesKey : AesKey
  nonce : Nonce
  seed : Seed

/-- What the first half of the client's constructor hands to the second. -/
abbrev Setup.Init {Sk Seed : Type} (setup : Setup Sk Seed) : Type :=
  Except StarterError (Variants.ClientInit Sk (setup.protocol .client))

/-- The first check that the client fails. -/
def Setup.firstFailing {Sk Seed : Type} (setup : Setup Sk Seed) : Option Variants.Rejection :=
  Variants.firstFailing (setup.protocol .client) (setup.protocol .server)
    (setup.identifier .client) (setup.identifier .server) (setup.version .client)
    setup.versionPrediction

/-- What has become of one end of a connection. -/
inductive Stage (Init : Type) where
  /-- its constructor has done nothing -/
  | fresh
  /-- the constructor of a client has written its half -/
  | opening (init : Init)
  /-- there is a handler, with a cipher if the protocol has one -/
  | live (cipher : Option Cipher)
  /-- the constructor failed or the handler was dropped -/
  | closed

/-- What a constructor leaves. -/
def Stage.ofResult {Init ε : Type} : Except ε (Option Cipher) → Stage Init
  | .ok cipher => .live cipher
  | .error _ => .closed

/-- The constructor has returned. -/
def Stage.Returned {Init : Type} (stage : Stage Init) : Prop :=
  (∃ cipher, stage = .live cipher) ∨ stage = .closed

theorem Stage.returned_ofResult {Init ε : Type} (result : Except ε (Option Cipher)) :
    (ofResult result : Stage Init).Returned := by
  cases result with
  | ok cipher => exact .inl ⟨cipher, rfl⟩
  | error e => exact .inr rfl

/-- The two ends and, for each of them, the pipe to the other. -/
structure Connection (W Init : Type) where
  stage : Party → Stage Init
  pipe : Party → Pipe W

namespace Connection

/-- What happens on a connection. -/
inductive Label where
  /-- bytes of `party` arrive at its peer -/
  | arrive (party : Party) (n : Nat)
  /-- the client's constructor has written its half -/
  | clientInit
  /-- the server's constructor returns -/
  | newServer (result : Except StarterError ServerHandler)
  /-- the client's constructor returns -/
  | newClient (result : Except (Fault StarterError) ClientHandler)
  /-- a method of a handler without a cipher returns -/
  | plain (party : Party) (call : Session.Stateless.Call)
  /-- a method of a handler with a cipher returns -/
  | sealed (party : Party) (call : Session.Whole.Call)
  /-- a `recv` finds the end of the stream -/
  | ended (party : Party) (limit : Usize) (error : PacketError)
  /-- a `send` of a handler without a cipher fails in the transport -/
  | lost (party : Party) (error : IoError)
  /-- a handler is dropped -/
  | drop (party : Party)

variable {W : Type} [AsyncWrite W]

/-- The writer of a party whose constructor failed is dropped. -/
def settle {ε α : Type} (result : Except ε α) (pipe : Pipe W) : Pipe W :=
  match result with
  | .ok _ => pipe
  | .error _ => pipe.close

section Step

variable (V : VariableLen) {Sk Pk Seed : Type} (rsa : Rsa Sk Pk Seed) (flate : Flate) (aead : Aead)
  (B : Buffering W) (setup : Setup Sk Seed)

/-- Two parties that have done nothing. -/
def start : Connection W setup.Init := ⟨fun _ => .fresh, fun _ => Pipe.new B⟩

/-- One thing that happens on a connection. -/
inductive Step : Connection W setup.Init → Label → Connection W setup.Init → Prop
  | arrive {s : Connection W setup.Init} {p : Party} {n : Nat} (hpos : 0 < n)
      (hle : n ≤ (s.pipe p).transit.length) :
      Step s (.arrive p n) { s with pipe := Function.update s.pipe p ((s.pipe p).arrive n) }
  | clientInit {s : Connection W setup.Init} {init : setup.Init} {w : W}
      (hfresh : s.stage .client = .fresh)
      (hcall : (Variants.clientInit V rsa setup.drawn (setup.identifier .client)
        (setup.version .client) (setup.protocol .client)).outcome (s.pipe .client).writer =
          (init, w)) :
      Step s .clientInit
        ⟨Function.update s.stage .client (.opening init),
          Function.update s.pipe .client ((s.pipe .client).write B w)⟩
  | newServer {s : Connection W setup.Init} {result : Except StarterError ServerHandler}
      {left : Bytes} {w : W} (hfresh : s.stage .server = .fresh)
      (hreturns : (s.pipe .client).returns (Variants.serverInit V.opened rsa
        (setup.identifier .server) setup.versionPrediction (setup.protocol .server)) = true)
      (hcall : (newServer V rsa setup.aesKey setup.nonce setup.seed (setup.identifier .server)
        setup.versionPrediction (setup.version .server) (setup.protocol .server)).outcome
          ((s.pipe .client).reader, (s.pipe .server).writer) = (result, (left, w))) :
      Step s (.newServer result)
        ⟨Function.update s.stage .server (.ofResult (result.map ServerHandler.cipher)),
          Function.update (Function.update s.pipe .client ((s.pipe .client).read left)) .server
            (settle result ((s.pipe .server).write B w))⟩
  | newClient {s : Connection W setup.Init} {init : setup.Init}
      {started : Except (Fault StarterError) (Option Cipher)} {left : Bytes}
      (hopening : s.stage .client = .opening init)
      (hreturns : (s.pipe .server).returns
        (Variants.clientStart V.opened rsa (setup.protocol .client) init) = true)
      (hcall : (Variants.clientStart V rsa (setup.protocol .client) init).outcome
        (s.pipe .server).reader = (started, left)) :
      Step s (.newClient (started.map ClientHandler.mk))
        ⟨Function.update s.stage .client (.ofResult started),
          Function.update (Function.update s.pipe .server ((s.pipe .server).read left)) .client
            (settle started (s.pipe .client))⟩
  | sendPlain {s : Connection W setup.Init} {p : Party} {body : Body} {level : Level}
      {limit : Usize} {message : Buf} {result : Except PacketError Unit} {w : W}
      (hbody : plainBody flate (setup.protocol p) = some body) (hlive : s.stage p = .live none)
      (hcall : (Plain.send V body level limit message).outcome (s.pipe p).writer = (result, w)) :
      Step s (.plain p (.send level limit message result))
        { s with pipe := Function.update s.pipe p ((s.pipe p).write B w) }
  | recvPlain {s : Connection W setup.Init} {p : Party} {body : Body} {limit : Usize}
      {result : Except PacketError Bytes} {left : Bytes}
      (hbody : plainBody flate (setup.protocol p) = some body) (hlive : s.stage p = .live none)
      (hreturns : Io.ends (readPacket V limit) (s.pipe p.peer).reader = false)
      (hcall : (Plain.recv V body limit).outcome (s.pipe p.peer).reader = (result, left)) :
      Step s (.plain p (.recv limit result))
        { s with pipe := Function.update s.pipe p.peer ((s.pipe p.peer).read left) }
  | sendSealed {s : Connection W setup.Init} {p : Party} {payload : Payload} {level : Level}
      {limit : Usize} {fresh : Nonce} {message : Buf} {cipher cipher' : Cipher}
      {result : Except (Fault PacketError) Unit} {w : W}
      (hpayload : sealedPayload V flate (setup.protocol p) = some payload)
      (hlive : s.stage p = .live (some cipher))
      (hcall : (Sealed.send V payload aead level limit fresh message).outcome
        ((s.pipe p).writer, cipher) = (result, (w, cipher'))) :
      Step s (.sealed p (.send level limit fresh message result))
        ⟨Function.update s.stage p (.live (some cipher')),
          Function.update s.pipe p ((s.pipe p).write B w)⟩
  | recvSealed {s : Connection W setup.Init} {p : Party} {payload : Payload} {limit : Usize}
      {cipher cipher' : Cipher} {result : Except (Fault PacketError) Bytes} {left : Bytes}
      (hpayload : sealedPayload V flate (setup.protocol p) = some payload)
      (hlive : s.stage p = .live (some cipher))
      (hreturns : Io.ends (readPacket V limit) (s.pipe p.peer).reader = false)
      (hcall : (Sealed.recv V payload aead limit).outcome ((s.pipe p.peer).reader, cipher) =
        (result, (left, cipher'))) :
      Step s (.sealed p (.recv limit result))
        ⟨Function.update s.stage p (.live (some cipher')),
          Function.update s.pipe p.peer ((s.pipe p.peer).read left)⟩
  | ended {s : Connection W setup.Init} {p : Party} {cipher : Option Cipher} {limit : Usize}
      {error : PacketError} {left : Bytes} (hlive : s.stage p = .live cipher)
      (hended : (s.pipe p.peer).ended = true)
      (hends : Io.ends (readPacket V limit) (s.pipe p.peer).reader = true)
      (hcall : (readPacket V limit).outcome (s.pipe p.peer).reader = (.error error, left)) :
      Step s (.ended p limit error)
        { s with pipe := Function.update s.pipe p.peer ((s.pipe p.peer).read left) }
  | lostPlain {s : Connection W setup.Init} {p : Party} {error : IoError}
      (hlive : s.stage p = .live none) : Step s (.lost p error) s
  | lostSealed {s : Connection W setup.Init} {p : Party} {payload : Payload} {level : Level}
      {limit : Usize} {fresh : Nonce} {message : Buf} {cipher cipher' : Cipher} {packet : Bytes}
      {error : IoError}
      (hpayload : sealedPayload V flate (setup.protocol p) = some payload)
      (hlive : s.stage p = .live (some cipher))
      (hcall : (Sealed.sealMessage payload aead level fresh message).outcome cipher =
        (.ok packet, cipher')) :
      Step s (.sealed p (.send level limit fresh message (.error (.error (.io error)))))
        { s with stage := Function.update s.stage p (.live (some cipher')) }
  | drop {s : Connection W setup.Init} {p : Party} {cipher : Option Cipher}
      (hlive : s.stage p = .live cipher) :
      Step s (.drop p)
        ⟨Function.update s.stage p .closed, Function.update s.pipe p (s.pipe p).close⟩

end Step

end Connection

end TcpHandler.Streams
