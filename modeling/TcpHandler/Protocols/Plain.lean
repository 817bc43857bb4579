/-
  Protocols/Plain.lean --- `protocols/raw.rs` and `protocols/compress.rs`.

  The two protocols without a cipher differ in two places only: the variant in
  the head and in the reply, and what stands between a message and the body of
  its packet.  The functions they share are written once, with these two as
  parameters; `Raw` and `Compress` are the functions of the two files.
-/
import TcpHandler.Protocols.Common

set_option autoImplicit false

namespace TcpHandler.Protocols

open TcpHandler.Foundation

/-- What stands between a message and the body of its packet. -/
structure Body where
  /-- the buffer `send` hands to `write_packet` -/
  pack : Level → Buf → Buf
  /-- what `recv` makes of the bytes of `read_packet` -/
  unpack : Bytes → Except IoError Bytes
  /-- unpacking undoes packing -/
  unpack_pack : ∀ level message, unpack (pack level message).flatten = .ok message.flatten

variable (V : VariableLen)

namespace Plain

variable {W : Type} [AsyncWrite W]

/-- `client_init`. -/
def clientInit (protocol : ProtocolVariant) (identifier version : String) :
    Io W StarterError Unit := do
  writeHead V protocol identifier version
  flush.mapError .io

/-- `server_init`. -/
def serverInit (protocol : ProtocolVariant) (identifier : String) (version : String → Bool) :
    Io Bytes StarterError (UInt16 × String) :=
  readHead V protocol identifier version

/-- `client_start`. -/
def clientStart (last : Except StarterError Unit) : Io Bytes StarterError Unit :=
  readLast V last

/-- `server_start`. -/
def serverStart (protocol : ProtocolVariant) (identifier version : String)
    (last : Except StarterError (UInt16 × String)) : Io W StarterError (UInt16 × String) := do
  let res ← writeLast V protocol identifier version last
  flush.mapError .io
  return res

/-- `send`; `level` and `limit` are read from the configuration. -/
def send (body : Body) (level : Level) (limit : Usize) (message : Buf) :
    Io W PacketError Unit := do
  writePacket V limit (body.pack level message)
  flush.mapError .io

/-- `recv`. -/
def recv (body : Body) (limit : Usize) : Io Bytes PacketError Bytes := do
  let bytes ← readPacket V limit
  Io.ofExcept ((body.unpack bytes).mapError .io)

/-- The body of the packet that carries a message. -/
def packet (body : Body) (level : Level) (message : Buf) : Bytes :=
  (body.pack level message).flatten

/-- A client writes its head and flushes. -/
theorem clientInit_eq (protocol : ProtocolVariant) (identifier version : String) :
    (clientInit V protocol identifier version : Io W StarterError Unit) =
      (do
        (writeChunks (headWrites V protocol identifier version)).mapError .io
        flush.mapError .io) := by
  rw [clientInit, writeHead_eq]

/-- A server that accepts writes its reply and flushes. -/
theorem serverStart_ok_eq (protocol : ProtocolVariant) (identifier version : String)
    (versions : UInt16 × String) :
    (serverStart V protocol identifier version (.ok versions) :
      Io W StarterError (UInt16 × String)) =
      (do
        (writeChunks (V.bools2.writes (true, true))).mapError .io
        flush.mapError .io
        return versions) := by
  simp only [serverStart, writeLast_eq, replyWrites, Io.ofExcept, bind_assoc, pure_bind]

/-- A server that rejects writes its reply and does not flush. -/
theorem serverStart_error_eq (protocol : ProtocolVariant) (identifier version : String)
    (e : StarterError) :
    (serverStart V protocol identifier version (.error e) : Io W StarterError (UInt16 × String)) =
      (do
        (writeChunks (replyWrites V protocol identifier version
          (.error e : Except StarterError (UInt16 × String)))).mapError .io
        throw e) := by
  simp only [serverStart, writeLast_eq, Io.ofExcept, bind_assoc]
  rfl

/-- A message whose packet is within the limit goes out as one frame. -/
theorem run_send_of_le {body : Body} {level : Level} {limit : Usize} {message : Buf}
    (h : (packet body level message).length ≤ limit.toNat) (w : Bytes) :
    (send V body level limit message).run w =
      .ok () (w ++ frame V (packet body level message)) := by
  simp only [send, EStateM.run_bind, run_writePacket_of_le V h, Io.run_mapError, flush,
    run_flush_bytes]
  rfl

/-- A message whose packet is longer than the limit is refused and nothing is
written. -/
theorem run_send_of_lt {body : Body} {level : Level} {limit : Usize} {message : Buf}
    (h : limit.toNat < (packet body level message).length) (w : W) :
    (send V body level limit message).run w =
      .error (.tooLarge (packet body level message).length limit.toNat) w := by
  simp only [send, EStateM.run_bind, run_writePacket_of_lt V h]
  rfl

/-- `recv` on the frame of a message returns the message and consumes exactly
the frame. -/
theorem run_recv_frame {body : Body} {level : Level} {limit : Usize} {message : Buf}
    (h : (packet body level message).length ≤ limit.toNat) (rest : Bytes) :
    (recv V body limit).run (frame V (packet body level message) ++ rest) =
      .ok message.flatten rest := by
  simp only [recv, EStateM.run_bind, run_readPacket_frame V h]
  simp only [packet, body.unpack_pack, Except.mapError, Io.run_ofExcept_ok]

/-- `recv` on the frame of a message that is too long for it: the length is
consumed, the body is not. -/
theorem run_recv_oversized {body : Body} {level : Level} {sent limit : Usize} {message : Buf}
    (hsent : (packet body level message).length ≤ sent.toNat)
    (h : limit.toNat < (packet body level message).length) (rest : Bytes) :
    (recv V body limit).run (frame V (packet body level message) ++ rest) =
      .error (.tooLarge (packet body level message).length limit.toNat)
        (packet body level message ++ rest) := by
  simp only [recv, EStateM.run_bind, run_readPacket_oversized V hsent h]

end Plain

/-! ## `raw.rs` -/

namespace Raw

/-- The message is the packet. -/
def body : Body where
  pack _ message := message
  unpack := .ok
  unpack_pack _ _ := rfl

variable {W : Type} [AsyncWrite W]

/-- `raw::client_init`. -/
def clientInit (identifier version : String) : Io W StarterError Unit :=
  Plain.clientInit V .raw identifier version

/-- `raw::server_init`. -/
def serverInit (identifier : String) (version : String → Bool) :
    Io Bytes StarterError (UInt16 × String) :=
  Plain.serverInit V .raw identifier version

/-- `raw::client_start`. -/
def clientStart (last : Except StarterError Unit) : Io Bytes StarterError Unit :=
  Plain.clientStart V last

/-- `raw::server_start`. -/
def serverStart (identifier version : String) (last : Except StarterError (UInt16 × String)) :
    Io W StarterError (UInt16 × String) :=
  Plain.serverStart V .raw identifier version last

/-- `raw::send`; no compression level is read. -/
def send (limit : Usize) (message : Buf) : Io W PacketError Unit :=
  Plain.send V body 0 limit message

/-- `raw::recv`. -/
def recv (limit : Usize) : Io Bytes PacketError Bytes := Plain.recv V body limit

end Raw

/-! ## `compress.rs` -/

namespace Compress

variable (flate : Flate)

/-- The packet is the deflated message, in one chunk. -/
def body : Body where
  pack level message := [flate.deflate level message]
  unpack := flate.inflate
  unpack_pack level message := by simp [flate.inflate_deflate]

variable {W : Type} [AsyncWrite W]

/-- `compress::client_init`. -/
def clientInit (identifier version : String) : Io W StarterError Unit :=
  Plain.clientInit V .compression identifier version

/-- `compress::server_init`. -/
def serverInit (identifier : String) (version : String → Bool) :
    Io Bytes StarterError (UInt16 × String) :=
  Plain.serverInit V .compression identifier version

/-- `compress::client_start`. -/
def clientStart (last : Except StarterError Unit) : Io Bytes StarterError Unit :=
  Plain.clientStart V last

/-- `compress::server_start`. -/
def serverStart (identifier version : String) (last : Except StarterError (UInt16 × String)) :
    Io W StarterError (UInt16 × String) :=
  Plain.serverStart V .compression identifier version last

/-- `compress::send`. -/
def send (level : Level) (limit : Usize) (message : Buf) : Io W PacketError Unit :=
  Plain.send V (body flate) level limit message

/-- `compress::recv`. -/
def recv (limit : Usize) : Io Bytes PacketError Bytes := Plain.recv V (body flate) limit

end Compress

/-! ## The members -/

section Members

variable {W : Type} [AsyncWrite W]

/-- `send` and `recv` of `raw.rs` are those of `Plain`, whatever level is
configured. -/
theorem raw_eq (level : Level) (limit : Usize) (message : Buf) :
    (Raw.send V limit message : Io W PacketError Unit) =
        Plain.send V Raw.body level limit message ∧
      Raw.recv V limit = Plain.recv V Raw.body limit :=
  ⟨rfl, rfl⟩

/-- `send` and `recv` of `compress.rs` are those of `Plain`. -/
theorem compress_eq (flate : Flate) (level : Level) (limit : Usize) (message : Buf) :
    (Compress.send V flate level limit message : Io W PacketError Unit) =
        Plain.send V (Compress.body flate) level limit message ∧
      Compress.recv V flate limit = Plain.recv V (Compress.body flate) limit :=
  ⟨rfl, rfl⟩

end Members

end TcpHandler.Protocols
