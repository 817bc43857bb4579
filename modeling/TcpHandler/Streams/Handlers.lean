/-
  Streams/Handlers.lean --- the constructors of `streams/`.

  A handler owns a reader and a writer; they are the state its methods work on.
  `new` runs the two halves of the handshake on them.  When `new` fails, the `?`
  returns from it, and the reader and the writer are dropped.

  `from_stream` is `new` on the halves of a `TcpStream`, the writing half inside a
  fresh `BufWriter`.  The `BufReader` around the other half changes nothing about
  the bytes that are read.
-/
import TcpHandler.Foundation.Buffered
import TcpHandler.Protocols.Variants

set_option autoImplicit false

namespace TcpHandler.Streams

open TcpHandler.Foundation TcpHandler.Protocols

/-- A server handler, without its streams. -/
structure ServerHandler where
  /-- only in the handlers of the protocols with a cipher -/
  cipher : Option Cipher
  version : String

/-- A client handler, without its streams. -/
structure ClientHandler where
  /-- only in the handlers of the protocols with a cipher -/
  cipher : Option Cipher

/-- `get_client_version`. -/
def ServerHandler.getClientVersion (handler : ServerHandler) : String := handler.version

section Constructors

variable (V : VariableLen) {W : Type} [AsyncWrite W] {Sk Pk Seed : Type} (rsa : Rsa Sk Pk Seed)

/-! ## Servers -/

/-- `TcpServerHandlerRaw::new`. -/
def TcpServerHandlerRaw.new (identifier : String) (versionPrediction : String → Bool)
    (version : String) : Io (Bytes × W) StarterError ServerHandler := do
  let init ← (Raw.serverInit V identifier versionPrediction).onFst.attempt
  let (_, applicationVersion) ← (Raw.serverStart V identifier version init).onSnd
  return { cipher := none, version := applicationVersion }

/-- `TcpServerHandlerCompress::new`. -/
def TcpServerHandlerCompress.new (identifier : String) (versionPrediction : String → Bool)
    (version : String) : Io (Bytes × W) StarterError ServerHandler := do
  let init ← (Compress.serverInit V identifier versionPrediction).onFst.attempt
  let (_, applicationVersion) ← (Compress.serverStart V identifier version init).onSnd
  return { cipher := none, version := applicationVersion }

/-- `TcpServerHandlerEncrypt::new`. -/
def TcpServerHandlerEncrypt.new (aesKey : AesKey) (nonce : Nonce) (seed : Seed)
    (identifier : String) (versionPrediction : String → Bool) (version : String) :
    Io (Bytes × W) StarterError ServerHandler := do
  let init ← (Encrypt.serverInit V rsa identifier versionPrediction).onFst.attempt
  let (cipher, _, applicationVersion) ←
    (Encrypt.serverStart V rsa aesKey nonce seed identifier version init).onSnd
  return { cipher := some cipher, version := applicationVersion }

/-- `TcpServerHandlerCompressEncrypt::new`. -/
def TcpServerHandlerCompressEncrypt.new (aesKey : AesKey) (nonce : Nonce) (seed : Seed)
    (identifier : String) (versionPrediction : String → Bool) (version : String) :
    Io (Bytes × W) StarterError ServerHandler := do
  let init ← (CompressEncrypt.serverInit V rsa identifier versionPrediction).onFst.attempt
  let (cipher, _, applicationVersion) ←
    (CompressEncrypt.serverStart V rsa aesKey nonce seed identifier version init).onSnd
  return { cipher := some cipher, version := applicationVersion }

/-- `new` of the server handler of a protocol. -/
def newServer (aesKey : AesKey) (nonce : Nonce) (seed : Seed) (identifier : String)
    (versionPrediction : String → Bool) (version : String) :
    ProtocolVariant → Io (Bytes × W) StarterError ServerHandler
  | .raw => TcpServerHandlerRaw.new V identifier versionPrediction version
  | .compression => TcpServerHandlerCompress.new V identifier versionPrediction version
  | .encryption =>
      TcpServerHandlerEncrypt.new V rsa aesKey nonce seed identifier versionPrediction version
  | .compressEncryption =>
      TcpServerHandlerCompressEncrypt.new V rsa aesKey nonce seed identifier versionPrediction
        version

/-! ## Clients -/

/-- `TcpClientHandlerRaw::new`. -/
def TcpClientHandlerRaw.new (identifier version : String) :
    Io (Bytes × W) (Fault StarterError) ClientHandler := do
  let init ← (Raw.clientInit V identifier version).onSnd.attempt
  ((Raw.clientStart V init).mapError .error).onFst
  return { cipher := none }

/-- `TcpClientHandlerCompress::new`. -/
def TcpClientHandlerCompress.new (identifier version : String) :
    Io (Bytes × W) (Fault StarterError) ClientHandler := do
  let init ← (Compress.clientInit V identifier version).onSnd.attempt
  ((Compress.clientStart V init).mapError .error).onFst
  return { cipher := none }

/-- `TcpClientHandlerEncrypt::new`. -/
def TcpClientHandlerEncrypt.new (drawn : Except RsaError Sk) (identifier version : String) :
    Io (Bytes × W) (Fault StarterError) ClientHandler := do
  let init ← (Encrypt.clientInit V rsa drawn identifier version).onSnd.attempt
  let cipher ← (Encrypt.clientStart V rsa init).onFst
  return { cipher := some cipher }

/-- `TcpClientHandlerCompressEncrypt::new`. -/
def TcpClientHandlerCompressEncrypt.new (drawn : Except RsaError Sk) (identifier version : String) :
    Io (Bytes × W) (Fault StarterError) ClientHandler := do
  let init ← (CompressEncrypt.clientInit V rsa drawn identifier version).onSnd.attempt
  let cipher ← (CompressEncrypt.clientStart V rsa init).onFst
  return { cipher := some cipher }

/-- `new` of the client handler of a protocol. -/
def newClient (drawn : Except RsaError Sk) (identifier version : String) :
    ProtocolVariant → Io (Bytes × W) (Fault StarterError) ClientHandler
  | .raw => TcpClientHandlerRaw.new V identifier version
  | .compression => TcpClientHandlerCompress.new V identifier version
  | .encryption => TcpClientHandlerEncrypt.new V rsa drawn identifier version
  | .compressEncryption => TcpClientHandlerCompressEncrypt.new V rsa drawn identifier version

/-- `from_stream`: `reader` are the bytes the peer will deliver. -/
def fromStream {ε H : Type} (B : Buffering W) (new : Io (Bytes × W) ε H) (reader : Bytes) :
    Except ε H × Bytes × W :=
  new.outcome (reader, B.new)

/-! ## Constructors and halves

A constructor is the two halves of its variant. -/

theorem newServer_eq (aesKey : AesKey) (nonce : Nonce) (seed : Seed) (identifier : String)
    (versionPrediction : String → Bool) (version : String) (protocol : ProtocolVariant) :
    (newServer V rsa aesKey nonce seed identifier versionPrediction version protocol :
      Io (Bytes × W) StarterError ServerHandler) =
      ((Io.attempt (Io.onFst (Variants.serverInit V rsa identifier versionPrediction protocol)) >>=
        fun init => Io.onSnd
          (Variants.serverStart V rsa aesKey nonce seed identifier version protocol init)) >>=
        fun started => pure ⟨started.1, started.2.2⟩) := by
  cases protocol with
  | raw | compression =>
    simp only [Variants.serverStart, Io.onSnd_bind, Io.onSnd_pure, bind_assoc, pure_bind]
    rfl
  | encryption | compressEncryption =>
    simp only [Variants.serverStart, Io.onSnd_bind, Io.onSnd_pure, bind_assoc, pure_bind]
    rfl

theorem newClient_eq (drawn : Except RsaError Sk) (identifier version : String)
    (protocol : ProtocolVariant) :
    (newClient V rsa drawn identifier version protocol :
      Io (Bytes × W) (Fault StarterError) ClientHandler) =
      ((Io.attempt (Io.onSnd (Variants.clientInit V rsa drawn identifier version protocol)) >>=
        fun init => Io.onFst (Variants.clientStart V rsa protocol init)) >>=
        fun cipher => pure ⟨cipher⟩) := by
  cases protocol with
  | raw | compression =>
    simp only [Variants.clientStart, Io.onFst_bind, Io.onFst_pure, bind_assoc, pure_bind]
    rfl
  | encryption | compressEncryption =>
    simp only [Variants.clientStart, Io.onFst_bind, Io.onFst_pure, bind_assoc, pure_bind]
    rfl

/-- A server constructor is `server_init` on the reader, then `server_start` on
the writer. -/
theorem outcome_newServer (aesKey : AesKey) (nonce : Nonce) (seed : Seed) (identifier : String)
    (versionPrediction : String → Bool) (version : String) (protocol : ProtocolVariant)
    {s left : Bytes} {w w' : W} {read : Except StarterError (Variants.ServerInit Pk protocol)}
    {started : Except StarterError (Option Cipher × UInt16 × String)}
    (hinit : (Variants.serverInit V rsa identifier versionPrediction protocol).outcome s =
      (read, left))
    (hstart :
      (Variants.serverStart V rsa aesKey nonce seed identifier version protocol read).outcome
      w = (started, w')) :
    (newServer V rsa aesKey nonce seed identifier versionPrediction version protocol).outcome
        (s, w) =
      (started.map fun result => ⟨result.1, result.2.2⟩, (left, w')) := by
  rw [newServer_eq, Io.outcome_bind_pure, Io.outcome_onFst_onSnd, hinit]
  simp only [hstart]

/-- A client constructor is `client_init` on the writer, then `client_start` on
the reader. -/
theorem outcome_newClient (drawn : Except RsaError Sk) (identifier version : String)
    (protocol : ProtocolVariant) {s left : Bytes} {w w' : W}
    {init : Except StarterError (Variants.ClientInit Sk protocol)}
    {started : Except (Fault StarterError) (Option Cipher)}
    (hinit : (Variants.clientInit V rsa drawn identifier version protocol).outcome w = (init, w'))
    (hstart : (Variants.clientStart V rsa protocol init).outcome s = (started, left)) :
    (newClient V rsa drawn identifier version protocol).outcome
        (s, w) =
      (started.map ClientHandler.mk, (left, w')) := by
  rw [newClient_eq, Io.outcome_bind_pure, Io.outcome_onSnd_onFst, hinit]
  simp only [hstart]

end Constructors

end TcpHandler.Streams
