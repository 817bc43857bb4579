/-
  Protocols/Variants.lean --- the handshake functions of the four protocols,
  chosen by the variant.

  The modules `raw`, `compress`, `encrypt` and `compress_encrypt` export functions
  of the same names.  Here each name is one function of the variant, so that a
  client of any protocol can be run against a server of any other.

  Each function is then brought to one normal form, for every writer:

      clientInit    a list of slices, a flush, and what `client_start` needs
      serverInit    the first check that fails on an honest head, or what follows
      serverStart   a list of slices and, unless it rejects, a flush
      clientStart   what it makes of an acceptance and of each rejection
-/
import TcpHandler.Protocols.Plain
import TcpHandler.Protocols.Sealed

set_option autoImplicit false

namespace TcpHandler.Protocols

open TcpHandler.Foundation

namespace Variants

/-! ## The functions -/

/-- What `client_init` hands to `client_start`. -/
def ClientInit (Sk : Type) : ProtocolVariant → Type
  | .raw | .compression => Unit
  | .encryption | .compressEncryption => Sk

/-- What `server_init` hands to `server_start`. -/
def ServerInit (Pk : Type) : ProtocolVariant → Type
  | .raw | .compression => UInt16 × String
  | .encryption | .compressEncryption => (UInt16 × String) × Pk

section Functions

variable (V : VariableLen) {W : Type} [AsyncWrite W] {Sk Pk Seed : Type} (rsa : Rsa Sk Pk Seed)

/-- `client_init`. -/
def clientInit (drawn : Except RsaError Sk) (identifier version : String) :
    (protocol : ProtocolVariant) → Io W StarterError (ClientInit Sk protocol)
  | .raw => Raw.clientInit V identifier version
  | .compression => Compress.clientInit V identifier version
  | .encryption => Encrypt.clientInit V rsa drawn identifier version
  | .compressEncryption => CompressEncrypt.clientInit V rsa drawn identifier version

/-- `server_init`. -/
def serverInit (identifier : String) (version : String → Bool) :
    (protocol : ProtocolVariant) → Io Bytes StarterError (ServerInit Pk protocol)
  | .raw => Raw.serverInit V identifier version
  | .compression => Compress.serverInit V identifier version
  | .encryption => Encrypt.serverInit V rsa identifier version
  | .compressEncryption => CompressEncrypt.serverInit V rsa identifier version

/-- `client_start`; only the protocols with a cipher return one. -/
def clientStart : (protocol : ProtocolVariant) → Except StarterError (ClientInit Sk protocol) →
    Io Bytes (Fault StarterError) (Option Cipher)
  | .raw, last => do
      (Raw.clientStart V last).mapError .error
      return none
  | .compression, last => do
      (Compress.clientStart V last).mapError .error
      return none
  | .encryption, last => do
      return some (← Encrypt.clientStart V rsa last)
  | .compressEncryption, last => do
      return some (← CompressEncrypt.clientStart V rsa last)

/-- `server_start`; only the protocols with a cipher return one. -/
def serverStart (aesKey : AesKey) (nonce : Nonce) (seed : Seed) (identifier version : String) :
    (protocol : ProtocolVariant) → Except StarterError (ServerInit Pk protocol) →
      Io W StarterError (Option Cipher × UInt16 × String)
  | .raw, last => do
      return (none, ← Raw.serverStart V identifier version last)
  | .compression, last => do
      return (none, ← Compress.serverStart V identifier version last)
  | .encryption, last => do
      let (cipher, versions) ← Encrypt.serverStart V rsa aesKey nonce seed identifier version last
      return (some cipher, versions)
  | .compressEncryption, last => do
      let (cipher, versions) ←
        CompressEncrypt.serverStart V rsa aesKey nonce seed identifier version last
      return (some cipher, versions)

end Functions

/-! ## Rejections -/

/-- The checks of `read_head` that an honest head can fail. -/
inductive Rejection where
  | protocol
  | identifier
  | version
  deriving DecidableEq, Repr

/-- The error of a rejection, with the value that came from the other side. -/
def Rejection.error (protocol : ProtocolVariant) (identifier version : String) :
    Rejection → StarterError
  | .protocol => .invalidProtocol protocol
  | .identifier => .invalidIdentifier identifier
  | .version => .invalidVersion version

/-- The status a rejection is sent with. -/
def Rejection.status : Rejection → Bool × Bool
  | .protocol => (false, false)
  | .identifier => (false, true)
  | .version => (true, false)

/-- The string a rejection is sent with, if it is sent with one. -/
def Rejection.text (identifier version : String) : Rejection → Option String
  | .protocol => none
  | .identifier => some identifier
  | .version => some version

/-- The first check that fails, if the client has `pc`, `ic` and `vc` and the
server asks for `ps`, `is` and `P`. -/
def firstFailing (pc ps : ProtocolVariant) (ic is vc : String) (P : String → Bool) :
    Option Rejection :=
  if pc ≠ ps then some .protocol
  else if ic ≠ is then some .identifier
  else if P vc = false then some .version
  else none

theorem firstFailing_eq_none {pc ps : ProtocolVariant} {ic is vc : String} {P : String → Bool} :
    firstFailing pc ps ic is vc P = none ↔ pc = ps ∧ ic = is ∧ P vc = true := by
  unfold firstFailing
  split
  · simp_all
  · split
    · simp_all
    · split <;> simp_all

/-! ## What each half does -/

section Writers

variable (V : VariableLen) {W : Type} [AsyncWrite W] {Sk Pk Seed : Type} (rsa : Rsa Sk Pk Seed)

/-- The slices a client writes after its head. -/
def keyWrites (sk : Sk) : ProtocolVariant → List Bytes
  | .raw | .compression => []
  | .encryption | .compressEncryption =>
      V.u8Vec.writes (rsa.toBytesLe (rsa.n sk)) ++ V.u8Vec.writes (rsa.toBytesLe (rsa.e sk))

/-- The slices of `client_init`. -/
def clientWrites (sk : Sk) (identifier version : String) (protocol : ProtocolVariant) :
    List Bytes :=
  headWrites V protocol identifier version ++ keyWrites V rsa sk protocol

/-- The private key that `client_init` returns. -/
def kept (sk : Sk) : (protocol : ProtocolVariant) → ClientInit Sk protocol
  | .raw | .compression => ()
  | .encryption | .compressEncryption => sk

/-- What `server_init` returns for a client it accepts. -/
def accepted (pk : Pk) (version : String) : (protocol : ProtocolVariant) → ServerInit Pk protocol
  | .raw | .compression => (magicVersion, version)
  | .encryption | .compressEncryption => ((magicVersion, version), pk)

/-- The slices of a `server_start` that accepts. -/
def acceptWrites (encryptedAes : Bytes) (nonce : Nonce) : ProtocolVariant → List Bytes
  | .raw | .compression => V.bools2.writes (true, true)
  | .encryption | .compressEncryption =>
      V.bools2.writes (true, true) ++ (V.u8Vec.writes encryptedAes ++ [nonce.bytes])

/-- The slices of a `server_start` that rejects. -/
def rejectWrites (protocol : ProtocolVariant) (identifier version : String) (r : Rejection) :
    List Bytes :=
  V.bools2.writes r.status ++
    match r.text identifier version with
    | none => V.bools2.writes protocol.toBools
    | some s => V.string.writes s

/-- The cipher of a session, if its protocol has one. -/
def sessionCipher (aesKey : AesKey) (nonce : Nonce) : ProtocolVariant → Option Cipher
  | .raw | .compression => none
  | .encryption | .compressEncryption => some (Cipher.new (aesKey, nonce))

theorem clientInit_eq (sk : Sk) (identifier version : String) (protocol : ProtocolVariant) :
    (clientInit V rsa (.ok sk) identifier version protocol :
      Io W StarterError (ClientInit Sk protocol)) =
      (do
        (writeChunks (clientWrites V rsa sk identifier version protocol)).mapError .io
        flush.mapError .io
        return kept sk protocol) := by
  cases protocol with
  | raw | compression =>
    rw [clientWrites, keyWrites, List.append_nil]
    refine (Plain.clientInit_eq V _ identifier version).trans ?_
    refine congrArg _ (funext fun _ => ?_)
    exact bind_pure_unit.symm
  | encryption | compressEncryption => exact Sealed.clientInit_eq _ sk identifier version

theorem serverStart_ok_eq (aesKey : AesKey) (nonce : Nonce) (seed : Seed)
    (identifier version clientVersion : String) {pk : Pk} {encryptedAes : Bytes}
    (hencrypt : rsa.encrypt pk seed aesKey.bytes = .ok encryptedAes) (protocol : ProtocolVariant) :
    (serverStart V rsa aesKey nonce seed identifier version protocol
      (.ok (accepted pk clientVersion protocol)) :
        Io W StarterError (Option Cipher × UInt16 × String)) =
      (do
        (writeChunks (acceptWrites V encryptedAes nonce protocol)).mapError .io
        flush.mapError .io
        return (sessionCipher aesKey nonce protocol, magicVersion, clientVersion)) := by
  cases protocol with
  | raw | compression =>
    refine (congrArg (· >>= fun versions => pure (none, versions))
      (Plain.serverStart_ok_eq V _ identifier version (magicVersion, clientVersion))).trans ?_
    simp only [bind_assoc, pure_bind]
    rfl
  | encryption | compressEncryption =>
    refine (congrArg (fun x : Io W StarterError (Cipher × UInt16 × String) =>
        x >>= fun started => pure (some started.1, started.2))
      (Sealed.serverStart_ok_eq _ aesKey nonce seed identifier version hencrypt)).trans ?_
    simp only [bind_assoc, pure_bind]
    rfl

/-- A server whose `server_init` failed writes what `write_last` makes of the error,
and does not flush. -/
theorem serverStart_failed_eq (aesKey : AesKey) (nonce : Nonce) (seed : Seed)
    (identifier version : String) (e : StarterError) (protocol : ProtocolVariant) :
    (serverStart V rsa aesKey nonce seed identifier version protocol (.error e) :
        Io W StarterError (Option Cipher × UInt16 × String)) =
      (do
        (writeChunks (replyWrites V protocol identifier version
          (.error e : Except StarterError (ServerInit Pk protocol)))).mapError .io
        throw e) := by
  cases protocol with
  | raw | compression =>
    refine (congrArg (· >>= fun versions => pure (none, versions))
      (Plain.serverStart_error_eq V _ identifier version e)).trans ?_
    simp only [bind_assoc]
    rfl
  | encryption | compressEncryption =>
    refine (congrArg (fun x : Io W StarterError (Cipher × UInt16 × String) =>
        x >>= fun started => pure (some started.1, started.2))
      (Sealed.serverStart_error_eq _ aesKey nonce seed identifier version e)).trans ?_
    simp only [bind_assoc]
    rfl

/-- A server that rejects writes its reply and does not flush. -/
theorem serverStart_error_eq (aesKey : AesKey) (nonce : Nonce) (seed : Seed)
    (identifier version : String) (pc : ProtocolVariant) (ic vc : String) (r : Rejection)
    (protocol : ProtocolVariant) :
    (serverStart V rsa aesKey nonce seed identifier version protocol (.error (r.error pc ic vc)) :
        Io W StarterError (Option Cipher × UInt16 × String)) =
      (do
        (writeChunks (rejectWrites V protocol identifier version r)).mapError .io
        throw (r.error pc ic vc)) := by
  rw [serverStart_failed_eq]
  cases r <;> rfl

end Writers

section Readers

variable {V : VariableLen} {Sk Pk Seed : Type} {rsa : Rsa Sk Pk Seed}

/-- The bytes of a client's half, in front of what follows them. -/
theorem clientWrites_flatten (sk : Sk) (identifier version : String) (protocol : ProtocolVariant)
    (rest : Bytes) :
    (clientWrites V rsa sk identifier version protocol).flatten ++ rest =
      head V protocol identifier version ++ ((keyWrites V rsa sk protocol).flatten ++ rest) := by
  rw [clientWrites, List.flatten_append, List.append_assoc]
  rfl

theorem run_serverInit_accepted {sk : Sk} {pk : Pk}
    (hpk : rsa.newPublic (rsa.n sk) (rsa.e sk) = .ok pk) {version : String} {P : String → Bool}
    (hP : P version = true) (identifier : String) (protocol : ProtocolVariant) (rest : Bytes) :
    (serverInit V rsa identifier P protocol).run
      ((clientWrites V rsa sk identifier version protocol).flatten ++ rest) =
      .ok (accepted pk version protocol) rest := by
  have hhead : ∀ s, (readHead V protocol identifier P).run
      (head V protocol identifier version ++ s) = .ok (magicVersion, version) s := by
    intro s
    rw [run_readHead_head, if_pos rfl, if_pos rfl, if_pos hP]
  have hkey : composeRsaPublic rsa (rsa.toBytesLe (rsa.n sk)) (rsa.toBytesLe (rsa.e sk)) =
      .ok pk := by
    simp [composeRsaPublic, hpk, Except.mapError]
  rw [clientWrites_flatten]
  cases protocol with
  | raw | compression => exact hhead rest
  | encryption | compressEncryption =>
    refine Sealed.run_serverInit_ok ((hhead _).trans ?_) hkey
    simp [keyWrites, WireField.encode]

/-- `read_head` stops at the first check that fails. -/
theorem run_readHead_rejected {pc ps : ProtocolVariant} {ic is vc : String} {P : String → Bool}
    {r : Rejection} (hfirst : firstFailing pc ps ic is vc P = some r) (rest : Bytes) :
    ∃ left, (readHead V ps is P).run (head V pc ic vc ++ rest) =
      .error (r.error pc ic vc) left := by
  rw [run_readHead_head]
  unfold firstFailing at hfirst
  split at hfirst
  · rename_i hprotocol
    cases hfirst
    exact ⟨_, if_neg hprotocol⟩
  · rename_i hprotocol
    rw [if_pos (not_not.mp hprotocol)]
    split at hfirst
    · rename_i hidentifier
      cases hfirst
      exact ⟨_, if_neg hidentifier⟩
    · rename_i hidentifier
      rw [if_pos (not_not.mp hidentifier)]
      split at hfirst
      · rename_i hversion
        cases hfirst
        exact ⟨_, if_neg (by simp [hversion])⟩
      · cases hfirst

/-- A server whose `read_head` fails returns its error. -/
theorem run_serverInit_error {protocol : ProtocolVariant} {identifier : String}
    {version : String → Bool} {s left : Bytes} {e : StarterError}
    (hhead : (readHead V protocol identifier version).run s = .error e left) :
    (serverInit V rsa identifier version protocol).run s = .error e left := by
  cases protocol with
  | raw | compression => exact hhead
  | encryption | compressEncryption => exact Sealed.run_serverInit_error hhead

/-- A server stops at the first check that fails. -/
theorem run_serverInit_rejected {pc ps : ProtocolVariant} {ic is vc : String} {P : String → Bool}
    {r : Rejection} (hfirst : firstFailing pc ps ic is vc P = some r) (sk : Sk) (rest : Bytes) :
    ∃ left, (serverInit V rsa is P ps).run ((clientWrites V rsa sk ic vc pc).flatten ++ rest) =
      .error (r.error pc ic vc) left := by
  obtain ⟨left, hhead⟩ := run_readHead_rejected (V := V) hfirst
    ((keyWrites V rsa sk pc).flatten ++ rest)
  rw [clientWrites_flatten]
  exact ⟨left, run_serverInit_error hhead⟩

theorem run_clientStart_accepted {sk : Sk} {aesKey : AesKey} {nonce : Nonce} {encryptedAes : Bytes}
    (hdecrypt : rsa.decrypt sk encryptedAes = .ok aesKey.bytes) (protocol : ProtocolVariant)
    (rest : Bytes) :
    (clientStart V rsa protocol (.ok (kept sk protocol))).run
      ((acceptWrites V encryptedAes nonce protocol).flatten ++ rest) =
      .ok (sessionCipher aesKey nonce protocol) rest := by
  cases protocol with
  | raw | compression =>
    have hlast := run_readLast_accept V () rest
    exact Io.run_bind_of_ok (Io.run_mapError_of_ok hlast) _
  | encryption | compressEncryption =>
    have hstart : (Sealed.clientStart V rsa (.ok sk)).run _ =
        .ok (Cipher.new (aesKey, nonce)) rest :=
      Sealed.run_clientStart_ok hdecrypt rest
    have hbytes : (V.bools2.writes (true, true) ++
        (V.u8Vec.writes encryptedAes ++ [nonce.bytes])).flatten ++ rest =
          V.bools2.encode (true, true) ++ (V.u8Vec.encode encryptedAes ++
            (nonce.bytes ++ rest)) := by
      simp [WireField.encode]
    rw [← hbytes] at hstart
    exact Io.run_bind_of_ok hstart _

/-- A client that reads a rejection fails with the server's value. -/
theorem run_readLast_rejected {E : Type} (k : E) (ps : ProtocolVariant) (is vs : String)
    (r : Rejection) (rest : Bytes) :
    (readLast V (.ok k)).run ((rejectWrites V ps is vs r).flatten ++ rest) =
      .error (r.error ps is vs) rest := by
  cases r with
  | protocol =>
    rw [rejectWrites, List.flatten_append, List.append_assoc]
    exact run_readLast_protocol V k ps rest
  | identifier =>
    rw [rejectWrites, List.flatten_append, List.append_assoc]
    exact run_readLast_identifier V k is rest
  | version =>
    rw [rejectWrites, List.flatten_append, List.append_assoc]
    exact run_readLast_version V k vs rest

/-- A client whose reply is an error returns it. -/
theorem run_clientStart_error {protocol : ProtocolVariant} {k : ClientInit Sk protocol}
    {s left : Bytes} {e : StarterError} (hlast : (readLast V (.ok k)).run s = .error e left) :
    (clientStart V rsa protocol (.ok k)).run s = .error (.error e) left := by
  cases protocol with
  | raw | compression =>
    exact Io.run_bind_of_error (Io.run_mapError_of_error hlast) _
  | encryption | compressEncryption =>
    exact Io.run_bind_of_error (Sealed.run_clientStart_error hlast) _

end Readers

end Variants

end TcpHandler.Protocols
