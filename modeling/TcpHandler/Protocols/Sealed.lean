/-
  Protocols/Sealed.lean --- `protocols/encrypt.rs` and
  `protocols/compress_encrypt.rs`.

  The two protocols with a cipher differ in the variant and in the layout of a
  plaintext: `encrypt` puts the next nonce before the message, and
  `compress_encrypt` deflates the two together.  As for the protocols without a
  cipher, what they share is written once.

  `send` is two steps on two states.  `sealMessage` is the critical section: it
  takes the inner cipher, encrypts under the nonce in it and puts the cipher
  back with the new nonce.  `write_packet` follows, outside the lock, with its
  size check.  `recv` is the other way round: `read_packet`, then the critical
  section `openPacket`.  Both sections leave the slot empty when they fail.
-/
import TcpHandler.Protocols.Common

set_option autoImplicit false

namespace TcpHandler.Protocols

open TcpHandler.Foundation

/-- How the next nonce and a message are laid out in a plaintext. -/
structure Payload where
  /-- the bytes `send` encrypts -/
  compose : Level → Nonce → Buf → Bytes
  /-- what `recv` makes of the decrypted bytes -/
  parse : Bytes → Except IoError (Nonce × Bytes)
  /-- parsing undoes composing -/
  parse_compose : ∀ level nonce message,
    parse (compose level nonce message) = .ok (nonce, message.flatten)

variable (V : VariableLen)

/-! ## Nonces -/

/-- Read a nonce: `read_more` into an array of twelve bytes. -/
def readNonce : Io Bytes IoError Nonce := do
  let bytes ← V.readMore 12
  if h : bytes.length = 12 then return ⟨bytes, h⟩
  -- never taken: `read_more` fills the array or fails
  else throw .invalidData

@[simp] theorem run_readNonce_append (nonce : Nonce) (rest : Bytes) :
    (readNonce V).run (nonce.bytes ++ rest) = .ok nonce rest := by
  have hread := V.readMore_append nonce.bytes rest
  rw [nonce.length_eq] at hread
  rw [readNonce, Io.run_bind_of_ok hread, dif_pos nonce.length_eq]
  rfl

theorem run_readNonce_of_lt {s : Bytes} (h : s.length < 12) :
    (readNonce V).run s = .error .unexpectedEof [] :=
  Io.run_bind_of_error (V.readMore_short h) _

theorem run_readNonce_eq_ok {s rest : Bytes} {nonce : Nonce} :
    (readNonce V).run s = .ok nonce rest ↔ s = nonce.bytes ++ rest := by
  constructor
  · intro h
    obtain ⟨bytes, t, hread, hnonce⟩ := Io.run_bind_eq_ok.mp h
    rw [V.readMore_eq] at hread
    obtain ⟨rfl, hlength⟩ := run_readExactly_eq_ok.mp hread
    rw [dif_pos hlength] at hnonce
    cases hnonce
    rfl
  · rintro rfl
    exact run_readNonce_append V nonce rest

theorem notices_readNonce (nonce : Nonce) :
    Io.Notices (· = .unexpectedEof) (readNonce V) nonce.bytes := by
  intro cut hpre hne
  have hlt : cut.length < 12 := by
    rw [← nonce.length_eq]
    exact Nat.lt_of_le_of_ne hpre.length_le fun hlen => hne (hpre.eq_of_length hlen)
  exact ⟨.unexpectedEof, [], run_readNonce_of_lt V hlt, rfl⟩

/-- Split the next nonce off a plaintext: `read_more` on the reader of the
bytes, then `into_inner`. -/
def splitNonce (plain : Bytes) : Except IoError (Nonce × Bytes) :=
  match (readNonce V).run plain with
  | .ok nonce message => .ok (nonce, message)
  | .error e _ => .error e

@[simp] theorem splitNonce_append (nonce : Nonce) (message : Bytes) :
    splitNonce V (nonce.bytes ++ message) = .ok (nonce, message) := by
  simp [splitNonce]

theorem splitNonce_eq_ok {plain message : Bytes} {nonce : Nonce} :
    splitNonce V plain = .ok (nonce, message) ↔ plain = nonce.bytes ++ message := by
  rw [← run_readNonce_eq_ok V, splitNonce]
  cases (readNonce V).run plain <;> simp

namespace Sealed

section Handshake

variable {W : Type} [AsyncWrite W] {Sk Pk Seed : Type} (rsa : Rsa Sk Pk Seed)

/-- `client_init`; `drawn` is the outcome of drawing a private key. -/
def clientInit (protocol : ProtocolVariant) (drawn : Except RsaError Sk)
    (identifier version : String) : Io W StarterError Sk := do
  let (key, n, e) ← Io.ofExcept (generateRsaPrivate rsa drawn)
  writeHead V protocol identifier version
  (V.u8Vec.write n).mapError .io
  (V.u8Vec.write e).mapError .io
  flush.mapError .io
  return key

/-- `server_init`. -/
def serverInit (protocol : ProtocolVariant) (identifier : String) (version : String → Bool) :
    Io Bytes StarterError ((UInt16 × String) × Pk) := do
  let versions ← readHead V protocol identifier version
  let n ← V.u8Vec.read.mapError .io
  let e ← V.u8Vec.read.mapError .io
  let key ← Io.ofExcept (composeRsaPublic rsa n e)
  return (versions, key)

/-- `client_start`.  The `unwrap` of `new_from_slice` is the `panic`. -/
def clientStart (last : Except StarterError Sk) : Io Bytes (Fault StarterError) Cipher := do
  let key ← (readLast V last).mapError .error
  let encryptedAes ← V.u8Vec.read.mapError fun e => .error (.io e)
  let nonce ← (readNonce V).mapError fun e => .error (.io e)
  let aes ← Io.ofExcept ((rsa.decrypt key encryptedAes).mapError fun e => .error (.rsa e))
  match rsa.newFromSlice aes with
  | some aesKey => return Cipher.new (aesKey, nonce)
  | none => throw .panic

/-- `server_start`; the AES key, the nonce and the seed of the RSA encryption
are drawn at random. -/
def serverStart (protocol : ProtocolVariant) (aesKey : AesKey) (nonce : Nonce) (seed : Seed)
    (identifier version : String) (last : Except StarterError ((UInt16 × String) × Pk)) :
    Io W StarterError (Cipher × UInt16 × String) := do
  let ((va, vb), key) ← writeLast V protocol identifier version last
  let encryptedAes ← Io.ofExcept ((rsa.encrypt key seed aesKey.bytes).mapError .rsa)
  (V.u8Vec.write encryptedAes).mapError .io
  (writeMore nonce.bytes).mapError .io
  flush.mapError .io
  return (Cipher.new (aesKey, nonce), va, vb)

variable {V rsa}

/-- A client writes its head and its public key and flushes. -/
theorem clientInit_eq (protocol : ProtocolVariant) (sk : Sk) (identifier version : String) :
    (clientInit V rsa protocol (.ok sk) identifier version : Io W StarterError Sk) =
      (do
        (writeChunks (headWrites V protocol identifier version ++
          (V.u8Vec.writes (rsa.toBytesLe (rsa.n sk)) ++
            V.u8Vec.writes (rsa.toBytesLe (rsa.e sk))))).mapError .io
        flush.mapError .io
        return sk) := by
  simp only [clientInit, generateRsaPrivate, Io.ofExcept, pure_bind, writeHead_eq,
    writeChunks_append, Io.mapError_bind, WireField.write, bind_assoc]

theorem run_serverInit_ok {protocol : ProtocolVariant} {identifier : String}
    {version : String → Bool} {versions : UInt16 × String} {s rest n e : Bytes} {pk : Pk}
    (hhead : (readHead V protocol identifier version).run s =
      .ok versions (V.u8Vec.encode n ++ (V.u8Vec.encode e ++ rest)))
    (hkey : composeRsaPublic rsa n e = .ok pk) :
    (serverInit V rsa protocol identifier version).run s = .ok (versions, pk) rest := by
  simp only [serverInit, EStateM.run_bind, hhead, Io.run_mapError, WireField.run_read_encode, hkey,
    Io.run_ofExcept_ok, EStateM.run_pure]

theorem run_serverInit_error {protocol : ProtocolVariant} {identifier : String}
    {version : String → Bool} {s left : Bytes} {error : StarterError}
    (hhead : (readHead V protocol identifier version).run s = .error error left) :
    (serverInit V rsa protocol identifier version).run s = .error error left := by
  simp only [serverInit, EStateM.run_bind, hhead]

/-- A server that accepts writes its reply, the sealed AES key and the nonce, and
flushes. -/
theorem serverStart_ok_eq (protocol : ProtocolVariant) (aesKey : AesKey) (nonce : Nonce)
    (seed : Seed) (identifier version : String) {versions : UInt16 × String} {pk : Pk}
    {encryptedAes : Bytes} (hencrypt : rsa.encrypt pk seed aesKey.bytes = .ok encryptedAes) :
    (serverStart V rsa protocol aesKey nonce seed identifier version (.ok (versions, pk)) :
      Io W StarterError (Cipher × UInt16 × String)) =
      (do
        (writeChunks (V.bools2.writes (true, true) ++
          (V.u8Vec.writes encryptedAes ++ [nonce.bytes]))).mapError .io
        flush.mapError .io
        return (Cipher.new (aesKey, nonce), versions)) := by
  simp only [serverStart, writeLast_eq, replyWrites, Io.ofExcept, bind_assoc, pure_bind, hencrypt,
    Except.mapError, writeChunks_append, writeChunks_singleton, Io.mapError_bind, WireField.write]

/-- A server that rejects writes its reply and does not flush. -/
theorem serverStart_error_eq (protocol : ProtocolVariant) (aesKey : AesKey) (nonce : Nonce)
    (seed : Seed) (identifier version : String) (e : StarterError) :
    (serverStart V rsa protocol aesKey nonce seed identifier version (.error e) :
      Io W StarterError (Cipher × UInt16 × String)) =
      (do
        (writeChunks (replyWrites V protocol identifier version
          (.error e : Except StarterError ((UInt16 × String) × Pk)))).mapError .io
        throw e) := by
  simp only [serverStart, writeLast_eq, Io.ofExcept, bind_assoc]
  rfl

theorem run_clientStart_ok {sk : Sk} {aesKey : AesKey} {nonce : Nonce} {encryptedAes : Bytes}
    (hdecrypt : rsa.decrypt sk encryptedAes = .ok aesKey.bytes) (rest : Bytes) :
    (clientStart V rsa (.ok sk)).run (V.bools2.encode (true, true) ++
      (V.u8Vec.encode encryptedAes ++ (nonce.bytes ++ rest))) =
      .ok (Cipher.new (aesKey, nonce)) rest := by
  simp only [clientStart, EStateM.run_bind, Io.run_mapError, run_readLast_accept,
    WireField.run_read_encode, run_readNonce_append, hdecrypt, Except.mapError,
    Io.run_ofExcept_ok, rsa.newFromSlice_bytes, EStateM.run_pure]

/-- The `unwrap` of `client_start` fails exactly when the private key decrypts the
key field of an acceptance to something that is not an AES key. -/
theorem panic_clientStart_iff {last : Except StarterError Sk} {s : Bytes} :
    ((clientStart V rsa last).outcome s).1 = .error .panic ↔
      ∃ sk encryptedAes aes t u rest nonce, last = .ok sk ∧
        V.bools2.read.run s = .ok (true, true) t ∧ V.u8Vec.read.run t = .ok encryptedAes u ∧
        (readNonce V).run u = .ok nonce rest ∧ rsa.decrypt sk encryptedAes = .ok aes ∧
        aes.length ≠ 32 := by
  constructor
  · intro h
    simp only [Io.outcome, clientStart, EStateM.run_bind, Io.run_mapError] at h
    cases hlast : (readLast V last).run s with
    | error e t => simp [hlast] at h
    | ok sk t =>
      obtain ⟨rfl, hstatus⟩ := (run_readLast_eq_ok V).mp hlast
      cases hkey : V.u8Vec.read.run t with
      | error e u => simp [hlast, hkey] at h
      | ok encryptedAes u =>
        cases hnonce : (readNonce V).run u with
        | error e rest => simp [hlast, hkey, hnonce] at h
        | ok nonce rest =>
          cases hdecrypt : rsa.decrypt sk encryptedAes with
          | error e => simp [hlast, hkey, hnonce, hdecrypt, Except.mapError] at h
          | ok aes =>
            refine ⟨sk, encryptedAes, aes, t, u, rest, nonce, rfl, hstatus, hkey, hnonce,
              hdecrypt, ?_⟩
            rw [← rsa.newFromSlice_eq_none_iff]
            cases haes : rsa.newFromSlice aes with
            | none => rfl
            | some aesKey => simp [hlast, hkey, hnonce, hdecrypt, Except.mapError, haes] at h
  · rintro ⟨sk, encryptedAes, aes, t, u, rest, nonce, rfl, hstatus, hkey, hnonce, hdecrypt, haes⟩
    have hlast : (readLast V (.ok sk)).run s = .ok sk t := (run_readLast_eq_ok V).mpr ⟨rfl, hstatus⟩
    rw [← rsa.newFromSlice_eq_none_iff] at haes
    simp [Io.outcome, clientStart, hlast, hkey, hnonce, hdecrypt, Except.mapError, haes]

/-- What `client_start` returns is a new cipher. -/
theorem clientStart_eq_new {last : Except StarterError Sk} {s : Bytes} {cipher : Cipher}
    (h : ((clientStart V rsa last).outcome s).1 = .ok cipher) : ∃ inner, cipher = .new inner := by
  obtain ⟨rest, hrun⟩ := Io.outcome_fst_eq_ok.mp h
  obtain ⟨sk, t, _, hrun⟩ := Io.run_bind_eq_ok.mp hrun
  obtain ⟨encryptedAes, u, _, hrun⟩ := Io.run_bind_eq_ok.mp hrun
  obtain ⟨nonce, v, _, hrun⟩ := Io.run_bind_eq_ok.mp hrun
  obtain ⟨aes, w, _, hrun⟩ := Io.run_bind_eq_ok.mp hrun
  cases haes : rsa.newFromSlice aes with
  | none => simp [haes] at hrun
  | some aesKey =>
    simp only [haes, EStateM.run_pure, EStateM.Result.ok.injEq] at hrun
    exact ⟨(aesKey, nonce), hrun.1.symm⟩

/-- What `server_start` returns is a new cipher. -/
theorem serverStart_eq_new {W : Type} [AsyncWrite W] {protocol : ProtocolVariant}
    {aesKey : AesKey} {nonce : Nonce} {seed : Seed} {identifier version : String}
    {last : Except StarterError ((UInt16 × String) × Pk)} {w : W}
    {started : Cipher × UInt16 × String}
    (h : ((serverStart V rsa protocol aesKey nonce seed identifier version last).outcome w).1 =
      .ok started) : started.1 = .new (aesKey, nonce) := by
  obtain ⟨w', hrun⟩ := Io.outcome_fst_eq_ok.mp h
  obtain ⟨⟨versions, pk⟩, t, _, hrun⟩ := Io.run_bind_eq_ok.mp hrun
  obtain ⟨encryptedAes, u, _, hrun⟩ := Io.run_bind_eq_ok.mp hrun
  obtain ⟨_, v, _, hrun⟩ := Io.run_bind_eq_ok.mp hrun
  obtain ⟨_, x, _, hrun⟩ := Io.run_bind_eq_ok.mp hrun
  obtain ⟨_, y, _, hrun⟩ := Io.run_bind_eq_ok.mp hrun
  simp only [EStateM.run_pure, EStateM.Result.ok.injEq] at hrun
  rw [← hrun.1]

/-- A client that is rejected reads its error and nothing else. -/
theorem run_clientStart_error {sk : Sk} {s left : Bytes} {e : StarterError}
    (hlast : (readLast V (.ok sk)).run s = .error e left) :
    (clientStart V rsa (.ok sk)).run s = .error (.error e) left := by
  simp only [clientStart, EStateM.run_bind, Io.run_mapError, hlast]

end Handshake

section Data

variable (payload : Payload) (aead : Aead)

/-- The critical section of `send`; `newNonce` is drawn at random. -/
def sealMessage (level : Level) (newNonce : Nonce) (message : Buf) :
    Io Cipher (Fault PacketError) Bytes :=
  let bytes := payload.compose level newNonce message
  Cipher.guarded do
    let (key, nonce) ← Cipher.get
    let bytes ← Io.ofExcept ((aead.encryptInPlace key nonce bytes).mapError
      fun e => .error (.aes e))
    Cipher.reset (key, newNonce)
    return bytes

/-- The critical section of `recv`. -/
def openPacket (bytes : Bytes) : Io Cipher (Fault PacketError) Bytes :=
  Cipher.guarded do
    let (key, nonce) ← Cipher.get
    let plain ← Io.ofExcept ((aead.decryptInPlace key nonce bytes).mapError
      fun e => .error (.aes e))
    let (newNonce, message) ← Io.ofExcept ((payload.parse plain).mapError
      fun e => .error (.io e))
    Cipher.reset (key, newNonce)
    return message

/-- What `send` does after its critical section, outside the lock. -/
def writeSealed {W : Type} [AsyncWrite W] (limit : Usize) (bytes : Bytes) :
    Io W PacketError Unit := do
  writePacket V limit [bytes]
  flush.mapError .io

/-- `send`. -/
def send {W : Type} [AsyncWrite W] (level : Level) (limit : Usize) (newNonce : Nonce)
    (message : Buf) : Io (W × Cipher) (Fault PacketError) Unit := do
  let bytes ← Io.onSnd (sealMessage payload aead level newNonce message)
  Io.onFst ((writeSealed V limit bytes).mapError .error)

/-- `recv`. -/
def recv (limit : Usize) : Io (Bytes × Cipher) (Fault PacketError) Bytes := do
  let bytes ← Io.onFst ((readPacket V limit).mapError .error)
  Io.onSnd (openPacket payload aead bytes)

/-! ### What a critical section does

One equation for each section: from a slot that holds the inner cipher it either
puts a cipher with the new nonce back or leaves the slot empty, from an empty
slot it is `Broken`, and it never panics. -/

variable {payload aead}

theorem run_sealMessage {cipher : Cipher} (hlock : cipher.poisoned = false)
    (level : Level) (newNonce : Nonce) (message : Buf) :
    (sealMessage payload aead level newNonce message).run cipher =
      match cipher.slot with
      | none => .error (.error .broken) cipher
      | some (key, nonce) =>
          match aead.encryptInPlace key nonce (payload.compose level newNonce message) with
          | .error e => .error (.error (.aes e)) { slot := none }
          | .ok packet => .ok packet (Cipher.new (key, newNonce)) := by
  obtain ⟨slot, poisoned⟩ := cipher
  simp only at hlock
  subst hlock
  cases slot with
  | none =>
    have hget := Cipher.run_get_none (Eq.refl (⟨none, false⟩ : Cipher).slot) rfl
    simp only [sealMessage, Cipher.run_guarded, EStateM.run_bind, hget]
  | some inner =>
    obtain ⟨key, nonce⟩ := inner
    have hget := Cipher.run_get_some (Eq.refl (⟨some (key, nonce), false⟩ : Cipher).slot) rfl
    simp only [sealMessage, Cipher.run_guarded, EStateM.run_bind, hget]
    cases aead.encryptInPlace key nonce (payload.compose level newNonce message) <;> rfl

theorem run_openPacket {cipher : Cipher} (hlock : cipher.poisoned = false) (bytes : Bytes) :
    (openPacket payload aead bytes).run cipher =
      match cipher.slot with
      | none => .error (.error .broken) cipher
      | some (key, nonce) =>
          match aead.decryptInPlace key nonce bytes with
          | .error e => .error (.error (.aes e)) { slot := none }
          | .ok plain =>
              match payload.parse plain with
              | .error e => .error (.error (.io e)) { slot := none }
              | .ok (newNonce, message) => .ok message (Cipher.new (key, newNonce)) := by
  obtain ⟨slot, poisoned⟩ := cipher
  simp only at hlock
  subst hlock
  cases slot with
  | none =>
    have hget := Cipher.run_get_none (Eq.refl (⟨none, false⟩ : Cipher).slot) rfl
    simp only [openPacket, Cipher.run_guarded, EStateM.run_bind, hget]
  | some inner =>
    obtain ⟨key, nonce⟩ := inner
    have hget := Cipher.run_get_some (Eq.refl (⟨some (key, nonce), false⟩ : Cipher).slot) rfl
    simp only [openPacket, Cipher.run_guarded, EStateM.run_bind, hget]
    cases aead.decryptInPlace key nonce bytes with
    | error e => rfl
    | ok plain =>
      simp only [Except.mapError, Io.run_ofExcept_ok]
      cases payload.parse plain <;> rfl

/-- A critical section of `recv` that returned a message. -/
theorem run_openPacket_eq_ok {cipher cipher' : Cipher} {bytes message : Bytes}
    (h : (openPacket payload aead bytes).run cipher = .ok message cipher') :
    ∃ key nonce plain newNonce, cipher.slot = some (key, nonce) ∧
      aead.decryptInPlace key nonce bytes = .ok plain ∧
      payload.parse plain = .ok (newNonce, message) ∧ cipher' = Cipher.new (key, newNonce) := by
  cases hlock : cipher.poisoned with
  | true => simp [openPacket, Cipher.run_guarded, Cipher.run_get_poisoned hlock] at h
  | false =>
    rw [run_openPacket hlock] at h
    cases hslot : cipher.slot with
    | none => simp [hslot] at h
    | some inner =>
      obtain ⟨key, nonce⟩ := inner
      simp only [hslot] at h
      cases hdecrypt : aead.decryptInPlace key nonce bytes with
      | error e => simp [hdecrypt] at h
      | ok plain =>
        simp only [hdecrypt] at h
        cases hparse : payload.parse plain with
        | error e => simp [hparse] at h
        | ok parsed =>
          obtain ⟨newNonce, parsedMessage⟩ := parsed
          simp only [hparse, EStateM.Result.ok.injEq] at h
          obtain ⟨rfl, rfl⟩ := h
          exact ⟨key, nonce, plain, newNonce, rfl, hdecrypt, hparse, rfl⟩

/-- A critical section of `send` neither panics nor poisons the lock. -/
theorem sealMessage_sound {cipher : Cipher} (hlock : cipher.poisoned = false) (level : Level)
    (newNonce : Nonce) (message : Buf) :
    ((sealMessage payload aead level newNonce message).outcome cipher).1 ≠ .error .panic ∧
      ((sealMessage payload aead level newNonce message).outcome cipher).2.poisoned = false := by
  rw [Io.outcome, run_sealMessage hlock]
  cases cipher.slot with
  | none => exact ⟨by simp, hlock⟩
  | some inner =>
    obtain ⟨key, nonce⟩ := inner
    simp only
    cases aead.encryptInPlace key nonce (payload.compose level newNonce message) with
    | error e => exact ⟨by simp, rfl⟩
    | ok packet => exact ⟨by simp, rfl⟩

/-- A critical section of `recv` neither panics nor poisons the lock. -/
theorem openPacket_sound {cipher : Cipher} (hlock : cipher.poisoned = false) (bytes : Bytes) :
    ((openPacket payload aead bytes).outcome cipher).1 ≠ .error .panic ∧
      ((openPacket payload aead bytes).outcome cipher).2.poisoned = false := by
  rw [Io.outcome, run_openPacket hlock]
  cases cipher.slot with
  | none => exact ⟨by simp, hlock⟩
  | some inner =>
    obtain ⟨key, nonce⟩ := inner
    simp only
    cases aead.decryptInPlace key nonce bytes with
    | error e => exact ⟨by simp, rfl⟩
    | ok plain =>
      simp only
      cases payload.parse plain with
      | error e => exact ⟨by simp, rfl⟩
      | ok parsed => exact ⟨by simp, rfl⟩

theorem outcome_writeSealed_of_le {limit : Usize} {packet : Bytes}
    (h : packet.length ≤ limit.toNat) (w : Bytes) :
    (writeSealed V limit packet).outcome w = (.ok (), w ++ frame V packet) := by
  have hremaining : Buf.remaining [packet] ≤ limit.toNat := by simpa [Buf.remaining] using h
  have hwrite := run_writePacket_of_le V hremaining w
  apply Io.outcome_of_ok
  simp only [writeSealed, EStateM.run_bind, hwrite]
  simp [flush]

theorem outcome_writeSealed_of_lt {limit : Usize} {packet : Bytes}
    (h : limit.toNat < packet.length) (w : Bytes) :
    (writeSealed V limit packet).outcome w = (.error (.tooLarge packet.length limit.toNat), w) := by
  have hremaining : Buf.remaining [packet] = packet.length := by simp [Buf.remaining]
  have hlt : limit.toNat < Buf.remaining [packet] := by rwa [hremaining]
  have hwrite := run_writePacket_of_lt V hlt w
  rw [hremaining] at hwrite
  apply Io.outcome_of_error
  simp only [writeSealed, EStateM.run_bind, hwrite]

/-- What is written after the critical section never fails with `Broken`. -/
theorem error_writeSealed {W : Type} [AsyncWrite W] {limit : Usize} {packet : Bytes} {w w' : W}
    {e : PacketError} (h : (writeSealed V limit packet).run w = .error e w') : e ≠ .broken := by
  rintro rfl
  rcases Io.run_bind_eq_error.mp h with hwrite | ⟨_, _, _, hflush⟩
  · rcases Io.run_bind_eq_error.mp hwrite with hcheck | ⟨_, _, _, hwrite⟩
    · rw [checkBytesLen, Io.run_ensure] at hcheck
      split at hcheck <;> cases hcheck
    · rcases Io.run_bind_eq_error.mp hwrite with hlen | ⟨_, _, _, hbytes⟩
      · obtain ⟨_, _, he⟩ := Io.run_mapError_eq_error.mp hlen
        cases he
      · obtain ⟨_, _, he⟩ := Io.run_mapError_eq_error.mp hbytes
        cases he
  · obtain ⟨_, _, he⟩ := Io.run_mapError_eq_error.mp hflush
    cases he

/-- `send` is its critical section and, if that succeeded, the rest. -/
theorem outcome_send {W : Type} [AsyncWrite W] (level : Level) (limit : Usize) (newNonce : Nonce)
    (message : Buf) (w : W) (cipher : Cipher) :
    (send V payload aead level limit newNonce message).outcome (w, cipher) =
      match (sealMessage payload aead level newNonce message).outcome cipher with
      | (.error e, cipher') => (.error e, (w, cipher'))
      | (.ok bytes, cipher') =>
          match (writeSealed V limit bytes).outcome w with
          | (result, w') => (result.mapError .error, (w', cipher')) := by
  simp only [Io.outcome, send, EStateM.run_bind, Io.run_onSnd]
  cases (sealMessage payload aead level newNonce message).run cipher with
  | error e cipher' => rfl
  | ok bytes cipher' =>
    simp only [Io.run_onFst, Io.run_mapError]
    cases (writeSealed V limit bytes).run w <;> rfl

/-- `recv` is `read_packet` and, if that succeeded, its critical section. -/
theorem outcome_recv (limit : Usize) (s : Bytes) (cipher : Cipher) :
    (recv V payload aead limit).outcome (s, cipher) =
      match (readPacket V limit).outcome s with
      | (.error e, s') => (.error (.error e), (s', cipher))
      | (.ok bytes, s') =>
          match (openPacket payload aead bytes).outcome cipher with
          | (result, cipher') => (result, (s', cipher')) := by
  simp only [Io.outcome, recv, EStateM.run_bind, Io.run_onFst, Io.run_mapError]
  cases (readPacket V limit).run s with
  | error e s' => rfl
  | ok bytes s' =>
    simp only [Io.run_onSnd]
    cases (openPacket payload aead bytes).run cipher <;> rfl

end Data

end Sealed

/-! ## `encrypt.rs` -/

namespace Encrypt

/-- The nonce, then the message. -/
def payload : Payload where
  compose _ nonce message := nonce.bytes ++ message.flatten
  parse := splitNonce V
  parse_compose _ nonce message := splitNonce_append V nonce message.flatten

section Handshake

variable {W : Type} [AsyncWrite W] {Sk Pk Seed : Type} (rsa : Rsa Sk Pk Seed)

/-- `encrypt::client_init`. -/
def clientInit (drawn : Except RsaError Sk) (identifier version : String) :
    Io W StarterError Sk :=
  Sealed.clientInit V rsa .encryption drawn identifier version

/-- `encrypt::server_init`. -/
def serverInit (identifier : String) (version : String → Bool) :
    Io Bytes StarterError ((UInt16 × String) × Pk) :=
  Sealed.serverInit V rsa .encryption identifier version

/-- `encrypt::client_start`. -/
def clientStart (last : Except StarterError Sk) : Io Bytes (Fault StarterError) Cipher :=
  Sealed.clientStart V rsa last

/-- `encrypt::server_start`. -/
def serverStart (aesKey : AesKey) (nonce : Nonce) (seed : Seed) (identifier version : String)
    (last : Except StarterError ((UInt16 × String) × Pk)) :
    Io W StarterError (Cipher × UInt16 × String) :=
  Sealed.serverStart V rsa .encryption aesKey nonce seed identifier version last

end Handshake

variable (aead : Aead)

/-- `encrypt::send`; no compression level is read. -/
def send {W : Type} [AsyncWrite W] (limit : Usize) (newNonce : Nonce) (message : Buf) :
    Io (W × Cipher) (Fault PacketError) Unit :=
  Sealed.send V (payload V) aead 0 limit newNonce message

/-- `encrypt::recv`. -/
def recv (limit : Usize) : Io (Bytes × Cipher) (Fault PacketError) Bytes :=
  Sealed.recv V (payload V) aead limit

end Encrypt

/-! ## `compress_encrypt.rs` -/

namespace CompressEncrypt

variable (flate : Flate)

/-- The nonce and the chunks of the message, deflated as one stream. -/
def payload : Payload where
  compose level nonce message := flate.deflate level (nonce.bytes :: message)
  parse plain := do
    let inflated ← flate.inflate plain
    splitNonce V inflated
  parse_compose level nonce message := by
    rw [flate.inflate_deflate, List.flatten_cons]
    exact splitNonce_append V nonce message.flatten

section Handshake

variable {W : Type} [AsyncWrite W] {Sk Pk Seed : Type} (rsa : Rsa Sk Pk Seed)

/-- `compress_encrypt::client_init`. -/
def clientInit (drawn : Except RsaError Sk) (identifier version : String) :
    Io W StarterError Sk :=
  Sealed.clientInit V rsa .compressEncryption drawn identifier version

/-- `compress_encrypt::server_init`. -/
def serverInit (identifier : String) (version : String → Bool) :
    Io Bytes StarterError ((UInt16 × String) × Pk) :=
  Sealed.serverInit V rsa .compressEncryption identifier version

/-- `compress_encrypt::client_start`. -/
def clientStart (last : Except StarterError Sk) : Io Bytes (Fault StarterError) Cipher :=
  Sealed.clientStart V rsa last

/-- `compress_encrypt::server_start`. -/
def serverStart (aesKey : AesKey) (nonce : Nonce) (seed : Seed) (identifier version : String)
    (last : Except StarterError ((UInt16 × String) × Pk)) :
    Io W StarterError (Cipher × UInt16 × String) :=
  Sealed.serverStart V rsa .compressEncryption aesKey nonce seed identifier version last

end Handshake

variable (aead : Aead)

/-- `compress_encrypt::send`. -/
def send {W : Type} [AsyncWrite W] (level : Level) (limit : Usize) (newNonce : Nonce)
    (message : Buf) : Io (W × Cipher) (Fault PacketError) Unit :=
  Sealed.send V (payload V flate) aead level limit newNonce message

/-- `compress_encrypt::recv`. -/
def recv (limit : Usize) : Io (Bytes × Cipher) (Fault PacketError) Bytes :=
  Sealed.recv V (payload V flate) aead limit

end CompressEncrypt

/-! ## The members -/

section Members

variable {W : Type} [AsyncWrite W] (aead : Aead)

/-- `send` and `recv` of `encrypt.rs` are those of `Sealed`, whatever level is
configured. -/
theorem encrypt_eq (level : Level) (limit : Usize) (newNonce : Nonce) (message : Buf) :
    (Encrypt.send V aead limit newNonce message : Io (W × Cipher) (Fault PacketError) Unit) =
        Sealed.send V (Encrypt.payload V) aead level limit newNonce message ∧
      Encrypt.recv V aead limit = Sealed.recv V (Encrypt.payload V) aead limit :=
  ⟨rfl, rfl⟩

/-- `send` and `recv` of `compress_encrypt.rs` are those of `Sealed`. -/
theorem compressEncrypt_eq (flate : Flate) (level : Level) (limit : Usize) (newNonce : Nonce)
    (message : Buf) :
    (CompressEncrypt.send V flate aead level limit newNonce message :
        Io (W × Cipher) (Fault PacketError) Unit) =
        Sealed.send V (CompressEncrypt.payload V flate) aead level limit newNonce message ∧
      CompressEncrypt.recv V flate aead limit =
        Sealed.recv V (CompressEncrypt.payload V flate) aead limit :=
  ⟨rfl, rfl⟩

end Members

end TcpHandler.Protocols
