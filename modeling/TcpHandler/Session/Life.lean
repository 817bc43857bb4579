/-
  Session/Life.lean --- the whole life of one party: its handshake and every call
  after it, whatever the peer sends.

  Here the peer is not modelled.  The bytes a reader finds are given with each
  call, and so is the writer, which may fail as it likes.  What is followed is the
  two places where the crate unwraps: the AES key in `client_start`, and the lock
  of the cipher.
-/
import TcpHandler.Protocols.Reference
import TcpHandler.Protocols.Variants

set_option autoImplicit false

namespace TcpHandler.Session.Life

open TcpHandler.Foundation TcpHandler.Protocols
open TcpHandler.Protocols.Variants (ClientInit ServerInit serverInit)

/-- A party after its handshake: what its `send` and `recv` work with. -/
inductive Live where
  | plain (body : Body)
  | sealed (payload : Payload) (cipher : Cipher)

/-- One call, with everything it is given. -/
inductive Call (W : Type) where
  | send (level : Level) (limit : Usize) (fresh : Nonce) (message : Buf) (writer : W)
  | recv (limit : Usize) (incoming : Bytes)

section Functions

variable (V : VariableLen) {W : Type} [AsyncWrite W] {Sk Pk Seed : Type} (rsa : Rsa Sk Pk Seed)
  (flate : Flate) (aead : Aead)

/-- `client_start`. -/
def clientSession : (protocol : ProtocolVariant) → Except StarterError (ClientInit Sk protocol) →
    Io Bytes (Fault StarterError) Live
  | .raw, last => do
      (Raw.clientStart V last).mapError .error
      return .plain Raw.body
  | .compression, last => do
      (Compress.clientStart V last).mapError .error
      return .plain (Compress.body flate)
  | .encryption, last => do
      return .sealed (Encrypt.payload V) (← Encrypt.clientStart V rsa last)
  | .compressEncryption, last => do
      return .sealed (CompressEncrypt.payload V flate) (← CompressEncrypt.clientStart V rsa last)

/-- `server_start`. -/
def serverSession (aesKey : AesKey) (nonce : Nonce) (seed : Seed) (identifier version : String) :
    (protocol : ProtocolVariant) → Except StarterError (ServerInit Pk protocol) →
      Io W StarterError Live
  | .raw, last => do
      let _ ← Raw.serverStart V identifier version last
      return .plain Raw.body
  | .compression, last => do
      let _ ← Compress.serverStart V identifier version last
      return .plain (Compress.body flate)
  | .encryption, last => do
      let (cipher, _) ← Encrypt.serverStart V rsa aesKey nonce seed identifier version last
      return .sealed (Encrypt.payload V) cipher
  | .compressEncryption, last => do
      let (cipher, _) ← CompressEncrypt.serverStart V rsa aesKey nonce seed identifier version last
      return .sealed (CompressEncrypt.payload V flate) cipher

/-- One call: its result and the party after it. -/
def Live.call : Live → Call W → Except (Fault PacketError) (Option Bytes) × Live
  | .plain body, .send level limit _ message writer =>
      let result := (((Plain.send V body level limit message).mapError .error).outcome writer).1
      (result.map fun _ => none, .plain body)
  | .plain body, .recv limit incoming =>
      let result := (((Plain.recv V body limit).mapError .error).outcome incoming).1
      (result.map some, .plain body)
  | .sealed payload cipher, .send level limit fresh message writer =>
      let (result, _, cipher') :=
        (Sealed.send V payload aead level limit fresh message).outcome (writer, cipher)
      (result.map fun _ => none, .sealed payload cipher')
  | .sealed payload cipher, .recv limit incoming =>
      let (result, _, cipher') := (Sealed.recv V payload aead limit).outcome (incoming, cipher)
      (result.map some, .sealed payload cipher')

/-- The results of a sequence of calls. -/
def Live.calls : Live → List (Call W) → List (Except (Fault PacketError) (Option Bytes))
  | _, [] => []
  | live, call :: rest => (live.call V aead call).1 :: (live.call V aead call).2.calls rest

/-- A call that reached a failing `unwrap`. -/
def panicked {ε α : Type} : Except (Fault ε) α → Bool
  | .error .panic => true
  | _ => false

/-- What follows a handshake that succeeded. -/
def afterStart {ε : Type} (started : Except ε Live) (calls : List (Call W)) : List Bool :=
  match started with
  | .ok live => (live.calls V aead calls).map panicked
  | .error _ => []

/-- Which calls of a client panic: `client_start`, then the others.  `last` is what
`client_init` returned, `reply` what the server sends. -/
def clientLife (protocol : ProtocolVariant) (last : Except StarterError (ClientInit Sk protocol))
    (reply : Bytes) (calls : List (Call W)) : List Bool :=
  let started := ((clientSession V rsa flate protocol last).outcome reply).1
  panicked started :: afterStart V aead started calls

/-- Which calls of a server panic: `server_init`, `server_start`, then the others. -/
def serverLife (protocol : ProtocolVariant) (incoming : Bytes) (identifier version : String)
    (versionPrediction : String → Bool) (aesKey : AesKey) (nonce : Nonce) (seed : Seed) (writer : W)
    (calls : List (Call W)) : List Bool :=
  let read := ((serverInit V rsa identifier versionPrediction protocol).outcome incoming).1
  let started :=
    ((serverSession V rsa flate aesKey nonce seed identifier version protocol read).outcome
      writer).1
  panicked (read.mapError Fault.error) :: panicked (started.mapError Fault.error) ::
    afterStart V aead started calls

/-- What `client_start` decrypts has the length of an AES key: whenever the reply
is an acceptance, a key field and a nonce, and the private key decrypts the
field. -/
def KeyFits : (protocol : ProtocolVariant) → Except StarterError (ClientInit Sk protocol) →
    Bytes → Prop
  | .raw, _, _ | .compression, _, _ => True
  | .encryption, last, reply | .compressEncryption, last, reply =>
      ∀ (sk : Sk) (encryptedAes aes s t rest : Bytes) (nonce : Nonce), last = .ok sk →
        V.bools2.read.run reply = .ok (true, true) s → V.u8Vec.read.run s = .ok encryptedAes t →
        (readNonce V).run t = .ok nonce rest → rsa.decrypt sk encryptedAes = .ok aes →
          aes.length = 32

end Functions

/-! ## After the handshake -/

section Calls

variable {V : VariableLen} {W : Type} [AsyncWrite W] {aead : Aead}

/-- The lock of a party's cipher is not poisoned. -/
def Live.Sound : Live → Prop
  | .plain _ => True
  | .sealed _ cipher => cipher.poisoned = false

theorem panicked_eq_false {ε α : Type} {result : Except (Fault ε) α} (h : result ≠ .error .panic) :
    panicked result = false := by
  match result, h with
  | .ok _, _ => rfl
  | .error (.error _), _ => rfl
  | .error .panic, h => exact absurd rfl h

@[simp] theorem panicked_map {ε α β : Type} (f : α → β) (result : Except (Fault ε) α) :
    panicked (result.map f) = panicked result := by
  match result with
  | .ok _ => rfl
  | .error (.error _) => rfl
  | .error .panic => rfl

@[simp] theorem panicked_error {ε α : Type} (result : Except ε α) :
    panicked (result.mapError Fault.error) = false := by
  cases result <;> rfl

/-- A call that has no `unwrap` in it. -/
@[simp] theorem panicked_mapError {σ ε α : Type} (x : Io σ ε α) (s : σ) :
    panicked ((x.mapError Fault.error).outcome s).1 = false := by
  rw [Io.outcome, Io.run_mapError]
  cases x.run s <;> rfl

/-- A call neither panics nor poisons the lock. -/
theorem Live.Sound.call {live : Live} (h : live.Sound) (call : Call W) :
    panicked (live.call V aead call).1 = false ∧ (live.call V aead call).2.Sound := by
  cases live with
  | plain body =>
    cases call with
    | send level limit fresh message writer => exact ⟨by simp [Live.call], trivial⟩
    | recv limit incoming => exact ⟨by simp [Live.call], trivial⟩
  | sealed payload cipher =>
    cases call with
    | send level limit fresh message writer =>
      simp only [Live.call, Sealed.outcome_send, panicked_map]
      obtain ⟨hpanic, hlock⟩ :
          ((Sealed.sealMessage payload aead level fresh message).outcome cipher).1 ≠ .error .panic ∧
            ((Sealed.sealMessage payload aead level fresh message).outcome cipher).2.poisoned =
              false := Sealed.sealMessage_sound h level fresh message
      generalize (Sealed.sealMessage payload aead level fresh message).outcome cipher = sealed
        at hpanic hlock
      obtain ⟨result, cipher'⟩ := sealed
      cases result with
      | error e => exact ⟨panicked_eq_false (by simpa using hpanic), hlock⟩
      | ok packet =>
        refine ⟨?_, hlock⟩
        simp only
        cases ((Sealed.writeSealed V limit packet).outcome writer).1 <;> rfl
    | recv limit incoming =>
      simp only [Live.call, Sealed.outcome_recv, panicked_map]
      generalize (readPacket V limit).outcome incoming = fetched
      obtain ⟨result, left⟩ := fetched
      cases result with
      | error e => exact ⟨rfl, h⟩
      | ok packet =>
        exact ⟨panicked_eq_false (Sealed.openPacket_sound h packet).1,
          (Sealed.openPacket_sound h packet).2⟩

/-- No call of a session panics, whatever the calls before it were given. -/
theorem Live.Sound.calls {live : Live} (h : live.Sound) (calls : List (Call W)) :
    true ∉ (live.calls V aead calls).map panicked := by
  induction calls generalizing live with
  | nil => simp [Live.calls]
  | cons call rest ih =>
    obtain ⟨hpanic, hsound⟩ : panicked (live.call V aead call).1 = false ∧
      (live.call V aead call).2.Sound := h.call call
    rw [Live.calls, List.map_cons, List.mem_cons, not_or, hpanic]
    exact ⟨by simp, ih hsound⟩

theorem not_mem_afterStart {ε : Type} {started : Except ε Live}
    (h : ∀ live, started = .ok live → live.Sound) (calls : List (Call W)) :
    true ∉ afterStart V aead started calls := by
  cases started with
  | error e => simp [afterStart]
  | ok live => exact (h live rfl).calls calls

end Calls

/-! ## The handshake -/

section Starts

variable {V : VariableLen} {W : Type} [AsyncWrite W] {Sk Pk Seed : Type} {rsa : Rsa Sk Pk Seed}
  {flate : Flate} {aead : Aead}

/-- What a cipher is for a party. -/
theorem sound_of_map_sealed {ε α : Type} {started : Except ε α} {cipherOf : α → Cipher}
    {payload : Payload} (h : ∀ a, started = .ok a → (cipherOf a).poisoned = false) {live : Live}
    (hlive : started.map (fun a => .sealed payload (cipherOf a)) = .ok live) : live.Sound := by
  cases started with
  | error e => cases hlive
  | ok a =>
    obtain rfl := Except.ok.inj hlive
    exact h a rfl

theorem sound_of_map_plain {ε α : Type} {started : Except ε α} {body : Body} {live : Live}
    (hlive : started.map (fun _ => .plain body) = .ok live) : live.Sound := by
  cases started with
  | error e => cases hlive
  | ok a =>
    obtain rfl := Except.ok.inj hlive
    trivial

theorem clientSession_sound {protocol : ProtocolVariant}
    {last : Except StarterError (ClientInit Sk protocol)} {reply : Bytes} {live : Live}
    (h : ((clientSession V rsa flate protocol last).outcome reply).1 = .ok live) : live.Sound := by
  cases protocol with
  | raw | compression =>
    simp only [clientSession, Io.outcome_bind_pure] at h
    exact sound_of_map_plain h
  | encryption | compressEncryption =>
    simp only [clientSession, Io.outcome_bind_pure] at h
    refine sound_of_map_sealed (fun cipher hcipher => ?_) h
    obtain ⟨inner, rfl⟩ := Sealed.clientStart_eq_new hcipher
    rfl

theorem serverSession_sound {aesKey : AesKey} {nonce : Nonce} {seed : Seed}
    {identifier version : String} {protocol : ProtocolVariant}
    {last : Except StarterError (ServerInit Pk protocol)} {writer : W} {live : Live}
    (h : ((serverSession V rsa flate aesKey nonce seed identifier version protocol last).outcome
      writer).1 = .ok live) : live.Sound := by
  cases protocol with
  | raw | compression =>
    simp only [serverSession, Io.outcome_bind_pure] at h
    exact sound_of_map_plain h
  | encryption | compressEncryption =>
    simp only [serverSession, Io.outcome_bind_pure] at h
    refine sound_of_map_sealed (fun started hstarted => ?_) h
    rw [Sealed.serverStart_eq_new hstarted]
    rfl

/-- `client_start` panics exactly when the key does not fit. -/
theorem panicked_clientSession {protocol : ProtocolVariant}
    {last : Except StarterError (ClientInit Sk protocol)} {reply : Bytes} :
    panicked ((clientSession V rsa flate protocol last).outcome reply).1 = false ↔
      KeyFits V rsa protocol last reply := by
  cases protocol with
  | raw | compression =>
    simp only [clientSession, Io.outcome_bind_pure, panicked_map, panicked_mapError, KeyFits]
  | encryption | compressEncryption =>
    simp only [clientSession, Io.outcome_bind_pure, panicked_map, KeyFits]
    constructor
    · intro h sk encryptedAes aes t u rest nonce hlast hstatus hkey hnonce hdecrypt
      by_contra haes
      have hpanic := congrArg panicked (Sealed.panic_clientStart_iff.mpr
        ⟨sk, encryptedAes, aes, t, u, rest, nonce, hlast, hstatus, hkey, hnonce, hdecrypt, haes⟩)
      exact Bool.false_ne_true (h.symm.trans hpanic)
    · intro h
      apply panicked_eq_false
      intro hpanic
      obtain ⟨sk, encryptedAes, aes, t, u, rest, nonce, hlast, hstatus, hkey, hnonce, hdecrypt,
        haes⟩ := Sealed.panic_clientStart_iff.mp hpanic
      exact haes (h sk encryptedAes aes t u rest nonce hlast hstatus hkey hnonce hdecrypt)

end Starts

/-- A server never panics.  A client panics, in `client_start`, exactly when the
server seals something else than an AES key for it. -/
theorem panic_free_iff (V : VariableLen) {W : Type} [AsyncWrite W] {Sk Pk Seed : Type}
    (rsa : Rsa Sk Pk Seed) (flate : Flate) (aead : Aead) (protocol : ProtocolVariant)
    (calls : List (Call W)) :
    (∀ incoming identifier version versionPrediction aesKey nonce seed writer,
      true ∉ serverLife V rsa flate aead protocol incoming identifier version versionPrediction
        aesKey nonce seed writer calls) ∧
      ∀ last reply, true ∉ clientLife V rsa flate aead protocol last reply calls ↔
        KeyFits V rsa protocol last reply := by
  constructor
  · intro incoming identifier version versionPrediction aesKey nonce seed writer
    simp only [serverLife, panicked_error, List.mem_cons, Bool.true_eq_false, false_or]
    exact not_mem_afterStart (fun _ => serverSession_sound) calls
  · intro last reply
    simp only [clientLife, List.mem_cons, not_or]
    constructor
    · rintro ⟨hstart, _⟩
      exact panicked_clientSession.mp (by simpa using hstart)
    · intro hfits
      refine ⟨?_, not_mem_afterStart (fun _ => clientSession_sound) calls⟩
      rw [panicked_clientSession.mpr hfits]
      decide

/-- A server that seals 31 bytes makes its client panic. -/
theorem client_panics :
    ¬ ∀ (V : VariableLen) (W : Type) (_ : AsyncWrite W) (Sk Pk Seed : Type) (rsa : Rsa Sk Pk Seed)
      (flate : Flate) (aead : Aead) (protocol : ProtocolVariant)
      (last : Except StarterError (ClientInit Sk protocol)) (reply : Bytes) (calls : List (Call W)),
      true ∉ clientLife V rsa flate aead protocol last reply calls := by
  intro h
  have hlife := h Reference.variableLen Bytes inferInstance Unit Unit Unit Reference.rsa
    Reference.flate Reference.aead .encryption (.ok ())
    (3 :: 31 :: List.replicate 31 0 ++ List.replicate 12 0) []
  revert hlife
  decide

end TcpHandler.Session.Life
