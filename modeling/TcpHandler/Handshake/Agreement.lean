/-
  Handshake/Agreement.lean --- the four halves of a handshake, run against each
  other over reliable streams.

  `client_init` and `server_start` only write, `server_init` and `client_start`
  only read, and a reader waits for the bytes it needs.  However the two parties
  are scheduled, `server_init` therefore reads what `client_init` wrote, and
  `client_start` what `server_start` wrote.  Behind the bytes of the handshake
  there may be data bytes already; they are the two tails.
-/
import TcpHandler.Protocols.Variants
import TcpHandler.Session.Ciphered

set_option autoImplicit false

namespace TcpHandler.Handshake

open TcpHandler.Foundation TcpHandler.Protocols
open TcpHandler.Protocols.Variants

/-- What the two parties return, and the bytes they have not read. -/
structure Outcome where
  server : Except StarterError (Option Cipher × UInt16 × String)
  serverLeft : Bytes
  client : Except (Fault StarterError) (Option Cipher)
  clientLeft : Bytes

section Handshake

variable (V : VariableLen) {Sk Pk Seed : Type} (rsa : Rsa Sk Pk Seed)

/-- A client of protocol `pc` against a server of protocol `ps`. -/
def handshake (pc ps : ProtocolVariant) (ic is vc vs : String) (P : String → Bool) (sk : Sk)
    (aesKey : AesKey) (nonce : Nonce) (seed : Seed) (clientTail serverTail : Bytes) : Outcome :=
  let (init, toServer) := (clientInit V rsa (.ok sk) ic vc pc).outcome ([] : Bytes)
  let (read, serverLeft) := (serverInit V rsa is P ps).outcome (toServer ++ clientTail)
  let (server, toClient) :=
    (serverStart V rsa aesKey nonce seed is vs ps read).outcome ([] : Bytes)
  let (client, clientLeft) := (clientStart V rsa pc init).outcome (toClient ++ serverTail)
  { server, serverLeft, client, clientLeft }

end Handshake

/-- What a handshake owes its parties.

* `accepted_iff`: the server accepts when protocol, identifier and version suit it.
* `accepted`: both parties return `Ok`; the server has protocol version 1 and the
  version of the client; with a cipher, both ciphers hold the key and the nonce
  the server drew; each party has read the other's handshake and nothing else.
* `rejected`: both return the error of the first check that fails, each with the
  value of the other side. -/
structure Agreed (pc ps : ProtocolVariant) (ic is vc vs : String) (P : String → Bool)
    (aesKey : AesKey) (nonce : Nonce) (clientTail serverTail : Bytes) (h : Outcome) : Prop where
  accepted_iff : (∃ result, h.server = .ok result) ↔ pc = ps ∧ ic = is ∧ P vc = true
  accepted : pc = ps → ic = is → P vc = true →
    h.server = .ok (sessionCipher aesKey nonce ps, 1, vc) ∧
      h.client = .ok (sessionCipher aesKey nonce pc) ∧
      h.serverLeft = clientTail ∧ h.clientLeft = serverTail
  rejected : ∀ r, firstFailing pc ps ic is vc P = some r →
    h.server = .error (r.error pc ic vc) ∧ h.client = .error (.error (r.error ps is vs))

section Agreement

variable (V : VariableLen) {Sk Pk Seed : Type} (rsa : Rsa Sk Pk Seed)

/-- Writing slices to a reliable stream and flushing it. -/
theorem outcome_writeFlush {α : Type} (chunks : List Bytes) (a : α) (w : Bytes) :
    (do
      (writeChunks chunks).mapError StarterError.io
      flush.mapError StarterError.io
      return a : Io Bytes StarterError α).outcome w = (.ok a, w ++ chunks.flatten) := by
  apply Io.outcome_of_ok
  simp only [EStateM.run_bind, Io.run_mapError, run_writeChunks_bytes, flush, run_flush_bytes,
    EStateM.run_pure]

theorem outcome_clientInit (sk : Sk) (identifier version : String) (protocol : ProtocolVariant) :
    (clientInit V rsa (.ok sk) identifier version protocol).outcome ([] : Bytes) =
      (.ok (kept sk protocol), (clientWrites V rsa sk identifier version protocol).flatten) := by
  rw [clientInit_eq, outcome_writeFlush, List.nil_append]

/-- What `server_start` writes for a client that passed every check. -/
theorem outcome_serverStart_accepted (protocol : ProtocolVariant) (is vs vc : String)
    (aesKey : AesKey) (nonce : Nonce) (seed : Seed) {pk : Pk} {encryptedAes : Bytes}
    (hencrypt : rsa.encrypt pk seed aesKey.bytes = .ok encryptedAes) :
    (serverStart V rsa aesKey nonce seed is vs protocol (.ok (accepted pk vc protocol))).outcome
      ([] : Bytes) =
      (.ok (sessionCipher aesKey nonce protocol, magicVersion, vc),
        (acceptWrites V encryptedAes nonce protocol).flatten) := by
  rw [serverStart_ok_eq V rsa aesKey nonce seed is vs vc hencrypt, outcome_writeFlush,
    List.nil_append]

/-- What `server_start` writes for a client that failed a check. -/
theorem outcome_serverStart_rejected (pc ps : ProtocolVariant) (ic vc is vs : String)
    (aesKey : AesKey) (nonce : Nonce) (seed : Seed) (r : Rejection) :
    (serverStart V rsa aesKey nonce seed is vs ps (.error (r.error pc ic vc))).outcome
        ([] : Bytes) =
      (.error (r.error pc ic vc), (rejectWrites V ps is vs r).flatten) := by
  rw [serverStart_error_eq]
  apply Io.outcome_of_error
  simp only [EStateM.run_bind, Io.run_mapError, run_writeChunks_bytes, List.nil_append,
    Io.run_throw]

/-- A handshake that passes every check. -/
theorem handshake_accepted (pc : ProtocolVariant) (ic vc vs : String) {P : String → Bool}
    (hP : P vc = true) (sk : Sk) (aesKey : AesKey) (nonce : Nonce) (seed : Seed)
    (clientTail serverTail : Bytes) :
    handshake V rsa pc pc ic ic vc vs P sk aesKey nonce seed clientTail serverTail =
      ⟨.ok (sessionCipher aesKey nonce pc, magicVersion, vc), clientTail,
        .ok (sessionCipher aesKey nonce pc), serverTail⟩ := by
  obtain ⟨pk, hpk, hkey⟩ := rsa.honest sk
  obtain ⟨encryptedAes, hencrypt, hdecrypt⟩ := hkey seed aesKey
  have hinit : (serverInit V rsa ic P pc).run _ = .ok (accepted pk vc pc) clientTail :=
    run_serverInit_accepted hpk hP ic pc clientTail
  have hclient : (clientStart V rsa pc (.ok (kept sk pc))).run _ =
      .ok (sessionCipher aesKey nonce pc) serverTail :=
    run_clientStart_accepted hdecrypt pc serverTail
  simp only [handshake, outcome_clientInit, Io.outcome_of_ok hinit,
    outcome_serverStart_accepted V rsa pc ic vs vc aesKey nonce seed hencrypt,
    Io.outcome_of_ok hclient]

/-- A handshake that fails a check. -/
theorem handshake_rejected {pc ps : ProtocolVariant} {ic is vc : String} {P : String → Bool}
    {r : Rejection} (hfirst : firstFailing pc ps ic is vc P = some r) (vs : String) (sk : Sk)
    (aesKey : AesKey) (nonce : Nonce) (seed : Seed) (clientTail serverTail : Bytes) :
    ∃ serverLeft, handshake V rsa pc ps ic is vc vs P sk aesKey nonce seed clientTail serverTail =
      ⟨.error (r.error pc ic vc), serverLeft, .error (.error (r.error ps is vs)), serverTail⟩ := by
  have hinit : ∃ left, (serverInit V rsa is P ps).run _ = .error (r.error pc ic vc) left :=
    run_serverInit_rejected hfirst sk clientTail
  obtain ⟨left, hinit⟩ := hinit
  have hclient : (clientStart V rsa pc (.ok (kept sk pc))).run _ =
      .error (.error (r.error ps is vs)) serverTail :=
    run_clientStart_error (run_readLast_rejected (kept sk pc) ps is vs r serverTail)
  refine ⟨left, ?_⟩
  simp only [handshake, outcome_clientInit, Io.outcome_of_error hinit,
    outcome_serverStart_rejected, Io.outcome_of_error hclient]

/-- Whatever the variants, the strings and the predicate, the two parties agree. -/
theorem agreement (pc ps : ProtocolVariant) (ic is vc vs : String) (P : String → Bool) (sk : Sk)
    (aesKey : AesKey) (nonce : Nonce) (seed : Seed) (clientTail serverTail : Bytes) :
    Agreed pc ps ic is vc vs P aesKey nonce clientTail serverTail
      (handshake V rsa pc ps ic is vc vs P sk aesKey nonce seed clientTail serverTail) where
  accepted_iff := by
    rw [← firstFailing_eq_none]
    cases hfirst : firstFailing pc ps ic is vc P with
    | some r =>
      obtain ⟨left, h⟩ :=
        handshake_rejected V rsa hfirst vs sk aesKey nonce seed clientTail serverTail
      simp [h]
    | none =>
      obtain ⟨rfl, rfl, hP⟩ := firstFailing_eq_none.mp hfirst
      simp [handshake_accepted V rsa _ _ _ _ hP]
  accepted := by
    rintro rfl rfl hP
    rw [handshake_accepted V rsa _ _ _ _ hP]
    exact ⟨rfl, rfl, rfl, rfl⟩
  rejected r hfirst := by
    obtain ⟨left, h⟩ :=
      handshake_rejected V rsa hfirst vs sk aesKey nonce seed clientTail serverTail
    rw [h]
    exact ⟨rfl, rfl⟩

end Agreement

/-! ## The session that follows -/

/-- An accepted handshake of a protocol with a cipher leaves the two parties
where a ciphered session starts. -/
theorem start_of_handshake (V : VariableLen) {Sk Pk Seed : Type} (rsa : Rsa Sk Pk Seed)
    {pc : ProtocolVariant} (hcipher : pc = .encryption ∨ pc = .compressEncryption)
    (ic vc vs : String) {P : String → Bool} (hP : P vc = true) (sk : Sk) (aesKey : AesKey)
    (nonce : Nonce) (seed : Seed) :
    ∃ client server : Cipher,
      handshake V rsa pc pc ic ic vc vs P sk aesKey nonce seed [] [] =
        ⟨.ok (some server, magicVersion, vc), [], .ok (some client), []⟩ ∧
      Session.Ciphered.ofCiphers (fun p => match p with | .client => client | .server => server) =
        Session.Ciphered.start aesKey nonce := by
  refine ⟨Cipher.new (aesKey, nonce), Cipher.new (aesKey, nonce), ?_, ?_⟩
  · rw [handshake_accepted V rsa pc ic vc vs hP]
    cases hcipher with
    | inl h => subst h; rfl
    | inr h => subst h; rfl
  · rw [Session.Ciphered.start]
    exact congrArg _ (funext fun p => by cases p <;> rfl)

end TcpHandler.Handshake
