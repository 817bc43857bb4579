/-
  Handshake/Cut.lean --- handshakes whose streams end too early.

  Each half of a handshake is read field by field, and a reader of a field notices
  a stream that ends inside it.  The reader of two booleans may take the end of the
  stream for two zeros; then the next field is missing, or the zeros reject.  What is
  left to show is that no half is accepted before its last field: the key of the
  client stands behind its head, the nonce of the server behind its status and its
  key.
-/
import TcpHandler.Handshake.Agreement

set_option autoImplicit false

namespace TcpHandler.Handshake

open TcpHandler.Foundation TcpHandler.Protocols
open TcpHandler.Protocols.Variants

section Fields

variable {V : VariableLen}

/-- Two booleans that are cut are missing, or read as two zeros at the end of the
stream. -/
theorem notices_bools2 (hV : V.FailsWhenCut) {β : Type} {k : Bool × Bool → Io Bytes StarterError β}
    (bools : Bool × Bool) {bytes : Bytes} (hk : Io.Notices (fun _ => True) (k bools) bytes)
    (hend : ∃ e left, (k (false, false)).run [] = .error e left) :
    Io.Notices (fun _ => True) (V.bools2.read.mapError StarterError.io >>= k)
      (V.bools2.encode bools ++ bytes) := by
  intro cut hpre hne
  rcases Io.cut_append hpre hne with ⟨hpre, hne⟩ | ⟨cut', rfl, hpre', hne'⟩
  · by_cases hnil : cut = []
    · subst hnil
      rcases hV.bools2_end with ⟨e, left, hread⟩ | hread
      · exact ⟨_, left, Io.run_bind_of_error (Io.run_mapError_of_error hread) k, trivial⟩
      · obtain ⟨e, left, hnext⟩ := hend
        exact ⟨e, left, (Io.run_bind_of_ok (Io.run_mapError_of_ok hread) k).trans hnext, trivial⟩
    · obtain ⟨e, left, hread⟩ := hV.bools2 bools cut hpre hne
      rw [WireField.run_opened _ hnil] at hread
      exact ⟨_, left, Io.run_bind_of_error (Io.run_mapError_of_error hread) k, trivial⟩
  · obtain ⟨e, left, hnext, _⟩ := hk cut' hpre' hne'
    refine ⟨e, left, ?_, trivial⟩
    rw [Io.run_bind_of_ok (Io.run_mapError_of_ok (V.bools2.takes_encode bools cut'))]
    exact hnext

/-- There is no string at the end of a stream. -/
theorem run_string_nil (hV : V.FailsWhenCut) : ∃ e left, V.string.read.run [] = .error e left :=
  hV.string "" [] List.nil_prefix (V.string.encode_ne_nil "").symm

/-- A head that is cut is refused, whatever the server asks for. -/
theorem notices_readHead (hV : V.FailsWhenCut) (pc ps : ProtocolVariant) (ic is vc : String)
    (P : String → Bool) :
    Io.Notices (fun _ => True) (readHead V ps is P) (head V pc ic vc) := by
  have hmagic : Io.Notices (fun _ => True) (V.readMore 4) magicBytes := by
    rw [V.readMore_eq]
    exact (Io.notices_readExactly 4 (by decide)).mono fun _ _ => trivial
  have htakes : Io.Takes (V.readMore 4) magicBytes magicBytes := V.readMore_append magicBytes
  rw [head_eq]
  refine hmagic.checked (fun _ _ => trivial) htakes trivial fun _ => ?_
  refine (V.u16RawBe_failsWhenCut.notices _).checked (fun _ _ => trivial)
    (V.u16RawBe.takes_encode _) trivial fun _ => ?_
  refine notices_bools2 hV _ (Io.Notices.ensure trivial fun _ => ?_) ?_
  case refine_2 =>
    -- two zeros at the end of the stream: the variant is wrong, or no identifier follows
    obtain ⟨e, left, hread⟩ := run_string_nil hV
    by_cases hvariant : ProtocolVariant.ofBools (false, false) = ps
    · refine ⟨.io e, left, ?_⟩
      rw [EStateM.run_bind, Io.run_ensure, if_pos hvariant]
      exact Io.run_bind_of_error (Io.run_mapError_of_error hread) _
    · refine ⟨.invalidProtocol (.ofBools (false, false)), [], Io.run_bind_of_error ?_ _⟩
      rw [Io.run_ensure, if_neg hvariant]
  refine (hV.string.notices _).checked (fun _ _ => trivial) (V.string.takes_encode _)
    trivial fun _ => ?_
  exact ((hV.string.notices vc).mapError fun _ _ => trivial).last

/-- A public key that is cut is refused. -/
theorem notices_keys (hV : V.FailsWhenCut) {Sk Pk Seed : Type} (rsa : Rsa Sk Pk Seed)
    (versions : UInt16 × String) (n e : Bytes) :
    Io.Notices (fun _ => True)
      (do
        let n ← V.u8Vec.read.mapError .io
        let e ← V.u8Vec.read.mapError .io
        let key ← Io.ofExcept (composeRsaPublic rsa n e)
        return (versions, key) : Io Bytes StarterError ((UInt16 × String) × Pk))
      (V.u8Vec.encode n ++ V.u8Vec.encode e) := by
  refine ((hV.u8Vec.notices n).mapError fun _ _ => trivial).seq
    ((V.u8Vec.takes_encode n).mapError _) ?_
  exact ((hV.u8Vec.notices e).mapError fun _ _ => trivial).last

/-- Behind the end of a stream there is no variant either. -/
theorem run_afterStatus_nil (hV : V.FailsWhenCut) {E : Type} (k : E) :
    ∃ e left, (afterStatus V k (false, false)).run [] = .error e left := by
  rcases hV.bools2_end with ⟨e, left, hread⟩ | hread
  · exact ⟨_, left, Io.run_bind_of_error (Io.run_mapError_of_error hread) _⟩
  · exact ⟨_, [], Io.run_bind_of_ok (Io.run_mapError_of_ok hread) _⟩

/-- A status that is cut is refused, and so is one whose field is cut. -/
theorem notices_readLast (hV : V.FailsWhenCut) {E : Type} (k : E) {status : Bool × Bool}
    {bytes : Bytes} (hfield : Io.Notices (fun _ => True) (afterStatus V k status) bytes) :
    Io.Notices (fun _ => True) (readLast V (.ok k)) (V.bools2.encode status ++ bytes) := by
  rw [readLast_ok]
  exact notices_bools2 hV status hfield (run_afterStatus_nil hV k)

/-- Of nothing, nothing can be cut. -/
theorem notices_nil {ε α : Type} {E : ε → Prop} (x : Io Bytes ε α) : Io.Notices E x [] :=
  fun _ hpre hne => absurd (List.prefix_nil.mp hpre) hne

/-- An acceptance that is cut is refused. -/
theorem notices_readLast_accept (hV : V.FailsWhenCut) {E : Type} (k : E) :
    Io.Notices (fun _ => True) (readLast V (.ok k)) (V.bools2.encode (true, true)) := by
  have hstatus : Io.Notices (fun _ => True) (readLast V (.ok k))
      (V.bools2.encode (true, true) ++ []) := notices_readLast hV k (notices_nil _)
  rwa [List.append_nil] at hstatus

/-- A rejection that is cut is refused. -/
theorem notices_readLast_reject (hV : V.FailsWhenCut) {E : Type} (k : E) (ps : ProtocolVariant)
    (is vs : String) (r : Rejection) :
    Io.Notices (fun _ => True) (readLast V (.ok k)) (rejectWrites V ps is vs r).flatten := by
  rw [rejectWrites, List.flatten_append]
  refine notices_readLast hV k ?_
  cases r with
  | protocol =>
    have hvariant := notices_bools2 hV ps.toBools
      (k := fun protocol =>
        (throw (.invalidProtocol (.ofBools protocol)) : Io Bytes StarterError E))
      (notices_nil _) ⟨_, [], rfl⟩
    rwa [List.append_nil] at hvariant
  | identifier => exact ((hV.string.notices is).mapError fun _ _ => trivial).last
  | version => exact ((hV.string.notices vs).mapError fun _ _ => trivial).last

end Fields

/-! ## The halves of a handshake -/

section Halves

variable {V : VariableLen} {Sk Pk Seed : Type} {rsa : Rsa Sk Pk Seed}

/-- `server_init` refuses every part of what a client writes. -/
theorem notices_serverInit (hV : V.FailsWhenCut) (pc ps : ProtocolVariant) (ic is vc : String)
    (P : String → Bool) (sk : Sk) :
    Io.Notices (fun _ => True) (serverInit V rsa is P ps)
      (clientWrites V rsa sk ic vc pc).flatten := by
  have hhead := notices_readHead hV pc ps ic is vc P
  rw [clientWrites, List.flatten_append]
  cases hfirst : firstFailing pc ps ic is vc P with
  | some r =>
    -- the head alone is refused
    intro cut hpre hne
    rcases Io.cut_append hpre hne with ⟨hpre, hne⟩ | ⟨cut', rfl, _, _⟩
    · obtain ⟨e, left, hread, _⟩ := hhead cut hpre hne
      exact ⟨e, left, run_serverInit_error hread, trivial⟩
    · obtain ⟨left, hread⟩ := run_readHead_rejected (V := V) hfirst cut'
      exact ⟨_, left, run_serverInit_error hread, trivial⟩
  | none =>
    obtain ⟨rfl, rfl, hP⟩ := firstFailing_eq_none.mp hfirst
    have htakes : Io.Takes (readHead V pc ic P) (head V pc ic vc) (magicVersion, vc) := by
      intro rest
      rw [run_readHead_head, if_pos rfl, if_pos rfl, if_pos hP]
    cases pc with
    | raw | compression =>
      rw [keyWrites, List.flatten_nil, List.append_nil]
      exact hhead
    | encryption | compressEncryption =>
      rw [keyWrites, List.flatten_append]
      exact hhead.seq htakes (notices_keys hV rsa _ _ _)

/-- An error of `client_start` that is no panic. -/
def Refusal (e : Fault StarterError) : Prop := ∃ error, e = .error error

/-- `client_start` of a protocol with a cipher refuses every part of an acceptance. -/
theorem notices_clientStart_sealed (hV : V.FailsWhenCut) (sk : Sk) (encryptedAes : Bytes)
    (nonce : Nonce) :
    Io.Notices Refusal (Sealed.clientStart V rsa (.ok sk))
      (V.bools2.encode (true, true) ++ (V.u8Vec.encode encryptedAes ++ nonce.bytes)) := by
  have hlast : Io.Notices Refusal ((readLast V (.ok sk)).mapError .error)
      (V.bools2.encode (true, true)) :=
    (notices_readLast_accept hV sk).mapError fun e _ => ⟨e, rfl⟩
  have htakes : Io.Takes ((readLast V (.ok sk)).mapError Fault.error)
      (V.bools2.encode (true, true)) sk :=
    Io.Takes.mapError (fun rest => run_readLast_accept V sk rest) _
  refine hlast.seq htakes ?_
  refine ((hV.u8Vec.notices encryptedAes).mapError fun e _ => ⟨_, rfl⟩).seq
    ((V.u8Vec.takes_encode encryptedAes).mapError _) ?_
  exact ((notices_readNonce V nonce).mapError fun e _ => ⟨_, rfl⟩).last

/-- `client_start` refuses every part of an acceptance. -/
theorem notices_clientStart_accept (hV : V.FailsWhenCut) (sk : Sk) (encryptedAes : Bytes)
    (nonce : Nonce) (protocol : ProtocolVariant) :
    Io.Notices Refusal (clientStart V rsa protocol (.ok (kept sk protocol)))
      (acceptWrites V encryptedAes nonce protocol).flatten := by
  cases protocol with
  | raw | compression =>
    exact ((notices_readLast_accept hV ()).mapError fun e _ => ⟨e, rfl⟩).last
  | encryption | compressEncryption =>
    rw [acceptWrites, List.flatten_append, List.flatten_append, List.flatten_singleton]
    exact (notices_clientStart_sealed hV sk encryptedAes nonce).last

/-- `client_start` refuses every part of a rejection. -/
theorem notices_clientStart_reject (hV : V.FailsWhenCut) (sk : Sk) (pc ps : ProtocolVariant)
    (is vs : String) (r : Rejection) :
    Io.Notices Refusal (clientStart V rsa pc (.ok (kept sk pc)))
      (rejectWrites V ps is vs r).flatten := by
  intro cut hpre hne
  obtain ⟨e, left, hread, _⟩ := notices_readLast_reject hV (kept sk pc) ps is vs r cut hpre hne
  exact ⟨.error e, left, run_clientStart_error hread, e, rfl⟩

/-- The reply of a server that failed is no acceptance. -/
theorem not_accept_of_error (ps : ProtocolVariant) (is vs : String) {E : Type} (e : StarterError) :
    ¬ V.bools2.encode (true, true) <+:
      (replyWrites V ps is vs (.error e : Except StarterError E)).flatten := by
  have hstatus : ∀ status rest, V.bools2.encode (true, true) <+: V.bools2.encode status ++ rest →
      status = (true, true) := by
    rintro status rest ⟨tail, htail⟩
    exact (V.bools2.encode_append_inj htail).1.symm
  intro haccept
  cases e with
  | invalidProtocol received
  | invalidIdentifier received
  | invalidVersion received =>
    rw [replyWrites, List.flatten_append] at haccept
    cases hstatus _ _ haccept
  | invalidStream | io error | rsa error =>
    exact V.bools2.encode_ne_nil (true, true) (List.prefix_nil.mp haccept)

/-- What `server_start` does after a `server_init` that failed. -/
theorem outcome_serverStart_failed (ps : ProtocolVariant) (is vs : String) (aesKey : AesKey)
    (nonce : Nonce) (seed : Seed) (e : StarterError) (w : Bytes) :
    (serverStart V rsa aesKey nonce seed is vs ps (.error e)).outcome w =
      (.error e, w ++ (replyWrites V ps is vs
        (.error e : Except StarterError (ServerInit Pk ps))).flatten) := by
  rw [serverStart_failed_eq]
  apply Io.outcome_of_error
  simp only [EStateM.run_bind, Io.run_mapError, run_writeChunks_bytes, Io.run_throw]

end Halves

/-! ## Handshakes -/

section Transcripts

variable (V : VariableLen) {Sk Pk Seed : Type} (rsa : Rsa Sk Pk Seed)

/-- What `client_init` writes: the head and the key fields. -/
def request (pc : ProtocolVariant) (ic vc : String) (sk : Sk) : Bytes :=
  ((clientInit V rsa (.ok sk) ic vc pc).outcome ([] : Bytes)).2

/-- What `server_start` writes for a request that arrived whole. -/
def reply (pc ps : ProtocolVariant) (ic is vc vs : String) (P : String → Bool) (sk : Sk)
    (aesKey : AesKey) (nonce : Nonce) (seed : Seed) : Bytes :=
  let read := ((serverInit V rsa is P ps).outcome (request V rsa pc ic vc sk)).1
  ((serverStart V rsa aesKey nonce seed is vs ps read).outcome ([] : Bytes)).2

theorem request_eq (pc : ProtocolVariant) (ic vc : String) (sk : Sk) :
    request V rsa pc ic vc sk = (clientWrites V rsa sk ic vc pc).flatten := by
  rw [request, outcome_clientInit]

/-- A reply accepts the client's own protocol, or rejects. -/
theorem reply_eq (pc ps : ProtocolVariant) (ic is vc vs : String) (P : String → Bool) (sk : Sk)
    (aesKey : AesKey) (nonce : Nonce) (seed : Seed) :
    (∃ encryptedAes, reply V rsa pc ps ic is vc vs P sk aesKey nonce seed =
      (acceptWrites V encryptedAes nonce pc).flatten) ∨
    ∃ r, reply V rsa pc ps ic is vc vs P sk aesKey nonce seed =
      (rejectWrites V ps is vs r).flatten := by
  cases hfirst : firstFailing pc ps ic is vc P with
  | none =>
    obtain ⟨rfl, rfl, hP⟩ := firstFailing_eq_none.mp hfirst
    obtain ⟨pk, hpk, hkey⟩ := rsa.honest sk
    obtain ⟨encryptedAes, hencrypt, _⟩ := hkey seed aesKey
    have hinit : (serverInit V rsa ic P pc).run _ = .ok (accepted pk vc pc) [] :=
      run_serverInit_accepted hpk hP ic pc []
    rw [List.append_nil] at hinit
    refine .inl ⟨encryptedAes, ?_⟩
    rw [reply, request_eq, Io.outcome_of_ok hinit,
      outcome_serverStart_accepted V rsa pc ic vs vc aesKey nonce seed hencrypt]
  | some r =>
    have hinit : ∃ left, (serverInit V rsa is P ps).run _ = .error (r.error pc ic vc) left :=
      run_serverInit_rejected hfirst sk []
    rw [List.append_nil] at hinit
    obtain ⟨left, hinit⟩ := hinit
    refine .inr ⟨r, ?_⟩
    rw [reply, request_eq, Io.outcome_of_error hinit, outcome_serverStart_rejected]

variable {V rsa}

/-- Every part of a request is refused, and the refusal is no acceptance. -/
theorem serverInit_cut (hV : V.FailsWhenCut) (pc ps : ProtocolVariant) (ic is vc vs : String)
    (P : String → Bool) (sk : Sk) (aesKey : AesKey) (nonce : Nonce) (seed : Seed) {n : Nat}
    (hcut : n < (request V rsa pc ic vc sk).length) :
    ∃ e left written,
      (serverInit V rsa is P ps).run ((request V rsa pc ic vc sk).take n) = .error e left ∧
      (serverStart V rsa aesKey nonce seed is vs ps (.error e)).outcome ([] : Bytes) =
        (.error e, written) ∧
      ¬ V.bools2.encode (true, true) <+: written := by
  rw [request_eq] at hcut ⊢
  obtain ⟨e, left, hread, _⟩ := (notices_serverInit hV pc ps ic is vc P sk).take hcut
  exact ⟨e, left, _, hread, outcome_serverStart_failed ps is vs aesKey nonce seed e [],
    not_accept_of_error ps is vs e⟩

/-- Every part of a reply is refused. -/
theorem clientStart_cut (hV : V.FailsWhenCut) (pc ps : ProtocolVariant) (ic is vc vs : String)
    (P : String → Bool) (sk : Sk) (aesKey : AesKey) (nonce : Nonce) (seed : Seed) {n : Nat}
    (hcut : n < (reply V rsa pc ps ic is vc vs P sk aesKey nonce seed).length) :
    ∃ e left, (clientStart V rsa pc (.ok (kept sk pc))).run
      ((reply V rsa pc ps ic is vc vs P sk aesKey nonce seed).take n) = .error (.error e) left := by
  have hnotices : Io.Notices Refusal (clientStart V rsa pc (.ok (kept sk pc)))
      (reply V rsa pc ps ic is vc vs P sk aesKey nonce seed) := by
    rcases reply_eq V rsa pc ps ic is vc vs P sk aesKey nonce seed with
      ⟨encryptedAes, hreply⟩ | ⟨r, hreply⟩
    · rw [hreply]
      exact notices_clientStart_accept hV sk encryptedAes nonce pc
    · rw [hreply]
      exact notices_clientStart_reject hV sk pc ps is vs r
  obtain ⟨_, left, hread, e, rfl⟩ := hnotices.take hcut
  exact ⟨e, left, hread⟩

end Transcripts

end TcpHandler.Handshake
