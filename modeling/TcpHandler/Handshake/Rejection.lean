/-
  Handshake/Rejection.lean --- rejected handshakes through the buffered handlers.

  A `server_start` that rejects returns before its `flush`, and the constructor
  drops the `BufWriter` with the reply still in it.  The client finds the end of
  the stream instead of the reply, unless the reply was too large to be held.

  What it makes of the end is up to the reader of two booleans.  One that returns two
  zeros there makes it the rejection of a `raw` server for its protocol, which is
  true when the server is one and the reason is the protocol (`ToldByEnd`).
-/
import TcpHandler.Protocols.Reference
import TcpHandler.Streams.Handlers

set_option autoImplicit false

namespace TcpHandler.Handshake

open TcpHandler.Foundation TcpHandler.Protocols TcpHandler.Streams
open TcpHandler.Protocols.Variants

/-- The reply to a rejected client is at least as large as the buffer: it carries
a string of the server that is. -/
def FillsBuffer (capacity : Nat) (identifier version : String) (r : Rejection) : Prop :=
  ∃ s, r.text identifier version = some s ∧ capacity ≤ (asBytes s).length

/-- A stream that has ended reads like the reply to the rejected client. -/
def ToldByEnd (V : VariableLen) (ps : ProtocolVariant) (r : Rejection) : Prop :=
  r = .protocol ∧ ps = .raw ∧ V.bools2.read.run [] = .ok (false, false) []

/-! ## Replies that are cut -/

section Reply

variable {V : VariableLen} {E : Type}

/-- What a client without a reply is told. -/
theorem told_of_nil (hV : V.Sliced) (k : E) (ps : ProtocolVariant) (is vs : String)
    (r : Rejection) :
    ∃ e left, (readLast V (.ok k)).run [] = .error e left ∧
      (e = r.error ps is vs ↔ ToldByEnd V ps r) := by
  rcases run_readLast_nil V hV.bools2_end k with ⟨e, left, hread, hlast⟩ | ⟨hend, hlast⟩
  · refine ⟨.io e, left, hlast, iff_of_false (by cases r <;> simp [Rejection.error]) ?_⟩
    rintro ⟨_, _, hend⟩
    rw [hread] at hend
    cases hend
  · refine ⟨.invalidProtocol .raw, [], hlast, ?_⟩
    cases r <;> simp [Rejection.error, ToldByEnd, hend, eq_comm]

/-- A client whose reply ends inside the identifier or the version. -/
theorem run_readLast_cut (hV : V.Sliced) (k : E) {r : Rejection} {is vs s : String}
    (htext : r.text is vs = some s) {cut : Bytes} (hcut : cut <+: V.string.encode s)
    (hne : cut ≠ V.string.encode s) :
    ∃ e left, (readLast V (.ok k)).run (V.bools2.encode r.status ++ cut) = .error (.io e) left := by
  obtain ⟨e, left, hread⟩ := hV.string_cut s cut hcut hne
  refine ⟨e, left, ?_⟩
  cases r with
  | protocol => cases htext
  | identifier | version =>
    simp only [readLast, Rejection.status, EStateM.run_bind, Io.run_ofExcept_ok, Io.run_mapError,
      WireField.run_read_encode, hread]

end Reply

/-! ## What arrives of a rejection -/

section Delivery

variable {V : VariableLen} {W : Type} [AsyncWrite W] (B : Buffering W) (ps : ProtocolVariant)
  (is vs : String) (r : Rejection)

/-- A reply that fills the buffer arrives. -/
theorem delivered_of_fillsBuffer (hV : V.Sliced) (hfills : FillsBuffer B.capacity is vs r) :
    ∃ w', (writeChunks (rejectWrites V ps is vs r)).run B.new = .ok () w' ∧
      B.delivered w' = (rejectWrites V ps is vs r).flatten := by
  obtain ⟨s, htext, hlarge⟩ := hfills
  obtain ⟨length, hwrites, _⟩ := hV.string_writes s
  have hslices : rejectWrites V ps is vs r =
      (V.bools2.writes r.status ++ length) ++ [asBytes s] := by
    rw [rejectWrites, htext]
    simp only [hwrites, List.append_assoc]
  rw [hslices]
  obtain ⟨w', hrun, hdelivered⟩ := B.delivered_large (V.bools2.writes r.status ++ length) hlarge
  exact ⟨w', hrun, by rw [hdelivered]; simp⟩

/-- Of any other reply nothing arrives, or the status and a part of a string. -/
theorem told_of_not_fillsBuffer {E : Type} (hV : V.Sliced) (hcapacity : B.capacity = 8192)
    (hfills : ¬ FillsBuffer B.capacity is vs r) (k : E) :
    ∃ w', (writeChunks (rejectWrites V ps is vs r)).run B.new = .ok () w' ∧
      ∃ e left, (readLast V (.ok k)).run (B.delivered w') = .error e left ∧
        (e = r.error ps is vs ↔ ToldByEnd V ps r) := by
  have hstatus : (V.bools2.writes r.status).flatten.length = 1 := hV.bools2_length r.status
  cases htext : r.text is vs with
  | none =>
    -- two bytes, which are held
    have hslices : rejectWrites V ps is vs r =
        V.bools2.writes r.status ++ V.bools2.writes ps.toBools := by
      rw [rejectWrites, htext]
    have hvariant : (V.bools2.writes ps.toBools).flatten.length = 1 := hV.bools2_length ps.toBools
    obtain ⟨w', hrun, hdelivered, _⟩ := B.run_writeChunks_fits B.new (rejectWrites V ps is vs r) (by
      rw [B.buffered_new, hslices, List.flatten_append, List.length_append, hstatus, hvariant,
        hcapacity]
      decide)
    rw [B.delivered_new] at hdelivered
    exact ⟨w', hrun, by rw [hdelivered]; exact told_of_nil hV k ps is vs r⟩
  | some s =>
    have hshort : (asBytes s).length < B.capacity := by
      apply Nat.lt_of_not_le
      intro hle
      exact hfills ⟨s, htext, hle⟩
    obtain ⟨length, hwrites, hlength⟩ := hV.string_writes s
    have hten : length.flatten.length ≤ 10 :=
      hlength (Nat.lt_trans hshort (by rw [hcapacity]; decide))
    have hslices : rejectWrites V ps is vs r =
        (V.bools2.writes r.status ++ length) ++ [asBytes s] := by
      rw [rejectWrites, htext]
      simp only [hwrites, List.append_assoc]
    have hencode : V.string.encode s = length.flatten ++ asBytes s := by
      rw [WireField.encode, hwrites, List.flatten_append]
      simp
    obtain ⟨w', hrun, hdelivered⟩ := B.delivered_small (V.bools2.writes r.status ++ length)
      (by rw [List.flatten_append, List.length_append, hstatus, hcapacity]; omega) hshort
    rw [← hslices] at hrun
    refine ⟨w', hrun, ?_⟩
    rw [hdelivered]
    split
    · -- the status and the length were passed on, the string was not
      rename_i hfull
      rw [List.flatten_append, List.length_append, hstatus, hcapacity] at hfull
      rw [List.flatten_append]
      have hcut : length.flatten <+: V.string.encode s := by
        rw [hencode]
        exact List.prefix_append _ _
      have hne : length.flatten ≠ V.string.encode s := by
        intro heq
        have hlen := congrArg List.length (heq.trans hencode)
        rw [List.length_append] at hlen
        omega
      obtain ⟨e, left, hlast⟩ := run_readLast_cut hV k htext hcut hne
      refine ⟨.io e, left, hlast, iff_of_false (by cases r <;> simp [Rejection.error]) ?_⟩
      rintro ⟨rfl, _⟩
      cases htext
    · exact told_of_nil hV k ps is vs r

end Delivery

/-! ## What the client is told -/

section Report

variable {V : VariableLen} {W : Type} [AsyncWrite W] {Sk Pk Seed : Type} {rsa : Rsa Sk Pk Seed}

/-- Through a buffered writer everything arrives that is flushed. -/
theorem outcome_writeFlush_buffered {α : Type} (B : Buffering W) (chunks : List Bytes) (a : α) :
    ∃ w', (do
        (writeChunks chunks).mapError StarterError.io
        flush.mapError StarterError.io
        return a : Io W StarterError α).outcome B.new = (.ok a, w') ∧
      B.delivered w' = chunks.flatten := by
  obtain ⟨t, hwrite, hgathered⟩ := B.run_writeChunks B.new chunks
  obtain ⟨w', hflush, hdelivered⟩ := B.run_flush t
  refine ⟨w', ?_, by rw [hdelivered, hgathered, B.gathered_new, List.nil_append]⟩
  apply Io.outcome_of_ok
  rw [Io.run_bind_of_ok (Io.run_mapError_of_ok hwrite)]
  exact Io.run_bind_of_ok (Io.run_mapError_of_ok hflush) _

theorem error_injective {pc qc : ProtocolVariant} {ic jc vc wc : String} {r r' : Rejection}
    (h : Rejection.error pc ic vc r = Rejection.error qc jc wc r') : r = r' := by
  cases r <;> cases r' <;> first | rfl | cases h

variable {B : Buffering W} {pc ps : ProtocolVariant} {ic is vc vs : String} {P : String → Bool}
  {sk : Sk} {aesKey : AesKey} {nonce : Nonce} {seed : Seed} {reader left : Bytes} {writer : W}

/-- The client's half arrives, and what the server's writer delivers decides its
result. -/
theorem of_fromStream_newClient {client : Except (Fault StarterError) ClientHandler}
    (hclient : fromStream B (newClient V rsa (.ok sk) ic vc pc) reader = (client, left, writer)) :
    B.delivered writer = (clientWrites V rsa sk ic vc pc).flatten ∧
      client =
        ((clientStart V rsa pc (.ok (kept sk pc))).outcome reader).1.map ClientHandler.mk := by
  obtain ⟨w, hinit, hdelivered⟩ :=
    outcome_writeFlush_buffered B (clientWrites V rsa sk ic vc pc) (kept sk pc)
  rw [← clientInit_eq] at hinit
  rw [fromStream, outcome_newClient V rsa _ _ _ _ hinit Prod.mk.eta.symm] at hclient
  simp only [Prod.mk.injEq] at hclient
  obtain ⟨hclient, _, rfl⟩ := hclient
  exact ⟨hdelivered, hclient.symm⟩

/-- A server that accepts the client returns a handler. -/
theorem of_fromStream_newServer_accepted {server : Except StarterError ServerHandler}
    (hP : P vc = true)
    (hserver : fromStream B (newServer V rsa aesKey nonce seed ic P vs pc)
      (clientWrites V rsa sk ic vc pc).flatten = (server, left, writer)) :
    ∃ handler, server = .ok handler := by
  obtain ⟨pk, hpk, hkey⟩ := rsa.honest sk
  obtain ⟨encryptedAes, hencrypt, _⟩ := hkey seed aesKey
  have hread : (serverInit V rsa ic P pc).run _ = .ok (accepted pk vc pc) [] :=
    run_serverInit_accepted hpk hP ic pc []
  rw [List.append_nil] at hread
  obtain ⟨w', hstart, _⟩ := outcome_writeFlush_buffered B (acceptWrites V encryptedAes nonce pc)
    (sessionCipher aesKey nonce pc, magicVersion, vc)
  rw [← serverStart_ok_eq V rsa aesKey nonce seed ic vs vc hencrypt] at hstart
  rw [fromStream, outcome_newServer V rsa _ _ _ _ _ _ _ (Io.outcome_of_ok hread) hstart] at hserver
  obtain ⟨rfl, _⟩ := Prod.mk.inj hserver
  exact ⟨_, rfl⟩

/-- A server that rejects the client leaves its reply as `write_last` left it. -/
theorem of_fromStream_newServer_rejected {server : Except StarterError ServerHandler}
    {r : Rejection} (hfirst : firstFailing pc ps ic is vc P = some r)
    (hserver : fromStream B (newServer V rsa aesKey nonce seed is P vs ps)
      (clientWrites V rsa sk ic vc pc).flatten = (server, left, writer))
    {w : W} (hwrite : (writeChunks (rejectWrites V ps is vs r)).run B.new = .ok () w) :
    server = .error (r.error pc ic vc) ∧ writer = w := by
  obtain ⟨t, hread⟩ : ∃ t, (serverInit V rsa is P ps).run _ = .error (r.error pc ic vc) t :=
    run_serverInit_rejected hfirst sk []
  rw [List.append_nil] at hread
  have hstart : (serverStart V rsa aesKey nonce seed is vs ps (.error (r.error pc ic vc))).outcome
      B.new = (.error (r.error pc ic vc), w) := by
    rw [serverStart_error_eq]
    apply Io.outcome_of_error
    rw [Io.run_bind_of_ok (Io.run_mapError_of_ok hwrite), Io.run_throw]
  rw [fromStream, outcome_newServer V rsa _ _ _ _ _ _ _ (Io.outcome_of_error hread) hstart]
    at hserver
  simp only [Prod.mk.injEq] at hserver
  exact ⟨hserver.1.symm, hserver.2.2.symm⟩

/-- A client learns why the server rejected it exactly when the reply is too large
for the buffer of the server, or when it happens to be what the end of the stream is
read as. -/
theorem reported_iff (hV : V.Sliced) (B : Buffering W) (hcapacity : B.capacity = 8192)
    (pc ps : ProtocolVariant) (ic is vc vs : String) (P : String → Bool) (sk : Sk)
    (aesKey : AesKey) (nonce : Nonce) (seed : Seed) {server : Except StarterError ServerHandler}
    {client : Except (Fault StarterError) ClientHandler} {serverLeft clientLeft : Bytes}
    {serverWriter clientWriter : W}
    (hserver : fromStream B (newServer V rsa aesKey nonce seed is P vs ps)
      (B.delivered clientWriter) = (server, serverLeft, serverWriter))
    (hclient : fromStream B (newClient V rsa (.ok sk) ic vc pc) (B.delivered serverWriter) =
      (client, clientLeft, clientWriter)) :
    (∀ r qc jc wc, server = .error (Rejection.error qc jc wc r) →
        client = .error (.error (Rejection.error ps is vs r))) ↔
      ∀ r, firstFailing pc ps ic is vc P = some r →
        FillsBuffer B.capacity is vs r ∨ ToldByEnd V ps r := by
  obtain ⟨hdelivered, hclient⟩ := of_fromStream_newClient hclient
  rw [hdelivered] at hserver
  cases hfirst : firstFailing pc ps ic is vc P with
  | none =>
    -- the server accepts, and there is nothing to report
    obtain ⟨rfl, rfl, hP⟩ := firstFailing_eq_none.mp hfirst
    obtain ⟨handler, rfl⟩ := of_fromStream_newServer_accepted hP hserver
    simp
  | some r =>
    by_cases hfills : FillsBuffer B.capacity is vs r
    · -- the whole reply arrives
      refine iff_of_true ?_ fun r' hr' => ?_
      · intro r' qc jc wc herror
        obtain ⟨w', hwrite, hall⟩ := delivered_of_fillsBuffer B ps is vs r hV hfills
        obtain ⟨hserver, rfl⟩ := of_fromStream_newServer_rejected hfirst hserver hwrite
        rw [hserver] at herror
        obtain rfl := error_injective (Except.error.inj herror)
        have hlast := run_readLast_rejected (V := V) (kept sk pc) ps is vs r []
        rw [List.append_nil, ← hall] at hlast
        rw [hclient, Io.outcome_of_error (run_clientStart_error hlast)]
        rfl
      · cases hr'
        exact .inl hfills
    · -- the client meets the end of the stream
      obtain ⟨w', hwrite, e, left', hlast, htold⟩ :=
        told_of_not_fillsBuffer B ps is vs r hV hcapacity hfills (kept sk pc)
      obtain ⟨hserver, rfl⟩ := of_fromStream_newServer_rejected hfirst hserver hwrite
      rw [Io.outcome_of_error (run_clientStart_error hlast)] at hclient
      constructor
      · intro hreported r' hr'
        cases hr'
        have hmirrored := hreported r pc ic vc hserver
        rw [hclient] at hmirrored
        exact .inr (htold.mp (by cases hmirrored; rfl))
      · intro htellable r' qc jc wc herror
        rw [hserver] at herror
        obtain rfl := error_injective (Except.error.inj herror)
        have hend := (htellable r rfl).resolve_left hfills
        rw [hclient, htold.mpr hend]
        rfl

end Report

/-! ### A client of another application

The client `a` is rejected by the server `b`, whose reply stays in its buffer. -/

theorem fromStream_server_b :
    fromStream Reference.bufWriter
      (newServer Reference.variableLen Reference.rsa Reference.key (Reference.nonce 0) () "b"
        (fun _ => true) "1" .raw)
      (Reference.bufWriter.delivered ⟨[208, 8, 166, 104, 0, 1, 0, 1, 97, 1, 49], []⟩) =
      (.error (.invalidIdentifier "a"), [1, 49], ⟨[], [2, 1, 98]⟩) := rfl

theorem fromStream_client_a :
    fromStream Reference.bufWriter
      (newClient Reference.variableLen Reference.rsa (.ok ()) "a" "1" .raw)
      (Reference.bufWriter.delivered ⟨[], [2, 1, 98]⟩) =
      (.error (.error (.invalidProtocol .raw)), [],
        ⟨[208, 8, 166, 104, 0, 1, 0, 1, 97, 1, 49], []⟩) := rfl

theorem reported_iff_unreported :
    (∀ r qc jc wc,
        (.error (.invalidIdentifier "a") : Except StarterError ServerHandler) =
          .error (Rejection.error qc jc wc r) →
        (.error (.error (.invalidProtocol .raw)) : Except (Fault StarterError) ClientHandler) =
          .error (.error (Rejection.error .raw "b" "1" r))) ↔
      ∀ r, firstFailing .raw .raw "a" "b" "1" (fun _ => true) = some r →
        FillsBuffer 8192 "b" "1" r ∨ ToldByEnd Reference.variableLen .raw r :=
  reported_iff Reference.variableLen_sliced Reference.bufWriter rfl .raw .raw "a" "b" "1" "1"
    (fun _ => true) () Reference.key (Reference.nonce 0) () fromStream_server_b fromStream_client_a

/-- The server returns `InvalidIdentifier`, the client `InvalidProtocol`, as if the
server had another protocol. -/
theorem rejection_unreported :
    ¬ ∀ (V : VariableLen) (W : Type) (_ : AsyncWrite W) (B : Buffering W) (Sk Pk Seed : Type)
      (rsa : Rsa Sk Pk Seed) (pc ps : ProtocolVariant) (ic is vc vs : String) (P : String → Bool)
      (sk : Sk) (aesKey : AesKey) (nonce : Nonce) (seed : Seed)
      (server : Except StarterError ServerHandler)
      (client : Except (Fault StarterError) ClientHandler)
      (serverLeft clientLeft : Bytes) (serverWriter clientWriter : W),
      V.Sliced → B.capacity = 8192 →
      fromStream B (newServer V rsa aesKey nonce seed is P vs ps) (B.delivered clientWriter) =
        (server, serverLeft, serverWriter) →
      fromStream B (newClient V rsa (.ok sk) ic vc pc) (B.delivered serverWriter) =
        (client, clientLeft, clientWriter) →
      ∀ r qc jc wc, server = .error (Rejection.error qc jc wc r) →
        client = .error (.error (Rejection.error ps is vs r)) := by
  intro h
  have hmirrored := h _ _ _ _ _ _ _ _ _ _ _ _ _ _ _ _ _ _ _ _ _ _ _ _ _
    Reference.variableLen_sliced rfl fromStream_server_b fromStream_client_a
    .identifier .raw "a" "1" rfl
  cases hmirrored

end TcpHandler.Handshake
