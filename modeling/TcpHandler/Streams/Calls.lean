/-
  Streams/Calls.lean --- the calls of two handlers, each by itself.

  What a call gives a buffered writer, what it needs of a stream that arrives in
  pieces, and whether it leaves anything in the buffer.

  `inTurn` runs the two constructors one after the other, each on everything the
  other has passed on.  The module ends with what they make of it: a server that
  returns a handler has read all of the request and has flushed an acceptance
  (`Served.accepted`), and behind an acceptance there may be anything
  (`newClient_answered`).
-/
import TcpHandler.Streams.Connection

set_option autoImplicit false

namespace TcpHandler.Streams

open TcpHandler.Foundation TcpHandler.Protocols
open TcpHandler.Protocols.Variants

namespace Connection

/-! ## The halves, one after the other -/

section InTurn

variable (V : VariableLen) {W : Type} [AsyncWrite W] {Sk Pk Seed : Type} (rsa : Rsa Sk Pk Seed)
  (B : Buffering W) (setup : Setup Sk Seed)

/-- The first half of the client's constructor. -/
def asking : setup.Init × W :=
  (clientInit V rsa setup.drawn (setup.identifier .client) (setup.version .client)
    (setup.protocol .client)).outcome B.new

/-- What the client's half passes on. -/
def request : Bytes := B.delivered (asking V rsa B setup).2

/-- The server's constructor on what the client's half passed on. -/
def answering : Except StarterError ServerHandler × Bytes × W :=
  fromStream B (newServer V rsa setup.aesKey setup.nonce setup.seed (setup.identifier .server)
    setup.versionPrediction (setup.version .server) (setup.protocol .server))
    (request V rsa B setup)

/-- What the server's constructor passes on. -/
def reply : Bytes := B.delivered (answering V rsa B setup).2.2

/-- The results of the two constructors, run one after the other. -/
def inTurn : Except StarterError ServerHandler × Except (Fault StarterError) ClientHandler :=
  ((answering V rsa B setup).1,
    (fromStream B (newClient V rsa setup.drawn (setup.identifier .client) (setup.version .client)
      (setup.protocol .client)) (reply V rsa B setup)).1)

/-- The server returned a handler. -/
def Served : Prop := ∃ handler, (answering V rsa B setup).1 = .ok handler

end InTurn

/-! ## Buffered writers -/

section Halves

variable {V : VariableLen} {W : Type} [AsyncWrite W] {Sk Pk Seed : Type} {rsa : Rsa Sk Pk Seed}
  {B : Buffering W}

/-- A writer that was given slices and flushed. -/
theorem outcome_chunks_flush {α : Type} (chunks : List Bytes) (a : α) (w : W) :
    ∃ w', (do
        (writeChunks chunks).mapError StarterError.io
        flush.mapError StarterError.io
        return a : Io W StarterError α).outcome w = (.ok a, w') ∧
      B.Appends w w' chunks.flatten ∧ B.buffered w' = [] := by
  obtain ⟨t, hwrite, hchunks⟩ := B.appends_writeChunks w chunks
  obtain ⟨w', hflush, hnothing, hbuffered⟩ := B.appends_flush t
  refine ⟨w', ?_, by simpa using hchunks.trans hnothing, hbuffered⟩
  apply Io.outcome_of_ok
  rw [Io.run_bind_of_ok (Io.run_mapError_of_ok hwrite)]
  exact Io.run_bind_of_ok (Io.run_mapError_of_ok hflush) _

/-- What a fresh writer passed on, when it holds nothing. -/
theorem delivered_of_appends {w : W} {bytes : Bytes} (h : B.Appends B.new w bytes)
    (hbuffered : B.buffered w = []) : B.delivered w = bytes := by
  have hgathers := h.gathers
  rw [B.gathered_new, List.nil_append, Buffering.gathered, hbuffered, List.append_nil] at hgathers
  exact hgathers

/-- A packet through a buffered writer: what a reliable stream is given at once, the
writer is given too, and it is flushed. -/
theorem outcome_packet_flush (limit : Usize) (bytes : Buf) (w : W) :
    ∃ result written, (∀ wire : Bytes,
        (do
          writePacket V limit bytes
          flush.mapError .io : Io Bytes PacketError Unit).outcome wire =
            (result, wire ++ written)) ∧
      ∃ w', (do
          writePacket V limit bytes
          flush.mapError .io : Io W PacketError Unit).outcome w = (result, w') ∧
        B.Appends w w' written ∧ (B.buffered w = [] → B.buffered w' = []) := by
  by_cases hle : Buf.remaining bytes ≤ limit.toNat
  · obtain ⟨t, hlength, hlengthAppends⟩ : ∃ t, (V.usizeVarintAp.write
        (UInt64.ofNat (Buf.remaining bytes))).run w = .ok () t ∧ B.Appends w t _ :=
      B.appends_writeChunks w _
    obtain ⟨u, hbody, hbodyAppends⟩ := B.appends_writeChunks t bytes
    obtain ⟨w', hflush, hnothing, hbuffered⟩ := B.appends_flush u
    refine ⟨.ok (), frame V bytes.flatten, fun wire => ?_, w', ?_, ?_, fun _ => hbuffered⟩
    · apply Io.outcome_of_ok
      rw [Io.run_bind_of_ok (run_writePacket_of_le V hle wire)]
      rfl
    · apply Io.outcome_of_ok
      have hwrite : (writePacket V limit bytes).run w = .ok () u := by
        unfold writePacket checkBytesLen
        rw [Io.run_bind_of_ok (a := ()) (by rw [Io.run_ensure, if_pos hle])]
        rw [Io.run_bind_of_ok (Io.run_mapError_of_ok hlength)]
        exact Io.run_mapError_of_ok hbody
      rw [Io.run_bind_of_ok hwrite]
      exact Io.run_mapError_of_ok hflush
    · simpa [frame, Buf.remaining, WireField.encode] using
        (hlengthAppends.trans hbodyAppends).trans hnothing
  · have hlt := Nat.lt_of_not_le hle
    refine ⟨.error (.tooLarge (Buf.remaining bytes) limit.toNat), [], fun wire => ?_, w, ?_,
      .refl w, id⟩
    · rw [List.append_nil]
      exact Io.outcome_of_error (Io.run_bind_of_error (run_writePacket_of_lt V hlt wire) _)
    · exact Io.outcome_of_error (Io.run_bind_of_error (run_writePacket_of_lt V hlt w) _)

/-! ## Halves of the handshake -/

/-- The slices of the public key of a drawn private key. -/
def drawnKeys (V : VariableLen) (rsa : Rsa Sk Pk Seed) (drawn : Except RsaError Sk)
    (protocol : ProtocolVariant) : List Bytes :=
  match drawn with
  | .ok sk => keyWrites V rsa sk protocol
  | .error _ => []

/-- `k` is what `client_init` returns: without a key it returns nothing, and a
protocol that needs one does not get this far. -/
def Keeps (drawn : Except RsaError Sk) {protocol : ProtocolVariant}
    (k : ClientInit Sk protocol) : Prop :=
  (∃ sk, drawn = .ok sk ∧ k = kept sk protocol) ∨
    (∃ e, drawn = .error e) ∧ (protocol = .raw ∨ protocol = .compression)

variable (V rsa B) in
/-- What the client's half passes on: nothing when it needs a key and none could be
drawn, else its head and its public key. -/
theorem outcome_clientInit_new (drawn : Except RsaError Sk) (identifier version : String)
    (protocol : ProtocolVariant) :
    (∃ e, (clientInit V rsa drawn identifier version protocol).outcome B.new =
        (.error (.rsa e), B.new)) ∨
      ∃ k w, (clientInit V rsa drawn identifier version protocol).outcome B.new = (.ok k, w) ∧
        B.delivered w =
          head V protocol identifier version ++ (drawnKeys V rsa drawn protocol).flatten ∧
        B.buffered w = [] ∧ Keeps drawn k := by
  cases drawn with
  | ok sk =>
    obtain ⟨w, hcall, happends, hbuffered⟩ := outcome_chunks_flush (B := B)
      (clientWrites V rsa sk identifier version protocol) (kept sk protocol) B.new
    rw [← clientInit_eq] at hcall
    refine .inr ⟨_, w, hcall, ?_, hbuffered, .inl ⟨sk, rfl, rfl⟩⟩
    rw [delivered_of_appends happends hbuffered, clientWrites, List.flatten_append]
    rfl
  | error e =>
    cases protocol with
    | raw | compression =>
      obtain ⟨w, hcall, happends, hbuffered⟩ := outcome_chunks_flush (B := B)
        (headWrites V _ identifier version) () B.new
      refine .inr ⟨(), w, ?_, ?_, hbuffered, .inr ⟨⟨e, rfl⟩, by simp⟩⟩
      · refine Eq.trans (congrArg (Io.outcome · B.new) ?_) hcall
        exact (Plain.clientInit_eq V _ identifier version).trans
          (congrArg _ (funext fun _ => bind_pure_unit.symm))
      · rw [delivered_of_appends happends hbuffered]
        exact (List.append_nil _).symm
    | encryption | compressEncryption => exact .inl ⟨e, rfl⟩

variable (V rsa W) in
/-- A request that passes every check: the server reads all of it, and there is an
acceptance that the server writes and the client reads, without having to wait. -/
theorem accept_request {drawn : Except RsaError Sk} {protocol : ProtocolVariant}
    {k : ClientInit Sk protocol} (hk : Keeps drawn k) (identifier vs : String) {vc : String}
    {P : String → Bool} (hP : P vc = true) (aesKey : AesKey) (nonce : Nonce) (seed : Seed) :
    ∃ (init : ServerInit Pk protocol) (acceptance : List Bytes),
      (serverInit V rsa identifier P protocol).run
          (head V protocol identifier vc ++ (drawnKeys V rsa drawn protocol).flatten) =
        .ok init [] ∧
      (serverStart V rsa aesKey nonce seed identifier vs protocol (.ok init) :
          Io W StarterError (Option Cipher × UInt16 × String)) =
        (do
          (writeChunks acceptance).mapError .io
          flush.mapError .io
          return (sessionCipher aesKey nonce protocol, magicVersion, vc)) ∧
      ∀ rest, (clientStart V rsa protocol (.ok k)).run (acceptance.flatten ++ rest) =
          .ok (sessionCipher aesKey nonce protocol) rest ∧
        (clientStart V.opened rsa protocol (.ok k)).run (acceptance.flatten ++ rest) =
          .ok (sessionCipher aesKey nonce protocol) rest := by
  rcases hk with ⟨sk, rfl, rfl⟩ | ⟨⟨e, rfl⟩, hplain⟩
  · obtain ⟨pk, hpk, hkey⟩ := rsa.honest sk
    obtain ⟨encryptedAes, hencrypt, hdecrypt⟩ := hkey seed aesKey
    have hrun : (serverInit V rsa identifier P protocol).run _ = .ok (accepted pk vc protocol) [] :=
      run_serverInit_accepted hpk hP identifier protocol []
    rw [clientWrites_flatten, List.append_nil] at hrun
    exact ⟨_, acceptWrites V encryptedAes nonce protocol, hrun,
      serverStart_ok_eq V rsa aesKey nonce seed identifier vs vc hencrypt protocol,
      fun rest => ⟨run_clientStart_accepted hdecrypt protocol rest,
        run_clientStart_accepted (V := V.opened) hdecrypt protocol rest⟩⟩
  · -- there is no key, and none is needed
    have hhead : (readHead V protocol identifier P).run (head V protocol identifier vc ++ []) =
        .ok (magicVersion, vc) [] := by
      rw [run_readHead_head, if_pos rfl, if_pos rfl, if_pos hP]
    have hlast : ∀ (U : VariableLen) rest, (readLast U (.ok ())).run
        ((U.bools2.writes (true, true)).flatten ++ rest) = .ok () rest :=
      fun U => run_readLast_accept U ()
    rcases hplain with rfl | rfl <;>
    · refine ⟨(magicVersion, vc), V.bools2.writes (true, true), hhead, ?_, fun rest =>
        ⟨Io.run_bind_of_ok (Io.run_mapError_of_ok (hlast V rest)) _,
          Io.run_bind_of_ok (Io.run_mapError_of_ok (hlast V.opened rest)) _⟩⟩
      refine (congrArg (· >>= fun versions => pure (none, versions))
        (Plain.serverStart_ok_eq V _ identifier vs (magicVersion, vc))).trans ?_
      simp only [bind_assoc, pure_bind]
      rfl

variable (V rsa B) in
/-- A server whose `server_init` failed writes what `write_last` makes of the error,
and returns it. -/
theorem outcome_serverStart_failed (aesKey : AesKey) (nonce : Nonce) (seed : Seed) (is vs : String)
    (ps : ProtocolVariant) (e : StarterError) (w : W) :
    ∃ w', (serverStart V rsa aesKey nonce seed is vs ps
        (.error e : Except StarterError (ServerInit Pk ps))).outcome w = (.error e, w') ∧
      B.Appends w w' (replyWrites V ps is vs
        (.error e : Except StarterError (ServerInit Pk ps))).flatten := by
  obtain ⟨w', hrun, happends⟩ := B.appends_writeChunks w (replyWrites V ps is vs
    (.error e : Except StarterError (ServerInit Pk ps)))
  refine ⟨w', Io.outcome_of_error ?_, happends⟩
  rw [serverStart_failed_eq, Io.run_bind_of_ok (Io.run_mapError_of_ok hrun)]
  rfl

/-- A client without its own half returns at once. -/
theorem run_clientStart_unasked (protocol : ProtocolVariant) (e : StarterError) (s : Bytes) :
    (clientStart V rsa protocol (.error e : Except StarterError (ClientInit Sk protocol))).run s =
      .error (.error e) s := by
  cases protocol <;> rfl

/-- A client that waits for the reply waits for its first byte. -/
theorem ends_clientStart_nil {protocol : ProtocolVariant}
    (k : ClientInit Sk protocol) :
    Io.ends (clientStart V.opened rsa protocol (.ok k)) [] = true := by
  have hlast : (readLast V.opened (.ok k)).run [] = .error (.io .unexpectedEof) [] := rfl
  rw [Io.ends, run_clientStart_error hlast]
  rfl

/-- A client makes nothing of a rejection, nor of a part of one. -/
theorem run_clientStart_rejected (hV : V.Patient) {protocol : ProtocolVariant}
    (k : ClientInit Sk protocol) (ps : ProtocolVariant) (is vs : String) (r : Rejection)
    {cut : Bytes} (hcut : cut <+: (rejectWrites V ps is vs r).flatten) :
    ∃ e left, (clientStart V rsa protocol (.ok k)).run cut = .error e left := by
  by_cases hnil : cut = []
  · subst hnil
    rcases run_readLast_nil V hV.bools2_end k with ⟨e, left, _, hread⟩ | ⟨_, hread⟩
    · exact ⟨_, left, run_clientStart_error hread⟩
    · exact ⟨_, [], run_clientStart_error hread⟩
  cases hrun : (readLast V (.ok k)).run cut with
  | error e left => exact ⟨_, left, run_clientStart_error hrun⟩
  | ok extra left =>
    -- an accepting status would be one of the whole rejection
    obtain ⟨t, ht⟩ := hcut
    obtain ⟨_, hstatus⟩ := (run_readLast_eq_ok V).mp hrun
    rw [← WireField.run_opened _ hnil] at hstatus
    have hwhole := hV.bools2.returns hstatus t
    rw [WireField.run_opened _ (by simp [hnil]), ht, rejectWrites, List.flatten_append] at hwhole
    rw [show (V.bools2.writes r.status).flatten = V.bools2.encode r.status from rfl,
      V.bools2.run_read_encode] at hwhole
    cases r <;> cases hwhole

/-- A constructor of a server waits for the first byte. -/
theorem run_serverInit_nil (identifier : String) (P : String → Bool) (protocol : ProtocolVariant) :
    (serverInit V rsa identifier P protocol).run [] = .error (.io .unexpectedEof) [] :=
  run_serverInit_error
    (Io.run_bind_of_error (Io.run_mapError_of_error (V.readMore_short (by decide))) _)

end Halves

/-! ## Two constructors in turn -/

section Turns

variable {V : VariableLen} {W : Type} [AsyncWrite W] {Sk Pk Seed : Type} {rsa : Rsa Sk Pk Seed}
  {B : Buffering W} {setup : Setup Sk Seed}

variable (V rsa B setup) in
theorem asking_cases :
    (∃ e, asking V rsa B setup = (.error (.rsa e), B.new)) ∨
      ∃ k w, asking V rsa B setup = (.ok k, w) ∧
        request V rsa B setup =
          head V (setup.protocol .client) (setup.identifier .client) (setup.version .client) ++
            (drawnKeys V rsa setup.drawn (setup.protocol .client)).flatten ∧
        B.buffered w = [] ∧ Keeps setup.drawn k := by
  rcases outcome_clientInit_new V rsa B setup.drawn (setup.identifier .client)
    (setup.version .client) (setup.protocol .client) with hnone | ⟨k, w, heq, hdelivered, hrest⟩
  · exact .inl hnone
  · have hasking : asking V rsa B setup = (.ok k, w) := heq
    exact .inr ⟨k, w, hasking, by rw [request, hasking, hdelivered], hrest⟩

variable (V rsa B setup) in
theorem buffered_asking : B.buffered (asking V rsa B setup).2 = [] := by
  rcases asking_cases V rsa B setup with ⟨e, heq⟩ | ⟨k, w, heq, _, hbuffered, _⟩
  · rw [heq]
    exact B.buffered_new
  · rw [heq]
    exact hbuffered

theorem isEnd_asking {e : StarterError} (h : (asking V rsa B setup).1 = .error e) :
    isEnd e = false := by
  rcases asking_cases V rsa B setup with ⟨e', heq⟩ | ⟨k, w, heq, _⟩
  · rw [heq] at h
    cases h
    rfl
  · rw [heq] at h
    cases h

variable (V rsa B setup) in
theorem awaits_answered (hV : V.Patient) :
    Io.Awaits (clientStart V.opened rsa (setup.protocol .client) (asking V rsa B setup).1)
      (clientStart V rsa (setup.protocol .client) (asking V rsa B setup).1) :=
  awaits_clientStart rsa hV _ fun _ he => isEnd_asking he

/-- What a server returns is what its two halves make of the request. -/
theorem answering_of_halves {read : Except StarterError (ServerInit Pk (setup.protocol .server))}
    {left : Bytes} {started : Except StarterError (Option Cipher × UInt16 × String)} {w : W}
    (hread : (serverInit V rsa (setup.identifier .server) setup.versionPrediction
      (setup.protocol .server)).outcome (request V rsa B setup) = (read, left))
    (hstart : (serverStart V rsa setup.aesKey setup.nonce setup.seed (setup.identifier .server)
      (setup.version .server) (setup.protocol .server) read).outcome B.new = (started, w)) :
    answering V rsa B setup = (started.map fun result => ⟨result.1, result.2.2⟩, (left, w)) :=
  outcome_newServer V rsa _ _ _ _ _ _ _ hread hstart

/-- A request that passes every check: what the two parties return, and what they
leave. -/
theorem answering_accepted {k : ClientInit Sk (setup.protocol .client)}
    (hk : (asking V rsa B setup).1 = .ok k) (hfirst : setup.firstFailing = none) :
    (∃ w, answering V rsa B setup =
        (.ok ⟨sessionCipher setup.aesKey setup.nonce (setup.protocol .client),
          setup.version .client⟩, ([], w)) ∧ B.buffered w = []) ∧
      ∀ rest, (clientStart V rsa (setup.protocol .client) (asking V rsa B setup).1).run
            (reply V rsa B setup ++ rest) =
          .ok (sessionCipher setup.aesKey setup.nonce (setup.protocol .client)) rest ∧
        (clientStart V.opened rsa (setup.protocol .client) (asking V rsa B setup).1).run
            (reply V rsa B setup ++ rest) =
          .ok (sessionCipher setup.aesKey setup.nonce (setup.protocol .client)) rest := by
  obtain ⟨hprotocol, hidentifier, hP⟩ := firstFailing_eq_none.mp hfirst
  rcases asking_cases V rsa B setup with ⟨e, heq⟩ | ⟨k', _, heq, hrequest, _, hkeeps⟩
  · rw [heq] at hk
    cases hk
  · obtain ⟨init, acceptance, hinit, hstart, hclient⟩ := accept_request V W rsa hkeeps
      (setup.identifier .client) (setup.version .server) hP setup.aesKey setup.nonce setup.seed
    obtain ⟨w, hwrite, happends, hbuffered⟩ := outcome_chunks_flush (B := B) acceptance
      (sessionCipher setup.aesKey setup.nonce (setup.protocol .client), magicVersion,
        setup.version .client) B.new
    rw [← hstart] at hwrite
    rw [← hrequest] at hinit
    have hanswering : answering V rsa B setup =
        (.ok ⟨sessionCipher setup.aesKey setup.nonce (setup.protocol .client),
          setup.version .client⟩, ([], w)) := by
      unfold answering fromStream
      rw [← hprotocol, ← hidentifier]
      exact outcome_newServer V rsa _ _ _ _ _ _ _ (Io.outcome_of_ok hinit) hwrite
    refine ⟨⟨w, hanswering, hbuffered⟩, fun rest => ?_⟩
    rw [heq, reply, hanswering, delivered_of_appends happends hbuffered]
    exact hclient rest

variable (V rsa B) in
/-- A request that was not made, or that fails a check: both constructors fail. -/
theorem answering_refused (hV : V.Patient)
    (hrefused : (∃ e, (asking V rsa B setup).1 = .error e) ∨ ∃ r, setup.firstFailing = some r) :
    (∃ e, (answering V rsa B setup).1 = .error e) ∧
      ∃ e left, (clientStart V rsa (setup.protocol .client) (asking V rsa B setup).1).run
          (reply V rsa B setup) = .error e left := by
  rcases asking_cases V rsa B setup with ⟨e, heq⟩ | ⟨k, _, heq, hrequest, _, _⟩
  · have hread : (serverInit V rsa (setup.identifier .server) setup.versionPrediction
        (setup.protocol .server)).outcome (request V rsa B setup) =
          (.error (.io .unexpectedEof), []) := by
      rw [request, heq, B.delivered_new]
      exact Io.outcome_of_error (run_serverInit_nil _ _ _)
    obtain ⟨w, hstart, _⟩ := outcome_serverStart_failed V rsa B setup.aesKey setup.nonce setup.seed
      (setup.identifier .server) (setup.version .server)
      (setup.protocol .server) (.io .unexpectedEof) B.new
    rw [answering_of_halves hread hstart, heq]
    exact ⟨⟨_, rfl⟩, _, _, run_clientStart_unasked _ _ _⟩
  · obtain ⟨r, hfirst⟩ := hrefused.resolve_left (by rw [heq]; simp)
    obtain ⟨left, hhead⟩ := run_readHead_rejected (V := V) hfirst
      (drawnKeys V rsa setup.drawn (setup.protocol .client)).flatten
    rw [← hrequest] at hhead
    obtain ⟨w, hstart, happends⟩ := outcome_serverStart_failed V rsa B setup.aesKey setup.nonce
      setup.seed (setup.identifier .server) (setup.version .server)
      (setup.protocol .server) (r.error (setup.protocol .client) (setup.identifier .client)
        (setup.version .client)) B.new
    have hanswering := answering_of_halves (Io.outcome_of_error (run_serverInit_error hhead)) hstart
    rw [hanswering]
    refine ⟨⟨_, rfl⟩, ?_⟩
    rw [heq, reply, hanswering]
    refine run_clientStart_rejected hV k (setup.protocol .server) (setup.identifier .server)
      (setup.version .server) r ?_
    have hgathers := happends.gathers
    rw [B.gathered_new, List.nil_append] at hgathers
    have hwrites : (rejectWrites V (setup.protocol .server) (setup.identifier .server)
        (setup.version .server) r).flatten = B.gathered w := by
      rw [hgathers]
      cases r <;> rfl
    rw [hwrites]
    exact List.prefix_append _ _

/-- The server returns a handler when the client could ask and passes every check. -/
theorem served_iff (hV : V.Patient) : Served V rsa B setup ↔
    (∃ k, (asking V rsa B setup).1 = .ok k) ∧ setup.firstFailing = none := by
  constructor
  · rintro ⟨handler, hhandler⟩
    cases hasking : (asking V rsa B setup).1 with
    | error e =>
      obtain ⟨⟨e, herror⟩, _⟩ := answering_refused V rsa B hV (.inl ⟨e, hasking⟩)
      rw [hhandler] at herror
      cases herror
    | ok k =>
      refine ⟨⟨k, rfl⟩, Option.eq_none_iff_forall_ne_some.mpr fun r hfirst => ?_⟩
      obtain ⟨⟨e, herror⟩, _⟩ := answering_refused V rsa B hV (.inr ⟨r, hfirst⟩)
      rw [hhandler] at herror
      cases herror
  · rintro ⟨⟨k, hk⟩, hfirst⟩
    obtain ⟨⟨w, hanswering, _⟩, _⟩ := answering_accepted hk hfirst
    exact ⟨_, congrArg Prod.fst hanswering⟩

theorem not_served (hV : V.Patient) (h : ¬ Served V rsa B setup) :
    (∃ e, (asking V rsa B setup).1 = .error e) ∨ ∃ r, setup.firstFailing = some r := by
  rw [served_iff hV, not_and_or] at h
  rcases h with hasking | hfirst
  · cases heq : (asking V rsa B setup).1 with
    | error e => exact .inl ⟨e, rfl⟩
    | ok k => exact absurd ⟨k, heq⟩ hasking
  · exact .inr (Option.ne_none_iff_exists'.mp hfirst)

/-- A server does not wait for more than a request. -/
theorem ends_request {k : ClientInit Sk (setup.protocol .client)}
    (hk : (asking V rsa B setup).1 = .ok k) :
    Io.ends (serverInit V.opened rsa (setup.identifier .server) setup.versionPrediction
      (setup.protocol .server)) (request V rsa B setup) = false := by
  rcases asking_cases V rsa B setup with ⟨e, heq⟩ | ⟨k', _, heq, hrequest, _, hkeeps⟩
  · rw [heq] at hk
    cases hk
  · have hopened : request V rsa B setup = head V.opened (setup.protocol .client)
        (setup.identifier .client) (setup.version .client) ++
          (drawnKeys V.opened rsa setup.drawn (setup.protocol .client)).flatten := hrequest
    rw [hopened, Io.ends]
    cases hfirst : setup.firstFailing with
    | some r =>
      obtain ⟨left, hhead⟩ := run_readHead_rejected (V := V.opened) hfirst
        (drawnKeys V.opened rsa setup.drawn (setup.protocol .client)).flatten
      rw [run_serverInit_error hhead]
      cases r <;> rfl
    | none =>
      obtain ⟨hprotocol, hidentifier, hP⟩ := firstFailing_eq_none.mp hfirst
      obtain ⟨init, _, hinit, _⟩ := accept_request V.opened W rsa hkeeps (setup.identifier .client)
        (setup.version .server) hP setup.aesKey setup.nonce setup.seed
      rw [← hprotocol, ← hidentifier, hinit]

/-- A client does not wait for more than an acceptance. -/
theorem ends_reply (hV : V.Patient) (hserved : Served V rsa B setup) (data : Bytes) :
    Io.ends (clientStart V.opened rsa (setup.protocol .client) (asking V rsa B setup).1)
      (reply V rsa B setup ++ data) = false := by
  obtain ⟨⟨k, hk⟩, hfirst⟩ := (served_iff hV).mp hserved
  rw [Io.ends, ((answering_accepted hk hfirst).2 data).2]

/-- What the client returns when everything is there. -/
theorem inTurn_client {started : Except (Fault StarterError) (Option Cipher)} {left : Bytes}
    (hcall : (clientStart V rsa (setup.protocol .client) (asking V rsa B setup).1).outcome
      (reply V rsa B setup) = (started, left)) :
    (inTurn V rsa B setup).2 = started.map ClientHandler.mk :=
  congrArg Prod.fst (outcome_newClient V rsa _ _ _ _ (Eq.refl (asking V rsa B setup)) hcall)

/-- The handlers of a request that passes every check. -/
theorem inTurn_served (hV : V.Patient) (hserved : Served V rsa B setup) :
    inTurn V rsa B setup =
      (.ok ⟨sessionCipher setup.aesKey setup.nonce (setup.protocol .client), setup.version .client⟩,
        .ok ⟨sessionCipher setup.aesKey setup.nonce (setup.protocol .client)⟩) := by
  obtain ⟨⟨k, hk⟩, hfirst⟩ := (served_iff hV).mp hserved
  obtain ⟨⟨w, hanswering, _⟩, hread⟩ := answering_accepted hk hfirst
  have hclient := (hread []).1
  rw [List.append_nil] at hclient
  refine Prod.ext ?_ (inTurn_client (Io.outcome_of_ok hclient))
  rw [inTurn, hanswering]

/-- What the client makes of the reply and of the data that may stand behind it. -/
theorem newClient_answered (hV : V.Patient) {data left : Bytes}
    {started : Except (Fault StarterError) (Option Cipher)}
    (hdata : ¬ Served V rsa B setup → data = [])
    (hcall : (clientStart V rsa (setup.protocol .client) (asking V rsa B setup).1).outcome
      (reply V rsa B setup ++ data) = (started, left)) :
    started.map ClientHandler.mk = (inTurn V rsa B setup).2 ∧
      ((∃ cipher, started = .ok cipher) → Served V rsa B setup ∧ left = data) := by
  by_cases hserved : Served V rsa B setup
  · obtain ⟨⟨k, hk⟩, hfirst⟩ := (served_iff hV).mp hserved
    have hread := (answering_accepted hk hfirst).2
    rw [Io.outcome_of_ok (hread data).1] at hcall
    obtain ⟨rfl, rfl⟩ := Prod.mk.inj hcall
    have hnothing := (hread []).1
    rw [List.append_nil] at hnothing
    exact ⟨(inTurn_client (Io.outcome_of_ok hnothing)).symm, fun _ => ⟨hserved, rfl⟩⟩
  · obtain rfl := hdata hserved
    obtain ⟨_, e, left', hrun⟩ := answering_refused V rsa B hV (not_served hV hserved)
    rw [List.append_nil] at hcall
    refine ⟨(inTurn_client hcall).symm, ?_⟩
    rw [Io.outcome_of_error hrun] at hcall
    rintro ⟨cipher, rfl⟩
    cases hcall

end Turns

end Connection

end TcpHandler.Streams
