/-
  Session/Cut.lean --- data streams that end too early.

  A party sends any packets, and the connection is cut after any number of their
  bytes.  Its peer calls `recv` on what is left, under any limits.  With a cipher
  the two start from the same key and nonce, and each packet carries the nonce of
  the next one: what a reader of packets keeps besides the stream is that nonce.
-/
import TcpHandler.Foundation.Run
import TcpHandler.Foundation.Transcript
import TcpHandler.Handshake.Cut
import TcpHandler.Protocols.Reference

set_option autoImplicit false

namespace TcpHandler.Session.Cut

open TcpHandler.Foundation TcpHandler.Protocols

/-! ## Packets that were sent -/

/-- What a `send` that returned `Ok` put on its stream: the body of the packet, the
message in it, and what a reader of the packet keeps. -/
structure Packet (τ : Type) where
  body : Bytes
  message : Bytes
  after : τ

section Sends

variable (V : VariableLen)

/-- One call of `send` that returned `Ok`, of `raw` or `compress`. -/
inductive SendsPlain (body : Body) : Bytes → Packet Unit → Bytes → Prop
  | send {w w' : Bytes} {level : Level} {limit : Usize} {message : Buf}
      (hcall : (Plain.send V body level limit message).run w = .ok () w') :
      SendsPlain body w ⟨Plain.packet body level message, message.flatten, ()⟩ w'

/-- One call of `send` that returned `Ok`, of `encrypt` or `compress_encrypt`. -/
inductive SendsSealed (payload : Payload) (aead : Aead) :
    Bytes × Cipher → Packet Nonce → Bytes × Cipher → Prop
  | send {s s' : Bytes × Cipher} {level : Level} {limit : Usize} {fresh : Nonce} {message : Buf}
      {packet : Bytes}
      (hseal : ((Sealed.sealMessage payload aead level fresh message).outcome s.2).1 = .ok packet)
      (hcall : (Sealed.send V payload aead level limit fresh message).run s = .ok () s') :
      SendsSealed payload aead s ⟨packet, message.flatten, fresh⟩ s'

end Sends

/-! ## What `recv` makes of them -/

/-- Packets as a transcript, read by calls that are given a limit. -/
def framing (V : VariableLen) (τ : Type) : Format (Packet τ) Usize τ Bytes where
  bytes p := frame V p.body
  value := Packet.message
  after := Packet.after
  Takes limit p := p.body.length ≤ limit.toNat

/-- What `recv` makes of a stream of packets, cut after `n` bytes.  The reader keeps
`t` besides the stream, and fails with errors of `E`.

* `stopped`: under all limits, some first packets are returned; they are whole, and
  the next call fails, because the next packet is not whole or is longer than the
  limit of this call.
* `complete`: when no whole packet is longer than the limit of the call that meets
  it, and the calls do not end before the packets, all whole packets are returned,
  then a call fails, and the reader keeps what the last whole packet left. -/
structure Detects {τ σ ε : Type} (V : VariableLen) (recv : Usize → Io σ ε Bytes)
    (place : Bytes → τ → σ) (E : ε → Prop) (t : τ) (packets : List (Packet τ)) (stream : Bytes)
    (n : Nat) : Prop where
  stopped : ∀ limits, ∃ j, (framing V τ).Stopped place E t packets limits n
    (untilError recv limits (place (stream.take n) t)) j
  complete : ∀ limits, (framing V τ).whole packets n < limits.length →
    (∀ i limit p, i < (framing V τ).whole packets n → limits[i]? = some limit →
      packets[i]? = some p → p.body.length ≤ limit.toNat) →
    ∃ e left, E e ∧ untilError recv limits (place (stream.take n) t) =
      ⟨(packets.take ((framing V τ).whole packets n)).map Packet.message, some e,
        place left ((framing V τ).settled t (packets.take ((framing V τ).whole packets n)))⟩

section Detects

variable {τ σ ε : Type} {V : VariableLen} {recv : Usize → Io σ ε Bytes} {place : Bytes → τ → σ}
  {E : ε → Prop} {t : τ} {packets : List (Packet τ)}

theorem detects_of_reads
    (hend : ∀ limit t, ∃ e left, (recv limit).run (place [] t) = .error e (place left t) ∧ E e)
    (hreads : (framing V τ).ReadsItems recv place E t packets) (n : Nat) :
    Detects V recv place E t packets ((framing V τ).transcript packets) n where
  stopped limits := Format.reading_cut hend hreads limits n
  complete limits hcalls hfits := by
    obtain ⟨j, hstopped⟩ := Format.reading_cut hend hreads limits n
    obtain ⟨hj, e, hfailure, he⟩ := hstopped.of_takes hcalls hfits
    obtain ⟨left, hkept⟩ := hstopped.kept
    have hvalues := hstopped.values
    rw [hj] at hkept hvalues
    refine ⟨e, left, he, ?_⟩
    rw [← hkept, ← hfailure]
    exact congrArg (Reading.mk · _ _) hvalues

end Detects

/-! ## `raw` and `compress` -/

section Plain

variable {V : VariableLen} {body : Body}

theorem plain_end (hV : V.FailsWhenCut) (limit : Usize) :
    ∃ e left, (Plain.recv V body limit).run [] = .error e left := by
  obtain ⟨e, left, hread⟩ := run_readPacket_nil V hV limit
  exact ⟨e, left, Io.run_bind_of_error hread _⟩

theorem plain_reads (hV : V.FailsWhenCut) {level : Level} {sent : Usize} {message : Buf}
    (hsent : (Plain.packet body level message).length ≤ sent.toNat) (t : Unit) :
    (framing V Unit).ReadsItem (Plain.recv V body) (fun s _ => s) (fun _ => True) t
      ⟨Plain.packet body level message, message.flatten, ()⟩ where
  reads _ rest hlimit := Plain.run_recv_frame V hlimit rest
  refuses _ rest hlimit :=
    ⟨_, _, Plain.run_recv_oversized V hsent (Nat.lt_of_not_le hlimit) rest, trivial⟩
  notices limit := (notices_readPacket V hV hsent limit).last

/-- What calls of `send` wrote is a transcript. -/
theorem plain_transcript (hV : V.FailsWhenCut) {packets : List (Packet Unit)} {w stream : Bytes}
    (hsends : Run (SendsPlain V body) w packets stream) (t : Unit) :
    stream = w ++ (framing V Unit).transcript packets ∧
      (framing V Unit).ReadsItems (Plain.recv V body) (fun s _ => s) (fun _ => True) t packets := by
  induction packets generalizing w t with
  | nil =>
    rw [Run.nil_iff.mp hsends]
    exact ⟨(List.append_nil w).symm, trivial⟩
  | cons packet packets ih =>
    obtain ⟨w', hsend, hrest⟩ := Run.cons_iff.mp hsends
    cases hsend with
    | @send _ level limit message hcall =>
      by_cases hlimit : (Plain.packet body level message).length ≤ limit.toNat
      · rw [Plain.run_send_of_le V hlimit] at hcall
        cases hcall
        obtain ⟨hstream, hreads⟩ := ih hrest ()
        refine ⟨?_, plain_reads hV hlimit t, hreads⟩
        rw [hstream, List.append_assoc]
        rfl
      · rw [Plain.run_send_of_lt V (Nat.lt_of_not_le hlimit)] at hcall
        cases hcall

end Plain

/-! ## `encrypt` and `compress_encrypt` -/

section Sealed

variable {V : VariableLen} {payload : Payload} {aead : Aead} {key : AesKey}

/-- A call of `send` that returned `Ok`: the packet it wrote opens under the nonce
that the cipher held, and the cipher holds the nonce in the packet. -/
theorem of_sendsSealed (haead : aead.RoundTrip) {nonce : Nonce} {w : Bytes}
    {packet : Packet Nonce} {s' : Bytes × Cipher}
    (hsend : SendsSealed V payload aead (w, Cipher.new (key, nonce)) packet s') :
    (Sealed.openPacket payload aead packet.body).run (Cipher.new (key, nonce)) =
      .ok packet.message (Cipher.new (key, packet.after)) ∧
    (∃ limit : Usize, packet.body.length ≤ limit.toNat) ∧
    s' = (w ++ frame V packet.body, Cipher.new (key, packet.after)) := by
  cases hsend with
  | @send _ level limit fresh message body hseal hcall =>
    obtain ⟨cipher', hrun⟩ := Io.outcome_fst_eq_ok.mp hseal
    have hsent := Io.outcome_of_ok hcall
    rw [Sealed.outcome_send, Io.outcome_of_ok hrun] at hsent
    rw [Sealed.run_sealMessage rfl] at hrun
    simp only [Cipher.new] at hrun
    cases hencrypt : aead.encryptInPlace key nonce (payload.compose level fresh message) with
    | error e =>
      rw [hencrypt] at hrun
      cases hrun
    | ok sealedBody =>
      rw [hencrypt] at hrun
      cases hrun
      have hopen : (Sealed.openPacket payload aead body).run (Cipher.new (key, nonce)) =
          .ok message.flatten (Cipher.new (key, fresh)) := by
        rw [Sealed.run_openPacket rfl]
        simp only [Cipher.new, haead hencrypt, payload.parse_compose]
      by_cases hlimit : body.length ≤ limit.toNat
      · simp only [Sealed.outcome_writeSealed_of_le V hlimit, Except.mapError] at hsent
        injection hsent with _ hs'
        exact ⟨hopen, ⟨limit, hlimit⟩, hs'.symm⟩
      · have hlt := Nat.lt_of_not_le hlimit
        simp only [Sealed.outcome_writeSealed_of_lt V hlt, Except.mapError] at hsent
        injection hsent with hresult _
        cases hresult

/-- What is an error of `recv` and not a panic. -/
def Refusal (e : Fault PacketError) : Prop := ∃ error, e = .error error

/-- The state of a reader: the stream, and a cipher that holds the given nonce. -/
def withNonce (key : AesKey) (s : Bytes) (nonce : Nonce) : Bytes × Cipher :=
  (s, Cipher.new (key, nonce))

/-- `recv` up to its critical section. -/
theorem run_recv_of_error {limit : Usize} {s left : Bytes} {e : PacketError}
    (hread : (readPacket V limit).run s = .error e left) (nonce : Nonce) :
    (Sealed.recv V payload aead limit).run (withNonce key s nonce) =
      .error (.error e) (withNonce key left nonce) := by
  apply Io.run_bind_of_error
  simp only [withNonce, Io.run_onFst, Io.run_mapError, hread]

theorem sealed_reads (hV : V.FailsWhenCut) {nonce : Nonce} {packet : Packet Nonce} {sent : Usize}
    (hsent : packet.body.length ≤ sent.toNat)
    (hopen : (Sealed.openPacket payload aead packet.body).run (Cipher.new (key, nonce)) =
      .ok packet.message (Cipher.new (key, packet.after))) :
    (framing V Nonce).ReadsItem (Sealed.recv V payload aead) (withNonce key) Refusal nonce
      packet where
  reads limit rest hlimit := by
    have hread : (readPacket V limit).run (frame V packet.body ++ rest) = .ok packet.body rest :=
      run_readPacket_frame V hlimit rest
    have hfetch : (Io.onFst ((readPacket V limit).mapError Fault.error)).run
        (withNonce key (frame V packet.body ++ rest) nonce) =
          .ok packet.body (withNonce key rest nonce) := by
      simp only [withNonce, Io.run_onFst, Io.run_mapError, hread]
    refine (Io.run_bind_of_ok hfetch _).trans ?_
    simp only [withNonce, Io.run_onSnd, hopen]
    rfl
  refuses limit rest hlimit := by
    have hread := run_readPacket_oversized V hsent (Nat.lt_of_not_le hlimit) rest
    exact ⟨_, _, run_recv_of_error hread nonce, _, rfl⟩
  notices limit cut hpre hne := by
    obtain ⟨e, left, hread, _⟩ := notices_readPacket V hV hsent limit cut hpre hne
    exact ⟨_, left, run_recv_of_error hread nonce, e, rfl⟩

/-- What calls of `send` wrote is a transcript, read from the nonce they began with. -/
theorem sealed_transcript (hV : V.FailsWhenCut) (haead : aead.RoundTrip)
    {packets : List (Packet Nonce)} {w : Bytes} {nonce : Nonce} {s' : Bytes × Cipher}
    (hsends : Run (SendsSealed V payload aead) (w, Cipher.new (key, nonce)) packets s') :
    s'.1 = w ++ (framing V Nonce).transcript packets ∧
      (framing V Nonce).ReadsItems (Sealed.recv V payload aead) (withNonce key) Refusal nonce
        packets := by
  induction packets generalizing w nonce with
  | nil =>
    rw [Run.nil_iff.mp hsends]
    exact ⟨(List.append_nil w).symm, trivial⟩
  | cons packet packets ih =>
    obtain ⟨t, hsend, hrest⟩ := Run.cons_iff.mp hsends
    obtain ⟨hopen, ⟨sent, hsent⟩, rfl⟩ := of_sendsSealed haead hsend
    obtain ⟨hstream, hreads⟩ := ih hrest
    refine ⟨?_, sealed_reads hV hsent hopen, hreads⟩
    rw [hstream, List.append_assoc]
    rfl

end Sealed

/-! ## Cut connections -/

section Connections

variable (V : VariableLen) {Sk Pk Seed : Type} (rsa : Rsa Sk Pk Seed) (aead : Aead)

open Handshake (request reply)
open Variants (clientInit clientStart serverInit serverStart)

/-- A cut connection is detected, wherever it is cut.

* `server`: `server_init` fails on every part of a request, and the `server_start`
  behind it fails too and writes no acceptance.
* `client`: `client_start` fails on every part of a reply, without a panic.
* `plain`: `recv` of `raw` and `compress`, which are the two values of `body`.
* `sealed`: `recv` of `encrypt` and `compress_encrypt`, the two values of `payload`,
  and the nonce of its cipher. -/
structure CutsDetected : Prop where
  server : ∀ (pc ps : ProtocolVariant) (ic is vc vs : String) (P : String → Bool) (sk : Sk)
    (aesKey : AesKey) (nonce : Nonce) (seed : Seed) (n : Nat),
    n < (request V rsa pc ic vc sk).length →
    ∃ e left written,
      (serverInit V rsa is P ps).run ((request V rsa pc ic vc sk).take n) = .error e left ∧
      (serverStart V rsa aesKey nonce seed is vs ps (.error e)).outcome ([] : Bytes) =
        (.error e, written) ∧
      ¬ V.bools2.encode (true, true) <+: written
  client : ∀ (pc ps : ProtocolVariant) (ic is vc vs : String) (P : String → Bool) (sk : Sk)
    (aesKey : AesKey) (nonce : Nonce) (seed : Seed) (n : Nat),
    n < (reply V rsa pc ps ic is vc vs P sk aesKey nonce seed).length →
    ∃ e left, (clientStart V rsa pc ((clientInit V rsa (.ok sk) ic vc pc).outcome
      ([] : Bytes)).1).run
      ((reply V rsa pc ps ic is vc vs P sk aesKey nonce seed).take n) = .error (.error e) left
  plain : ∀ (body : Body) (packets : List (Packet Unit)) (stream : Bytes),
    Run (SendsPlain V body) [] packets stream →
    ∀ n, Detects V (Plain.recv V body) (fun s _ => s) (fun _ => True) () packets stream n
  sealed : ∀ (payload : Payload) (key : AesKey) (nonce : Nonce) (packets : List (Packet Nonce))
    (stream : Bytes) (cipher : Cipher),
    Run (SendsSealed V payload aead) ([], Cipher.new (key, nonce)) packets (stream, cipher) →
    ∀ n, Detects V (Sealed.recv V payload aead) (withNonce key) Refusal nonce packets stream n

variable {V rsa aead}

/-- A cut connection is always detected. -/
theorem cuts_detected (hV : V.FailsWhenCut) (haead : aead.RoundTrip) : CutsDetected V rsa aead where
  server pc ps ic is vc vs P sk aesKey nonce seed n hcut :=
    Handshake.serverInit_cut hV pc ps ic is vc vs P sk aesKey nonce seed hcut
  client pc ps ic is vc vs P sk aesKey nonce seed n hcut := by
    rw [Handshake.outcome_clientInit]
    exact Handshake.clientStart_cut hV pc ps ic is vc vs P sk aesKey nonce seed hcut
  plain body packets stream hsends n := by
    obtain ⟨hstream, hreads⟩ := plain_transcript hV hsends ()
    rw [hstream, List.nil_append]
    refine detects_of_reads (fun limit t => ?_) hreads n
    obtain ⟨e, left, hread⟩ := plain_end hV limit
    exact ⟨e, left, hread, trivial⟩
  sealed payload key nonce packets stream cipher hsends n := by
    obtain ⟨hstream, hreads⟩ := sealed_transcript hV haead hsends
    rw [show stream = _ from hstream, List.nil_append]
    refine detects_of_reads (fun limit nonce => ?_) hreads n
    obtain ⟨e, left, hread⟩ := run_readPacket_nil V hV limit
    exact ⟨_, left, run_recv_of_error hread nonce, e, rfl⟩

/-- The codecs of the reference instances. -/
theorem cuts_detected_reference :
    CutsDetected Reference.variableLen Reference.rsa Reference.aead :=
  cuts_detected Reference.variableLen_failsWhenCut Reference.aead_ideal.decrypt_same

/-- A whole packet is not returned when it is longer than the limit of `recv`: of
`[1, 42]` and `[7]`, sent under the limit 64 and cut inside `[7]`, a `recv` under the
limit 1 returns nothing. -/
theorem whole_packet_refused :
    ¬ ∀ (V : VariableLen) (body : Body) (packets : List (Packet Unit)) (stream : Bytes),
      V.FailsWhenCut → Run (SendsPlain V body) [] packets stream →
        ∀ (n : Nat) (limits : List Usize),
        n < stream.length → (framing V Unit).whole packets n < limits.length →
        (untilError (Plain.recv V body) limits (stream.take n)).values =
          (packets.take ((framing V Unit).whole packets n)).map Packet.message := by
  intro h
  have hfirst : (Plain.send Reference.variableLen Raw.body 0 64 [[1, 42]]).run ([] : Bytes) =
      .ok () [2, 1, 42] := rfl
  have hsecond : (Plain.send Reference.variableLen Raw.body 0 64 [[7]]).run ([2, 1, 42] : Bytes) =
      .ok () [2, 1, 42, 1, 7] := rfl
  have hsends : Run (SendsPlain Reference.variableLen Raw.body) []
      [⟨[1, 42], [1, 42], ()⟩, ⟨[7], [7], ()⟩] [2, 1, 42, 1, 7] :=
    .snoc (.snoc .nil (.send hfirst)) (.send hsecond)
  have hvalues := h Reference.variableLen Raw.body _ _ Reference.variableLen_failsWhenCut hsends 4
    [1, 1] (by decide) (by decide)
  revert hvalues
  decide

end Connections

end TcpHandler.Session.Cut
