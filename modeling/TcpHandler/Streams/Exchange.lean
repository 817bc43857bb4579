/-
  Streams/Exchange.lean --- what handlers with a cipher deliver.

  On a connection of `encrypt` or `compress_encrypt` whose parties follow a script,
  everything that `Session/Scripted.lean` says of two ciphers and two reliable
  streams holds of the handlers, from their constructors on: no `recv` fails before
  the end of the stream, nothing is lost, and the ciphers stay in step.
-/
import TcpHandler.Session.Scripted
import TcpHandler.Streams.Sealing

set_option autoImplicit false

namespace TcpHandler.Streams

open TcpHandler.Foundation TcpHandler.Protocols
open TcpHandler.Session.Whole (Spoken Follows SendsReturn LimitsAgree sentBy receivedBy sendLimits
  calls)

namespace Connection

section Exchange

variable {V : VariableLen} {W : Type} [AsyncWrite W] {Sk Pk Seed : Type} {rsa : Rsa Sk Pk Seed}
  {flate : Flate} {aead : Aead} {B : Buffering W} {setup : Setup Sk Seed} {tr : List Label}
  {s : Connection W setup.Init} {payload : Payload} {script : Nat → Party} {wire : Party → Bytes}
  {p : Party}

/-! ## Calls -/

/-- A conversation in which no `recv` failed. -/
def Conversing (V : VariableLen) (payload : Payload) (aead : Aead) (key : AesKey) (nonce : Nonce)
    (script : Nat → Party) (made : List (Party × Session.Whole.Call)) (s : Session.Whole.State) :
    Prop :=
  (∃ t, Spoken V payload aead key nonce script made s t) ∧
    ∀ p limit result, (p, .recv limit result) ∈ made → ∃ message, result = .ok message

/-- Calls by a script go on as a conversation. -/
theorem sustains_conversing (hround : aead.RoundTrip) (key : AesKey) (nonce : Nonce) :
    Sustains V payload aead
      (fun made => Follows script made ∧ SendsReturn made ∧ LimitsAgree made)
      (Conversing V payload aead key nonce script) where
  before _ _ := fun ⟨hfollows, hsends, hlimits⟩ =>
    ⟨hfollows.of_append, hsends.of_append, hlimits.of_append⟩
  step made s e s' h hstep hok := by
    obtain ⟨⟨t, hspoken⟩, hreceived⟩ := h
    obtain ⟨hfollows, hsends, hlimits⟩ := hok
    obtain ⟨hnext, hrecv⟩ := hspoken.step hround hstep hfollows hsends hlimits
    refine ⟨hnext, fun p limit result hmem => ?_⟩
    rcases List.mem_append.mp hmem with hold | hnew
    · exact hreceived p limit result hold
    · exact hrecv p limit result (List.mem_singleton.mp hnew).symm
  wire_nil _ _ _ _ h hends := by
    obtain ⟨⟨t, hspoken⟩, _⟩ := h
    exact hspoken.wire_nil hends

/-- The data under way, as a conversation has left them. -/
abbrev Exchanging (V : VariableLen) {W : Type} [AsyncWrite W] {Sk Pk Seed : Type}
    (rsa : Rsa Sk Pk Seed) (B : Buffering W) (setup : Setup Sk Seed) (payload : Payload)
    (aead : Aead) (script : Nat → Party) :=
  Sealing V rsa B setup (Conversing V payload aead setup.aesKey setup.nonce script)

/-! ## Delivery -/

/-- What two handlers with a cipher owe each other.

* `in_order`, `recv_ok`, `complete`, `flows`, `ends`: as without a cipher.
* `in_step`: after the same number of calls the two ciphers are the same.
* `turn`: one of the two has its turn to send, or something to receive. -/
structure Exchanges (V : VariableLen) {W : Type} [AsyncWrite W] {Sk Pk Seed : Type}
    (rsa : Rsa Sk Pk Seed) (flate : Flate) (aead : Aead) (B : Buffering W) (setup : Setup Sk Seed)
    (script : Nat → Party) (tr : List Label) (s : Connection W setup.Init) : Prop where
  in_order : ∀ p, receivedBy p.peer (sealedCalls tr) <+: sentBy p (sealedCalls tr)
  recv_ok : ∀ p limit result, .sealed p (.recv limit result) ∈ tr → ∃ message, result = .ok message
  complete : ∀ p limit error, .ended p.peer limit error ∈ tr →
    receivedBy p.peer (sealedCalls tr) = sentBy p (sealedCalls tr)
  flows : ∀ p message rest cipher, s.stage p.peer = .live cipher →
    sentBy p (sealedCalls tr) = receivedBy p.peer (sealedCalls tr) ++ message :: rest →
    (∃ n s', Step V rsa flate aead B setup s (.arrive p n) s') ∨
      ∀ limit : Usize, (∀ sent ∈ sendLimits p (sealedCalls tr), sent.toNat ≤ limit.toNat) →
        ∃ s', Step V rsa flate aead B setup s (.sealed p.peer (.recv limit (.ok message))) s'
  ends : ∀ p cipher, s.stage p.peer = .live cipher → s.stage p = .closed →
    receivedBy p.peer (sealedCalls tr) = sentBy p (sealedCalls tr) →
    (∃ n s', Step V rsa flate aead B setup s (.arrive p n) s') ∨
      ∀ limit, ∃ error s', Step V rsa flate aead B setup s (.ended p.peer limit error) s'
  in_step : ∀ c c', s.stage .client = .live c → s.stage .server = .live c' →
    calls .client (sealedCalls tr) = calls .server (sealedCalls tr) → c = c'
  turn : ∃ p, script (calls p (sealedCalls tr)) = p ∨ ∃ message rest,
    sentBy p.peer (sealedCalls tr) = receivedBy p (sealedCalls tr) ++ message :: rest

/-- A message that was sent and not received arrives and is received. -/
theorem Exchanging.flows (hV : V.Patient) (hround : aead.RoundTrip)
    (hpayload : sealedPayload V flate (setup.protocol .client) = some payload)
    (h : Exchanging V rsa B setup payload aead script tr s wire) {c : Option Cipher}
    (hlive : s.stage p.peer = .live c) (htransit : (s.pipe p).transit = []) {message : Bytes}
    {rest : List Bytes}
    (hsent : sentBy p (sealedCalls tr) = receivedBy p.peer (sealedCalls tr) ++ message :: rest)
    {limit : Usize} (hlimit : ∀ sent ∈ sendLimits p (sealedCalls tr), sent.toNat ≤ limit.toNat) :
    ∃ s', Step V rsa flate aead B setup s (.sealed p.peer (.recv limit (.ok message))) s' := by
  obtain ⟨phase, hlinked⟩ := h.linked
  obtain ⟨cipher, ⟨⟨t, hspoken⟩, _⟩, hholds⟩ := h.calls
  obtain ⟨hends, left, cipher', hcall⟩ := hspoken.flows hround hsent hlimit
  exact recv_of_outcome hV hpayload hlinked hlive (hholds p.peer) htransit hends hcall

/-- Two handlers that follow a script lose nothing and never part, whatever the
pieces in which the bytes arrive, whoever is dropped and whenever. -/
theorem exchange (hV : V.Patient) (hround : aead.RoundTrip)
    (hpayload : sealedPayload V flate (setup.protocol .client) = some payload)
    (hrun : Run (Step V rsa flate aead B setup) (start B setup) tr s)
    (hfollows : Follows script (sealedCalls tr)) (hsends : SendsReturn (sealedCalls tr))
    (hlimits : LimitsAgree (sealedCalls tr)) :
    Exchanges V rsa flate aead B setup script tr s := by
  obtain ⟨wire, h⟩ : ∃ wire, Exchanging V rsa B setup payload aead script tr s wire :=
    sealing_of_run hV hpayload (sustains_conversing hround setup.aesKey setup.nonce)
      ⟨⟨_, Session.Whole.spoken_start⟩, by simp⟩ hrun ⟨hfollows, hsends, hlimits⟩
  obtain ⟨phase, hlinked⟩ := h.linked
  obtain ⟨cipher, ⟨⟨t, hspoken⟩, hok⟩, hholds⟩ := h.calls
  refine ⟨hspoken.in_order,
    fun p limit result hmem => hok p limit result (mem_sealedCalls.mpr hmem),
    fun p limit error hmem => ?_, fun p message rest c hlive hsent => ?_,
    fun p c hlive hgone hsent => ?_, fun c c' hc hc' hcalls => ?_, hspoken.goes_on⟩
  · exact hspoken.complete (by simpa using (h.ended p.peer limit error hmem).2)
  · by_cases htransit : (s.pipe p).transit = []
    · exact .inr fun limit hlimit => h.flows hV hround hpayload hlive htransit hsent hlimit
    · exact .inl (arrives htransit)
  · by_cases htransit : (s.pipe p).transit = []
    · exact .inr (ended_of_gone hV hlinked hlive hgone htransit (hspoken.nil_of_received hsent))
    · exact .inl (arrives htransit)
  · have hclient := hholds .client
    have hserver := hholds .server
    rw [hc] at hclient
    rw [hc'] at hserver
    have hsame : cipher .client = cipher .server := hspoken.in_step hcalls
    rw [show c = some (cipher .client) from hclient,
      show c' = some (cipher .server) from hserver, hsame]

/-! ### A request and its reply -/

/-- The client asks and the server answers, on and on. -/
def alternate (k : Nat) : Party := if k % 2 = 0 then .client else .server

/-- Two constructors that return without being disturbed. -/
def greeted : List Label :=
  [.clientInit, .arrive .client 15,
    .newServer (.ok ⟨some (Cipher.new (Reference.key, Reference.nonce 0)), "1"⟩),
    .arrive .server 46, .newClient (.ok ⟨some (Cipher.new (Reference.key, Reference.nonce 0))⟩)]

/-- What they leave. -/
def settled : Connection Reference.BufWriter (Setup.reference .encryption).Init where
  stage _ := .live (some (Cipher.new (Reference.key, Reference.nonce 0)))
  pipe
    | .client => ⟨(asking Reference.variableLen Reference.rsa Reference.bufWriter
        (Setup.reference .encryption)).2, [], [], false⟩
    | .server => ⟨(answering Reference.variableLen Reference.rsa Reference.bufWriter
        (Setup.reference .encryption)).2.2, [], [], false⟩

theorem run_greeted : Run (Step Reference.variableLen Reference.rsa Reference.flate Reference.aead
    Reference.bufWriter (Setup.reference .encryption)) (start Reference.bufWriter _) greeted
      settled := by
  have hrun : ∃ s, Run (Step Reference.variableLen Reference.rsa Reference.flate Reference.aead
      Reference.bufWriter (Setup.reference .encryption)) (start Reference.bufWriter _) greeted s ∧
        s = settled := by
    refine ⟨_, Run.cons_iff.mpr ⟨_, .clientInit rfl rfl,
      Run.cons_iff.mpr ⟨_, .arrive (by decide) (by decide),
      Run.cons_iff.mpr ⟨_, .newServer rfl rfl rfl,
      Run.cons_iff.mpr ⟨_, .arrive (by decide) (by decide),
      Run.cons_iff.mpr ⟨_, @Step.newClient _ _ _ _ _ _ _ _ _ _ _ _ _ (.ok _) _ rfl rfl rfl,
      .nil⟩⟩⟩⟩⟩, ?_⟩
    unfold settled
    congr 1 <;>
    · funext p
      cases p <;> rfl
  obtain ⟨s, hrun, rfl⟩ := hrun
  exact hrun

/-- A request and its reply, after which the server drops its handler. -/
def answered : List Label :=
  [.sealed .client (.send 0 64 (Reference.nonce 1) [[7]] (.ok ())), .arrive .client 30,
    .sealed .server (.recv 64 (.ok [7])),
    .sealed .server (.send 0 64 (Reference.nonce 2) [[8]] (.ok ())), .drop .server,
    .arrive .server 30, .sealed .client (.recv 64 (.ok [8])),
    .ended .client 64 (.io .unexpectedEof)]

theorem run_answered : ∃ s, Run (Step Reference.variableLen Reference.rsa Reference.flate
    Reference.aead Reference.bufWriter (Setup.reference .encryption)) settled answered s :=
  ⟨_, Run.cons_iff.mpr ⟨_, .sendSealed rfl rfl rfl,
    Run.cons_iff.mpr ⟨_, .arrive (by decide) (by decide),
    Run.cons_iff.mpr ⟨_, .recvSealed rfl rfl rfl rfl,
    Run.cons_iff.mpr ⟨_, .sendSealed rfl rfl rfl,
    Run.cons_iff.mpr ⟨_, .drop rfl,
    Run.cons_iff.mpr ⟨_, .arrive (by decide) (by decide),
    Run.cons_iff.mpr ⟨_, .recvSealed rfl rfl rfl rfl,
    Run.cons_iff.mpr ⟨_, .ended rfl rfl rfl rfl,
    .nil⟩⟩⟩⟩⟩⟩⟩⟩⟩

/-- The calls of the connection. -/
theorem sealedCalls_answered : sealedCalls (greeted ++ answered) =
    [(.client, .send 0 64 (Reference.nonce 1) [[7]] (.ok ())), (.server, .recv 64 (.ok [7])),
      (.server, .send 0 64 (Reference.nonce 2) [[8]] (.ok ())), (.client, .recv 64 (.ok [8]))] :=
  rfl

theorem exchange_answered : ∃ s, Exchanges Reference.variableLen Reference.rsa Reference.flate
    Reference.aead Reference.bufWriter (Setup.reference .encryption) alternate
    (greeted ++ answered) s := by
  obtain ⟨s, hrun⟩ := run_answered
  refine ⟨s, exchange Reference.variableLen_patient (fun h => Reference.aead_ideal.decrypt_same h)
    rfl (run_greeted.append hrun) ?_ ?_ ?_⟩
  · rw [sealedCalls_answered]
    intro pre p level limit fresh message result post heq
    rcases pre with _ | ⟨a, _ | ⟨b, _ | ⟨c, _ | ⟨d, pre⟩⟩⟩⟩ <;> simp at heq
    · simp [heq, calls, alternate]
    · obtain ⟨rfl, rfl, ⟨rfl, _⟩, _⟩ := heq
      rfl
  · rw [sealedCalls_answered]
    intro p level limit fresh message result hmem
    simp only [List.mem_cons, Prod.mk.injEq, Session.Whole.Call.send.injEq, reduceCtorEq, and_false,
      List.not_mem_nil, or_false, false_or] at hmem
    rcases hmem with ⟨_, _, _, _, _, rfl⟩ | ⟨_, _, _, _, _, rfl⟩ <;> rfl
  · rw [sealedCalls_answered]
    intro p
    cases p <;> simp [sendLimits, Session.Whole.recvLimits, Party.peer]

end Exchange

end Connection

end TcpHandler.Streams
