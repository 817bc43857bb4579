/-
  Streams/Delivery.lean --- what handlers without a cipher deliver.

  On a connection of `raw` or `compress`, with the handshake in front of the data,
  buffered writers, bytes that arrive in pieces and handlers that are dropped at
  any time, the calls that return are a run of the two reliable streams of
  `Session/Stateless.lean` (`Delivering.calls`).  The end of a stream adds one
  thing: a `recv` finds it only when nothing is left to receive, and there is
  nothing to receive any more.
-/
import TcpHandler.Streams.Opening

set_option autoImplicit false

namespace TcpHandler.Streams

open TcpHandler.Foundation TcpHandler.Protocols
open TcpHandler.Session.Stateless (sentBy receivedBy sendLimits recvLimits LimitsAgree InOrder
    frames)

namespace Connection

/-- The calls of handlers without a cipher that returned. -/
def plainCalls (tr : List Label) : List (Party × Session.Stateless.Call) :=
  tr.filterMap fun
    | .plain p call => some (p, call)
    | _ => none

theorem plainCalls_append (tr post : List Label) :
    plainCalls (tr ++ post) = plainCalls tr ++ plainCalls post :=
  List.filterMap_append

theorem mem_plainCalls {p : Party} {call : Session.Stateless.Call} {tr : List Label} :
    (p, call) ∈ plainCalls tr ↔ .plain p call ∈ tr := by
  rw [plainCalls, List.mem_filterMap]
  constructor
  · rintro ⟨e, hmem, he⟩
    cases e <;> simp_all
  · intro hmem
    exact ⟨_, hmem, rfl⟩

section Delivery

variable {V : VariableLen} {W : Type} [AsyncWrite W] {Sk Pk Seed : Type} {rsa : Rsa Sk Pk Seed}
  {flate : Flate} {aead : Aead} {B : Buffering W} {setup : Setup Sk Seed} {tr : List Label}
  {s s' : Connection W setup.Init} {body : Body} {wire wire' : Party → Bytes} {p : Party}
  {e : Label} {C : List Label → Connection W setup.Init → (Party → Bytes) → Prop}

/-! ## Data under way -/

/-- A party that is gone stays gone. -/
theorem closed_of_step (hstep : Step V rsa flate aead B setup s e s')
    (hgone : s.stage p = .closed) :
    s'.stage p = .closed := by
  have hne : ∀ {q : Party}, s.stage q ≠ .closed → p ≠ q := by
    rintro q hq rfl
    exact hq hgone
  cases hstep with
  | clientInit hfresh | newServer hfresh =>
    exact (Function.update_of_ne (hne (by simp [hfresh])) _ _).trans hgone
  | newClient hopening => exact (Function.update_of_ne (hne (by simp [hopening])) _ _).trans hgone
  | sendSealed _ hlive | recvSealed _ hlive | lostSealed _ hlive | drop hlive =>
    exact (Function.update_of_ne (hne (by simp [hlive])) _ _).trans hgone
  | _ => exact hgone

/-- The data under way after a run, of which `C` is known.  A party that found the
end of a stream has read all of it, and its peer is gone. -/
structure Conveys (V : VariableLen) {W : Type} [AsyncWrite W] {Sk Pk Seed : Type}
    (rsa : Rsa Sk Pk Seed) (B : Buffering W) (setup : Setup Sk Seed)
    (C : List Label → Connection W setup.Init → (Party → Bytes) → Prop) (tr : List Label)
    (s : Connection W setup.Init) (wire : Party → Bytes) : Prop where
  linked : ∃ phase, Linked V rsa B setup phase s wire
  calls : C tr s wire
  ended : ∀ p limit error, .ended p limit error ∈ tr → s.stage p.peer = .closed ∧ wire p.peer = []

/-- A step that leaves the data where they are, or finds their end. -/
theorem Conveys.silent (h : Conveys V rsa B setup C tr s wire)
    (hstep : Step V rsa flate aead B setup s e s')
    (hlinked : ∃ phase, Linked V rsa B setup phase s' wire) (hcalls : C (tr ++ [e]) s' wire)
    (hended : ∀ p limit error, e = .ended p limit error →
      s.stage p.peer = .closed ∧ wire p.peer = []) :
    Conveys V rsa B setup C (tr ++ [e]) s' wire where
  linked := hlinked
  calls := hcalls
  ended p limit error hmem := by
    have hbefore : s.stage p.peer = .closed ∧ wire p.peer = [] := by
      rcases List.mem_append.mp hmem with hold | hnew
      · exact h.ended p limit error hold
      · exact hended p limit error (List.mem_singleton.mp hnew).symm
    exact ⟨closed_of_step hstep hbefore.1, hbefore.2⟩

/-- A call of a handler, which finds nothing on a stream that is empty. -/
theorem Conveys.call (h : Conveys V rsa B setup C tr s wire)
    (hstep : Step V rsa flate aead B setup s e s')
    (hlinked : ∃ phase, Linked V rsa B setup phase s' wire') (hcalls : C (tr ++ [e]) s' wire')
    {cipher : Option Cipher} (hlive : s.stage p = .live cipher)
    (hnil : wire p.peer = [] → wire' p.peer = []) (he : ∀ p limit error, e ≠ .ended p limit error) :
    Conveys V rsa B setup C (tr ++ [e]) s' wire' where
  linked := hlinked
  calls := hcalls
  ended q limit error hmem := by
    have hold : .ended q limit error ∈ tr :=
      (List.mem_append.mp hmem).resolve_right fun hnew =>
        he q limit error (List.mem_singleton.mp hnew).symm
    obtain ⟨hgone, hq⟩ := h.ended q limit error hold
    -- whoever calls is not gone, so it is the one that found the end
    obtain rfl : p = q := by
      rcases Party.eq_or_eq_peer q p with heq | rfl
      · exact heq
      · rw [hlive] at hgone
        cases hgone
    exact ⟨closed_of_step hstep hgone, hnil hq⟩

/-- A party that has read everything finds the end of the stream once the other is
gone. -/
theorem ended_of_gone (hV : V.Patient) {phase : Phase} (h : Linked V rsa B setup phase s wire)
    {cipher : Option Cipher} (hlive : s.stage p.peer = .live cipher) (hgone : s.stage p = .closed)
    (htransit : (s.pipe p).transit = []) (hnil : wire p = []) (limit : Usize) :
    ∃ error s', Step V rsa flate aead B setup s (.ended p.peer limit error) s' := by
  have hreader := h.reader_of_live hlive (by simpa using htransit)
  rw [Party.peer_peer, hnil] at hreader
  have hends : Io.ends (readPacket V limit) [] = true := by
    by_contra hno
    have harrived := (arrived_iff hV limit []).mpr (Bool.not_eq_true _ ▸ hno)
    simp [arrived] at harrived
  obtain ⟨error, hrun, _⟩ := (patient_readPacket hV limit).run_of_ends hends
  have hcall : (readPacket V limit).outcome (s.pipe p.peer.peer).reader = (.error error, []) := by
    rw [Party.peer_peer, hreader]
    exact Io.outcome_of_error hrun
  refine ⟨error, _, .ended hlive ?_ ?_ hcall⟩
  · simp [Pipe.ended, htransit, (h.closed p).mpr hgone]
  · rw [Party.peer_peer, hreader]
    exact hends

/-- Both parties of a connection with a handler have one protocol. -/
theorem Served.protocol_eq (hV : V.Patient) (h : Served V rsa B setup) (p : Party) :
    setup.protocol p = setup.protocol .client := by
  obtain ⟨_, hfirst⟩ := (served_iff hV).mp h
  obtain ⟨hprotocol, _⟩ := Variants.firstFailing_eq_none.mp hfirst
  cases p with
  | client => rfl
  | server => exact hprotocol.symm

/-- No protocol has both kinds of handlers. -/
theorem sealedPayload_of_plainBody {protocol : ProtocolVariant}
    (h : plainBody flate protocol = some body) : sealedPayload V flate protocol = none := by
  cases protocol with
  | raw | compression => rfl
  | encryption | compressEncryption => cases h

/-! ## Calls without a cipher -/

/-- A reader does not find the end of a stream on which a frame is left. -/
theorem eq_nil_of_ends {sent : List (Level × Buf)} {limit : Usize}
    (hsent : ∀ m ∈ sent, ∃ limit : Usize, (Plain.packet body m.1 m.2).length ≤ limit.toNat)
    (hends : Io.ends (readPacket V limit) (frames V body sent) = true) : sent = [] := by
  cases sent with
  | nil => rfl
  | cons m rest =>
    obtain ⟨within, hwithin⟩ := hsent m (by simp)
    rw [Session.Stateless.frames_cons, Session.Stateless.packetOf,
      ends_readPacket_frame hwithin] at hends
    cases hends

/-- A call leaves an empty stream empty, unless it writes to it. -/
theorem wire_nil_of_call {call : Session.Stateless.Call}
    (hcall : Session.Stateless.Step V body wire (p, call) wire') (hnil : wire p.peer = []) :
    wire' p.peer = [] := by
  cases hcall with
  | send => exact (Function.update_of_ne p.peer_ne _ _).trans hnil
  | recv harrived =>
    rw [hnil] at harrived
    simp [arrived] at harrived

/-- Limits that agree agree on every part of a run. -/
theorem limitsAgree_of_append {calls post : List (Party × Session.Stateless.Call)}
    (h : LimitsAgree (calls ++ post)) : LimitsAgree calls := by
  intro p sent hsent limit hlimit
  refine h p sent ?_ limit ?_
  · rw [Session.Stateless.sendLimits_append]
    exact List.mem_append_left _ hsent
  · rw [Session.Stateless.recvLimits_append]
    exact List.mem_append_left _ hlimit

/-- The data under way, as a run of two reliable streams has left them. -/
abbrev Delivering (V : VariableLen) {W : Type} [AsyncWrite W] {Sk Pk Seed : Type}
    (rsa : Rsa Sk Pk Seed) (B : Buffering W) (setup : Setup Sk Seed) (body : Body) :=
  Conveys V rsa B setup fun tr _ wire =>
    Run (Session.Stateless.Step V body) Session.Stateless.start (plainCalls tr) wire

/-- What was sent and not received is under way, frame by frame. -/
theorem Delivering.inOrder (h : Delivering V rsa B setup body tr s wire)
    (hlimits : LimitsAgree (plainCalls tr)) (p : Party) :
    InOrder V body p (plainCalls tr) wire :=
  Session.Stateless.inOrder_of_limitsAgree h.calls hlimits p

/-- A reader that finds the end of the data finds it behind the last frame. -/
theorem Delivering.wire_nil (h : Delivering V rsa B setup body tr s wire)
    (hlimits : LimitsAgree (plainCalls tr)) {limit : Usize}
    (hends : Io.ends (readPacket V limit) (wire p) = true) : wire p = [] := by
  obtain ⟨done, pending, hsent, _, _, hwire⟩ := h.inOrder hlimits p
  rw [hwire] at hends
  have hpending := eq_nil_of_ends (fun m hm => by
    obtain ⟨limit, _, hle⟩ :=
      Session.Stateless.sent_within h.calls (p := p) (m := m) (by simp [hsent, hm])
    exact ⟨limit, hle⟩) hends
  rw [hwire, hpending]
  rfl

/-- Every step keeps what is under way a run of two reliable streams. -/
theorem Delivering.step (hV : V.Patient)
    (hbody : plainBody flate (setup.protocol .client) = some body)
    (h : Delivering V rsa B setup body tr s wire) (hstep : Step V rsa flate aead B setup s e s')
    (hlimits : LimitsAgree (plainCalls (tr ++ [e]))) :
    ∃ wire', Delivering V rsa B setup body (tr ++ [e]) s' wire' := by
  obtain ⟨phase, hlinked⟩ := h.linked
  obtain ⟨phase', wire', hlinked', heffect⟩ := hlinked.step hV hstep
  have hsilent : plainCalls [e] = [] →
      Run (Session.Stateless.Step V body) Session.Stateless.start (plainCalls (tr ++ [e]))
        wire := by
    intro hnone
    rw [plainCalls_append, hnone, List.append_nil]
    exact h.calls
  cases e with
  | arrive p n | clientInit | lost p error | drop p =>
    obtain rfl : wire' = wire := heffect
    exact ⟨_, h.silent hstep ⟨phase', hlinked'⟩ (hsilent rfl) (by simp)⟩
  | newServer result | newClient result =>
    obtain rfl := heffect.2
    exact ⟨_, h.silent hstep ⟨phase', hlinked'⟩ (hsilent rfl) (by simp)⟩
  | ended p limit error =>
    obtain ⟨hgone, hends, rfl⟩ := heffect
    rw [plainCalls_append] at hlimits
    have hnil := h.wire_nil (limitsAgree_of_append hlimits) hends
    have hsame : Function.update wire p.peer [] = wire := by rw [← hnil, Function.update_eq_self]
    rw [hsame] at hlinked'
    refine ⟨_, h.silent hstep ⟨phase', hlinked'⟩ (hsilent rfl) ?_⟩
    rintro q _ _ heq
    cases heq
    exact ⟨hgone, hnil⟩
  | sealed p call =>
    obtain ⟨hserved, payload, _, _, hpayload, _⟩ := heffect
    rw [hserved.protocol_eq hV p, sealedPayload_of_plainBody hbody] at hpayload
    cases hpayload
  | plain p call =>
    obtain ⟨hserved, hlive, body', hbody', hcall⟩ := heffect
    rw [hserved.protocol_eq hV p, hbody] at hbody'
    cases hbody'
    refine ⟨wire', h.call hstep ⟨phase', hlinked'⟩ ?_ hlive (wire_nil_of_call hcall) (by simp)⟩
    rw [plainCalls_append]
    exact h.calls.snoc hcall

/-- The calls of every run are calls on two reliable streams. -/
theorem delivering_of_run (hV : V.Patient)
    (hbody : plainBody flate (setup.protocol .client) = some body)
    (hrun : Run (Step V rsa flate aead B setup) (start B setup) tr s)
    (hlimits : LimitsAgree (plainCalls tr)) :
    ∃ wire, Delivering V rsa B setup body tr s wire := by
  induction hrun with
  | nil => exact ⟨_, ⟨_, linked_start⟩, .nil, by simp⟩
  | snoc _ hstep ih =>
    have hbefore := hlimits
    rw [plainCalls_append] at hbefore
    obtain ⟨wire, h⟩ := ih (limitsAgree_of_append hbefore)
    exact h.step hV hbody hstep hlimits

/-! ## Delivery -/

/-- What two handlers without a cipher owe each other.

* `in_order`: what a party received is what the other sent first.
* `recv_ok`: no `recv` failed before the end of the stream.
* `complete`: a party that found the end of the stream received everything.
* `flows`: when a message was not received yet, more bytes can arrive, or `recv`
  returns the message under every limit that admits what was sent.
* `ends`: a party that has received everything finds the end of the stream once the
  other is gone. -/
structure Delivers (V : VariableLen) {W : Type} [AsyncWrite W] {Sk Pk Seed : Type}
    (rsa : Rsa Sk Pk Seed) (flate : Flate) (aead : Aead) (B : Buffering W) (setup : Setup Sk Seed)
    (tr : List Label) (s : Connection W setup.Init) : Prop where
  in_order : ∀ p, receivedBy p.peer (plainCalls tr) <+:
    (sentBy p (plainCalls tr)).map fun m => m.2.flatten
  recv_ok : ∀ p limit result, .plain p (.recv limit result) ∈ tr → ∃ message, result = .ok message
  complete : ∀ p limit error, .ended p.peer limit error ∈ tr →
    receivedBy p.peer (plainCalls tr) = (sentBy p (plainCalls tr)).map fun m => m.2.flatten
  flows : ∀ p message rest, s.stage p.peer = .live none →
    ((sentBy p (plainCalls tr)).map fun m => m.2.flatten) =
      receivedBy p.peer (plainCalls tr) ++ message :: rest →
    (∃ n s', Step V rsa flate aead B setup s (.arrive p n) s') ∨
      ∀ limit : Usize, (∀ sent ∈ sendLimits p (plainCalls tr), sent.toNat ≤ limit.toNat) →
        ∃ s', Step V rsa flate aead B setup s (.plain p.peer (.recv limit (.ok message))) s'
  ends : ∀ p, s.stage p.peer = .live none → s.stage p = .closed →
    receivedBy p.peer (plainCalls tr) = ((sentBy p (plainCalls tr)).map fun m => m.2.flatten) →
    (∃ n s', Step V rsa flate aead B setup s (.arrive p n) s') ∨
      ∀ limit, ∃ error s', Step V rsa flate aead B setup s (.ended p.peer limit error) s'

/-- A message that was sent and not received arrives and is received. -/
theorem Delivering.flows (hV : V.Patient)
    (hbody : plainBody flate (setup.protocol .client) = some body)
    (h : Delivering V rsa B setup body tr s wire) (hlimits : LimitsAgree (plainCalls tr))
    {message : Bytes} {rest : List Bytes} (hlive : s.stage p.peer = .live none)
    (hsent : ((sentBy p (plainCalls tr)).map fun m => m.2.flatten) =
      receivedBy p.peer (plainCalls tr) ++ message :: rest)
    (htransit : (s.pipe p).transit = []) {limit : Usize}
    (hlimit : ∀ sent ∈ sendLimits p (plainCalls tr), sent.toNat ≤ limit.toNat) :
    ∃ s', Step V rsa flate aead B setup s (.plain p.peer (.recv limit (.ok message))) s' := by
  obtain ⟨phase, hlinked⟩ := h.linked
  obtain ⟨done, pending, hdone, hreceived, _, hwire⟩ := h.inOrder hlimits p
  rw [hdone, hreceived, List.map_append, List.append_cancel_left_eq] at hsent
  cases pending with
  | nil => cases hsent
  | cons m ms =>
    obtain ⟨rfl, _⟩ := List.cons.inj hsent
    obtain ⟨within, hwithin, hle⟩ :=
      Session.Stateless.sent_within h.calls (p := p) (m := m) (by simp [hdone])
    have hfits : (Plain.packet body m.1 m.2).length ≤ limit.toNat :=
      Nat.le_trans hle (hlimit within hwithin)
    have hreader := hlinked.reader_of_live hlive (by simpa using htransit)
    rw [Party.peer_peer, hwire, Session.Stateless.frames_cons,
      Session.Stateless.packetOf] at hreader
    have hpeer := (hlinked.served _ _ hlive).protocol_eq hV p.peer
    have hreturns : Io.ends (readPacket V limit) (s.pipe p.peer.peer).reader = false := by
      rw [Party.peer_peer, hreader, Io.ends, run_readPacket_frame V hfits]
    have hcall : (Plain.recv V body limit).outcome (s.pipe p.peer.peer).reader =
        (.ok m.2.flatten, frames V body ms) := by
      rw [Party.peer_peer, hreader, Session.Stateless.outcome_recv_frame hle, if_pos hfits]
    exact ⟨_, .recvPlain (by rw [hpeer, hbody]) hlive hreturns hcall⟩

/-- A stream of which everything was received is empty. -/
theorem Delivering.nil_of_received (h : Delivering V rsa B setup body tr s wire)
    (hlimits : LimitsAgree (plainCalls tr))
    (hsent : receivedBy p.peer (plainCalls tr) =
      ((sentBy p (plainCalls tr)).map fun m => m.2.flatten)) : wire p = [] := by
  obtain ⟨done, pending, hdone, hreceived, _, hwire⟩ := h.inOrder hlimits p
  rw [hdone, hreceived, List.map_append] at hsent
  obtain rfl : pending = [] := List.map_eq_nil_iff.mp (List.self_eq_append_right.mp hsent)
  exact hwire

/-- Two reliable streams deliver. -/
theorem Delivering.delivers (hV : V.Patient)
    (hbody : plainBody flate (setup.protocol .client) = some body)
    (h : Delivering V rsa B setup body tr s wire) (hlimits : LimitsAgree (plainCalls tr)) :
    Delivers V rsa flate aead B setup tr s := by
  refine ⟨fun p => ?_, fun p limit result hmem => ?_, fun p limit error hmem => ?_,
    fun p message rest hlive hsent => ?_, fun p hlive hgone hsent => ?_⟩
  · obtain ⟨done, pending, hsent, hreceived, _⟩ := h.inOrder hlimits p
    rw [hsent, hreceived, List.map_append]
    exact List.prefix_append _ _
  · obtain ⟨done, pending, _, hreceived, hcalled, _⟩ := h.inOrder hlimits p.peer
    rw [Party.peer_peer] at hreceived hcalled
    exact Session.Stateless.recv_ok_of_length (by rw [hcalled, hreceived, List.length_map])
      (mem_plainCalls.mpr hmem)
  · obtain ⟨done, pending, hsent, hreceived, _, hwire⟩ := h.inOrder hlimits p
    have hnil := (h.ended p.peer limit error hmem).2
    rw [Party.peer_peer, hwire, Session.Stateless.frames_eq_nil_iff] at hnil
    rw [hsent, hreceived, hnil, List.append_nil]
  · by_cases htransit : (s.pipe p).transit = []
    · exact .inr fun limit => h.flows hV hbody hlimits hlive hsent htransit
    · exact .inl (arrives htransit)
  · by_cases htransit : (s.pipe p).transit = []
    · obtain ⟨phase, hlinked⟩ := h.linked
      exact .inr (ended_of_gone hV hlinked hlive hgone htransit (h.nil_of_received hlimits hsent))
    · exact .inl (arrives htransit)

/-- Whatever the pieces in which the bytes arrive, whoever is dropped and whenever,
what was sent is received, in order, once and completely. -/
theorem delivery (hV : V.Patient) (hbody : plainBody flate (setup.protocol .client) = some body)
    (hrun : Run (Step V rsa flate aead B setup) (start B setup) tr s)
    (hlimits : LimitsAgree (plainCalls tr)) : Delivers V rsa flate aead B setup tr s := by
  obtain ⟨wire, h⟩ := delivering_of_run hV hbody hrun hlimits
  exact h.delivers hV hbody hlimits

/-- A server that sends before the client has read its reply, and drops its handler. -/
theorem delivery_dropped : ∃ s, Delivers Reference.variableLen Reference.rsa Reference.flate
    Reference.aead Reference.bufWriter (Setup.reference .raw)
    [.clientInit, .arrive .client 5, .arrive .client 6, .newServer (.ok ⟨none, "1"⟩),
      .plain .server (.send 0 64 [[7]] (.ok ())), .drop .server, .arrive .server 3,
      .newClient (.ok ⟨none⟩), .plain .client (.recv 64 (.ok [7])),
      .ended .client 64 (.io .unexpectedEof)] s :=
  ⟨_, delivery Reference.variableLen_patient rfl
    (Run.cons_iff.mpr ⟨_, .clientInit rfl rfl,
      Run.cons_iff.mpr ⟨_, .arrive (by decide) (by decide),
      Run.cons_iff.mpr ⟨_, .arrive (by decide) (by decide),
      Run.cons_iff.mpr ⟨_, .newServer rfl rfl rfl,
      Run.cons_iff.mpr ⟨_, .sendPlain rfl rfl rfl,
      Run.cons_iff.mpr ⟨_, .drop rfl,
      Run.cons_iff.mpr ⟨_, .arrive (by decide) (by decide),
      Run.cons_iff.mpr ⟨_, @Step.newClient _ _ _ _ _ _ _ _ _ _ _ _ _ (.ok none) _ rfl rfl rfl,
      Run.cons_iff.mpr ⟨_, .recvPlain rfl rfl rfl rfl,
      Run.cons_iff.mpr ⟨_, .ended rfl rfl rfl rfl, .nil⟩⟩⟩⟩⟩⟩⟩⟩⟩⟩)
    (by intro p; cases p <;> simp [plainCalls, sendLimits, recvLimits, Party.peer])⟩

end Delivery

end Connection

end TcpHandler.Streams
