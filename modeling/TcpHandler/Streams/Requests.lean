/-
  Streams/Requests.lean --- `handler_send_recv` on a connection.

  A client that only calls `handler_send_recv`, and a server that receives a request,
  sends what answers it and waits for the next, with the handlers of any protocol.
  Each gives up when one of its calls fails; either may be dropped at any time, a
  `send` may be refused or fail in the transport.

  Whatever the pieces in which the bytes arrive, every reply answers its request, no
  `recv` fails before the end of the stream, and while the client waits somebody can
  go on (`requests_answered`).  The four protocols have in common what is needed for
  it (`Carries`).
-/
import TcpHandler.Session.Requests
import TcpHandler.Streams.Exchange

set_option autoImplicit false

namespace TcpHandler.Streams

open TcpHandler.Foundation TcpHandler.Protocols
open TcpHandler.Foundation.Requests (Use Serves sent received)
open TcpHandler.Session (handlerSendRecv program quits_program)
open TcpHandler.Session.Whole (Corresponds Corresponding)

namespace Connection

/-! ## What handlers are used for -/

/-- What a party used a call for. -/
def Label.use : Label → Option (Party × Use Bytes Bytes)
  | .plain p call => some (p, call.use)
  | .sealed p call => some (p, call.use)
  | .ended p _ _ => some (p, .failed)
  | .lost p _ => some (p, .refused)
  | _ => none

/-- What `p` used its handler for. -/
def uses (p : Party) (tr : List Label) : List (Use Bytes Bytes) :=
  tr.filterMap fun e => e.use.bind fun (q, use) => if q = p then some use else none

/-- Both parties do what their programs allow. -/
def Obeys (answers : Bytes → Bytes → Prop) (tr : List Label) : Prop :=
  ∀ p, ∃ phase, Run (program answers p) .idle (uses p tr) phase

/-- A limit under which every packet that `p` has written can be received. -/
def Admits (p : Party) (tr : List Label) (limit : Usize) : Prop :=
  (∀ sent ∈ Session.Stateless.sendLimits p (plainCalls tr), sent.toNat ≤ limit.toNat) ∧
    ∀ sent ∈ Session.Whole.sendLimits p (sealedCalls tr), sent.toNat ≤ limit.toNat

theorem uses_append (p : Party) (tr post : List Label) :
    uses p (tr ++ post) = uses p tr ++ uses p post :=
  List.filterMap_append

section Requests

variable {V : VariableLen} {W : Type} [AsyncWrite W] {Sk Pk Seed : Type} {rsa : Rsa Sk Pk Seed}
  {flate : Flate} {aead : Aead} {B : Buffering W} {setup : Setup Sk Seed} {tr : List Label}
  {s s' : Connection W setup.Init} {body : Body} {payload : Payload}
  {answers : Bytes → Bytes → Prop} {p : Party}

/-- What the handlers of every protocol do for their parties.

* `in_order`, `complete`, `ends`: as without a cipher.
* `failed`: no `recv` failed before the end of the stream.
* `flows`: what was not received yet arrives and is received, by a party none of whose
  calls has failed. -/
structure Carries (V : VariableLen) {W : Type} [AsyncWrite W] {Sk Pk Seed : Type}
    (rsa : Rsa Sk Pk Seed) (flate : Flate) (aead : Aead) (B : Buffering W) (setup : Setup Sk Seed)
    (tr : List Label) (s : Connection W setup.Init) : Prop where
  in_order : ∀ p, received (uses p.peer tr) <+: sent (uses p tr)
  failed : ∀ p, ∀ e ∈ tr, e.use = some (p, .failed) → ∃ limit error, e = .ended p limit error
  complete : ∀ p limit error, .ended p.peer limit error ∈ tr →
    received (uses p.peer tr) = sent (uses p tr)
  flows : ∀ p message rest cipher, s.stage p.peer = .live cipher →
    (∀ use ∈ uses p.peer tr, use.fails = false) →
    sent (uses p tr) = received (uses p.peer tr) ++ message :: rest →
    (∃ n s', Step V rsa flate aead B setup s (.arrive p n) s') ∨
      ∀ limit, Admits p tr limit → ∃ e s', Step V rsa flate aead B setup s e s' ∧
        e.use = some (p.peer, .recv message)
  ends : ∀ p cipher, s.stage p.peer = .live cipher → s.stage p = .closed →
    received (uses p.peer tr) = sent (uses p tr) →
    (∃ n s', Step V rsa flate aead B setup s (.arrive p n) s') ∨
      ∀ limit, ∃ error s', Step V rsa flate aead B setup s (.ended p.peer limit error) s'

/-! ## Handlers without a cipher -/

/-- On a connection without a cipher no call has one. -/
theorem not_sealed_of_run (hV : V.Patient)
    (hbody : plainBody flate (setup.protocol .client) = some body)
    (hrun : Run (Step V rsa flate aead B setup) (start B setup) tr s) (p : Party)
    (call : Session.Whole.Call) : .sealed p call ∉ tr := by
  refine Run.invariant (I := fun tr _ => ∀ p call, Label.sealed p call ∉ tr)
    (by simp) ?_ hrun p call
  intro tr s e s' hrun ih hstep p call hmem
  rcases List.mem_append.mp hmem with hold | hnew
  · exact ih p call hold
  · obtain rfl := List.mem_singleton.mp hnew
    obtain ⟨⟨phase, wire, hlinked⟩, _⟩ := linked_of_run hV hrun
    obtain ⟨_, _, _, hserved, payload, _, _, hpayload, _⟩ := hlinked.step hV hstep
    rw [hserved.protocol_eq hV p, sealedPayload_of_plainBody hbody] at hpayload
    cases hpayload

theorem sessionCipher_of_plainBody {protocol : ProtocolVariant} (aesKey : AesKey) (nonce : Nonce)
    (h : plainBody flate protocol = some body) :
    Variants.sessionCipher aesKey nonce protocol = none := by
  cases protocol with
  | raw | compression => rfl
  | encryption | compressEncryption => cases h

theorem Turns.none {Init : Type} {stage stage' : Stage Init} (h : Turns none stage stage')
    (hlive : ∀ cipher, stage = .live cipher → cipher = .none) (cipher : Option Cipher)
    (hlive' : stage' = .live cipher) : cipher = .none := by
  cases h with
  | stays => exact hlive cipher hlive'
  | lives => cases hlive'; rfl
  | opens | closes => cases hlive'

/-- On a connection without a cipher no handler has one. -/
theorem live_none_of_run (hV : V.Patient)
    (hbody : plainBody flate (setup.protocol .client) = some body)
    (hrun : Run (Step V rsa flate aead B setup) (start B setup) tr s) (p : Party)
    (cipher : Option Cipher) (hlive : s.stage p = .live cipher) : cipher = none := by
  induction hrun generalizing cipher with
  | nil => cases hlive
  | snoc hrun hstep ih =>
    obtain ⟨⟨phase, wire, hlinked⟩, _⟩ := linked_of_run hV hrun
    have hturns := hlinked.turns hV hstep (fun q call he => ?_) p
    · rw [sessionCipher_of_plainBody _ _ hbody] at hturns
      exact hturns.none ih cipher hlive
    · exact not_sealed_of_run hV hbody (hrun.snoc hstep) q call (by simp [he])

/-- What was sent without a cipher. -/
theorem sent_uses_plain (hsealed : ∀ p call, .sealed p call ∉ tr) (p : Party) :
    sent (uses p tr) =
      (Session.Stateless.sentBy p (plainCalls tr)).map fun m => m.2.flatten := by
  rw [sent, uses, List.filterMap_filterMap, Session.Stateless.sentBy, plainCalls,
    List.filterMap_filterMap, List.map_filterMap]
  apply List.filterMap_congr
  intro e hmem
  cases e with
  | sealed q call => exact absurd hmem (hsealed q call)
  | plain q call =>
    by_cases hq : q = p <;> rcases call with ⟨_, _, _, _ | _⟩ | ⟨_, _ | _⟩ <;>
      simp [hq, Label.use, Session.Stateless.Call.use]
  | ended q | lost q => by_cases hq : q = p <;> simp [hq, Label.use]
  | _ => rfl

theorem received_uses_plain (hsealed : ∀ p call, .sealed p call ∉ tr) (p : Party) :
    received (uses p tr) = Session.Stateless.receivedBy p (plainCalls tr) := by
  rw [received, uses, List.filterMap_filterMap, Session.Stateless.receivedBy, plainCalls,
    List.filterMap_filterMap]
  apply List.filterMap_congr
  intro e hmem
  cases e with
  | sealed q call => exact absurd hmem (hsealed q call)
  | plain q call =>
    by_cases hq : q = p <;> rcases call with ⟨_, _, _, _ | _⟩ | ⟨_, _ | _⟩ <;>
      simp [hq, Label.use, Session.Stateless.Call.use]
  | ended q | lost q => by_cases hq : q = p <;> simp [hq, Label.use]
  | _ => rfl

theorem carries_plain (hV : V.Patient)
    (hbody : plainBody flate (setup.protocol .client) = some body)
    (hrun : Run (Step V rsa flate aead B setup) (start B setup) tr s)
    (hlimits : Session.Stateless.LimitsAgree (plainCalls tr)) :
    Carries V rsa flate aead B setup tr s := by
  obtain ⟨wire, hdelivering⟩ := delivering_of_run hV hbody hrun hlimits
  have h : Delivers V rsa flate aead B setup tr s := hdelivering.delivers hV hbody hlimits
  have hsealed := not_sealed_of_run hV hbody hrun
  have hnone := live_none_of_run hV hbody hrun
  have hsent := sent_uses_plain hsealed
  have hreceived := received_uses_plain hsealed
  refine ⟨fun p => ?_, fun p e hmem huse => ?_, fun p limit error hmem => ?_,
    fun p message rest cipher hlive _ hmissing => ?_, fun p cipher hlive hgone hall => ?_⟩
  · rw [hsent, hreceived]
    exact h.in_order p
  · cases e with
    | ended q limit error =>
      cases huse
      exact ⟨limit, error, rfl⟩
    | plain q call =>
      rcases call with ⟨_, _, _, _ | _⟩ | ⟨limit, _ | _⟩ <;> cases huse
      obtain ⟨_, hok⟩ := h.recv_ok _ limit _ hmem
      cases hok
    | sealed q call => exact absurd hmem (hsealed q call)
    | _ => cases huse
  · rw [hsent, hreceived]
    exact h.complete p limit error hmem
  · obtain rfl := hnone _ _ hlive
    rw [hsent, hreceived] at hmissing
    rcases h.flows p message rest hlive hmissing with harrive | hrecv
    · exact .inl harrive
    · refine .inr fun limit hadmits => ?_
      obtain ⟨s', hstep⟩ := hrecv limit hadmits.1
      exact ⟨_, s', hstep, rfl⟩
  · obtain rfl := hnone _ _ hlive
    rw [hsent, hreceived] at hall
    exact h.ends p hlive hgone hall

/-! ## Handlers with a cipher -/

/-- On a connection with a cipher every call has one. -/
theorem not_plain_of_run (hV : V.Patient)
    (hpayload : sealedPayload V flate (setup.protocol .client) = some payload)
    (hrun : Run (Step V rsa flate aead B setup) (start B setup) tr s) (p : Party)
    (call : Session.Stateless.Call) : .plain p call ∉ tr := by
  refine Run.invariant (I := fun tr _ => ∀ p call, Label.plain p call ∉ tr) (by simp) ?_ hrun p call
  intro tr s e s' hrun ih hstep p call hmem
  rcases List.mem_append.mp hmem with hold | hnew
  · exact ih p call hold
  · obtain rfl := List.mem_singleton.mp hnew
    obtain ⟨⟨phase, wire, hlinked⟩, _⟩ := linked_of_run hV hrun
    obtain ⟨_, _, _, hserved, _, body, hbody, _⟩ := hlinked.step hV hstep
    rw [hserved.protocol_eq hV p] at hbody
    rw [sealedPayload_of_plainBody hbody] at hpayload
    cases hpayload

/-- What was sent with a cipher. -/
theorem sent_uses_sealed (hplain : ∀ p call, .plain p call ∉ tr) (p : Party) :
    sent (uses p tr) = Session.Whole.sentBy p (sealedCalls tr) := by
  rw [sent, uses, List.filterMap_filterMap, Session.Whole.sentBy, sealedCalls,
    List.filterMap_filterMap]
  apply List.filterMap_congr
  intro e hmem
  cases e with
  | plain q call => exact absurd hmem (hplain q call)
  | sealed q call =>
    by_cases hq : q = p <;> rcases call with ⟨_, _, _, _, _ | _⟩ | ⟨_, _ | _⟩ <;>
      simp [hq, Label.use, Session.Whole.Call.use]
  | ended q | lost q => by_cases hq : q = p <;> simp [hq, Label.use]
  | _ => rfl

theorem received_uses_sealed (hplain : ∀ p call, .plain p call ∉ tr) (p : Party) :
    received (uses p tr) = Session.Whole.receivedBy p (sealedCalls tr) := by
  rw [received, uses, List.filterMap_filterMap, Session.Whole.receivedBy, sealedCalls,
    List.filterMap_filterMap]
  apply List.filterMap_congr
  intro e hmem
  cases e with
  | plain q call => exact absurd hmem (hplain q call)
  | sealed q call =>
    by_cases hq : q = p <;> rcases call with ⟨_, _, _, _, _ | _⟩ | ⟨_, _ | _⟩ <;>
      simp [hq, Label.use, Session.Whole.Call.use]
  | ended q | lost q => by_cases hq : q = p <;> simp [hq, Label.use]
  | _ => rfl

/-- A party has given up behind the calls that are not `send` or `recv` on a cipher:
they found the end of the stream. -/
theorem uses_sealedCalls (hplain : ∀ p call, .plain p call ∉ tr) {phase : Requests.Phase Bytes}
    (hrun : Run (program answers p) .idle (uses p tr) phase) :
    Session.Whole.uses p (sealedCalls tr) <+: uses p tr := by
  rw [Session.Whole.uses, sealedCalls, List.filterMap_filterMap]
  refine ((quits_program answers p).leaveOut (fun e hmem => ?_) hrun).1
  cases e with
  | plain q call => exact absurd hmem (hplain q call)
  | sealed q call => exact .inl rfl
  | ended q | lost q => exact .inr ⟨rfl, by simp [Label.use, Use.fails]⟩
  | _ => exact .inl rfl

/-- The calls with a cipher do what the programs allow. -/
theorem Obeys.corresponds (hplain : ∀ p call, .plain p call ∉ tr) (h : Obeys answers tr) :
    Corresponds answers (sealedCalls tr) := by
  intro p
  obtain ⟨phase, hrun⟩ := h p
  obtain ⟨rest, hrest⟩ := uses_sealedCalls hplain hrun
  rw [← hrest] at hrun
  obtain ⟨mid, hmid, _⟩ := hrun.split
  exact ⟨mid, hmid⟩

/-- Calls of the two programs go on as a correspondence. -/
theorem sustains_corresponding (hround : aead.RoundTrip) (key : AesKey) (nonce : Nonce) :
    Sustains V payload aead
      (fun made => Corresponds answers made ∧ Session.Whole.LimitsAgree made)
      (Corresponding V payload aead key nonce alternate) where
  before _ _ := fun ⟨hcorresponds, hlimits⟩ => ⟨hcorresponds.of_append, hlimits.of_append⟩
  step _ _ _ _ h hstep := fun ⟨hcorresponds, hlimits⟩ =>
    h.step hround (fun _ => rfl) hstep hcorresponds hlimits
  wire_nil _ _ _ _ h hends := h.wire_nil hends

theorem carries_sealed (hV : V.Patient) (hround : aead.RoundTrip)
    (hpayload : sealedPayload V flate (setup.protocol .client) = some payload)
    (hrun : Run (Step V rsa flate aead B setup) (start B setup) tr s) (hobeys : Obeys answers tr)
    (hlimits : Session.Whole.LimitsAgree (sealedCalls tr)) :
    Carries V rsa flate aead B setup tr s := by
  have hplain := not_plain_of_run hV hpayload hrun
  have hsent := sent_uses_sealed hplain
  have hreceived := received_uses_sealed hplain
  obtain ⟨wire, h⟩ := sealing_of_run hV hpayload
    (sustains_corresponding hround setup.aesKey setup.nonce) Session.Whole.corresponding_start hrun
    ⟨hobeys.corresponds hplain, hlimits⟩
  obtain ⟨phase, hlinked⟩ := h.linked
  obtain ⟨cipher, hcorresponding, hholds⟩ := h.calls
  refine ⟨fun p => ?_, fun p e hmem huse => ?_, fun p limit error hmem => ?_,
    fun p message rest c hlive hunfailed hmissing => ?_, fun p c hlive hgone hall => ?_⟩
  · rw [hsent, hreceived]
    exact hcorresponding.in_order p
  · cases e with
    | ended q limit error =>
      cases huse
      exact ⟨limit, error, rfl⟩
    | sealed q call =>
      rcases call with ⟨_, _, _, _, _ | _⟩ | ⟨limit, _ | _⟩ <;> cases huse
      obtain ⟨_, hok⟩ := hcorresponding.recv_ok _ limit _ (mem_sealedCalls.mpr hmem)
      cases hok
    | plain q call => exact absurd hmem (hplain q call)
    | _ => cases huse
  · rw [hsent, hreceived]
    exact hcorresponding.complete (by simpa using (h.ended p.peer limit error hmem).2)
  · by_cases htransit : (s.pipe p).transit = []
    · refine .inr fun limit hadmits => ?_
      obtain ⟨phase', hprogram⟩ := hobeys p.peer
      rw [hsent, hreceived] at hmissing
      obtain ⟨hends, left, cipher', hcall⟩ := hcorresponding.flows hround
        (fun use hmem => hunfailed use ((uses_sealedCalls hplain hprogram).subset hmem)) hmissing
        hadmits.2
      obtain ⟨s', hstep⟩ :=
        recv_of_outcome hV hpayload hlinked hlive (hholds p.peer) htransit hends hcall
      exact ⟨_, s', hstep, rfl⟩
    · exact .inl (arrives htransit)
  · by_cases htransit : (s.pipe p).transit = []
    · rw [hsent, hreceived] at hall
      exact .inr (ended_of_gone hV hlinked hlive hgone htransit
        (hcorresponding.nil_of_received hall))
    · exact .inl (arrives htransit)

/-! ## Requests and replies -/

/-- Who goes on while the client waits for the reply to `a`. -/
inductive Attended (V : VariableLen) {W : Type} [AsyncWrite W] {Sk Pk Seed : Type}
    (rsa : Rsa Sk Pk Seed) (flate : Flate) (aead : Aead) (B : Buffering W) (setup : Setup Sk Seed)
    (answers : Bytes → Bytes → Prop) (tr : List Label) (s : Connection W setup.Init) (a : Bytes) :
    Prop
  /-- the transport -/
  | arrives {p : Party} {n : Nat} {s' : Connection W setup.Init}
      (hstep : Step V rsa flate aead B setup s (.arrive p n) s')
  /-- the client, which receives its reply -/
  | reply {b : Bytes} (hanswers : answers a b)
      (hrecv : ∀ limit, Admits .server tr limit → ∃ e s', Step V rsa flate aead B setup s e s' ∧
        e.use = some (.client, .recv b))
  /-- the server, which receives the request -/
  | request {cipher : Option Cipher} (hlive : s.stage .server = .live cipher)
      (hrecv : ∀ limit, Admits .client tr limit → ∃ e s', Step V rsa flate aead B setup s e s' ∧
        e.use = some (.server, .recv a))
  /-- the server, which has the request -/
  | working {cipher : Option Cipher} (hlive : s.stage .server = .live cipher)
      (hserver : Run (Serves answers) .idle (uses .server tr) (.busy a))
  /-- the server, which has given up and may drop its handler -/
  | gaveUp {cipher : Option Cipher} (hlive : s.stage .server = .live cipher)
      (hserver : Run (Serves answers) .idle (uses .server tr) .stopped)
  /-- the client, which finds the end of the stream -/
  | ended (hrecv : ∀ limit, ∃ error s',
      Step V rsa flate aead B setup s (.ended .client limit error) s')

/-- What a client that only calls `handler_send_recv` and a server that answers owe each
other.

* `requests`: the server receives the requests, in order.
* `replies`: the reply at every place answers the request at that place.
* `failed`: a `recv` fails only at the end of the stream.
* `complete`: a party that found the end of the stream received everything.
* `waiting`: while the client waits, somebody can go on. -/
structure Answered (V : VariableLen) {W : Type} [AsyncWrite W] {Sk Pk Seed : Type}
    (rsa : Rsa Sk Pk Seed) (flate : Flate) (aead : Aead) (B : Buffering W) (setup : Setup Sk Seed)
    (answers : Bytes → Bytes → Prop) (tr : List Label) (s : Connection W setup.Init) : Prop where
  requests : received (uses .server tr) <+: sent (uses .client tr)
  replies : List.Forall₂ answers
    ((sent (uses .client tr)).take (received (uses .client tr)).length) (received (uses .client tr))
  failed : ∀ p, ∀ e ∈ tr, e.use = some (p, .failed) → ∃ limit error, e = .ended p limit error
  complete : ∀ p limit error, .ended p.peer limit error ∈ tr →
    received (uses p.peer tr) = sent (uses p tr)
  waiting : ∀ a cipher, Run handlerSendRecv .idle (uses .client tr) (.busy a) →
    s.stage .client = .live cipher → Attended V rsa flate aead B setup answers tr s a

/-- While the client waits, somebody can go on. -/
theorem Carries.attended (hV : V.Patient) (h : Carries V rsa flate aead B setup tr s)
    (hrun : Run (Step V rsa flate aead B setup) (start B setup) tr s) (hobeys : Obeys answers tr)
    {a : Bytes} {cipher : Option Cipher}
    (hclient : Run handlerSendRecv .idle (uses .client tr) (.busy a))
    (hlive : s.stage .client = .live cipher) :
    Attended V rsa flate aead B setup answers tr s a := by
  obtain ⟨phase, hserver⟩ := hobeys .server
  have hrequests : received (uses .server tr) <+: sent (uses .client tr) := h.in_order .client
  have hreplies : received (uses .client tr) <+: sent (uses .server tr) := h.in_order .server
  have hunfailed := Requests.quits_asks.unfailed hclient (by simp)
  -- a reply that was sent is received
  have hreply : ∀ b, answers a b → sent (uses .server tr) = received (uses .client tr) ++ [b] →
      Attended V rsa flate aead B setup answers tr s a := by
    intro b hb hsent
    rcases h.flows .server b [] cipher hlive hunfailed hsent with ⟨n, s', hstep⟩ | hrecv
    · exact .arrives hstep
    · exact .reply hb hrecv
  obtain ⟨⟨_, _, hlinked⟩, _⟩ := linked_of_run hV hrun
  have hreturned : (s.stage .server).Returned := by
    rcases hlinked.fits.of_live hlive with rfl | ⟨_, hp⟩
    · exact hlinked.fits.2
    · cases hp
  rcases hreturned with ⟨cipher', hlive'⟩ | hgone
  · have hawaited := Requests.awaited hclient hserver hrequests hreplies
    cases phase with
    | idle =>
      rcases hawaited with hrequest | ⟨b, hb, hsent⟩
      · have hgoing := Requests.quits_serves.unfailed hserver (by simp)
        rcases h.flows .client a [] cipher' hlive' hgoing hrequest with ⟨n, s', hstep⟩ | hrecv
        · exact .arrives hstep
        · exact .request hlive' hrecv
      · exact hreply b hb hsent
    | busy request =>
      obtain rfl : request = a := hawaited
      exact .working hlive' hserver
    | stopped => exact .gaveUp hlive' hserver
  · rcases Requests.sent_while_waiting (Requests.asked_of_run hclient)
      (Requests.served_of_run hserver) hrequests hreplies with hsame | ⟨_, b, hb, hsent⟩
    · rcases h.ends .server cipher hlive hgone hsame.symm with ⟨n, s', hstep⟩ | hrecv
      · exact .arrives hstep
      · exact .ended hrecv
    · exact hreply b hb hsent

/-- With the handlers of every protocol, whatever the pieces in which the bytes arrive,
whichever call fails and whoever is dropped, requests get the replies that answer them,
and a client that waits is attended to. -/
theorem requests_answered (hV : V.Patient) (hround : aead.RoundTrip)
    (hrun : Run (Step V rsa flate aead B setup) (start B setup) tr s) (hobeys : Obeys answers tr)
    (hplain : Session.Stateless.LimitsAgree (plainCalls tr))
    (hsealed : Session.Whole.LimitsAgree (sealedCalls tr)) :
    Answered V rsa flate aead B setup answers tr s := by
  have h : Carries V rsa flate aead B setup tr s := by
    cases hprotocol : setup.protocol .client with
    | raw | compression => exact carries_plain hV (by rw [hprotocol]; rfl) hrun hplain
    | encryption | compressEncryption =>
      exact carries_sealed hV hround (by rw [hprotocol]; rfl) hrun hobeys hsealed
  obtain ⟨phase, hserver⟩ := hobeys .server
  exact ⟨h.in_order .client,
    Requests.replies_answer hserver (h.in_order .client) (h.in_order .server), h.failed, h.complete,
    fun a cipher hclient hlive => h.attended hV hrun hobeys hclient hlive⟩

/-- A request and its reply, and a request to which the server, which has dropped its
handler, sends none. -/
def requested : List Label :=
  [.sealed .client (.send 0 64 (Reference.nonce 1) [[7]] (.ok ())), .arrive .client 30,
    .sealed .server (.recv 64 (.ok [7])),
    .sealed .server (.send 0 64 (Reference.nonce 2) [[8]] (.ok ())), .drop .server,
    .arrive .server 30, .sealed .client (.recv 64 (.ok [8])),
    .sealed .client (.send 0 64 (Reference.nonce 3) [[9]] (.ok ())),
    .ended .client 64 (.io .unexpectedEof)]

theorem run_requested : ∃ s, Run (Step Reference.variableLen Reference.rsa Reference.flate
    Reference.aead Reference.bufWriter (Setup.reference .encryption)) settled requested s :=
  ⟨_, Run.cons_iff.mpr ⟨_, .sendSealed rfl rfl rfl,
    Run.cons_iff.mpr ⟨_, .arrive (by decide) (by decide),
    Run.cons_iff.mpr ⟨_, .recvSealed rfl rfl rfl rfl,
    Run.cons_iff.mpr ⟨_, .sendSealed rfl rfl rfl,
    Run.cons_iff.mpr ⟨_, .drop rfl,
    Run.cons_iff.mpr ⟨_, .arrive (by decide) (by decide),
    Run.cons_iff.mpr ⟨_, .recvSealed rfl rfl rfl rfl,
    Run.cons_iff.mpr ⟨_, .sendSealed rfl rfl rfl,
    Run.cons_iff.mpr ⟨_, .ended rfl rfl rfl rfl,
    .nil⟩⟩⟩⟩⟩⟩⟩⟩⟩⟩

/-- A server that adds one to a number. -/
def adds (request reply : Bytes) : Prop := reply = request.map (· + 1)

theorem obeys_requested : Obeys adds (greeted ++ requested) := by
  intro p
  cases p with
  | client =>
    exact ⟨.stopped, Run.cons_iff.mpr ⟨_, .send, Run.cons_iff.mpr ⟨_, .recv,
      Run.cons_iff.mpr ⟨_, .send, Run.cons_iff.mpr ⟨_, .failed, .nil⟩⟩⟩⟩⟩
  | server =>
    exact ⟨.idle, Run.cons_iff.mpr ⟨_, .recv, Run.cons_iff.mpr ⟨_, .send rfl, .nil⟩⟩⟩

theorem requests_answered_requested : ∃ s, Answered Reference.variableLen Reference.rsa
    Reference.flate Reference.aead Reference.bufWriter (Setup.reference .encryption) adds
    (greeted ++ requested) s := by
  obtain ⟨s, hrun⟩ := run_requested
  refine ⟨s, requests_answered Reference.variableLen_patient
    (fun h => Reference.aead_ideal.decrypt_same h) (run_greeted.append hrun) obeys_requested ?_ ?_⟩
  · intro p sent hsent
    simp [plainCalls, greeted, requested, Session.Stateless.sendLimits] at hsent
  · have hcalls : sealedCalls (greeted ++ requested) =
        [(.client, .send 0 64 (Reference.nonce 1) [[7]] (.ok ())), (.server, .recv 64 (.ok [7])),
          (.server, .send 0 64 (Reference.nonce 2) [[8]] (.ok ())), (.client, .recv 64 (.ok [8])),
          (.client, .send 0 64 (Reference.nonce 3) [[9]] (.ok ()))] := rfl
    rw [hcalls]
    intro p
    cases p <;> simp [Session.Whole.sendLimits, Session.Whole.recvLimits, Party.peer]

end Requests

end Connection

end TcpHandler.Streams
