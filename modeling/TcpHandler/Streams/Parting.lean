/-
  Streams/Parting.lean --- when handlers with a cipher part.

  Two handlers of `encrypt` or `compress_encrypt` need no script.  As long as never
  both have sent what the other has not received, every call returns `Ok`, and what
  was sent arrives and is received.  The call after which both have is the last
  one that gets anything across: the first `recv` of each handler fails, and every
  call behind it finds the cipher broken.
-/
import TcpHandler.Session.Crossing
import TcpHandler.Streams.Secure

set_option autoImplicit false

namespace TcpHandler.Streams

open TcpHandler.Foundation TcpHandler.Protocols
open TcpHandler.Session.Whole (Played LimitsAgree Unrefused NeverCrossed Crossed OutOfStep sentBy
  receivedBy sendLimits recvLimits drawn)

namespace Connection

section Parting

variable {V : VariableLen} {W : Type} [AsyncWrite W] {Sk Pk Seed : Type} {rsa : Rsa Sk Pk Seed}
  {flate : Flate} {aead : Aead} {B : Buffering W} {setup : Setup Sk Seed} {tr : List Label}
  {s : Connection W setup.Init} {payload : Payload} {wire : Party → Bytes} {p : Party}

/-- What two handlers with a cipher owe each other while they are in step.

* `send_ok`, `recv_ok`: no call failed before the end of the stream.
* `in_order`, `complete`, `flows`: as for calls by a script.
* `same`: when everything was received, the two ciphers are the same. -/
structure StaysInStep (V : VariableLen) {W : Type} [AsyncWrite W] {Sk Pk Seed : Type}
    (rsa : Rsa Sk Pk Seed) (flate : Flate) (aead : Aead) (B : Buffering W) (setup : Setup Sk Seed)
    (tr : List Label) (s : Connection W setup.Init) : Prop where
  send_ok : ∀ p level limit fresh message result,
    .sealed p (.send level limit fresh message result) ∈ tr → result = .ok ()
  recv_ok : ∀ p limit result, .sealed p (.recv limit result) ∈ tr → ∃ message, result = .ok message
  in_order : ∀ p, receivedBy p.peer (sealedCalls tr) <+: sentBy p (sealedCalls tr)
  complete : ∀ p limit error, .ended p.peer limit error ∈ tr →
    receivedBy p.peer (sealedCalls tr) = sentBy p (sealedCalls tr)
  flows : ∀ p message rest cipher, s.stage p.peer = .live cipher →
    sentBy p (sealedCalls tr) = receivedBy p.peer (sealedCalls tr) ++ message :: rest →
    (∃ n s', Step V rsa flate aead B setup s (.arrive p n) s') ∨
      ∀ limit : Usize, (∀ sent ∈ sendLimits p (sealedCalls tr), sent.toNat ≤ limit.toNat) →
        ∃ s', Step V rsa flate aead B setup s (.sealed p.peer (.recv limit (.ok message))) s'
  same : ∀ c c', s.stage .client = .live c → s.stage .server = .live c' →
    (∀ p, receivedBy p.peer (sealedCalls tr) = sentBy p (sealedCalls tr)) → c = c'

/-- A message that was sent and not received is received next. -/
theorem received_next (hV : V.Patient) (hideal : aead.Ideal)
    (hpayload : sealedPayload V flate (setup.protocol .client) = some payload)
    (hrun : Run (Step V rsa flate aead B setup) (start B setup) tr s)
    (hlimits : LimitsAgree (sealedCalls tr))
    (hfresh : (setup.nonce :: drawn (sealedCalls tr)).Nodup)
    (hunrefused : Unrefused (sealedCalls tr)) (hcross : NeverCrossed (sealedCalls tr))
    {message : Bytes} {rest : List Bytes}
    (hsent : sentBy p (sealedCalls tr) = receivedBy p.peer (sealedCalls tr) ++ message :: rest)
    {limit : Usize} (hlimit : ∀ sent ∈ sendLimits p (sealedCalls tr), sent.toNat ≤ limit.toNat)
    {result : Except (Fault PacketError) Bytes} {s' : Connection W setup.Init}
    (hstep : Step V rsa flate aead B setup s (.sealed p.peer (.recv limit result)) s') :
    result = .ok message := by
  have hcalls : sealedCalls (tr ++ [.sealed p.peer (.recv limit result)]) =
      sealedCalls tr ++ [(p.peer, .recv limit result)] := sealedCalls_append _ _
  have hlimits' : LimitsAgree (sealedCalls tr ++ [(p.peer, .recv limit result)]) :=
    Session.Whole.limitsAgree_recv hlimits hlimit
  have hcross' : NeverCrossed (sealedCalls tr ++ [(p.peer, .recv limit result)]) :=
    Session.Whole.neverCrossed_recv hcross
  have hunrefused' : Unrefused (sealedCalls tr ++ [(p.peer, .recv limit result)]) :=
    Session.Whole.unrefused_recv hunrefused
  have hdrawn : drawn [(p.peer, .recv limit result)] = [] := rfl
  have hfresh' :
      (setup.nonce :: drawn (sealedCalls tr ++ [(p.peer, .recv limit result)])).Nodup := by
    rwa [Session.Whole.drawn_append, hdrawn, List.append_nil]
  rw [← hcalls] at hlimits' hcross' hunrefused' hfresh'
  -- the run with the next call is in step, too
  obtain ⟨wire, h⟩ := playing_of_run hV hideal hpayload (hrun.snoc hstep) hlimits'
  obtain ⟨cipher, ⟨moves, hplayed⟩, _⟩ := h.calls
  have hmem : (p.peer, .recv limit result) ∈ sealedCalls
      (tr ++ [.sealed p.peer (.recv limit result)]) := by simp [hcalls]
  obtain ⟨received, rfl⟩ := (hplayed.smooth hunrefused').recv_ok hideal hcross' hmem
  have hprefix := hplayed.received_sent hfresh' p
  have hnothing : sentBy p [(p.peer, .recv limit (.ok received))] = [] := rfl
  rw [hcalls, Session.Whole.sentBy_append, Session.Whole.receivedBy_append, hnothing,
    List.append_nil, hsent, List.prefix_append_right_inj] at hprefix
  simpa [receivedBy, eq_comm] using hprefix

/-- A message that was sent and not received arrives and is received. -/
theorem Playing.flows (hV : V.Patient) (hideal : aead.Ideal)
    (hpayload : sealedPayload V flate (setup.protocol .client) = some payload)
    (h : Playing V rsa B setup payload aead tr s wire)
    (hunrefused : Unrefused (sealedCalls tr)) (hcross : NeverCrossed (sealedCalls tr))
    {c : Option Cipher} (hlive : s.stage p.peer = .live c) (htransit : (s.pipe p).transit = [])
    (hmissing : receivedBy p.peer (sealedCalls tr) ≠ sentBy p (sealedCalls tr))
    {limit : Usize} (hlimit : ∀ sent ∈ sendLimits p (sealedCalls tr), sent.toNat ≤ limit.toNat) :
    ∃ result s', Step V rsa flate aead B setup s (.sealed p.peer (.recv limit result)) s' := by
  obtain ⟨phase, hlinked⟩ := h.linked
  obtain ⟨cipher, ⟨moves, hplayed⟩, hholds⟩ := h.calls
  obtain ⟨packet, rest, sent, hsent, hle, hwire⟩ :=
    hplayed.front hideal hunrefused hcross hmissing
  have hends : Io.ends (readPacket V limit) (wire p) = false := by
    rw [show wire p = frame V packet ++ rest from hwire, Io.ends,
      run_readPacket_frame V (Nat.le_trans hle (hlimit sent hsent))]
  exact ⟨_, recv_of_outcome hV hpayload hlinked hlive (hholds p.peer) htransit hends rfl⟩

/-- Two handlers with a cipher are in step until both have sent what the other has
not received, and never again. -/
theorem handlers_in_step (hV : V.Patient) (hideal : aead.Ideal)
    (hpayload : sealedPayload V flate (setup.protocol .client) = some payload)
    (hrun : Run (Step V rsa flate aead B setup) (start B setup) tr s)
    (hlimits : LimitsAgree (sealedCalls tr))
    (hfresh : (setup.nonce :: drawn (sealedCalls tr)).Nodup)
    (hunrefused : Unrefused (sealedCalls tr)) :
    (NeverCrossed (sealedCalls tr) → StaysInStep V rsa flate aead B setup tr s) ∧
      ∀ pre e post, sealedCalls tr = pre ++ e :: post → NeverCrossed pre → Crossed (pre ++ [e]) →
        OutOfStep post := by
  obtain ⟨wire, h⟩ := playing_of_run hV hideal hpayload hrun hlimits
  obtain ⟨cipher, ⟨moves, hplayed⟩, hholds⟩ := h.calls
  have hsmooth := hplayed.smooth hunrefused
  refine ⟨fun hcross => ⟨?_, ?_, hplayed.received_sent hfresh, ?_, ?_, ?_⟩, ?_⟩
  · intro p level limit fresh message result hmem
    exact hsmooth.send_ok hideal hcross (mem_sealedCalls.mpr hmem)
  · intro p limit result hmem
    exact hsmooth.recv_ok hideal hcross (mem_sealedCalls.mpr hmem)
  · intro p limit error hmem
    refine hplayed.complete hideal hunrefused hcross ?_
    simpa using (h.ended p.peer limit error hmem).2
  · intro p message rest c hlive hsent
    by_cases htransit : (s.pipe p).transit = []
    · refine .inr fun limit hlimit => ?_
      obtain ⟨result, s', hstep⟩ := h.flows hV hideal hpayload hunrefused hcross hlive htransit
        (by simp [hsent]) hlimit
      obtain rfl := received_next hV hideal hpayload hrun hlimits hfresh hunrefused hcross hsent
        hlimit hstep
      exact ⟨s', hstep⟩
    · exact .inl (arrives htransit)
  · intro c c' hc hc' hall
    have hclient := hholds .client
    have hserver := hholds .server
    rw [hc] at hclient
    rw [hc'] at hserver
    rw [show c = some (cipher .client) from hclient, show c' = some (cipher .server) from hserver]
    exact congrArg some (hplayed.cipher_eq_peer hideal hunrefused hcross hall)
  · intro pre e post hcalls hbefore hcross
    exact hsmooth.outOfStep hideal hfresh hcalls hbefore hcross

/-- They part at the second call. -/
theorem handlers_in_step_crossed :
    ∃ s : Connection Reference.BufWriter (Setup.reference .encryption).Init,
      (NeverCrossed (sealedCalls (greeted ++ crossed)) →
        StaysInStep Reference.variableLen Reference.rsa Reference.flate Reference.aead
          Reference.bufWriter (Setup.reference .encryption) (greeted ++ crossed) s) ∧
      ∀ pre e post, sealedCalls (greeted ++ crossed) = pre ++ e :: post → NeverCrossed pre →
        Crossed (pre ++ [e]) → OutOfStep post := by
  obtain ⟨s, hrun⟩ := run_crossed
  refine ⟨s, handlers_in_step Reference.variableLen_patient Reference.aead_ideal rfl
    (run_greeted.append hrun) limitsAgree_crossed (by decide) ?_⟩
  rw [sealedCalls_crossed]
  intro p level limit fresh message result hmem
  simp only [List.mem_cons, Prod.mk.injEq, Session.Whole.Call.send.injEq, reduceCtorEq, and_false,
    List.not_mem_nil, or_false, false_or] at hmem
  rcases hmem with ⟨_, _, _, _, _, rfl⟩ | ⟨_, _, _, _, _, rfl⟩ | ⟨_, _, _, _, _, rfl⟩
  · exact .inl rfl
  · exact .inl rfl
  · exact .inr rfl

end Parting

end Connection

end TcpHandler.Streams
