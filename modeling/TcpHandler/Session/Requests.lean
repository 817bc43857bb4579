/-
  Session/Requests.lean --- `handler_send_recv` over two ciphers.

  A client that only calls `handler_send_recv`, and a server that answers what it
  receives, follow a script without knowing of it: the client sends when both have
  made an even number of calls that succeeded, the server when it has made an odd
  one.  Nothing is assumed of whether a `send` succeeds.  One that fails has written
  nothing and may have changed the cipher, but the party that made it gives up, so
  the calls that succeeded are still a conversation (`Corresponding.step`).
-/
import TcpHandler.Foundation.Requests
import TcpHandler.Session.Scripted
import TcpHandler.Session.Stateless

set_option autoImplicit false

namespace TcpHandler.Session

open TcpHandler.Foundation TcpHandler.Protocols
open TcpHandler.Foundation.Requests (Use Phase Asks Serves sent received)

/-- The calls of `handler_send_recv`: a `handler_send`, whose error is returned, and
then a `handler_recv`.  The caller gives up when it returns an error. -/
abbrev handlerSendRecv : Phase Bytes → Use Bytes Bytes → Phase Bytes → Prop := Asks

/-- What each party does: the server receives, and sends what answers it. -/
def program (answers : Bytes → Bytes → Prop) :
    Party → Phase Bytes → Use Bytes Bytes → Phase Bytes → Prop
  | .client => handlerSendRecv
  | .server => Serves answers

theorem quits_program (answers : Bytes → Bytes → Prop) (p : Party) :
    Requests.Quits (program answers p) := by
  cases p with
  | client => exact Requests.quits_asks
  | server => exact Requests.quits_serves

/-- What a call without a cipher was used for. -/
def Stateless.Call.use : Stateless.Call → Use Bytes Bytes
  | .send _ _ message (.ok ()) => .send message.flatten
  | .send _ _ _ (.error _) => .refused
  | .recv _ (.ok message) => .recv message
  | .recv _ (.error _) => .failed

/-- What a call with a cipher was used for. -/
def Whole.Call.use : Whole.Call → Use Bytes Bytes
  | .send _ _ _ message (.ok ()) => .send message.flatten
  | .send _ _ _ _ (.error _) => .refused
  | .recv _ (.ok message) => .recv message
  | .recv _ (.error _) => .failed

namespace Whole

/-- What `p` used its calls for. -/
def uses (p : Party) (tr : List (Party × Call)) : List (Use Bytes Bytes) :=
  tr.filterMap fun (q, call) => if q = p then some call.use else none

/-- The calls that did not fail. -/
def returned (tr : List (Party × Call)) : List (Party × Call) :=
  tr.filter fun e => !e.2.use.fails

theorem uses_append (p : Party) (tr post : List (Party × Call)) :
    uses p (tr ++ post) = uses p tr ++ uses p post :=
  List.filterMap_append

theorem returned_append (tr post : List (Party × Call)) :
    returned (tr ++ post) = returned tr ++ returned post :=
  List.filter_append ..

theorem sent_uses (p : Party) (tr : List (Party × Call)) : sent (uses p tr) = sentBy p tr := by
  rw [sent, uses, List.filterMap_filterMap, sentBy]
  apply List.filterMap_congr
  rintro ⟨q, call⟩ _
  by_cases hq : q = p <;> rcases call with ⟨_, _, _, _, _ | _⟩ | ⟨_, _ | _⟩ <;> simp [hq, Call.use]

theorem received_uses (p : Party) (tr : List (Party × Call)) :
    received (uses p tr) = receivedBy p tr := by
  rw [received, uses, List.filterMap_filterMap, receivedBy]
  apply List.filterMap_congr
  rintro ⟨q, call⟩ _
  by_cases hq : q = p <;> rcases call with ⟨_, _, _, _, _ | _⟩ | ⟨_, _ | _⟩ <;> simp [hq, Call.use]

theorem uses_returned (p : Party) (tr : List (Party × Call)) :
    uses p (returned tr) = Requests.succeeded (uses p tr) := by
  rw [uses, returned, List.filterMap_filter, Requests.succeeded, uses, List.filter_filterMap]
  apply List.filterMap_congr
  rintro ⟨q, call⟩ _
  by_cases hq : q = p <;> simp [hq, Option.filter]

theorem sentBy_returned (p : Party) (tr : List (Party × Call)) :
    sentBy p (returned tr) = sentBy p tr := by
  rw [← sent_uses, uses_returned, Requests.sent_succeeded, sent_uses]

theorem receivedBy_returned (p : Party) (tr : List (Party × Call)) :
    receivedBy p (returned tr) = receivedBy p tr := by
  rw [← received_uses, uses_returned, Requests.received_succeeded, received_uses]

theorem calls_returned (p : Party) (tr : List (Party × Call)) :
    calls p (returned tr) = (sent (uses p tr)).length + (received (uses p tr)).length := by
  have hcalls : calls p (returned tr) = (uses p (returned tr)).length := by
    rw [uses, List.length_filterMap_eq_countP, calls]
    apply List.countP_congr
    rintro ⟨q, call⟩ _
    by_cases hq : q = p <;> simp [hq]
  rw [hcalls, uses_returned, Requests.length_succeeded]

theorem sendLimits_returned (p : Party) (tr : List (Party × Call)) :
    sendLimits p (returned tr) ⊆ sendLimits p tr :=
  (List.filter_sublist.filterMap _).subset

/-- Each party does what its program allows. -/
def Corresponds (answers : Bytes → Bytes → Prop) (tr : List (Party × Call)) : Prop :=
  ∀ p, ∃ phase, Run (program answers p) .idle (uses p tr) phase

section Corresponding

variable {V : VariableLen} {payload : Payload} {aead : Aead} {key : AesKey} {nonce : Nonce}
  {answers : Bytes → Bytes → Prop} {script : Nat → Party} {tr : List (Party × Call)} {s s' : State}
  {p : Party}

theorem Corresponds.of_append {post : List (Party × Call)} (h : Corresponds answers (tr ++ post)) :
    Corresponds answers tr := by
  intro p
  obtain ⟨phase, hrun⟩ := h p
  rw [uses_append] at hrun
  obtain ⟨before, hbefore, _⟩ := hrun.split
  exact ⟨before, hbefore⟩

/-- A party that calls has not given up. -/
theorem Corresponds.unfailed {call : Call} (h : Corresponds answers (tr ++ [(p, call)])) :
    ∀ u ∈ uses p tr, u.fails = false := by
  obtain ⟨phase, hrun⟩ := h p
  have huse : uses p [(p, call)] = [call.use] := by simp [uses]
  rw [uses_append, huse] at hrun
  exact (quits_program answers p).unfailed_before hrun

/-- The script that both programs follow. -/
theorem Corresponds.turn (hscript : ∀ k, script k = if k % 2 = 0 then .client else .server)
    {level : Level} {limit : Usize} {fresh : Nonce} {message : Buf}
    (h : Corresponds answers (tr ++ [(p, .send level limit fresh message (.ok ()))])) :
    script (calls p (returned tr)) = p := by
  obtain ⟨phase', hrun⟩ := h p
  have huse : uses p [(p, .send level limit fresh message (.ok ()))] = [.send message.flatten] := by
    simp [uses, Call.use]
  rw [uses_append, huse] at hrun
  obtain ⟨phase, hbefore, hstep⟩ := Run.snoc_iff.mp hrun
  rw [hscript, calls_returned]
  cases p with
  | client =>
    cases hstep with
    | send => rw [if_pos (Requests.asked_of_run hbefore).even]
  | server =>
    cases hstep with
    | send => rw [if_neg (by rw [(Requests.served_of_run hbefore).odd]; decide)]

/-- The calls so far are a conversation, but for those at which a party gave up. -/
structure Corresponding (V : VariableLen) (payload : Payload) (aead : Aead) (key : AesKey)
    (nonce : Nonce) (script : Nat → Party) (tr : List (Party × Call)) (s : State) : Prop where
  spoken : ∃ cipher t, Spoken V payload aead key nonce script (returned tr) ⟨cipher, s.wire⟩ t ∧
    ∀ p, (∀ u ∈ uses p tr, u.fails = false) → s.cipher p = cipher p
  recv_ok : ∀ p limit result, (p, .recv limit result) ∈ tr → ∃ message, result = .ok message

theorem corresponding_start :
    Corresponding V payload aead key nonce script [] (start key nonce) where
  spoken := ⟨_, _, spoken_start, fun _ _ => rfl⟩
  recv_ok := by simp

/-- A `send` that fails has written nothing. -/
theorem written_of_error {level : Level} {limit : Usize} {fresh : Nonce} {message : Buf}
    {w written : Bytes} {cipher cipher' : Cipher} {e : Fault PacketError}
    (hcall : (Sealed.send V payload aead level limit fresh message).outcome (w, cipher) =
      (.error e, (written, cipher'))) : written = w := by
  rw [Sealed.outcome_send] at hcall
  obtain ⟨⟨sealed, sealedCipher⟩, hseal⟩ :
      ∃ r, (Sealed.sealMessage payload aead level fresh message).outcome cipher = r := ⟨_, rfl⟩
  rw [hseal] at hcall
  cases sealed with
  | error _ =>
    cases hcall
    rfl
  | ok packet =>
    by_cases hle : packet.length ≤ limit.toNat
    · simp only [Sealed.outcome_writeSealed_of_le V hle] at hcall
      cases hcall
    · simp only [Sealed.outcome_writeSealed_of_lt V (Nat.lt_of_not_le hle)] at hcall
      cases hcall
      rfl

/-- The call at which a party gives up leaves the conversation as it is. -/
theorem Corresponding.gaveUp (h : Corresponding V payload aead key nonce script tr s)
    {call : Call} (hfails : call.use.fails = true)
    (hsend : ∀ limit result, call ≠ .recv limit result) (cipher' : Cipher) :
    Corresponding V payload aead key nonce script (tr ++ [(p, call)])
      { s with cipher := Function.update s.cipher p cipher' } where
  spoken := by
    obtain ⟨cipher, t, hspoken, hsame⟩ := h.spoken
    have hdropped : returned [(p, call)] = [] := List.filter_cons_of_neg (by simp [hfails])
    rw [returned_append, hdropped, List.append_nil]
    refine ⟨cipher, t, hspoken, fun q hq => ?_⟩
    rw [uses_append] at hq
    cases Party.eq_or_eq_peer p q with
    | inl heq =>
      subst heq
      have hlast := hq call.use (by simp [uses])
      rw [hfails] at hlast
      cases hlast
    | inr heq =>
      subst heq
      simp only [Party.update_peer]
      exact hsame _ fun u hu => hq u (List.mem_append_left _ hu)
  recv_ok q limit result hmem := by
    rcases List.mem_append.mp hmem with hold | hnew
    · exact h.recv_ok q limit result hold
    · cases List.mem_singleton.mp hnew
      exact absurd rfl (hsend limit result)

/-- A call changes the cipher of one party; the other has the one that it had. -/
theorem update_same {cipher cipher' : Party → Cipher}
    (hsame : ∀ q, (∀ u ∈ uses q tr, u.fails = false) → cipher q = cipher' q) (call : Call)
    (new : Cipher) (q : Party) (hq : ∀ u ∈ uses q (tr ++ [(p, call)]), u.fails = false) :
    Function.update cipher p new q = Function.update cipher' p new q := by
  cases Party.eq_or_eq_peer p q with
  | inl heq => subst heq; simp
  | inr heq =>
    subst heq
    simp only [Party.update_peer]
    rw [uses_append] at hq
    exact hsame _ fun u hu => hq u (List.mem_append_left _ hu)

/-- Every call continues the conversation, or is one at which a party gives up. -/
theorem Corresponding.step (hround : aead.RoundTrip)
    (hscript : ∀ k, script k = if k % 2 = 0 then .client else .server)
    (h : Corresponding V payload aead key nonce script tr s) {e : Party × Call}
    (hstep : Step V payload aead s e s') (hcorresponds : Corresponds answers (tr ++ [e]))
    (hlimits : LimitsAgree (tr ++ [e])) :
    Corresponding V payload aead key nonce script (tr ++ [e]) s' := by
  obtain ⟨cipher, t, hspoken, hsame⟩ := h.spoken
  cases hstep with
  | @send p level limit fresh message result written new hcall =>
    cases result with
    | error e =>
      obtain rfl := written_of_error hcall
      rw [Function.update_eq_self]
      exact h.gaveUp rfl (by simp) new
    | ok value =>
      rw [hsame p hcorresponds.unfailed] at hcall
      have hnext := hspoken.send (hcorresponds.turn hscript) hcall
      have hreturned : returned (tr ++ [(p, .send level limit fresh message (.ok value))]) =
          returned tr ++ [(p, .send level limit fresh message (.ok value))] := returned_append _ _
      rw [← hreturned] at hnext
      exact ⟨⟨_, _, hnext, update_same hsame _ _⟩, fun q within result hmem =>
        h.recv_ok q within result (by simpa using hmem)⟩
  | @recv p limit result left new harrived hcall =>
    rw [hsame p hcorresponds.unfailed] at hcall
    have hlimit : ∀ sent ∈ sendLimits p.peer (returned tr), sent.toNat ≤ limit.toNat := by
      intro sent hsent
      refine hlimits p.peer sent ?_ limit ?_
      · rw [sendLimits_append]
        exact List.mem_append_left _ (sendLimits_returned _ _ hsent)
      · rw [recvLimits_append]
        exact List.mem_append_right _ (by simp [recvLimits])
    obtain ⟨message, rfl, hnext⟩ := hspoken.recv hround hlimit harrived hcall
    have hreturned : returned (tr ++ [(p, .recv limit (.ok message))]) =
        returned tr ++ [(p, .recv limit (.ok message))] := returned_append _ _
    rw [← hreturned] at hnext
    refine ⟨⟨_, _, hnext, update_same hsame _ _⟩, fun q within result hmem => ?_⟩
    rcases List.mem_append.mp hmem with hold | hnew
    · exact h.recv_ok q within result hold
    · cases List.mem_singleton.mp hnew
      exact ⟨message, rfl⟩
  | lost hcall => exact h.gaveUp rfl (by simp) _

/-! ## What a correspondence owes its parties -/

theorem Corresponding.in_order (h : Corresponding V payload aead key nonce script tr s)
    (p : Party) :
    receivedBy p.peer tr <+: sentBy p tr := by
  obtain ⟨_, _, hspoken, _⟩ := h.spoken
  rw [← receivedBy_returned, ← sentBy_returned]
  exact hspoken.in_order p

/-- A party that has read the stream to its end has received everything. -/
theorem Corresponding.complete (h : Corresponding V payload aead key nonce script tr s)
    (hnil : s.wire p = []) : receivedBy p.peer tr = sentBy p tr := by
  obtain ⟨_, _, hspoken, _⟩ := h.spoken
  rw [← receivedBy_returned, ← sentBy_returned]
  exact hspoken.complete hnil

/-- A stream of which everything was received is empty. -/
theorem Corresponding.nil_of_received (h : Corresponding V payload aead key nonce script tr s)
    (hsent : receivedBy p.peer tr = sentBy p tr) : s.wire p = [] := by
  obtain ⟨cipher, t, hspoken, _⟩ := h.spoken
  rw [← receivedBy_returned, ← sentBy_returned] at hsent
  exact hspoken.nil_of_received hsent

/-- A reader that finds the end of the data finds it behind the last packet. -/
theorem Corresponding.wire_nil (h : Corresponding V payload aead key nonce script tr s)
    {limit : Usize} (hends : Io.ends (readPacket V limit) (s.wire p) = true) : s.wire p = [] := by
  obtain ⟨cipher, t, hspoken, _⟩ := h.spoken
  exact hspoken.wire_nil hends

/-- What was sent and not received is the next thing that `recv` returns to a party
that has not given up. -/
theorem Corresponding.flows (hround : aead.RoundTrip)
    (h : Corresponding V payload aead key nonce script tr s)
    (hunfailed : ∀ u ∈ uses p.peer tr, u.fails = false) {message : Bytes} {rest : List Bytes}
    (hsent : sentBy p tr = receivedBy p.peer tr ++ message :: rest) {limit : Usize}
    (hlimit : ∀ sent ∈ sendLimits p tr, sent.toNat ≤ limit.toNat) :
    Io.ends (readPacket V limit) (s.wire p) = false ∧ ∃ left cipher,
      (Sealed.recv V payload aead limit).outcome (s.wire p, s.cipher p.peer) =
        (.ok message, (left, cipher)) := by
  obtain ⟨cipher, t, hspoken, hsame⟩ := h.spoken
  rw [← receivedBy_returned, ← sentBy_returned] at hsent
  rw [hsame p.peer hunfailed]
  exact hspoken.flows hround hsent fun sent hmem => hlimit sent (sendLimits_returned _ _ hmem)

end Corresponding

end Whole

end TcpHandler.Session
