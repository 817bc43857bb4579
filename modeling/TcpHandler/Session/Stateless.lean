/-
  Session/Stateless.lean --- whole sessions of `raw` and `compress`.

  Two parties over one reliable stream in each direction.  A step is one call of
  `send` or `recv` by either of them; the calls come in any order, with any
  limit and any level, and the label shows what a call returned.  A `recv` on a
  stream that holds less than a packet waits, so it is no step.

  As long as every packet meets a reader that accepts its length, what is under
  way is a list of whole frames (`InOrder`).  A packet that is too long for its
  reader ends that: the reader has consumed the length and left the body.
-/
import TcpHandler.Foundation.Run
import TcpHandler.Protocols.Plain
import TcpHandler.Protocols.Reference

set_option autoImplicit false

namespace TcpHandler.Session.Stateless

open TcpHandler.Foundation TcpHandler.Protocols

/-- A call and what it returned. -/
inductive Call where
  | send (level : Level) (limit : Usize) (message : Buf) (result : Except PacketError Unit)
  | recv (limit : Usize) (result : Except PacketError Bytes)

/-- The bytes each party has written and its peer has not read. -/
abbrev Wires : Type := Party → Bytes

/-- A session that was just started. -/
def start : Wires := fun _ => []

variable (V : VariableLen) (body : Body)

/-- One call of one party. -/
inductive Step : Wires → Party × Call → Wires → Prop
  | send {wire : Wires} {p : Party} {level : Level} {limit : Usize} {message : Buf}
      {result : Except PacketError Unit} {written : Bytes}
      (hcall : (Plain.send V body level limit message).outcome (wire p) = (result, written)) :
      Step wire (p, .send level limit message result) (Function.update wire p written)
  | recv {wire : Wires} {p : Party} {limit : Usize} {result : Except PacketError Bytes}
      {left : Bytes} (harrived : arrived V limit (wire p.peer) = true)
      (hcall : (Plain.recv V body limit).outcome (wire p.peer) = (result, left)) :
      Step wire (p, .recv limit result) (Function.update wire p.peer left)

/-! ## What the calls of a run did -/

/-- The messages whose `send` by `p` returned `Ok`, each with its level. -/
def sentBy (p : Party) (tr : List (Party × Call)) : List (Level × Buf) :=
  tr.filterMap fun
    | (q, .send level _ message (.ok ())) => if q = p then some (level, message) else none
    | _ => none

/-- The messages `recv` returned to `p`. -/
def receivedBy (p : Party) (tr : List (Party × Call)) : List Bytes :=
  tr.filterMap fun
    | (q, .recv _ (.ok message)) => if q = p then some message else none
    | _ => none

/-- The limits under which `p` called `recv`, one for each call. -/
def recvLimits (p : Party) (tr : List (Party × Call)) : List Usize :=
  tr.filterMap fun
    | (q, .recv limit _) => if q = p then some limit else none
    | _ => none

/-- The limits under which `p` called `send`, one for each call. -/
def sendLimits (p : Party) (tr : List (Party × Call)) : List Usize :=
  tr.filterMap fun
    | (q, .send _ limit _ _) => if q = p then some limit else none
    | _ => none

theorem sentBy_append (p : Party) (tr post : List (Party × Call)) :
    sentBy p (tr ++ post) = sentBy p tr ++ sentBy p post :=
  List.filterMap_append

theorem receivedBy_append (p : Party) (tr post : List (Party × Call)) :
    receivedBy p (tr ++ post) = receivedBy p tr ++ receivedBy p post :=
  List.filterMap_append

theorem recvLimits_append (p : Party) (tr post : List (Party × Call)) :
    recvLimits p (tr ++ post) = recvLimits p tr ++ recvLimits p post :=
  List.filterMap_append

theorem sendLimits_append (p : Party) (tr post : List (Party × Call)) :
    sendLimits p (tr ++ post) = sendLimits p tr ++ sendLimits p post :=
  List.filterMap_append

theorem sentBy_of_ne {p q : Party} (h : q ≠ p) (call : Call) : sentBy p [(q, call)] = [] := by
  cases call with
  | send _ _ _ result => cases result <;> simp [sentBy, h]
  | recv _ _ => rfl

theorem receivedBy_of_ne {p q : Party} (h : q ≠ p) (call : Call) :
    receivedBy p [(q, call)] = [] := by
  cases call with
  | send _ _ _ _ => rfl
  | recv _ result => cases result <;> simp [receivedBy, h]

theorem recvLimits_of_ne {p q : Party} (h : q ≠ p) (call : Call) :
    recvLimits p [(q, call)] = [] := by
  cases call <;> simp [recvLimits, h]

/-- The packet of a message that was sent. -/
def packetOf (sent : Level × Buf) : Bytes := Plain.packet body sent.1 sent.2

/-- The frames of messages that were sent, one after the other. -/
def frames (sent : List (Level × Buf)) : Bytes :=
  (sent.map fun m => frame V (packetOf body m)).flatten

section Calls

variable {V body} {level : Level} {limit : Usize} {message : Buf}

/-- `send` in one equation: either one frame and `Ok`, or `TooLarge` and
nothing. -/
theorem outcome_send (w : Bytes) :
    (Plain.send V body level limit message).outcome w =
      if (Plain.packet body level message).length ≤ limit.toNat then
        (.ok (), w ++ frame V (Plain.packet body level message))
      else
        (.error (.tooLarge (Plain.packet body level message).length limit.toNat), w) := by
  split
  · rename_i hle
    exact Io.outcome_of_ok (Plain.run_send_of_le V hle w)
  · rename_i hlt
    exact Io.outcome_of_error (Plain.run_send_of_lt V (Nat.lt_of_not_le hlt) w)

/-- `recv` on a frame in one equation: either the message, or `TooLarge` in the
middle of the frame. -/
theorem outcome_recv_frame {sent : Usize}
    (hsent : (Plain.packet body level message).length ≤ sent.toNat) (rest : Bytes) :
    (Plain.recv V body limit).outcome (frame V (Plain.packet body level message) ++ rest) =
      if (Plain.packet body level message).length ≤ limit.toNat then
        (.ok message.flatten, rest)
      else
        (.error (.tooLarge (Plain.packet body level message).length limit.toNat),
          Plain.packet body level message ++ rest) := by
  split
  · rename_i hle
    exact Io.outcome_of_ok (Plain.run_recv_frame V hle rest)
  · rename_i hlt
    exact Io.outcome_of_error (Plain.run_recv_oversized V hsent (Nat.lt_of_not_le hlt) rest)

@[simp] theorem frames_cons (m : Level × Buf) (sent : List (Level × Buf)) :
    frames V body (m :: sent) = frame V (packetOf body m) ++ frames V body sent := by
  simp [frames]

/-- A stream of frames is at its end only when no frame is left. -/
theorem frames_eq_nil_iff {sent : List (Level × Buf)} : frames V body sent = [] ↔ sent = [] := by
  cases sent with
  | nil => simp [frames]
  | cons m rest => simp [frame_ne_nil]

end Calls

/-! ## Frames under way -/

section Runs

variable {V body} {p : Party} {tr : List (Party × Call)} {wire wire' : Wires}

/-- Every packet read so far was within the limit of its reader: what `p` sent is
what its peer received and, frame by frame, what is under way. -/
def InOrder (V : VariableLen) (body : Body) (p : Party) (tr : List (Party × Call))
    (wire : Wires) : Prop :=
  ∃ done pending, sentBy p tr = done ++ pending ∧
    receivedBy p.peer tr = done.map (fun m => m.2.flatten) ∧
    (recvLimits p.peer tr).length = done.length ∧ wire p = frames V body pending

/-- The last `recv` met a packet longer than its limit, and none did before. -/
def Stuck (body : Body) (p : Party) (tr : List (Party × Call)) : Prop :=
  ∃ done m rest limits limit, sentBy p tr = done ++ m :: rest ∧
    receivedBy p.peer tr = done.map (fun m => m.2.flatten) ∧
    recvLimits p.peer tr = limits ++ [limit] ∧ limits.length = done.length ∧
    limit.toNat < (packetOf body m).length

/-- Every packet `p` sent is within the limit of the `recv` call that reads it,
the last call of the peer excepted. -/
def OnlyLastTooLong (body : Body) (p : Party) (tr : List (Party × Call)) : Prop :=
  ∀ i m limit, (sentBy p tr)[i]? = some m → (recvLimits p.peer tr)[i]? = some limit →
    i + 1 < (recvLimits p.peer tr).length → (packetOf body m).length ≤ limit.toNat

theorem OnlyLastTooLong.of_append {post : List (Party × Call)}
    (h : OnlyLastTooLong body p (tr ++ post)) : OnlyLastTooLong body p tr := by
  intro i m limit hm hlimit hi
  have hlt := (List.getElem?_eq_some_iff.mp hm).1
  apply h i m limit
  · rw [sentBy_append, List.getElem?_append_left hlt, hm]
  · rw [recvLimits_append, List.getElem?_append_left (by omega), hlimit]
  · rw [recvLimits_append, List.length_append]
    omega

/-- A call that sends a message sends it within its own limit. -/
theorem Step.sent_within {call : Party × Call} (hstep : Step V body wire call wire')
    {m : Level × Buf} (hm : m ∈ sentBy p [call]) :
    ∃ limit ∈ sendLimits p [call], (packetOf body m).length ≤ limit.toNat := by
  cases hstep with
  | recv => simp [sentBy] at hm
  | @send q level limit message result written hcall =>
    by_cases hq : q = p
    · rw [outcome_send] at hcall
      split at hcall
      · rename_i hle
        obtain ⟨rfl, rfl⟩ := Prod.mk.inj hcall
        simp only [sentBy, hq, List.filterMap_cons, if_true, List.filterMap_nil,
          List.mem_singleton] at hm
        subst hm
        exact ⟨limit, by simp [sendLimits, hq], hle⟩
      · obtain ⟨rfl, rfl⟩ := Prod.mk.inj hcall
        simp [sentBy] at hm
    · simp [sentBy_of_ne hq] at hm

/-- What was sent was within some limit of its sender. -/
theorem sent_within (hrun : Run (Step V body) start tr wire) {m : Level × Buf}
    (hm : m ∈ sentBy p tr) :
    ∃ limit ∈ sendLimits p tr, (packetOf body m).length ≤ limit.toNat := by
  induction hrun with
  | nil => simp [sentBy] at hm
  | snoc _ hstep ih =>
    rw [sentBy_append, List.mem_append] at hm
    rw [sendLimits_append]
    cases hm with
    | inl hold =>
      obtain ⟨limit, hlimit, hle⟩ := ih hold
      exact ⟨limit, List.mem_append_left _ hlimit, hle⟩
    | inr hnew =>
      obtain ⟨limit, hlimit, hle⟩ := hstep.sent_within hnew
      exact ⟨limit, List.mem_append_right _ hlimit, hle⟩

/-- A call that neither sends on the stream of `p` nor reads from it. -/
theorem InOrder.frame (h : InOrder V body p tr wire) {call : Party × Call}
    (hsent : sentBy p [call] = []) (hreceived : receivedBy p.peer [call] = [])
    (hlimits : recvLimits p.peer [call] = []) (hwire : wire' p = wire p) :
    InOrder V body p (tr ++ [call]) wire' := by
  obtain ⟨done, pending, h₁, h₂, h₃, h₄⟩ := h
  refine ⟨done, pending, ?_, ?_, ?_, hwire.trans h₄⟩
  · rw [sentBy_append, hsent, List.append_nil, h₁]
  · rw [receivedBy_append, hreceived, List.append_nil, h₂]
  · rw [recvLimits_append, hlimits, List.append_nil, h₃]

theorem Stuck.frame (h : Stuck body p tr) {call : Party × Call}
    (hreceived : receivedBy p.peer [call] = []) (hlimits : recvLimits p.peer [call] = []) :
    Stuck body p (tr ++ [call]) := by
  obtain ⟨done, m, rest, limits, limit, h₁, h₂, h₃, h₄, h₅⟩ := h
  refine ⟨done, m, rest ++ sentBy p [call], limits, limit, ?_, ?_, ?_, h₄, h₅⟩
  · rw [sentBy_append, h₁, List.append_assoc, List.cons_append]
  · rw [receivedBy_append, hreceived, List.append_nil, h₂]
  · rw [recvLimits_append, hlimits, List.append_nil, h₃]

/-- A `send` of `p` puts a frame at the end of what is under way, or nothing. -/
theorem InOrder.send (h : InOrder V body p tr wire) {level : Level} {limit : Usize}
    {message : Buf} {result : Except PacketError Unit} {written : Bytes}
    (hcall : (Plain.send V body level limit message).outcome (wire p) = (result, written)) :
    InOrder V body p (tr ++ [(p, .send level limit message result)])
      (Function.update wire p written) := by
  obtain ⟨done, pending, h₁, h₂, h₃, h₄⟩ := h
  rw [outcome_send] at hcall
  split at hcall
  · obtain ⟨rfl, rfl⟩ := Prod.mk.inj hcall
    refine ⟨done, pending ++ [(level, message)], ?_, ?_, ?_, ?_⟩
    · rw [sentBy_append, h₁, List.append_assoc]
      simp [sentBy]
    · simpa [receivedBy] using h₂
    · simpa [recvLimits] using h₃
    · simp [h₄, packetOf, frames]
  · obtain ⟨rfl, rfl⟩ := Prod.mk.inj hcall
    exact InOrder.frame ⟨done, pending, h₁, h₂, h₃, h₄⟩ (by simp [sentBy]) (by simp [receivedBy])
      (by simp [recvLimits]) (by simp)

/-- A `recv` of the peer takes the frame at the front, or gets stuck on it. -/
theorem InOrder.recv (hrun : Run (Step V body) start tr wire) (h : InOrder V body p tr wire)
    {limit : Usize} {result : Except PacketError Bytes} {left : Bytes}
    (harrived : arrived V limit (wire p) = true)
    (hcall : (Plain.recv V body limit).outcome (wire p) = (result, left)) :
    InOrder V body p (tr ++ [(p.peer, .recv limit result)]) (Function.update wire p left) ∨
      Stuck body p (tr ++ [(p.peer, .recv limit result)]) := by
  obtain ⟨done, pending, h₁, h₂, h₃, h₄⟩ := h
  cases pending with
  | nil => simp [h₄, frames, arrived] at harrived
  | cons m rest =>
    obtain ⟨sent, _, hsent⟩ := sent_within hrun (p := p) (m := m) (by simp [h₁])
    rw [h₄, frames_cons, packetOf, outcome_recv_frame hsent] at hcall
    split at hcall
    · obtain ⟨rfl, rfl⟩ := Prod.mk.inj hcall
      refine .inl ⟨done ++ [m], rest, ?_, ?_, ?_, by simp⟩
      · rw [sentBy_append, h₁]
        simp [sentBy]
      · rw [receivedBy_append, h₂, List.map_append]
        simp [receivedBy]
      · rw [recvLimits_append, List.length_append, h₃, List.length_append]
        simp [recvLimits]
    · rename_i hlong
      obtain ⟨rfl, rfl⟩ := Prod.mk.inj hcall
      refine .inr ⟨done, m, rest, recvLimits p.peer tr, limit, ?_, ?_, ?_, h₃,
        Nat.lt_of_not_le hlong⟩
      · simpa [sentBy] using h₁
      · simpa [receivedBy] using h₂
      · simp [recvLimits]

/-- A reader that is stuck has met a packet too long for it, which is not the last
one when it goes on. -/
theorem Stuck.last (h : Stuck body p tr) {limit : Usize} {result : Except PacketError Bytes} :
    ¬ OnlyLastTooLong body p (tr ++ [(p.peer, .recv limit result)]) := by
  intro hlast
  obtain ⟨done, m, rest, limits, stuckLimit, h₁, _, h₃, h₄, h₅⟩ := h
  have hsent : sentBy p (tr ++ [(p.peer, .recv limit result)]) = done ++ m :: rest := by
    simpa [sentBy] using h₁
  have hlimits : recvLimits p.peer (tr ++ [(p.peer, .recv limit result)]) =
      limits ++ [stuckLimit] ++ [limit] := by
    rw [← h₃]
    simp [recvLimits]
  have hle := hlast done.length m stuckLimit (by rw [hsent]; simp)
    (by rw [hlimits, ← h₄]; simp) (by rw [hlimits]; simp [h₄])
  omega

/-- In every run in which only the last packet may be too long for its reader,
the stream of `p` is in order or its reader is stuck on that packet. -/
theorem inOrder_or_stuck (hrun : Run (Step V body) start tr wire)
    (hlast : OnlyLastTooLong body p tr) : InOrder V body p tr wire ∨ Stuck body p tr := by
  revert hlast
  refine Run.invariant (I := fun tr wire => OnlyLastTooLong body p tr →
    InOrder V body p tr wire ∨ Stuck body p tr) ?_ ?_ hrun
  · intro _
    exact .inl ⟨[], [], rfl, rfl, rfl, rfl⟩
  · intro tr wire call wire' hrun ih hstep hlast
    have ih := ih hlast.of_append
    cases hstep with
    | @send q level limit message result written hcall =>
      cases ih with
      | inr hstuck => exact .inr (hstuck.frame rfl rfl)
      | inl horder =>
        cases Party.eq_or_eq_peer p q with
        | inl hq =>
          subst hq
          exact .inl (horder.send hcall)
        | inr hq =>
          subst hq
          exact .inl (horder.frame (sentBy_of_ne (Party.peer_ne p) _) rfl rfl (by simp))
    | @recv q limit result left harrived hcall =>
      cases Party.eq_or_eq_peer p q with
      | inl hq =>
        subst hq
        cases ih with
        | inl horder =>
          exact .inl (horder.frame rfl (receivedBy_of_ne (Party.ne_peer q) _)
            (recvLimits_of_ne (Party.ne_peer q) _) (by simp))
        | inr hstuck =>
          exact .inr (hstuck.frame (receivedBy_of_ne (Party.ne_peer q) _)
            (recvLimits_of_ne (Party.ne_peer q) _))
      | inr hq =>
        subst hq
        rw [Party.peer_peer] at harrived hcall ⊢
        cases ih with
        | inl horder => exact horder.recv hrun harrived hcall
        | inr hstuck =>
          exact absurd hlast hstuck.last

/-- No more messages were received than `recv` was called. -/
theorem length_receivedBy_le (p : Party) (tr : List (Party × Call)) :
    (receivedBy p tr).length ≤ (recvLimits p tr).length := by
  induction tr with
  | nil => exact Nat.le_refl _
  | cons call rest ih =>
    have hcall : (receivedBy p [call]).length ≤ (recvLimits p [call]).length := by
      obtain ⟨q, call⟩ := call
      by_cases hq : q = p
      · cases call with
        | send => exact Nat.le_refl _
        | recv limit result => cases result <;> simp [receivedBy, recvLimits, hq]
      · rw [receivedBy_of_ne hq]
        exact Nat.zero_le _
    rw [← List.singleton_append, receivedBy_append, recvLimits_append, List.length_append,
      List.length_append]
    omega

/-- When as many messages were received as `recv` was called, no call failed. -/
theorem recv_ok_of_length (h : (recvLimits p tr).length = (receivedBy p tr).length)
    {limit : Usize} {result : Except PacketError Bytes} (hmem : (p, .recv limit result) ∈ tr) :
    ∃ message, result = .ok message := by
  obtain ⟨before, after, rfl⟩ := List.append_of_mem hmem
  cases result with
  | ok message => exact ⟨message, rfl⟩
  | error e =>
    have hreceived : receivedBy p [(p, .recv limit (.error e))] = [] := by simp [receivedBy]
    have hlimits : recvLimits p [(p, .recv limit (.error e))] = [limit] := by simp [recvLimits]
    have hbefore := length_receivedBy_le p before
    have hafter := length_receivedBy_le p after
    rw [List.append_cons, recvLimits_append, recvLimits_append, receivedBy_append,
      receivedBy_append, hreceived, hlimits] at h
    simp only [List.length_append, List.length_cons, List.length_nil] at h
    omega

end Runs

/-! ## Delivery -/

/-- What a session owes its parties.

* `in_order`: what `p` sent is what its peer received and what is under way; the
  stream of `p` is at the start of a frame, and the peer's next `recv` returns
  the next message and leaves the stream at the start of the frame after it.
* `drained`: nothing is lost on a stream that was read to its end.
* `recv_ok`, `send_exact`: no `recv` failed, and `send` refused exactly the
  packets longer than its limit.
* `refused`: a refused `send` writes nothing. -/
structure Delivered (V : VariableLen) (body : Body) (tr : List (Party × Call)) (wire : Wires) :
    Prop where
  in_order : ∀ p, ∃ pending,
    (sentBy p tr).map (fun m => m.2.flatten) =
      receivedBy p.peer tr ++ pending.map (fun m => m.2.flatten) ∧
    wire p = frames V body pending ∧
    ∀ m rest limit, pending = m :: rest →
      (∀ sent ∈ sendLimits p tr, sent.toNat ≤ limit.toNat) →
      arrived V limit (wire p) = true ∧
      (Plain.recv V body limit).outcome (wire p) = (.ok m.2.flatten, frames V body rest)
  drained : ∀ p, wire p = [] → receivedBy p.peer tr = (sentBy p tr).map fun m => m.2.flatten
  recv_ok : ∀ p limit result, (p, .recv limit result) ∈ tr → ∃ message, result = .ok message
  send_exact : ∀ p level limit message result, (p, .send level limit message result) ∈ tr →
    result = if (Plain.packet body level message).length ≤ limit.toNat then .ok ()
      else .error (.tooLarge (Plain.packet body level message).length limit.toNat)
  refused : ∀ level limit message (w : Bytes),
    limit.toNat < (Plain.packet body level message).length →
    (Plain.send V body level limit message).outcome w =
      (.error (.tooLarge (Plain.packet body level message).length limit.toNat), w)

/-- No limit under which a party sends exceeds one under which its peer
receives. -/
def LimitsAgree (tr : List (Party × Call)) : Prop :=
  ∀ p, ∀ sent ∈ sendLimits p tr, ∀ limit ∈ recvLimits p.peer tr, sent.toNat ≤ limit.toNat

section Delivery

variable {V : VariableLen} {body : Body} {tr : List (Party × Call)} {wire : Wires}

/-- Limits that agree let every packet pass. -/
theorem packet_within_of_limitsAgree (hrun : Run (Step V body) start tr wire)
    (hlimits : LimitsAgree tr) (p : Party) {i : Nat} {m : Level × Buf} {limit : Usize}
    (hm : (sentBy p tr)[i]? = some m) (hlimit : (recvLimits p.peer tr)[i]? = some limit) :
    (packetOf body m).length ≤ limit.toNat := by
  obtain ⟨sent, hsent, hle⟩ := sent_within hrun (List.mem_of_getElem? hm)
  exact Nat.le_trans hle (hlimits p sent hsent limit (List.mem_of_getElem? hlimit))

/-- With limits that agree every stream is in order. -/
theorem inOrder_of_limitsAgree (hrun : Run (Step V body) start tr wire)
    (hlimits : LimitsAgree tr) (p : Party) : InOrder V body p tr wire := by
  cases inOrder_or_stuck hrun (p := p)
    (fun _ _ _ hm hlimit _ => packet_within_of_limitsAgree hrun hlimits p hm hlimit) with
  | inl horder => exact horder
  | inr hstuck =>
    obtain ⟨done, m, rest, limits, limit, h₁, _, h₃, h₄, h₅⟩ := hstuck
    have hm : (sentBy p tr)[done.length]? = some m := by rw [h₁]; simp
    have hlimit : (recvLimits p.peer tr)[done.length]? = some limit := by rw [h₃, ← h₄]; simp
    have hle := packet_within_of_limitsAgree hrun hlimits p hm hlimit
    omega

/-- A packet that a `recv` finds whole has arrived. -/
theorem arrived_of_outcome {limit : Usize} {w rest message : Bytes} (hne : w ≠ [])
    (h : (Plain.recv V body limit).outcome w = (.ok message, rest)) : arrived V limit w = true := by
  rw [arrived, Bool.and_eq_true]
  refine ⟨by simpa using hne, ?_⟩
  simp only [Io.outcome, Plain.recv, EStateM.run_bind] at h
  cases hread : (readPacket V limit).run w with
  | ok bytes left => rfl
  | error e left => simp [hread] at h

/-- Every run delivers, in both directions at once. -/
theorem exact_delivery (hrun : Run (Step V body) start tr wire) (hlimits : LimitsAgree tr) :
    Delivered V body tr wire where
  in_order p := by
    obtain ⟨done, pending, h₁, h₂, _, h₄⟩ := inOrder_of_limitsAgree hrun hlimits p
    refine ⟨pending, by rw [h₁, h₂, List.map_append], h₄, ?_⟩
    rintro m rest limit rfl hlimit
    obtain ⟨sent, hsent, hle⟩ := sent_within hrun (p := p) (m := m) (by simp [h₁])
    have hfits : (Plain.packet body m.1 m.2).length ≤ limit.toNat :=
      Nat.le_trans hle (hlimit sent hsent)
    have hcall : (Plain.recv V body limit).outcome (wire p) =
        (.ok m.2.flatten, frames V body rest) := by
      rw [h₄, frames_cons, packetOf, outcome_recv_frame hle, if_pos hfits]
    exact ⟨arrived_of_outcome (by rw [h₄]; simp [frame_ne_nil]) hcall, hcall⟩
  drained p hnil := by
    obtain ⟨done, pending, h₁, h₂, _, h₄⟩ := inOrder_of_limitsAgree hrun hlimits p
    obtain rfl : pending = [] := frames_eq_nil_iff.mp (h₄.symm.trans hnil)
    rw [h₂, h₁, List.append_nil]
  recv_ok p limit result hmem := by
    obtain ⟨done, pending, _, h₂, h₃, _⟩ := inOrder_of_limitsAgree hrun hlimits p.peer
    rw [Party.peer_peer] at h₂ h₃
    exact recv_ok_of_length (by rw [h₃, h₂, List.length_map]) hmem
  send_exact p level limit message result hmem := by
    obtain ⟨before, after, rfl⟩ := List.append_of_mem hmem
    obtain ⟨s, _, hrest⟩ := Run.split hrun
    obtain ⟨s', hstep, _⟩ := Run.cons_iff.mp hrest
    cases hstep with
    | send hcall =>
      rw [outcome_send] at hcall
      split at hcall
      · rename_i hle
        rw [if_pos hle]
        exact (Prod.mk.inj hcall).1.symm
      · rename_i hlt
        rw [if_neg hlt]
        exact (Prod.mk.inj hcall).1.symm
  refused level limit message w hlt := by
    rw [outcome_send, if_neg (Nat.not_le.mpr hlt)]

/-- Two messages cross on the wire, and a third is refused. -/
theorem exact_delivery_crossing :
    Delivered Reference.variableLen (Compress.body Reference.flate)
      [(.client, .send 0 64 [[104], [105]] (.ok ())),
        (.server, .send 0 64 [[33]] (.ok ())),
        (.client, .send 0 3 [[1, 2, 3]] (.error (.tooLarge 8 3))),
        (.client, .recv 64 (.ok [33])),
        (.server, .recv 64 (.ok [104, 105]))]
      (Function.update (Function.update (Function.update (Function.update (Function.update start
        .client [7, 1, 2, 0, 253, 255, 104, 105]) .server [6, 1, 1, 0, 254, 255, 33])
        .client [7, 1, 2, 0, 253, 255, 104, 105]) .server []) .client []) :=
  exact_delivery
    (.snoc (.snoc (.snoc (.snoc (.snoc .nil (.send rfl)) (.send rfl)) (.send rfl)) (.recv rfl rfl))
      (.recv rfl rfl))
    (by intro p; cases p <;> simp [sendLimits, recvLimits, Party.peer])

/-- The messages received are messages sent, when a `recv` that met a packet too
long for it was the last. -/
theorem received_sublist (hrun : Run (Step V body) start tr wire) (p : Party)
    (hlast : OnlyLastTooLong body p tr) :
    (receivedBy p.peer tr).Sublist ((sentBy p tr).map fun m => m.2.flatten) := by
  cases inOrder_or_stuck hrun hlast with
  | inl horder =>
    obtain ⟨done, pending, h₁, h₂, _, _⟩ := horder
    rw [h₁, h₂, List.map_append]
    exact List.sublist_append_left _ _
  | inr hstuck =>
    obtain ⟨done, m, rest, _, _, h₁, h₂, _, _, _⟩ := hstuck
    rw [h₁, h₂, List.map_append]
    exact List.sublist_append_left _ _

/-- Two messages are received, and a third is refused as the last thing asked for. -/
theorem received_sublist_refused :
    (receivedBy .server
      [(.client, .send 0 64 [[7], [8]] (.ok ())),
        (.client, .send 0 64 [[9]] (.ok ())),
        (.server, .recv 64 (.ok [7, 8])),
        (.client, .send 0 64 [[1, 42]] (.ok ())),
        (.server, .recv 1 (.ok [9])),
        (.server, .recv 1 (.error (.tooLarge 2 1)))]).Sublist [[7, 8], [9], [1, 42]] :=
  have hrun : Run (Step Reference.variableLen Raw.body) start
      [(.client, .send 0 64 [[7], [8]] (.ok ())),
        (.client, .send 0 64 [[9]] (.ok ())),
        (.server, .recv 64 (.ok [7, 8])),
        (.client, .send 0 64 [[1, 42]] (.ok ())),
        (.server, .recv 1 (.ok [9])),
        (.server, .recv 1 (.error (.tooLarge 2 1)))]
      _ := .snoc (.snoc (.snoc (.snoc (.snoc (.snoc .nil (.send rfl)) (.send rfl)) (.recv rfl rfl))
        (.send rfl)) (.recv rfl rfl)) (.recv rfl rfl)
  received_sublist hrun .client (by
    intro i m limit hm hlimit hi
    obtain rfl | rfl : i = 0 ∨ i = 1 := by
      simp [recvLimits, Party.peer] at hi
      omega
    · cases hm
      cases hlimit
      decide
    · cases hm
      cases hlimit
      decide)

/-- A receiver that goes on after `TooLarge` takes the body of the refused packet
for packets: of the message `[1, 42]` it receives the message `[42]`. -/
theorem refused_body_received :
    ¬ ∀ (V : VariableLen) (body : Body) (tr : List (Party × Call)) (wire : Wires),
      Run (Step V body) start tr wire → ∀ p,
        (receivedBy p.peer tr).Sublist ((sentBy p tr).map fun m => m.2.flatten) := by
  intro h
  have hsub := h Reference.variableLen Raw.body
    [(.client, .send 0 64 [[1, 42]] (.ok ())),
      (.server, .recv 1 (.error (.tooLarge 2 1))),
      (.server, .recv 1 (.ok [42]))] _
    (.snoc (.snoc (.snoc .nil (.send rfl)) (.recv rfl rfl)) (.recv rfl rfl)) .client
  revert hsub
  decide

end Delivery

end TcpHandler.Session.Stateless
