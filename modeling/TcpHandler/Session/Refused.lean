/-
  Session/Refused.lean --- what a refused `send` leaves behind.

  `send` replaces the nonce before `write_packet` checks the size of the packet.
  A send that is refused has therefore moved the sender's nonce, and the receiver
  never hears of it.  The sender's later packets are sealed under nonces the
  receiver does not hold.
-/
import TcpHandler.Session.Lockstep

set_option autoImplicit false

namespace TcpHandler.Session.Ciphered

open TcpHandler.Foundation TcpHandler.Protocols
open TcpHandler.Foundation.Ratchet (Act ownedBy followed made)

/-- The messages `p` handed to `send`, in order. -/
def offeredBy (p : Party) (tr : List Label) : List Bytes :=
  tr.filterMap fun
    | .act q (.sealing _ _ _ message _) => if q = p then some message.flatten else none
    | _ => none

/-- Every `send` of `p` returned `Ok`. -/
def SendsOk (p : Party) (tr : List Label) : Prop :=
  (∀ nonce level fresh message result,
    .act p (.sealing nonce level fresh message result) ∈ tr → ∃ packet, result = .ok packet) ∧
  ∀ limit result, .act p (.writing limit result) ∈ tr → result = .ok ()

/-- A move of a `send` by `p`, or of a `recv` by its peer. -/
def Direction (p : Party) : Label → Prop
  | .act q (.sealing _ _ _ _ _) => q = p
  | .act q (.writing _ _) => q = p
  | .act q (.fetching _ _) => q = p.peer
  | .act q (.opening _ _ _ _) => q = p.peer
  | _ => False

/-- `p` sends and its peer receives until every packet is taken; each of them is
within its limits. -/
structure Following (V : VariableLen) (payload : Payload) (aead : Aead) (key : AesKey) (p : Party)
    (s : State) (tr : List Label) (s' : State) : Prop where
  run : Run (StepWithin V payload aead key) s tr s'
  direction : ∀ e ∈ tr, Direction p e
  drained : s'.sending p = none ∧ s'.wire p = [] ∧ s'.opening p.peer = none

/-- The state after a whole call of `send` by `p`. -/
def afterSend (s : State) (p : Party) (written : Bytes) (cipher : Cipher) : State :=
  { s with
    cipher := Function.update s.cipher p cipher
    wire := Function.update s.wire p written }

variable {V : VariableLen} {payload : Payload} {aead : Aead} {key : AesKey} {nonce fresh : Nonce}
  {tr : List Label} {s s' : State} {p : Party}

/-- A refused `send` has written nothing and has replaced the nonce. -/
theorem of_send_tooLarge {level : Level} {limit : Usize} {message : Buf} {size max : Nat}
    {w written : Bytes} {cipher : Cipher}
    (h : (Sealed.send V payload aead level limit fresh message).outcome
      (w, Cipher.new (key, nonce)) = (.error (.error (.tooLarge size max)), (written, cipher))) :
    written = w ∧ cipher = Cipher.new (key, fresh) := by
  rw [Sealed.outcome_send, ← cipherOf_some, outcome_seal_some] at h
  cases hencrypt : aead.encryptInPlace key nonce (payload.compose level fresh message) with
  | error e => simp [hencrypt] at h
  | ok packet =>
    rw [hencrypt] at h
    simp only at h
    by_cases hle : packet.length ≤ limit.toNat
    · rw [Sealed.outcome_writeSealed_of_le V hle] at h
      simp [Except.mapError] at h
    · rw [Sealed.outcome_writeSealed_of_lt V (Nat.lt_of_not_le hle)] at h
      simp only [Prod.mk.injEq] at h
      exact ⟨h.2.1.symm, h.2.2.symm⟩

/-- After a refused `send` the session is carried by a ratchet whose sender has
moved on alone. -/
theorem carried_afterSend :
    Carried V payload aead key []
      (afterSend (start key nonce) p [] (Cipher.new (key, fresh)))
      ⟨Function.update (fun _ => some nonce) p (some fresh), fun _ => []⟩ where
  cipher q := by
    by_cases hq : q = p
    · simp [afterSend, hq]
    · simp [afterSend, hq, start, ofCiphers]
  transit q := by
    refine ⟨[], ⟨[], ?_, by simp, rfl⟩, .nil⟩
    by_cases hq : q = p
    · simp [afterSend, hq]
    · simp [afterSend, start, ofCiphers]
  unforged := throughout_nil
  results _ _ _ _ _ h := by simp at h

/-- In a direction only its sender makes links. -/
theorem owner_of_direction {e : Label} {act : Act Nonce Bytes} {link : Link Nonce Bytes}
    (h : Direction p e) (hvisible : visible e = some act) (hlink : act.link = some link) :
    link.owner = p := by
  rcases e with ⟨q, ⟨_ | n, _, _, _, _ | _⟩ | _ | _ | ⟨_ | n, _, _ | _, _ | _⟩⟩ | _ | _ | _ <;>
    simp only [visible, Option.some.injEq, reduceCtorEq] at hvisible <;> subst hvisible <;>
    simp only [Act.link, Option.some.injEq, reduceCtorEq] at hlink <;> subst hlink
  all_goals exact h

/-- Nothing the sender of a refused message sends later is received. -/
theorem receivedBy_afterSend (hideal : aead.Ideal)
    (h : Following V payload aead key p (afterSend (start key nonce) p [] (Cipher.new (key, fresh)))
      tr s)
    (hfresh : (nonce :: fresh :: drawn tr).Nodup) : receivedBy p.peer tr = [] := by
  obtain ⟨a, hlockstep, hcarried⟩ := carried_run hideal carried_afterSend h.run
  rw [List.nil_append] at hcarried
  have hestranged : Lockstep.Estranged nonce p.peer
      (⟨Function.update (fun _ => some nonce) p (some fresh), fun _ => []⟩ :
        Lockstep.State Nonce Bytes) := by
    refine ⟨.inr (by simp), rfl, ?_, by simp⟩
    simp only [Party.peer_peer, Function.update_self, ne_eq, Option.some.injEq]
    rintro rfl
    simp at hfresh
  have hmade : ∀ link ∈ made (tr.filterMap visible),
      link.owner = p.peer.peer ∧ link.dst ≠ nonce := by
    intro link hlink
    constructor
    · obtain ⟨act, hact, hact'⟩ := List.mem_filterMap.mp hlink
      obtain ⟨e, he, hvisible⟩ := List.mem_filterMap.mp hact
      rw [Party.peer_peer]
      exact owner_of_direction (h.direction e he) hvisible hact'
    · rintro rfl
      have hdrawn := (dst_sublist_drawn tr).subset (List.mem_map_of_mem hlink)
      exact (List.nodup_cons.mp hfresh).1 (List.mem_cons_of_mem _ hdrawn)
  have hfollow := (Lockstep.estranged_run hestranged hlockstep hmade).2
  rw [receivedBy, List.filterMap_eq_nil_iff]
  intro e he
  split
  · rename_i q n packet message stored
    have hresult := hcarried.results _ _ _ _ _ he
    cases hresult
    exact (hfollow _ _ _ _ (List.mem_filterMap.mpr ⟨_, he, rfl⟩)).elim
  · rfl

/-- Within the limits every write succeeds. -/
theorem writing_ok (hrun : Run (StepWithin V payload aead key) s tr s') {q : Party} {limit : Usize}
    {result : Except PacketError Unit} (hmem : .act q (.writing limit result) ∈ tr) :
    result = .ok () := by
  obtain ⟨before, after, rfl⟩ := List.append_of_mem hmem
  obtain ⟨t, _, hafter⟩ := Run.split hrun
  obtain ⟨t', ⟨hstep, hwithin⟩, _⟩ := Run.cons_iff.mp hafter
  cases hstep with
  | writing hpending hcall =>
    rw [Sealed.outcome_writeSealed_of_le V (hwithin _ hpending)] at hcall
    exact (Prod.mk.inj hcall).1.symm

/-- After a refused `send` the sender's later messages are sent and received
exactly when there are none: from every state in which both ciphers hold the same
key and nonce and nothing is under way, which by `InStep.eq_start` is where a
session in step is whenever nothing is outstanding. -/
theorem delivered_after_refusal_iff (hideal : aead.Ideal) {level : Level} {limit : Usize}
    {message : Buf} {size max : Nat} {written : Bytes} {cipher : Cipher}
    (hrefused : (Sealed.send V payload aead level limit fresh message).outcome
      ((start key nonce).wire p, (start key nonce).cipher p) =
        (.error (.error (.tooLarge size max)), (written, cipher)))
    (hfollowing :
      Following V payload aead key p (afterSend (start key nonce) p written cipher) tr s)
    (hfresh : (nonce :: fresh :: drawn tr).Nodup) :
    SendsOk p tr ∧ receivedBy p.peer tr = offeredBy p tr ↔ offeredBy p tr = [] := by
  obtain ⟨rfl, rfl⟩ := of_send_tooLarge hrefused
  have hnothing := receivedBy_afterSend hideal hfollowing hfresh
  constructor
  · rintro ⟨_, hreceived⟩
    rw [← hreceived, hnothing]
  · intro hempty
    refine ⟨⟨fun n level fresh message result hmem => ?_, fun limit result hmem =>
      writing_ok hfollowing.run hmem⟩, by rw [hnothing, hempty]⟩
    have hoffered : message.flatten ∈ offeredBy p tr :=
      List.mem_filterMap.mpr ⟨_, hmem, by simp⟩
    rw [hempty] at hoffered
    simp at hoffered

/-- What follows when the client sent a message of one byte after a refused one. -/
def afterRefused : List Label :=
  [.act .client (.sealing (some (Reference.nonce 1)) 0 (Reference.nonce 2) [[7]]
      (.ok (Reference.packet 1 2 [7]))),
    .act .client (.writing 32 (.ok ())),
    .act .server (.fetching 32 (.ok (Reference.packet 1 2 [7]))),
    .act .server (.opening (some (Reference.nonce 0)) (Reference.packet 1 2 [7])
      (.error (.error (.aes .failure))) none)]

theorem afterRefused_following : ∃ s, Following Reference.variableLen
    (Encrypt.payload Reference.variableLen)
    Reference.aead Reference.key .client (afterSend (start Reference.key (Reference.nonce 0))
      .client [] (Cipher.new (Reference.key, Reference.nonce 1))) afterRefused s :=
  ⟨_, .snoc (.snoc (.snoc (.snoc .nil
      ⟨.sealing rfl rfl, fun _ _ => ⟨_, rfl⟩⟩)
      ⟨.writing rfl rfl, by rintro _ ⟨⟩; decide⟩)
      ⟨.fetching rfl rfl rfl, by rintro _ _ ⟨⟩; decide⟩)
      ⟨.opening rfl rfl, trivial⟩,
    by simp [afterRefused, Direction, Party.peer], rfl, rfl, rfl⟩

/-- Five bytes are refused under a limit of 32, and the next message is lost. -/
theorem delivered_after_refusal_iff_lost :
    SendsOk .client afterRefused ∧
        receivedBy .server afterRefused = offeredBy .client afterRefused ↔
      offeredBy .client afterRefused = [] :=
  have ⟨_, hfollowing⟩ := afterRefused_following
  have hrefused : (Sealed.send Reference.variableLen (Encrypt.payload Reference.variableLen)
      Reference.aead 0 32
      (Reference.nonce 1) [[1, 2, 3, 4, 5]]).outcome
        ((start Reference.key (Reference.nonce 0)).wire .client,
          (start Reference.key (Reference.nonce 0)).cipher .client) =
      (.error (.error (.tooLarge 33 32)), ([], Cipher.new (Reference.key, Reference.nonce 1))) :=
      rfl
  delivered_after_refusal_iff Reference.aead_ideal hrefused hfollowing (by decide)

/-- After a refused `send` the next message is lost. -/
theorem lost_after_refusal :
    ¬ ∀ (V : VariableLen) (payload : Payload) (aead : Aead) (key : AesKey) (nonce fresh : Nonce)
      (p : Party) (level : Level) (limit : Usize) (message : Buf) (size max : Nat)
      (written : Bytes) (cipher : Cipher) (tr : List Label) (s : State), aead.Ideal →
      (Sealed.send V payload aead level limit fresh message).outcome
        ((start key nonce).wire p, (start key nonce).cipher p) =
          (.error (.error (.tooLarge size max)), (written, cipher)) →
      Following V payload aead key p (afterSend (start key nonce) p written cipher) tr s →
      (nonce :: fresh :: drawn tr).Nodup →
      SendsOk p tr ∧ receivedBy p.peer tr = offeredBy p tr := by
  intro h
  obtain ⟨s, hfollowing⟩ := afterRefused_following
  have hdelivered := h Reference.variableLen (Encrypt.payload Reference.variableLen) Reference.aead
    Reference.key
    (Reference.nonce 0) (Reference.nonce 1) .client 0 32 [[1, 2, 3, 4, 5]] 33 32 []
    (Cipher.new (Reference.key, Reference.nonce 1)) afterRefused s Reference.aead_ideal rfl
    hfollowing (by decide)
  revert hdelivered
  simp [receivedBy, offeredBy, afterRefused]

end TcpHandler.Session.Ciphered
