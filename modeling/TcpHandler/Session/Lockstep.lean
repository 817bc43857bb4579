/-
  Session/Lockstep.lean --- sessions over reliable streams in which nothing is
  refused.

  When every packet is within the limits it is written and read under, and
  `encrypt_in_place` accepts every plaintext, the packets between the two critical
  sections of a message form a queue: the packet that was read but not opened,
  the frames on the wire, the packet that was sealed but not written.  Such
  sessions refine the ratchet over reliable queues, so their ciphers stay in step
  exactly as long as the directions do not cross.
-/
import TcpHandler.Foundation.Lockstep
import TcpHandler.Session.Nonces

set_option autoImplicit false

namespace TcpHandler.Session.Ciphered

open TcpHandler.Foundation TcpHandler.Protocols
open TcpHandler.Foundation.Ratchet (Act ownedBy followed made)

section System

variable (V : VariableLen) (payload : Payload) (aead : Aead) (key : AesKey)

/-- No call is refused for a size: `encrypt_in_place` accepts the plaintext, and
the packet that is written or read is within the limit.  Nobody interferes with
the streams. -/
def Within (s : State) : Label → Prop
  | .act p (.sealing _ level fresh message _) =>
      ∀ nonce, held (s.cipher p) = some nonce →
        ∃ packet, aead.encryptInPlace key nonce (payload.compose level fresh message) = .ok packet
  | .act p (.writing limit _) => ∀ packet, s.sending p = some packet → packet.length ≤ limit.toNat
  | .act p (.fetching limit _) =>
      ∀ len rest, V.usizeVarintAp.read.run (s.wire p.peer) = .ok len rest → len.toNat ≤ limit.toNat
  | .act _ (.opening _ _ _ _) => True
  | _ => False

/-- A step in which nothing is refused. -/
def StepWithin (s : State) (e : Label) (s' : State) : Prop :=
  Step V payload aead s e s' ∧ Within V payload aead key s e

/-- `packet` is what `p` sealed for `link`. -/
def SealedFor (p : Party) (tr : List Label) (link : Link Nonce Bytes) (packet : Bytes) : Prop :=
  ∃ level message, .act p (.sealing (some link.src) level link.dst message (.ok packet)) ∈ tr ∧
    link = ⟨p, link.src, link.dst, some message.flatten⟩ ∧
    aead.encryptInPlace key link.src (payload.compose level link.dst message) = .ok packet

/-- The packets between the critical sections of a message: read and not opened,
on the wire, sealed and not written. -/
def Transit (s : State) (p : Party) (packets : List Bytes) : Prop :=
  ∃ flight, s.wire p = (flight.map (frame V)).flatten ∧
    (∀ packet ∈ flight, packet.length < UInt64.size) ∧
    packets = (s.opening p.peer).toList ++ flight ++ (s.sending p).toList

/-- What a critical section of `recv` finds, returns and leaves. -/
inductive OpenResult : Option Nonce → Except (Fault PacketError) Bytes → Option Nonce → Prop
  | accepted {nonce next : Nonce} {message : Bytes} :
      OpenResult (some nonce) (.ok message) (some next)
  | failed {nonce : Nonce} : OpenResult (some nonce) (.error (.error (.aes .failure))) none
  | broken : OpenResult none (.error (.error .broken)) none

/-- A session and the ratchet over queues it refines. -/
structure Carried (tr : List Label) (s : State) (a : Lockstep.State Nonce Bytes) : Prop where
  cipher : ∀ p, s.cipher p = cipherOf key (a.node p)
  transit : ∀ p, ∃ packets, Transit V s p packets ∧
    List.Forall₂ (SealedFor payload aead key p tr) (a.queue p) packets
  unforged : Unforged payload aead key tr
  results : ∀ p nonce packet result stored,
    .act p (.opening nonce packet result stored) ∈ tr → OpenResult nonce result stored

end System

variable {V : VariableLen} {payload : Payload} {aead : Aead} {key : AesKey} {nonce : Nonce}
  {tr : List Label} {s s' : State} {a : Lockstep.State Nonce Bytes}

theorem carried_start : Carried V payload aead key [] (start key nonce) (Lockstep.start nonce) where
  cipher _ := rfl
  transit _ := ⟨[], ⟨[], rfl, by simp, rfl⟩, .nil⟩
  unforged := throughout_nil
  results _ _ _ _ _ h := by simp at h

/-! ## Moves of a session within its limits -/

theorem SealedFor.mono {p : Party} {link : Link Nonce Bytes} {packet : Bytes}
    (h : SealedFor payload aead key p tr link packet) (e : Label) :
    SealedFor payload aead key p (tr ++ [e]) link packet := by
  obtain ⟨level, message, hmem, hlink, hencrypt⟩ := h
  exact ⟨level, message, List.mem_append_left _ hmem, hlink, hencrypt⟩

/-- What has to be shown of a step. -/
theorem Carried.snoc (h : Carried V payload aead key tr s a) {e : Label}
    {a' : Lockstep.State Nonce Bytes} (hcipher : ∀ p, s'.cipher p = cipherOf key (a'.node p))
    (htransit : ∀ p, ∃ packets, Transit V s' p packets ∧
      List.Forall₂ (SealedFor payload aead key p (tr ++ [e])) (a'.queue p) packets)
    (hgenuine : Genuine payload aead key tr e)
    (hresult : ∀ p nonce packet result stored,
      e = .act p (.opening nonce packet result stored) → OpenResult nonce result stored) :
    Carried V payload aead key (tr ++ [e]) s' a' where
  cipher := hcipher
  transit := htransit
  unforged := throughout_snoc.mpr ⟨h.unforged, hgenuine⟩
  results p nonce packet result stored hmem := by
    rw [List.mem_append, List.mem_singleton] at hmem
    cases hmem with
    | inl hold => exact h.results _ _ _ _ _ hold
    | inr hnew => exact hresult _ _ _ _ _ hnew.symm

/-- A label that is no critical section of `recv`. -/
theorem genuine_of_not_opening {e : Label}
    (h : ∀ p nonce packet result stored, e ≠ .act p (.opening nonce packet result stored)) :
    Genuine payload aead key tr e :=
  fun _ _ _ _ _ _ heq _ => absurd heq (h _ _ _ _ _)

/-- The packets between the critical sections, after a step that does not move
them. -/
theorem Carried.transit_frame (h : Carried V payload aead key tr s a) (e : Label) {p : Party}
    (hwire : s'.wire p = s.wire p) (hopening : s'.opening p.peer = s.opening p.peer)
    (hsending : s'.sending p = s.sending p) :
    ∃ packets, Transit V s' p packets ∧
      List.Forall₂ (SealedFor payload aead key p (tr ++ [e])) (a.queue p) packets := by
  obtain ⟨packets, ⟨flight, hflight, hsize, hpackets⟩, hqueue⟩ := h.transit p
  exact ⟨packets, ⟨flight, hwire.trans hflight, hsize, by rw [hopening, hsending, hpackets]⟩,
    hqueue.imp fun _ _ hsealed => hsealed.mono e⟩

/-- `sealing` puts a packet at the end of the queue. -/
theorem Carried.sealing (h : Carried V payload aead key tr s a) {p : Party} {level : Level}
    {fresh : Nonce} {message : Buf} {result : Except (Fault PacketError) Bytes} {cipher : Cipher}
    (hidle : s.sending p = none)
    (hcall : (Sealed.sealMessage payload aead level fresh message).outcome (s.cipher p) =
      (result, cipher))
    (hwithin : Within V payload aead key s
      (.act p (.sealing (held (s.cipher p)) level fresh message result))) :
    Run.Answers Lockstep.Step
      (Carried V payload aead key
        (tr ++ [.act p (.sealing (held (s.cipher p)) level fresh message result)])
        { s with
          cipher := Function.update s.cipher p cipher
          sending := Function.update s.sending p result.toOption })
      a (visible (.act p (.sealing (held (s.cipher p)) level fresh message result))) := by
  have hgenuine : ∀ nonce, Genuine payload aead key tr
      (.act p (.sealing nonce level fresh message result)) :=
    fun _ => genuine_of_not_opening (by simp)
  rw [Within] at hwithin
  rw [h.cipher p] at hcall hwithin ⊢
  rw [held_cipherOf] at hwithin ⊢
  cases hnode : a.node p with
  | none =>
    rw [hnode, outcome_seal_none] at hcall
    obtain ⟨rfl, rfl⟩ := Prod.mk.inj hcall
    refine h.snoc (update_cipherOf_none h.cipher hnode)
      (fun q => h.transit_frame _ rfl rfl ?_) (hgenuine none) (by simp)
    show Function.update s.sending p none q = s.sending q
    rw [← hidle, Function.update_eq_self]
  | some nonce =>
    obtain ⟨packet, hencrypt⟩ := hwithin nonce hnode
    rw [hnode, outcome_seal_some, hencrypt] at hcall
    obtain ⟨rfl, rfl⟩ := Prod.mk.inj hcall
    refine ⟨_, .extend hnode, h.snoc (update_cipherOf h.cipher p (some fresh)) (fun q => ?_)
      (hgenuine _) (by simp)⟩
    by_cases hq : q = p
    · subst hq
      obtain ⟨packets, ⟨flight, hflight, hsize, rfl⟩, hqueue⟩ := h.transit q
      refine ⟨(s.opening q.peer).toList ++ flight ++ [packet],
        ⟨flight, hflight, hsize, by simp [Except.toOption]⟩, ?_⟩
      simp only [Function.update_self]
      rw [hidle, Option.toList_none, List.append_nil] at hqueue
      refine List.rel_append (hqueue.imp fun _ _ hsealed => hsealed.mono _) (.cons ?_ .nil)
      exact ⟨level, message, by simp, rfl, hencrypt⟩
    · simp only [Function.update_of_ne hq]
      exact h.transit_frame _ rfl rfl (Function.update_of_ne hq _ _)

/-- `writing` moves the sealed packet to the wire. -/
theorem Carried.writing (h : Carried V payload aead key tr s a) {p : Party} {packet : Bytes}
    {limit : Usize} {result : Except PacketError Unit} {written : Bytes}
    (hpending : s.sending p = some packet)
    (hcall : (Sealed.writeSealed V limit packet).outcome (s.wire p) = (result, written))
    (hwithin : Within V payload aead key s (.act p (.writing limit result))) :
    Carried V payload aead key (tr ++ [.act p (.writing limit result)])
      { s with
        wire := Function.update s.wire p written
        sending := Function.update s.sending p none } a := by
  have hle : packet.length ≤ limit.toNat := hwithin packet hpending
  rw [Sealed.outcome_writeSealed_of_le V hle] at hcall
  obtain ⟨rfl, rfl⟩ := Prod.mk.inj hcall
  refine h.snoc h.cipher (fun q => ?_) (genuine_of_not_opening (by simp)) (by simp)
  by_cases hq : q = p
  · subst hq
    obtain ⟨packets, ⟨flight, hflight, hsize, rfl⟩, hqueue⟩ := h.transit q
    refine ⟨_, ⟨flight ++ [packet], ?_, ?_, rfl⟩, ?_⟩
    · simp [hflight]
    · intro b hb
      rw [List.mem_append, List.mem_singleton] at hb
      cases hb with
      | inl hold => exact hsize b hold
      | inr hnew =>
        rw [hnew]
        exact Nat.lt_of_le_of_lt hle limit.toNat_lt
    · rw [hpending] at hqueue
      simpa using hqueue.imp fun _ _ hsealed => hsealed.mono _
  · exact h.transit_frame _ (Function.update_of_ne hq _ _) rfl (Function.update_of_ne hq _ _)

/-- `fetching` takes the first frame off the wire. -/
theorem Carried.fetching (h : Carried V payload aead key tr s a) {p : Party} {limit : Usize}
    {result : Except PacketError Bytes} {left : Bytes} (hidle : s.opening p = none)
    (harrived : arrived V limit (s.wire p.peer) = true)
    (hcall : (readPacket V limit).outcome (s.wire p.peer) = (result, left))
    (hwithin : Within V payload aead key s (.act p (.fetching limit result))) :
    Carried V payload aead key (tr ++ [.act p (.fetching limit result)])
      { s with
        wire := Function.update s.wire p.peer left
        opening := Function.update s.opening p result.toOption } a := by
  obtain ⟨packets, ⟨flight, hflight, hsize, rfl⟩, hqueue⟩ := h.transit p.peer
  cases flight with
  | nil =>
    rw [hflight] at harrived
    simp [arrived] at harrived
  | cons packet flight =>
    have hfront : s.wire p.peer = frame V packet ++ (flight.map (frame V)).flatten := by
      rw [hflight, List.map_cons, List.flatten_cons]
    have hlen : (UInt64.ofNat packet.length).toNat = packet.length :=
      UInt64.toNat_ofNat_of_lt' (hsize packet List.mem_cons_self)
    have hle : packet.length ≤ limit.toNat := by
      have hread := hwithin (UInt64.ofNat packet.length)
        (packet ++ (flight.map (frame V)).flatten) (by rw [hfront]; simp [frame])
      rwa [hlen] at hread
    rw [hfront, Io.outcome_of_ok (run_readPacket_frame V hle _)] at hcall
    obtain ⟨rfl, rfl⟩ := Prod.mk.inj hcall
    refine h.snoc h.cipher (fun q => ?_) (genuine_of_not_opening (by simp)) (by simp)
    cases Party.eq_or_eq_peer p q with
    | inl hq =>
      subst hq
      exact h.transit_frame _ (by simp) (by simp) rfl
    | inr hq =>
      subst hq
      refine ⟨_, ⟨flight, by simp, fun b hb => hsize b (List.mem_cons_of_mem _ hb), rfl⟩, ?_⟩
      rw [Party.peer_peer, hidle] at hqueue
      simpa [Except.toOption] using hqueue.imp fun _ _ hsealed => hsealed.mono _

/-- The packet that was read and not opened is the front of the queue, and what
is left when it is gone. -/
theorem Carried.front (h : Carried V payload aead key tr s a) {p : Party} {packet : Bytes}
    (hpending : s.opening p = some packet) :
    ∃ link rest, a.queue p.peer = link :: rest ∧ SealedFor payload aead key p.peer tr link packet ∧
      ∀ (cipher : Party → Cipher) (e : Label) (q : Party), ∃ packets,
        Transit V
          { s with
            cipher := cipher
            opening := Function.update s.opening p none } q packets ∧
        List.Forall₂ (SealedFor payload aead key q (tr ++ [e]))
          (Function.update a.queue p.peer rest q) packets := by
  obtain ⟨packets, ⟨flight, hflight, hsize, rfl⟩, hqueue⟩ := h.transit p.peer
  rw [Party.peer_peer, hpending, Option.toList_some, List.singleton_append,
    List.cons_append] at hqueue
  cases hfront : a.queue p.peer with
  | nil =>
    rw [hfront] at hqueue
    cases hqueue
  | cons link rest =>
    rw [hfront] at hqueue
    obtain ⟨hsealed, hrest⟩ := List.forall₂_cons.mp hqueue
    refine ⟨link, rest, rfl, hsealed, fun cipher e q => ?_⟩
    cases Party.eq_or_eq_peer p q with
    | inl hq =>
      subst hq
      rw [Party.update_at_peer]
      exact h.transit_frame e rfl (by simp) rfl
    | inr hq =>
      subst hq
      refine ⟨_, ⟨flight, hflight, hsize, rfl⟩, ?_⟩
      simpa using hrest.imp fun _ _ hsealed => hsealed.mono e

/-- `opening` takes the packet at the front of the queue. -/
theorem Carried.opening (hideal : aead.Ideal) (h : Carried V payload aead key tr s a) {p : Party}
    {packet : Bytes} {result : Except (Fault PacketError) Bytes} {cipher : Cipher}
    (hpending : s.opening p = some packet)
    (hcall : (Sealed.openPacket payload aead packet).outcome (s.cipher p) = (result, cipher)) :
    Run.Answers Lockstep.Step
      (Carried V payload aead key
        (tr ++ [.act p (.opening (held (s.cipher p)) packet result (held cipher))])
        { s with
          cipher := Function.update s.cipher p cipher
          opening := Function.update s.opening p none })
      a (visible (.act p (.opening (held (s.cipher p)) packet result (held cipher)))) := by
  obtain ⟨link, rest, hfront, ⟨level, message, hmem, hlink, hencrypt⟩, htransit⟩ :=
    h.front hpending
  rw [h.cipher p] at hcall ⊢
  rw [held_cipherOf]
  cases hnode : a.node p with
  | none =>
    rw [hnode, outcome_open_none] at hcall
    obtain ⟨rfl, rfl⟩ := Prod.mk.inj hcall
    refine ⟨_, .drop hnode hfront,
      h.snoc (update_cipherOf_none h.cipher hnode) (htransit _ _) ?_ ?_⟩
    · intro _ _ _ _ _ _ heq
      simp at heq
    · intro _ _ _ _ _ heq
      cases heq
      exact .broken
  | some n =>
    rw [hnode] at hcall
    by_cases hn : link.src = n
    · -- the packet was sealed under the nonce the cipher holds
      subst hn
      rw [outcome_open_same hideal hencrypt] at hcall
      obtain ⟨rfl, rfl⟩ := Prod.mk.inj hcall
      rw [hlink] at hfront hmem
      refine ⟨_, .follow hnode hfront,
        h.snoc (update_cipherOf h.cipher p _) (htransit _ _) ?_ ?_⟩
      · intro _ _ _ _ _ plain heq hdecrypt
        cases heq
        rw [hideal.decrypt_same hencrypt] at hdecrypt
        exact ⟨_, level, _, message, hmem, Except.ok.inj hdecrypt⟩
      · intro _ _ _ _ _ heq
        cases heq
        exact .accepted
    · rw [outcome_open_other hideal hencrypt hn] at hcall
      obtain ⟨rfl, rfl⟩ := Prod.mk.inj hcall
      refine ⟨_, .halt hnode hfront hn,
        h.snoc (update_cipherOf h.cipher p none) (htransit _ _) ?_ ?_⟩
      · intro _ _ _ _ _ plain heq hdecrypt
        cases heq
        rw [hideal.decrypt_other hencrypt (Ne.symm hn)] at hdecrypt
        cases hdecrypt
      · intro _ _ _ _ _ heq
        cases heq
        exact .failed

/-- Every step within the limits is a step of the ratchet over queues, or
invisible to it. -/
theorem Carried.step (hideal : aead.Ideal) (h : Carried V payload aead key tr s a) {e : Label}
    (hstep : StepWithin V payload aead key s e s') :
    Run.Answers Lockstep.Step (Carried V payload aead key (tr ++ [e]) s') a (visible e) := by
  obtain ⟨hstep, hwithin⟩ := hstep
  cases hstep with
  | sealing hidle hcall => exact h.sealing hidle hcall hwithin
  | writing hpending hcall => exact h.writing hpending hcall hwithin
  | fetching hidle harrived hcall => exact h.fetching hidle harrived hcall hwithin
  | opening hpending hcall => exact h.opening hideal hpending hcall
  | tamper => exact hwithin.elim
  | writeLost _ => exact hwithin.elim
  | readLost _ => exact hwithin.elim

/-- A run within the limits, from any state that is carried. -/
theorem carried_run (hideal : aead.Ideal) {tr₀ : List Label} {s₀ : State}
    {a₀ : Lockstep.State Nonce Bytes} (h : Carried V payload aead key tr₀ s₀ a₀)
    (hrun : Run (StepWithin V payload aead key) s₀ tr s) :
    ∃ a, Run Lockstep.Step a₀ (tr.filterMap visible) a ∧
      Carried V payload aead key (tr₀ ++ tr) s a :=
  have hall : Throughout (fun (_ : List Label) (_ : Label) => True) tr := fun _ _ _ _ => trivial
  Run.simulation (R := fun tr s a => Carried V payload aead key (tr₀ ++ tr) s a)
    (fun _ hcarried hstep => by
      rw [← List.append_assoc]
      exact hcarried.step hideal hstep)
    hrun hall (by simpa using h)

/-! ## Packets outstanding -/

/-- How often a critical section of `recv` took the cipher of `p`. -/
def takenBy (p : Party) (tr : List Label) : Nat :=
  tr.countP fun
    | .act q (.opening (some _) _ _ _) => q = p
    | _ => false

/-- A packet of `p` is outstanding: it was sealed, and the peer has not taken its
cipher for it. -/
def Outstanding (p : Party) (tr : List Label) : Prop :=
  takenBy p.peer tr < (encryptedBy p tr).length

/-- Packets are outstanding in both directions. -/
def Crossed (tr : List Label) : Prop := ∀ p, Outstanding p tr

/-- At no moment packets are outstanding in both directions. -/
def NeverCrossed (tr : List Label) : Prop := ∀ pre, pre <+: tr → ¬ Crossed pre

/-- `p` entered a critical section of `recv`. -/
def opensBy (p : Party) : Label → Bool
  | .act q (.opening _ _ _ _) => q = p
  | _ => false

theorem takenBy_eq (p : Party) (tr : List Label) :
    takenBy p tr = Lockstep.taken p (tr.filterMap visible) := by
  rw [Lockstep.taken, List.countP_filterMap, takenBy]
  apply List.countP_congr
  intro e _
  rcases e with ⟨q, ⟨_ | n, _, _, _, _ | _⟩ | _ | _ | ⟨_ | n, _, _ | _, _ | _⟩⟩ | _ | _ | _ <;>
    simp [visible, Lockstep.takes]

theorem receives_visible_iff (p : Party) (tr : List Label) :
    (∃ act ∈ tr.filterMap visible, Lockstep.receives p act) ↔ ∃ e ∈ tr, opensBy p e := by
  have hlabel : ∀ e, (∃ act, visible e = some act ∧ Lockstep.receives p act) ↔ opensBy p e := by
    intro e
    rcases e with ⟨q, ⟨_ | n, _, _, _, _ | _⟩ | _ | _ | ⟨_ | n, _, _ | _, _ | _⟩⟩ | _ | _ | _ <;>
      simp [visible, Lockstep.receives, opensBy]
  constructor
  · rintro ⟨act, hact, hreceives⟩
    obtain ⟨e, he, hvisible⟩ := List.mem_filterMap.mp hact
    exact ⟨e, he, (hlabel e).mp ⟨act, hvisible, hreceives⟩⟩
  · rintro ⟨e, he, hopens⟩
    obtain ⟨act, hvisible, hreceives⟩ := (hlabel e).mpr hopens
    exact ⟨act, List.mem_filterMap.mpr ⟨e, he, hvisible⟩, hreceives⟩

section Crossings

/-- What a run within its limits, from the start, is for the ratchets. -/
structure Lockstepped (V : VariableLen) (payload : Payload) (aead : Aead) (key : AesKey)
    (nonce : Nonce) (tr : List Label) (s : State) (a : Lockstep.State Nonce Bytes) : Prop where
  lockstep : Run Lockstep.Step (Lockstep.start nonce) (tr.filterMap visible) a
  carried : Carried V payload aead key tr s a
  received : ∀ p, (followed p (tr.filterMap visible)).map Link.content = (receivedBy p tr).map some
  encrypted : ∀ p,
    (ownedBy p (made (tr.filterMap visible))).map Link.content = (encryptedBy p tr).map some

theorem within_run (hideal : aead.Ideal)
    (hrun : Run (StepWithin V payload aead key) (start key nonce) tr s) :
    ∃ a, Lockstepped V payload aead key nonce tr s a := by
  obtain ⟨a, hlockstep, hcarried⟩ := carried_run hideal carried_start hrun
  rw [List.nil_append] at hcarried
  obtain ⟨_, _, href⟩ := refines (Run.mono (fun hstep => hstep.1) hrun) hcarried.unforged
  refine ⟨a, hlockstep, hcarried, fun p => ?_, fun p => ?_⟩
  · rw [href.received]
    exact Ratchet.map_content_followed p _
  · rw [href.encrypted]
    have hcontent : ∀ link ∈ ownedBy p (made (tr.filterMap visible)),
        ∃ content, link.content = some content := fun link hlink =>
      Lockstep.content_of_made hlockstep (Ratchet.mem_ownedBy.mp hlink).1
    generalize ownedBy p (made (tr.filterMap visible)) = links at hcontent
    induction links with
    | nil => rfl
    | cons link rest ih =>
      obtain ⟨content, hlink⟩ := hcontent link List.mem_cons_self
      rw [List.map_cons, ih fun l hl => hcontent l (List.mem_cons_of_mem _ hl)]
      simp [hlink]

theorem Lockstepped.outstanding_iff {a : Lockstep.State Nonce Bytes}
    (h : Lockstepped V payload aead key nonce tr s a) (p : Party) :
    Outstanding p tr ↔ Lockstep.Outstanding p (tr.filterMap visible) := by
  have hlen := congrArg List.length (h.encrypted p)
  rw [List.length_map, List.length_map] at hlen
  rw [Outstanding, Lockstep.Outstanding, takenBy_eq, hlen]

theorem Lockstepped.crossed_iff {a : Lockstep.State Nonce Bytes}
    (h : Lockstepped V payload aead key nonce tr s a) :
    Crossed tr ↔ Lockstep.Crossed (tr.filterMap visible) :=
  forall_congr' h.outstanding_iff

theorem neverCrossed_visible (hideal : aead.Ideal)
    (hrun : Run (StepWithin V payload aead key) (start key nonce) tr s) (h : NeverCrossed tr) :
    Lockstep.NeverCrossed (tr.filterMap visible) := by
  intro pre hpre hcrossed
  obtain ⟨pre, hprefix, rfl⟩ := List.prefix_filterMap_iff.mp hpre
  obtain ⟨post, rfl⟩ := hprefix
  obtain ⟨t, hbefore, _⟩ := Run.split hrun
  obtain ⟨a, hwithin⟩ := within_run hideal hbefore
  exact h pre (List.prefix_append _ _) (hwithin.crossed_iff.mpr hcrossed)

end Crossings

/-! ## In step until the directions cross -/

/-- What holds as long as the directions have not crossed.

* `opened`: no critical section of `recv` failed.
* `in_order`: the sections of the peer returned the messages of `p`, in order.
* `in_transit`: the messages they have not returned are the packets between the
  critical sections.
* `ciphers`: with nothing outstanding, both ciphers hold the same nonce. -/
structure InStep (V : VariableLen) (key : AesKey) (tr : List Label) (s : State) : Prop where
  opened : ∀ p nonce packet result stored,
    .act p (.opening nonce packet result stored) ∈ tr → ∃ message, result = .ok message
  in_order : ∀ p, receivedBy p.peer tr = (encryptedBy p tr).take (takenBy p.peer tr)
  in_transit : ∀ p, ∃ packets, Transit V s p packets ∧
    (encryptedBy p tr).length = takenBy p.peer tr + packets.length
  ciphers : (∀ p, ¬ Outstanding p tr) → ∃ nonce, ∀ p, s.cipher p = Cipher.new (key, nonce)

/-- The sessions that have not crossed are in step. -/
theorem inStep_of_neverCrossed (hideal : aead.Ideal)
    (hrun : Run (StepWithin V payload aead key) (start key nonce) tr s) (hcross : NeverCrossed tr) :
    InStep V key tr s := by
  obtain ⟨a, hwithin⟩ := within_run hideal hrun
  have haligned := Lockstep.aligned hwithin.lockstep (neverCrossed_visible hideal hrun hcross)
  have haccount : ∀ p, (encryptedBy p tr).map some =
      (receivedBy p.peer tr).map some ++ (a.queue p).map Link.content := by
    intro p
    rw [← hwithin.encrypted, haligned.account, List.map_append, hwithin.received]
  have htaken : ∀ p, takenBy p tr = (receivedBy p tr).length := by
    intro p
    have hlen := congrArg List.length (hwithin.received p)
    rw [List.length_map, List.length_map] at hlen
    rw [takenBy_eq, haligned.taken_eq, hlen]
  refine ⟨?_, fun p => ?_, fun p => ?_, fun hempty => ?_⟩
  · intro p n packet result stored hmem
    have hresult := hwithin.carried.results _ _ _ _ _ hmem
    cases hresult with
    | accepted => exact ⟨_, rfl⟩
    | failed => exact ((haligned.clean p).1 (List.mem_filterMap.mpr ⟨_, hmem, rfl⟩)).elim
    | broken => exact ((haligned.clean p).2 (List.mem_filterMap.mpr ⟨_, hmem, rfl⟩)).elim
  · apply List.map_injective_iff.mpr (Option.some_injective _)
    have hlen : (receivedBy p.peer tr).length = ((receivedBy p.peer tr).map some).length := by simp
    rw [List.map_take, haccount, htaken, hlen, List.take_left]
  · obtain ⟨packets, htransit, hqueue⟩ := hwithin.carried.transit p
    refine ⟨packets, htransit, ?_⟩
    have hlen := congrArg List.length (haccount p)
    rw [List.length_append, List.length_map, List.length_map, List.length_map,
      hqueue.length_eq] at hlen
    rw [hlen, htaken]
  · obtain ⟨n, hn⟩ := haligned.node_eq fun p hout =>
      hempty p ((hwithin.outstanding_iff p).mpr hout)
    exact ⟨n, fun p => by rw [hwithin.carried.cipher, hn]; rfl⟩

/-- A session in step with nothing outstanding is where sessions start, with
another nonce. -/
theorem InStep.eq_start (h : InStep V key tr s) (hempty : ∀ p, ¬ Outstanding p tr) :
    ∃ nonce, s = start key nonce := by
  obtain ⟨n, hn⟩ := h.ciphers hempty
  have hnone : ∀ p, s.opening p.peer = none ∧ s.wire p = [] ∧ s.sending p = none := by
    intro p
    obtain ⟨packets, ⟨flight, hflight, _, hpackets⟩, hlen⟩ := h.in_transit p
    have hout : (encryptedBy p tr).length ≤ takenBy p.peer tr := Nat.le_of_not_lt (hempty p)
    obtain rfl : packets = [] := List.length_eq_zero_iff.mp (by omega)
    simp only [List.nil_eq, List.append_eq_nil_iff, Option.toList_eq_nil_iff] at hpackets
    obtain ⟨⟨hopening, rfl⟩, hsending⟩ := hpackets
    exact ⟨hopening, hflight, hsending⟩
  refine ⟨n, ?_⟩
  obtain ⟨cipher, wire, sending, opening⟩ := s
  simp only at hn hnone
  simp only [start, ofCiphers, State.mk.injEq]
  refine ⟨funext hn, funext fun p => (hnone p).2.1, funext fun p => (hnone p).2.2, funext fun p => ?_⟩
  have hopening := (hnone p.peer).1
  rwa [Party.peer_peer] at hopening

/-! ## After the directions crossed -/

/-- What holds from the moment the directions crossed: no `recv` returns a
message, the first critical section of `recv` on each side fails to decrypt, and
every later section on that side finds the cipher broken. -/
structure OutOfStep (post : List Label) : Prop where
  opening : ∀ before p nonce packet result stored after,
    post = before ++ .act p (.opening nonce packet result stored) :: after →
      (∀ e ∈ before, ¬ opensBy p e) ∧ result = .error (.error (.aes .failure)) ∨
        (∃ e ∈ before, opensBy p e) ∧ result = .error (.error .broken)
  sealing : ∀ before p nonce level fresh message result after,
    post = before ++ .act p (.sealing nonce level fresh message result) :: after →
      (∃ e ∈ before, opensBy p e) → result = .error (.error .broken)

/-- Where the ratchet stands when the directions have just crossed. -/
theorem lost_of_crossing (hideal : aead.Ideal) {e : Label}
    (hfresh : Fresh nonce (tr ++ [e]))
    (hrun : Run (StepWithin V payload aead key) (start key nonce) tr s)
    (hstep : StepWithin V payload aead key s e s') (hbefore : NeverCrossed tr)
    (hcross : Crossed (tr ++ [e])) :
    ∃ a, Carried V payload aead key (tr ++ [e]) s' a ∧ ∀ p, a.node p ≠ none ∧
      Lockstep.Lost nonce p ((tr ++ [e]).filterMap visible) a := by
  obtain ⟨a, hwithin⟩ := within_run hideal hrun
  obtain ⟨_, hafter⟩ := within_run hideal (Run.snoc hrun hstep)
  have haligned := Lockstep.aligned hwithin.lockstep (neverCrossed_visible hideal hrun hbefore)
  have hcross' := hafter.crossed_iff.mp hcross
  have hfresh' := fresh_made hfresh
  have hanswer := hwithin.carried.step hideal hstep
  cases hvisible : visible e with
  | none =>
    -- an invisible step does not cross the directions
    simp only [List.filterMap_append, List.filterMap_cons, hvisible, List.filterMap_nil,
      List.append_nil] at hcross'
    exact absurd hcross' haligned.not_crossed
  | some act =>
    rw [hvisible] at hanswer
    obtain ⟨a', hact, hcarried⟩ := hanswer
    rw [filterMap_visible_snoc tr e hvisible] at hcross' hfresh' ⊢
    exact ⟨a', hcarried, haligned.crossing hact hcross' hfresh'⟩

/-- In the middle of a run from a state in which both parties are lost: nothing was
followed, and a party holds a nonce unless it has entered `recv`. -/
theorem lost_split (hideal : aead.Ideal) {pre before after : List Label}
    {a : Lockstep.State Nonce Bytes} (hfresh : Fresh nonce (pre ++ (before ++ after)))
    (hcarried : Carried V payload aead key pre s a)
    (hlost : ∀ p, a.node p ≠ none ∧ Lockstep.Lost nonce p (pre.filterMap visible) a)
    (hrun : Run (StepWithin V payload aead key) s (before ++ after) s') :
    ∃ t b, Carried V payload aead key (pre ++ before) t b ∧
      Run (StepWithin V payload aead key) t after s' ∧
      (∀ p, b.node p = none ↔ ∃ e ∈ before, opensBy p e) ∧
      ∀ p src dst content, .follow p src dst content ∉ before.filterMap visible := by
  obtain ⟨t, hbefore, hafter⟩ := Run.split hrun
  obtain ⟨b, hb, hcarried'⟩ := carried_run hideal hcarried hbefore
  have hfresh' : (nonce :: (made (pre.filterMap visible ++ before.filterMap visible)).map
      Link.dst).Nodup := by
    rw [← List.append_assoc] at hfresh
    rw [← List.filterMap_append]
    refine fresh_made (hfresh.sublist (List.Sublist.cons_cons nonce ?_))
    exact (List.sublist_append_left _ _).filterMap _
  have hnone := fun p => (Lockstep.lost_run (hlost p).2 hb hfresh').2
  refine ⟨t, b, hcarried', hafter, fun p => ?_, hnone⟩
  rw [Lockstep.node_eq_none_iff (hlost p).1 hb (hnone p), receives_visible_iff]

/-- From a state in which both parties are lost nothing is received. -/
theorem outOfStep_of_lost (hideal : aead.Ideal) {pre post : List Label}
    {a : Lockstep.State Nonce Bytes} (hfresh : Fresh nonce (pre ++ post))
    (hcarried : Carried V payload aead key pre s a)
    (hlost : ∀ p, a.node p ≠ none ∧ Lockstep.Lost nonce p (pre.filterMap visible) a)
    (hrun : Run (StepWithin V payload aead key) s post s') : OutOfStep post where
  opening := by
    rintro before p n packet result stored after rfl
    obtain ⟨t, b, hcarried', hafter, hnode, _⟩ := lost_split hideal hfresh hcarried hlost hrun
    obtain ⟨t', hstep, hrest⟩ := Run.cons_iff.mp hafter
    have hheld : n = b.node p := by
      obtain ⟨hstep, _⟩ := hstep
      cases hstep with
      | opening _ _ => rw [hcarried'.cipher, held_cipherOf]
    -- the section itself followed nothing
    have hsplit : before ++ .act p (.opening n packet result stored) :: after =
        (before ++ [.act p (.opening n packet result stored)]) ++ after := by simp
    rw [hsplit] at hfresh hrun
    obtain ⟨_, _, hcarried'', _, _, hfollow⟩ := lost_split hideal hfresh hcarried hlost hrun
    have hresult := hcarried''.results p n packet result stored (by simp)
    cases hresult with
    | accepted =>
      have hmem : ∀ e : Label, e ∈ before ++ [e] := by simp
      exact (hfollow _ _ _ _ (List.mem_filterMap.mpr ⟨_, hmem _, rfl⟩)).elim
    | failed =>
      refine .inl ⟨fun e he hopens => ?_, rfl⟩
      have hnone := (hnode p).mpr ⟨e, he, hopens⟩
      rw [hnone] at hheld
      cases hheld
    | broken => exact .inr ⟨(hnode p).mp hheld.symm, rfl⟩
  sealing := by
    rintro before p n level fresh message result after rfl hopened
    obtain ⟨t, b, hcarried', hafter, hnode, _⟩ := lost_split hideal hfresh hcarried hlost hrun
    obtain ⟨t', ⟨hstep, _⟩, _⟩ := Run.cons_iff.mp hafter
    cases hstep with
    | sealing _ hcall =>
      rw [hcarried'.cipher, (hnode p).mpr hopened, outcome_seal_none] at hcall
      exact (Prod.mk.inj hcall).1.symm

/-- The ciphers of a session stay in step until packets are outstanding in both
directions, and never work again afterwards: for every run in which nothing is
refused for its size.

The first part is about runs that have not crossed, the second about the rest of
a run after the step that crossed the directions. -/
theorem in_step_until_crossed (hideal : aead.Ideal)
    (hrun : Run (StepWithin V payload aead key) (start key nonce) tr s) (hfresh : Fresh nonce tr) :
    (NeverCrossed tr → InStep V key tr s) ∧
      ∀ pre e post, tr = pre ++ e :: post → NeverCrossed pre → Crossed (pre ++ [e]) →
        OutOfStep post := by
  refine ⟨inStep_of_neverCrossed hideal hrun, ?_⟩
  rintro pre e post rfl hbefore hcross
  obtain ⟨t, hpre, hrest⟩ := Run.split hrun
  obtain ⟨t', hstep, hpost⟩ := Run.cons_iff.mp hrest
  rw [← List.singleton_append, ← List.append_assoc] at hfresh
  have hfresh' : Fresh nonce (pre ++ [e]) :=
    hfresh.sublist (List.Sublist.cons_cons nonce ((List.sublist_append_left _ _).filterMap _))
  obtain ⟨a, hcarried, hlost⟩ := lost_of_crossing hideal hfresh' hpre hstep hbefore hcross
  exact outOfStep_of_lost hideal hfresh hcarried hlost hpost

/-- Both parties send before they receive. -/
def crossing : List Label :=
  [.act .client (.sealing (some (Reference.nonce 0)) 0 (Reference.nonce 1) [[7]]
      (.ok (Reference.packet 0 1 [7]))),
    .act .server (.sealing (some (Reference.nonce 0)) 0 (Reference.nonce 2) [[8]]
      (.ok (Reference.packet 0 2 [8]))),
    .act .client (.writing 64 (.ok ())),
    .act .server (.fetching 64 (.ok (Reference.packet 0 1 [7]))),
    .act .server (.opening (some (Reference.nonce 2)) (Reference.packet 0 1 [7])
      (.error (.error (.aes .failure))) none),
    .act .server (.writing 64 (.ok ())),
    .act .server (.sealing none 0 (Reference.nonce 3) [[9]] (.error (.error .broken)))]

/-- The packets cross, and the server's cipher is broken by the first of them. -/
theorem in_step_until_crossed_crossing : ∃ s,
    (NeverCrossed crossing → InStep Reference.variableLen Reference.key crossing s) ∧
      ∀ pre e post, crossing = pre ++ e :: post → NeverCrossed pre → Crossed (pre ++ [e]) →
        OutOfStep post :=
  have hrun : Run (StepWithin Reference.variableLen (Encrypt.payload Reference.variableLen)
      Reference.aead Reference.key)
      (start Reference.key (Reference.nonce 0)) crossing _ :=
    .snoc (.snoc (.snoc (.snoc (.snoc (.snoc (.snoc .nil
      ⟨.sealing rfl rfl, fun _ _ => ⟨_, rfl⟩⟩)
      ⟨.sealing rfl rfl, fun _ _ => ⟨_, rfl⟩⟩)
      ⟨.writing rfl rfl, by rintro _ ⟨⟩; decide⟩)
      ⟨.fetching rfl rfl rfl, by rintro _ _ ⟨⟩; decide⟩)
      ⟨.opening rfl rfl, trivial⟩)
      ⟨.writing rfl rfl, by rintro _ ⟨⟩; decide⟩)
      ⟨.sealing rfl rfl, fun _ _ => ⟨_, rfl⟩⟩
  ⟨_, in_step_until_crossed Reference.aead_ideal hrun (show List.Nodup _ by decide)⟩

/-- A party whose first `send` is refused, and the one packet it sends after it. -/
def afterRefusal : List Label :=
  [.act .client (.sealing (some (Reference.nonce 0)) 0 (Reference.nonce 1) [[1, 2, 3, 4, 5]]
      (.ok (Reference.packet 0 1 [1, 2, 3, 4, 5]))),
    .act .client (.writing 32 (.error (.tooLarge 33 32))),
    .act .client (.sealing (some (Reference.nonce 1)) 0 (Reference.nonce 2) [[7]]
      (.ok (Reference.packet 1 2 [7]))),
    .act .client (.writing 32 (.ok ())),
    .act .server (.fetching 32 (.ok (Reference.packet 1 2 [7]))),
    .act .server (.opening (some (Reference.nonce 0)) (Reference.packet 1 2 [7])
      (.error (.error (.aes .failure))) none)]

/-- With refused sends the parties get out of step though the directions never
cross. -/
theorem out_of_step_uncrossed :
    ¬ ∀ (V : VariableLen) (payload : Payload) (aead : Aead) (key : AesKey) (nonce : Nonce)
      (tr : List Label) (s : State), aead.Ideal → Run (Step V payload aead) (start key nonce) tr s →
      Honest tr → Fresh nonce tr → NeverCrossed tr → InStep V key tr s := by
  intro h
  have hrun : Run (Step Reference.variableLen (Encrypt.payload Reference.variableLen)
      Reference.aead)
      (start Reference.key (Reference.nonce 0)) afterRefusal _ :=
    .snoc (.snoc (.snoc (.snoc (.snoc (.snoc .nil (.sealing rfl rfl)) (.writing rfl rfl))
      (.sealing rfl rfl)) (.writing rfl rfl)) (.fetching rfl rfl rfl)) (.opening rfl rfl)
  -- the server encrypts nothing, so nothing of the server is ever outstanding
  have hcross : NeverCrossed afterRefusal := by
    intro pre hpre hcrossed
    have hle : (encryptedBy .server pre).length ≤ (encryptedBy .server afterRefusal).length :=
      (hpre.sublist.filterMap _).length_le
    have hout : takenBy .client pre < (encryptedBy .server pre).length := hcrossed .server
    exact Nat.not_lt_zero _ (Nat.lt_of_lt_of_le hout hle)
  have hstep := h _ _ _ _ _ _ _ Reference.aead_ideal hrun (by simp [Honest, afterRefusal])
    (show List.Nodup _ by decide) hcross
  obtain ⟨_, hok⟩ := hstep.opened .server (some (Reference.nonce 0)) (Reference.packet 1 2 [7])
    (.error (.error (.aes .failure))) none (by simp [afterRefusal])
  cases hok

end TcpHandler.Session.Ciphered
