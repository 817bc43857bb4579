/-
  Session/Nonces.lean --- sessions of the sealed protocols are runs of the ratchet.

  The nonce a cipher holds is the node its party stands on.  `encrypt_in_place`
  uses the node for a link to the drawn nonce; a packet that decrypts was
  encrypted under the node it is opened at, so opening it follows a link.  All
  other moves are invisible.

  The refinement holds for every attacker on the streams.  Three results come down
  from the ratchet: what `recv` returns is a prefix of what the peer encrypted,
  no nonce is used twice exactly when the parties take turns, and in every run at
  most one nonce is used by both.
-/
import TcpHandler.Foundation.Ratchet
import TcpHandler.Protocols.Reference
import TcpHandler.Session.Ciphered

set_option autoImplicit false

namespace TcpHandler.Session.Ciphered

open TcpHandler.Foundation TcpHandler.Protocols
open TcpHandler.Foundation.Ratchet (Act ownedBy followed made)

/-- What a label is for the ratchet. -/
def visible : Label → Option (Act Nonce Bytes)
  | .act p (.sealing (some nonce) _ fresh message (.ok _)) =>
      some (.extend ⟨p, nonce, fresh, some message.flatten⟩)
  | .act p (.sealing (some nonce) _ fresh _ (.error _)) => some (.extend ⟨p, nonce, fresh, none⟩)
  | .act p (.opening (some nonce) _ (.ok message) (some next)) =>
      some (.follow p nonce next message)
  | .act p (.opening (some _) _ _ _) => some (.halt p)
  | .act p (.opening none _ _ _) => some (.drop p)
  | _ => none

theorem filterMap_visible_snoc (tr : List Label) (e : Label) {act : Act Nonce Bytes}
    (h : visible e = some act) :
    (tr ++ [e]).filterMap visible = tr.filterMap visible ++ [act] := by
  simp [h]

/-- A session and the ratchet it refines. -/
structure Refines (key : AesKey) (tr : List Label) (s : State)
    (a : Ratchet.State Nonce Bytes) : Prop where
  cipher : ∀ p, s.cipher p = cipherOf key (a.node p)
  log : a.log = made (tr.filterMap visible)
  received : ∀ p, receivedBy p tr = (followed p (tr.filterMap visible)).filterMap Link.content
  encrypted : ∀ p,
    encryptedBy p tr = (ownedBy p (made (tr.filterMap visible))).filterMap Link.content

variable {V : VariableLen} {payload : Payload} {aead : Aead} {key : AesKey} {nonce : Nonce}
  {tr : List Label} {s s' : State} {a : Ratchet.State Nonce Bytes}

theorem refines_start :
    Refines key [] (start key nonce) (Ratchet.start nonce) where
  cipher _ := rfl
  log := rfl
  received _ := rfl
  encrypted _ := rfl

/-- A step that is invisible to the ratchet. -/
theorem Refines.frame (h : Refines key tr s a) {e : Label} (hvisible : visible e = none)
    (hcipher : ∀ p, s'.cipher p = cipherOf key (a.node p)) (hreceived : ∀ p, receivedBy p [e] = [])
    (hencrypted : ∀ p, encryptedBy p [e] = []) : Refines key (tr ++ [e]) s' a where
  cipher := hcipher
  log := by simp [h.log, hvisible]
  received p := by
    rw [receivedBy_append, hreceived, List.append_nil, h.received]
    simp [hvisible]
  encrypted p := by
    rw [encryptedBy_append, hencrypted, List.append_nil, h.encrypted]
    simp [hvisible]

/-- A step that is visible to the ratchet as `act`. -/
theorem Refines.snoc (h : Refines key tr s a) {e : Label} {act : Act Nonce Bytes}
    {a' : Ratchet.State Nonce Bytes} (hvisible : visible e = some act)
    (hlog : a'.log = a.log ++ made [act])
    (hcipher : ∀ p, s'.cipher p = cipherOf key (a'.node p))
    (hreceived : ∀ p, receivedBy p [e] = (followed p [act]).filterMap Link.content)
    (hencrypted : ∀ p, encryptedBy p [e] = (ownedBy p (made [act])).filterMap Link.content) :
    Refines key (tr ++ [e]) s' a' := by
  have htr := filterMap_visible_snoc tr e hvisible
  refine ⟨hcipher, ?_, fun p => ?_, fun p => ?_⟩
  · rw [htr, Ratchet.made_append, hlog, h.log]
  · rw [htr, receivedBy_append, Ratchet.followed_append, List.filterMap_append, h.received,
      hreceived]
  · rw [htr, encryptedBy_append, Ratchet.made_append, Ratchet.ownedBy_append,
      List.filterMap_append, h.encrypted, hencrypted]

/-- The critical section of `send` makes a link, or finds no nonce. -/
theorem Refines.sealing (h : Refines key tr s a) {p : Party} {level : Level} {fresh : Nonce}
    {message : Buf} {result : Except (Fault PacketError) Bytes} {cipher : Cipher}
    (hcall : (Sealed.sealMessage payload aead level fresh message).outcome (s.cipher p) =
      (result, cipher)) (sending : Party → Option Bytes) :
    Run.Answers Ratchet.Step
      (Refines key (tr ++ [.act p (.sealing (held (s.cipher p)) level fresh message result)])
        { s with cipher := Function.update s.cipher p cipher, sending := sending })
      a (visible (.act p (.sealing (held (s.cipher p)) level fresh message result))) := by
  rw [h.cipher p] at hcall ⊢
  rw [held_cipherOf]
  cases hnode : a.node p with
  | none =>
    rw [hnode, outcome_seal_none] at hcall
    obtain ⟨rfl, rfl⟩ := Prod.mk.inj hcall
    exact h.frame rfl (update_cipherOf_none h.cipher hnode) (fun _ => rfl) (fun _ => rfl)
  | some nonce =>
    rw [hnode, outcome_seal_some] at hcall
    split at hcall
    all_goals
      obtain ⟨rfl, rfl⟩ := Prod.mk.inj hcall
      refine ⟨_, .extend hnode, h.snoc rfl rfl (update_cipherOf h.cipher p _) (fun _ => rfl)
        fun q => ?_⟩
      by_cases hq : p = q <;> simp [encryptedBy, ownedBy, made, Act.link, hq]

/-- The critical section of `recv` follows a link, or leaves the cipher empty. -/
theorem Refines.opening (h : Refines key tr s a) {p : Party} {packet : Bytes}
    {result : Except (Fault PacketError) Bytes} {cipher : Cipher}
    (hcall : (Sealed.openPacket payload aead packet).outcome (s.cipher p) = (result, cipher))
    (hgenuine : Genuine payload aead key tr
      (.act p (.opening (held (s.cipher p)) packet result (held cipher))))
    (opening : Party → Option Bytes) :
    Run.Answers Ratchet.Step
      (Refines key (tr ++ [.act p (.opening (held (s.cipher p)) packet result (held cipher))])
        { s with cipher := Function.update s.cipher p cipher, opening := opening })
      a (visible (.act p (.opening (held (s.cipher p)) packet result (held cipher)))) := by
  rw [h.cipher p, held_cipherOf] at hgenuine ⊢
  rw [h.cipher p] at hcall
  cases hnode : a.node p with
  | none =>
    rw [hnode, outcome_open_none] at hcall
    obtain ⟨rfl, rfl⟩ := Prod.mk.inj hcall
    exact ⟨a, .drop hnode, h.snoc rfl (List.append_nil _).symm (update_cipherOf_none h.cipher hnode)
      (fun _ => rfl) (fun _ => rfl)⟩
  | some nonce =>
    rw [hnode] at hcall hgenuine
    rw [outcome_open_some] at hcall
    split at hcall
    · obtain ⟨rfl, rfl⟩ := Prod.mk.inj hcall
      exact ⟨_, .halt, h.snoc rfl (List.append_nil _).symm (update_cipherOf h.cipher p none)
        (fun _ => rfl) (fun _ => rfl)⟩
    · rename_i plain hdecrypt
      split at hcall
      · obtain ⟨rfl, rfl⟩ := Prod.mk.inj hcall
        exact ⟨_, .halt, h.snoc rfl (List.append_nil _).symm (update_cipherOf h.cipher p none)
          (fun _ => rfl) (fun _ => rfl)⟩
      · rename_i next message hparse
        obtain ⟨rfl, rfl⟩ := Prod.mk.inj hcall
        -- the packet was encrypted under this nonce: its link is in the log
        obtain ⟨q, level, fresh, buf, hmem, rfl⟩ := hgenuine _ _ _ _ _ _ rfl hdecrypt
        rw [payload.parse_compose] at hparse
        obtain ⟨rfl, rfl⟩ := Prod.mk.inj (Except.ok.inj hparse)
        have hlink : (⟨q, nonce, fresh, some buf.flatten⟩ : Link Nonce Bytes) ∈ a.log := by
          rw [h.log]
          refine List.mem_filterMap.mpr ⟨_, List.mem_filterMap.mpr ⟨_, hmem, rfl⟩, rfl⟩
        refine ⟨_, .follow hnode hlink, h.snoc rfl (List.append_nil _).symm
          (update_cipherOf h.cipher p _) (fun q' => ?_) (fun _ => rfl)⟩
        by_cases hq : p = q' <;> simp [receivedBy, followed, Act.followedBy, hq]

/-- Every step of a session is a step of the ratchet or invisible to it. -/
theorem Refines.step (h : Refines key tr s a) {e : Label} (hstep : Step V payload aead s e s')
    (hgenuine : Genuine payload aead key tr e) :
    Run.Answers Ratchet.Step (Refines key (tr ++ [e]) s') a (visible e) := by
  cases hstep with
  | sealing _ hcall => exact h.sealing hcall _
  | opening _ hcall => exact h.opening hcall hgenuine _
  | writing _ _ => exact h.frame rfl h.cipher (fun _ => rfl) (fun _ => rfl)
  | fetching _ _ _ => exact h.frame rfl h.cipher (fun _ => rfl) (fun _ => rfl)
  | tamper => exact h.frame rfl h.cipher (fun _ => rfl) (fun _ => rfl)
  | writeLost _ => exact h.frame rfl h.cipher (fun _ => rfl) (fun _ => rfl)
  | readLost _ => exact h.frame rfl h.cipher (fun _ => rfl) (fun _ => rfl)

/-- Every session without forgeries refines a run of the ratchet. -/
theorem refines (hrun : Run (Step V payload aead) (start key nonce) tr s)
    (hunforged : Unforged payload aead key tr) :
    ∃ a, Run Ratchet.Step (Ratchet.start nonce) (tr.filterMap visible) a ∧ Refines key tr s a :=
  Run.simulation (fun hgenuine h hstep => h.step hstep hgenuine) hrun hunforged refines_start

/-! ## Nonces of a run -/

/-- The link in a label, if it is a call of `encrypt_in_place`. -/
theorem visible_link (e : Label) :
    ((visible e).bind Act.link).map Link.src =
      (match e with
        | .act _ (.sealing held _ _ _ _) => held
        | _ => none) := by
  rcases e with ⟨p, ⟨_ | n, _, _, _, _ | _⟩ | _ | _ | ⟨_ | n, _, _ | _, _ | _⟩⟩ | _ | _ | _ <;> rfl

/-- The link in a label, if it is a call of `encrypt_in_place` by `p`. -/
theorem visible_link_owner (p : Party) (e : Label) :
    (((visible e).bind Act.link).filter (·.owner = p)).map Link.src = useOf p e := by
  rcases e with ⟨q, ⟨_ | n, _, _, _, _ | _⟩ | _ | _ | ⟨_ | n, _, _ | _, _ | _⟩⟩ | _ | _ | _
  case act.sealing.none.error | act.sealing.none.ok => simp [visible, useOf]
  case act.sealing.some.error | act.sealing.some.ok =>
    by_cases hq : q = p <;> simp [visible, useOf, Act.link, hq]
  all_goals rfl

/-- The nodes the ratchet uses are the nonces `encrypt_in_place` was called
with. -/
theorem used_eq (tr : List Label) : used tr = (made (tr.filterMap visible)).map Link.src := by
  rw [made, List.filterMap_filterMap, List.map_filterMap, used]
  apply List.filterMap_congr
  intro e _
  exact (visible_link e).symm

theorem usedBy_eq (p : Party) (tr : List Label) :
    usedBy p tr = (ownedBy p (made (tr.filterMap visible))).map Link.src := by
  rw [made, ownedBy, List.filterMap_filterMap, List.filter_filterMap, List.map_filterMap, usedBy]
  apply List.filterMap_congr
  intro e _
  exact (visible_link_owner p e).symm

/-- The new nodes of the ratchet are nonces that were drawn. -/
theorem dst_sublist_drawn (tr : List Label) :
    ((made (tr.filterMap visible)).map Link.dst).Sublist (drawn tr) := by
  induction tr with
  | nil => exact List.Sublist.refl _
  | cons e rest ih =>
    rw [made, drawn] at ih ⊢
    rcases e with ⟨q, ⟨_ | n, _, fresh, _, _ | _⟩ | _ | _ | ⟨_ | n, _, _ | _, _ | _⟩⟩ | _ | _ | _
    all_goals
      simp only [visible, Act.link, List.filterMap_cons, List.map_cons]
      first
        | exact ih
        | exact ih.cons _
        | exact ih.cons_cons _

theorem fresh_made (hfresh : Fresh nonce tr) :
    (nonce :: (made (tr.filterMap visible)).map Link.dst).Nodup :=
  hfresh.sublist ((dst_sublist_drawn tr).cons_cons nonce)

/-! ## What an attacker cannot do -/

/-- What `recv` has returned to a party is at every moment a prefix of what its
peer has encrypted, whatever the attacker does with the streams. -/
theorem received_prefix (hrun : Run (Step V payload aead) (start key nonce) tr s)
    (hfresh : Fresh nonce tr) (hunforged : Unforged payload aead key tr) (p : Party) :
    receivedBy p tr <+: encryptedBy p.peer tr := by
  obtain ⟨a, hratchet, href⟩ := refines hrun hunforged
  have hprefix := Ratchet.followed_prefix hratchet (by rw [href.log]; exact fresh_made hfresh) p
  rw [href.received, href.encrypted, ← href.log]
  exact hprefix.filterMap _

/-- The attacker puts the first packet of the client on the wire once more. -/
def replayed : List Label :=
  [.act .client (.sealing (some (Reference.nonce 0)) 0 (Reference.nonce 1) [[7]]
      (.ok (Reference.packet 0 1 [7]))),
    .act .client (.writing 64 (.ok ())),
    .act .server (.fetching 64 (.ok (Reference.packet 0 1 [7]))),
    .act .server (.opening (some (Reference.nonce 0)) (Reference.packet 0 1 [7]) (.ok [7])
      (some (Reference.nonce 1))),
    .tamper .client (29 :: Reference.packet 0 1 [7]),
    .act .server (.fetching 64 (.ok (Reference.packet 0 1 [7]))),
    .act .server (.opening (some (Reference.nonce 1)) (Reference.packet 0 1 [7])
      (.error (.error (.aes .failure))) none)]

theorem replayed_unforged : Unforged (Encrypt.payload Reference.variableLen) Reference.aead
    Reference.key replayed := by
  simp only [Unforged, replayed, throughout_cons]
  refine ⟨?_, ?_, ?_, ?_, ?_, ?_, ?_, throughout_nil⟩
  all_goals
    intro p nonce packet result stored plain heq hdecrypt
    cases heq
  · exact ⟨.client, 0, Reference.nonce 1, [[7]], List.mem_cons_self, Except.ok.inj hdecrypt⟩
  · cases hdecrypt

/-- The replayed packet is not received again. -/
theorem received_prefix_replayed : receivedBy .server replayed <+: encryptedBy .client replayed :=
  have hrun : Run (Step Reference.variableLen (Encrypt.payload Reference.variableLen)
      Reference.aead)
      (start Reference.key (Reference.nonce 0)) replayed _ :=
    .snoc (.snoc (.snoc (.snoc (.snoc (.snoc (.snoc .nil (.sealing rfl rfl)) (.writing rfl rfl))
      (.fetching rfl rfl rfl)) (.opening rfl rfl)) .tamper) (.fetching rfl rfl rfl))
      (.opening rfl rfl)
  received_prefix hrun (show List.Nodup _ by decide) replayed_unforged .server

/-! ## When a nonce is used twice -/

/-- A party that calls `encrypt_in_place` has received every packet its peer has
encrypted before. -/
def InTurn (tr : List Label) : Prop :=
  Throughout (fun pre e => ∀ p n, useOf p e = some n →
    (receivedBy p pre).length = (usedBy p.peer pre).length) tr

/-- Taking turns is taking turns on the ratchet. -/
theorem inTurn_iff (hrun : Run (Step V payload aead) (start key nonce) tr s)
    (hunforged : Unforged payload aead key tr) :
    InTurn tr ↔ Ratchet.InTurn (tr.filterMap visible) := by
  rw [Ratchet.InTurn, throughout_filterMap]
  apply Throughout.congr
  rintro pre e post rfl
  obtain ⟨t, hpre, _⟩ := Run.split hrun
  obtain ⟨a, _, href⟩ := refines hpre fun pre' e' post' heq =>
    hunforged pre' e' (post' ++ e :: post) (by rw [heq]; simp)
  have hreceived : ∀ p, (receivedBy p pre).length =
      (followed p (pre.filterMap visible)).length := by
    intro p
    have hlen := congrArg List.length (Ratchet.map_content_followed p (pre.filterMap visible))
    rw [List.length_map, List.length_map] at hlen
    rw [href.received, hlen]
  have hused : ∀ p, (usedBy p pre).length = (ownedBy p (made (pre.filterMap visible))).length := by
    intro p
    rw [usedBy_eq, List.length_map]
  simp only [hreceived, hused]
  rcases e with ⟨q, ⟨_ | n, _, _, _, _ | _⟩ | _ | _ | ⟨_ | n, _, _ | _, _ | _⟩⟩ | _ | _ | _ <;>
    simp [useOf, visible, Act.link]

/-- No nonce is used twice exactly when the parties take turns. -/
theorem used_nodup_iff (hrun : Run (Step V payload aead) (start key nonce) tr s)
    (hfresh : Fresh nonce tr) (hunforged : Unforged payload aead key tr) :
    (used tr).Nodup ↔ InTurn tr := by
  obtain ⟨a, hratchet, href⟩ := refines hrun hunforged
  have hiff := Ratchet.srcs_nodup_iff hratchet (by rw [href.log]; exact fresh_made hfresh)
  rw [used_eq, ← href.log, hiff, inTurn_iff hrun hunforged]

/-- The client sends, the server receives and answers. -/
def answered : List Label :=
  [.act .client (.sealing (some (Reference.nonce 0)) 0 (Reference.nonce 1) [[7]]
      (.ok (Reference.packet 0 1 [7]))),
    .act .client (.writing 64 (.ok ())),
    .act .server (.fetching 64 (.ok (Reference.packet 0 1 [7]))),
    .act .server (.opening (some (Reference.nonce 0)) (Reference.packet 0 1 [7]) (.ok [7])
      (some (Reference.nonce 1))),
    .act .server (.sealing (some (Reference.nonce 1)) 0 (Reference.nonce 2) [[8]]
      (.ok (Reference.packet 1 2 [8])))]

theorem answered_unforged : Unforged (Encrypt.payload Reference.variableLen) Reference.aead
    Reference.key answered := by
  simp only [Unforged, answered, throughout_cons]
  refine ⟨?_, ?_, ?_, ?_, ?_, throughout_nil⟩
  all_goals
    intro p nonce packet result stored plain heq hdecrypt
    cases heq
  exact ⟨.client, 0, Reference.nonce 1, [[7]], List.mem_cons_self, Except.ok.inj hdecrypt⟩

/-- An answer is encrypted under another nonce. -/
theorem used_nodup_iff_answered : (used answered).Nodup ↔ InTurn answered :=
  have hrun : Run (Step Reference.variableLen (Encrypt.payload Reference.variableLen)
      Reference.aead)
      (start Reference.key (Reference.nonce 0)) answered _ :=
    .snoc (.snoc (.snoc (.snoc (.snoc .nil (.sealing rfl rfl)) (.writing rfl rfl))
      (.fetching rfl rfl rfl)) (.opening rfl rfl)) (.sealing rfl rfl)
  used_nodup_iff hrun (show List.Nodup _ by decide) answered_unforged

/-- Both parties send before they receive: both encrypt under the first nonce. -/
theorem first_nonce_reused :
    ¬ ∀ (V : VariableLen) (payload : Payload) (aead : Aead) (key : AesKey) (nonce : Nonce)
      (tr : List Label) (s : State), aead.Ideal → Run (Step V payload aead) (start key nonce) tr s →
      Honest tr → Fresh nonce tr → (used tr).Nodup := by
  intro h
  have hrun : Run (Step Reference.variableLen (Encrypt.payload Reference.variableLen)
      Reference.aead)
      (start Reference.key (Reference.nonce 0))
      [.act .client (.sealing (some (Reference.nonce 0)) 0 (Reference.nonce 1) [[7]]
          (.ok (Reference.packet 0 1 [7]))),
        .act .server (.sealing (some (Reference.nonce 0)) 0 (Reference.nonce 2) [[8]]
          (.ok (Reference.packet 0 2 [8])))] _ :=
    .snoc (.snoc .nil (.sealing rfl rfl)) (.sealing rfl rfl)
  have hnodup := h _ _ _ _ _ _ _ Reference.aead_ideal hrun (by simp [Honest])
    (show List.Nodup _ by decide)
  revert hnodup
  decide

/-! ## How much is lost when they do not -/

/-- A party encrypts under the nodes its ratchet uses. -/
theorem Refines.usedBy_eq (href : Refines key tr s a) (p : Party) :
    usedBy p tr = (ownedBy p a.log).map Link.src := by
  rw [Ciphered.usedBy_eq, href.log]

/-- No party encrypts twice under one nonce. -/
theorem usedBy_nodup (hrun : Run (Step V payload aead) (start key nonce) tr s)
    (hfresh : Fresh nonce tr) (hunforged : Unforged payload aead key tr) (p : Party) :
    (usedBy p tr).Nodup := by
  obtain ⟨a, hratchet, href⟩ := refines hrun hunforged
  rw [href.usedBy_eq]
  apply Ratchet.srcs_ownedBy_nodup hratchet
  rw [href.log]
  exact fresh_made hfresh

/-- Both parties encrypt under at most one nonce. -/
theorem usedBy_both_unique (hrun : Run (Step V payload aead) (start key nonce) tr s)
    (hfresh : Fresh nonce tr) (hunforged : Unforged payload aead key tr) {n m : Nonce}
    (hn : ∀ p, n ∈ usedBy p tr) (hm : ∀ p, m ∈ usedBy p tr) : n = m := by
  obtain ⟨a, hratchet, href⟩ := refines hrun hunforged
  have hboth : ∀ n, (∀ p, n ∈ usedBy p tr) → ∀ p, ∃ l ∈ ownedBy p a.log, l.src = n := by
    intro n hn p
    have hp := hn p
    rw [href.usedBy_eq] at hp
    exact List.mem_map.mp hp
  have hnodes : (nonce :: a.log.map Link.dst).Nodup := by
    rw [href.log]
    exact fresh_made hfresh
  exact Ratchet.shared_unique hratchet hnodes (hboth n hn) (hboth m hm)

/-- Whatever the parties and the attacker do, no party encrypts twice under one
nonce, and under at most one nonce both encrypt. -/
theorem shared_nonce_unique (hrun : Run (Step V payload aead) (start key nonce) tr s)
    (hfresh : Fresh nonce tr) (hunforged : Unforged payload aead key tr) :
    (∀ p, (usedBy p tr).Nodup) ∧
      ∀ n m, (∀ p, n ∈ usedBy p tr) → (∀ p, m ∈ usedBy p tr) → n = m :=
  ⟨usedBy_nodup hrun hfresh hunforged,
    fun _ _ hn hm => usedBy_both_unique hrun hfresh hunforged hn hm⟩

/-- Both parties send twice before they receive anything. -/
def parted : List Label :=
  [.act .client (.sealing (some (Reference.nonce 0)) 0 (Reference.nonce 1) [[7]]
      (.ok (Reference.packet 0 1 [7]))),
    .act .server (.sealing (some (Reference.nonce 0)) 0 (Reference.nonce 2) [[8]]
      (.ok (Reference.packet 0 2 [8]))),
    .act .client (.writing 64 (.ok ())),
    .act .server (.writing 64 (.ok ())),
    .act .client (.sealing (some (Reference.nonce 1)) 0 (Reference.nonce 3) [[7]]
      (.ok (Reference.packet 1 3 [7]))),
    .act .server (.sealing (some (Reference.nonce 2)) 0 (Reference.nonce 4) [[8]]
      (.ok (Reference.packet 2 4 [8])))]

theorem shared_nonce_unique_parted : (∀ p, (usedBy p parted).Nodup) ∧
    ∀ n m, (∀ p, n ∈ usedBy p parted) → (∀ p, m ∈ usedBy p parted) → n = m :=
  have hrun : Run (Step Reference.variableLen (Encrypt.payload Reference.variableLen)
      Reference.aead)
      (start Reference.key (Reference.nonce 0)) parted _ :=
    .snoc (.snoc (.snoc (.snoc (.snoc (.snoc .nil (.sealing rfl rfl)) (.sealing rfl rfl))
      (.writing rfl rfl)) (.writing rfl rfl)) (.sealing rfl rfl)) (.sealing rfl rfl)
  have hunforged : Unforged (Encrypt.payload Reference.variableLen) Reference.aead Reference.key
      parted := by
    rintro pre e post heq p n packet result stored plain rfl _
    have hmem : .act p (.opening (some n) packet result stored) ∈ parted := by simp [heq]
    simp [parted] at hmem
  shared_nonce_unique hrun (show List.Nodup _ by decide) hunforged

end TcpHandler.Session.Ciphered
