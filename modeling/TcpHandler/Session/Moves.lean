/-
  Session/Moves.lean --- whole calls are moves of a session.

  A call of `Session/Whole.lean` is one move of `Session/Ciphered.lean`, or two of
  them one right after the other, so handlers are parties of the ratchet, whatever
  they do (`Played.step`).

  Over reliable streams and with limits that agree, `recv` finds the packets that
  `send` wrote, one after the other.  So nothing is forged, and a packet that was
  sealed and then refused is missing to the receiver: it stands in front of it for
  ever.  What was received is a prefix of what `send` returned `Ok` for
  (`Played.received_sent`).
-/
import TcpHandler.Session.Lockstep
import TcpHandler.Session.Scripted

set_option autoImplicit false

namespace TcpHandler.Session.Whole

open TcpHandler.Foundation TcpHandler.Protocols
open TcpHandler.Foundation.Ratchet (ownedBy followed made)
open TcpHandler.Session.Ciphered (cipherOf held visible SealedFor Unforged Genuine Fresh usedBy)

/-! ## Moves -/

/-- The session between two calls. -/
def State.session (s : State) : Ciphered.State := ⟨s.cipher, s.wire, fun _ => none, fun _ => none⟩

/-- The session in the middle of a `send`. -/
def State.midway (s : State) (p : Party) (cipher : Cipher) (packet : Bytes) : Ciphered.State :=
  { s.session with
    cipher := Function.update s.cipher p cipher
    sending := Function.update (fun _ => none) p (some packet) }

/-- The session in the middle of a `recv`. -/
def State.fetched (s : State) (p : Party) (packet rest : Bytes) : Ciphered.State :=
  { s.session with
    wire := Function.update s.wire p.peer rest
    opening := Function.update (fun _ => none) p (some packet) }

theorem State.midway_sending (s : State) (p : Party) (cipher : Cipher) (packet : Bytes) :
    (s.midway p cipher packet).sending p = some packet := by
  simp [State.midway]

theorem State.fetched_opening (s : State) (p : Party) (packet rest : Bytes) :
    (s.fetched p packet rest).opening p = some packet := by
  simp [State.fetched]

/-- The moves of a call that finds what it looks for: `recv` a packet. -/
inductive Moves (p : Party) : Call → List Ciphered.Label → Prop
  | unsealed {held : Option Nonce} {level : Level} {limit : Usize} {fresh : Nonce} {message : Buf}
      {error : Fault PacketError} :
      Moves p (.send level limit fresh message (.error error))
        [.act p (.sealing held level fresh message (.error error))]
  | written {held : Option Nonce} {level : Level} {limit : Usize} {fresh : Nonce} {message : Buf}
      {packet : Bytes} :
      Moves p (.send level limit fresh message (.ok ()))
        [.act p (.sealing held level fresh message (.ok packet)), .act p (.writing limit (.ok ()))]
  | refused {held : Option Nonce} {level : Level} {limit : Usize} {fresh : Nonce} {message : Buf}
      {packet : Bytes} :
      Moves p (.send level limit fresh message
          (.error (.error (.tooLarge packet.length limit.toNat))))
        [.act p (.sealing held level fresh message (.ok packet)),
          .act p (.writing limit (.error (.tooLarge packet.length limit.toNat)))]
  | lost {held : Option Nonce} {level : Level} {limit : Usize} {fresh : Nonce} {message : Buf}
      {packet : Bytes} {error : IoError} :
      Moves p (.send level limit fresh message (.error (.error (.io error))))
        [.act p (.sealing held level fresh message (.ok packet)), .writeLost p error]
  | opened {held stored : Option Nonce} {limit : Usize} {packet : Bytes}
      {result : Except (Fault PacketError) Bytes} :
      Moves p (.recv limit result)
        [.act p (.fetching limit (.ok packet)), .act p (.opening held packet result stored)]

/-- The moves of the calls of a run. -/
inductive Plays : List (Party × Call) → List Ciphered.Label → Prop
  | nil : Plays [] []
  | cons {p : Party} {call : Call} {rest : List (Party × Call)} {more after : List Ciphered.Label}
      (hmoves : Moves p call more) (hplays : Plays rest after) :
      Plays ((p, call) :: rest) (more ++ after)

/-- The nonces drawn by the calls of `send`. -/
def drawn (calls : List (Party × Call)) : List Nonce :=
  calls.filterMap fun
    | (_, .send _ _ fresh _ _) => some fresh
    | _ => none

theorem drawn_append (calls post : List (Party × Call)) :
    drawn (calls ++ post) = drawn calls ++ drawn post :=
  List.filterMap_append

/-- No `send` fails, unless its cipher is broken. -/
def Unrefused (calls : List (Party × Call)) : Prop :=
  ∀ p level limit fresh message result, (p, .send level limit fresh message result) ∈ calls →
    result = .ok () ∨ result = .error (.error .broken)

theorem Unrefused.of_append {calls post : List (Party × Call)} (h : Unrefused (calls ++ post)) :
    Unrefused calls :=
  fun p level limit fresh message result hmem =>
    h p level limit fresh message result (List.mem_append_left _ hmem)

theorem Plays.append {calls post : List (Party × Call)} {moves more : List Ciphered.Label}
    (h : Plays calls moves) (hpost : Plays post more) : Plays (calls ++ post) (moves ++ more) := by
  induction h with
  | nil => exact hpost
  | cons hmoves _ ih =>
    rw [List.cons_append, List.append_assoc]
    exact .cons hmoves ih

theorem Plays.snoc {calls : List (Party × Call)} {moves more : List Ciphered.Label} {p : Party}
    {call : Call} (h : Plays calls moves) (hmoves : Moves p call more) :
    Plays (calls ++ [(p, call)]) (moves ++ more) := by
  have hone := Plays.cons hmoves .nil
  rw [List.append_nil] at hone
  exact h.append hone

/-- The calls of a run, one part after the other. -/
theorem Plays.split {pre post : List (Party × Call)} {moves : List Ciphered.Label}
    (h : Plays (pre ++ post) moves) :
    ∃ before after, moves = before ++ after ∧ Plays pre before ∧ Plays post after := by
  induction pre generalizing moves with
  | nil => exact ⟨[], moves, rfl, .nil, h⟩
  | cons call pre ih =>
    cases h with
    | cons hmoves hrest =>
      obtain ⟨before, after, rfl, hpre, hpost⟩ := ih hrest
      exact ⟨_, after, (List.append_assoc ..).symm, .cons hmoves hpre, hpost⟩

theorem Unrefused.of_append_right {calls post : List (Party × Call)}
    (h : Unrefused (calls ++ post)) : Unrefused post :=
  fun p level limit fresh message result hmem =>
    h p level limit fresh message result (List.mem_append_right _ hmem)

/-- The moves draw the nonces that the calls draw. -/
theorem Plays.drawn {calls : List (Party × Call)} {moves : List Ciphered.Label}
    (h : Plays calls moves) : Ciphered.drawn moves = drawn calls := by
  induction h with
  | nil => rfl
  | cons hmoves _ ih =>
    unfold Ciphered.drawn Whole.drawn at ih ⊢
    rw [List.filterMap_append, ih]
    cases hmoves <;> rfl

/-- The moves receive what the calls receive. -/
theorem Plays.received {calls : List (Party × Call)} {moves : List Ciphered.Label}
    (h : Plays calls moves) (p : Party) : Ciphered.receivedBy p moves = receivedBy p calls := by
  induction h with
  | nil => rfl
  | @cons q call rest _ _ hmoves _ ih =>
    rw [Ciphered.receivedBy_append, ih, ← List.singleton_append, receivedBy_append]
    cases hmoves with
    | @opened _ _ _ _ result => cases result <;> rfl
    | _ => rfl

/-! ## What is under way -/

section Flight

variable (V : VariableLen) (payload : Payload) (aead : Aead) (key : AesKey) (nonce : Nonce)

/-- A packet that was written by `p` and the link it is for. -/
def InFlight (p : Party) (calls : List (Party × Call)) (moves : List Ciphered.Label)
    (link : Link Nonce Bytes) (packet : Bytes) : Prop :=
  SealedFor payload aead key p moves link packet ∧
    ∃ limit ∈ sendLimits p calls, packet.length ≤ limit.toNat

/-- The links whose packets `p` writes, call by call. -/
inductive Writes (p : Party) :
    List (Party × Call) → List Ciphered.Label → List (Link Nonce Bytes) → Prop
  | nil : Writes p [] [] []
  | quiet {calls : List (Party × Call)} {moves more : List Ciphered.Label}
      {links : List (Link Nonce Bytes)} {q : Party} {call : Call} (h : Writes p calls moves links)
      (hmoves : Moves q call more) (hsent : sentBy p [(q, call)] = []) :
      Writes p (calls ++ [(q, call)]) (moves ++ more) links
  | write {calls : List (Party × Call)} {moves : List Ciphered.Label}
      {links : List (Link Nonce Bytes)} {level : Level} {limit : Usize} {n fresh : Nonce}
      {message : Buf} {packet : Bytes} (h : Writes p calls moves links) :
      Writes p (calls ++ [(p, .send level limit fresh message (.ok ()))])
        (moves ++ [.act p (.sealing (some n) level fresh message (.ok packet)),
          .act p (.writing limit (.ok ()))])
        (links ++ [⟨p, n, fresh, some message.flatten⟩])

/-- The links whose packets `p` has written: those that its peer has read, and those
under way. -/
structure Flight (p : Party) (calls : List (Party × Call)) (moves : List Ciphered.Label)
    (wire : Bytes) (read : List (Link Nonce Bytes)) (flying : List (Link Nonce Bytes × Bytes)) :
    Prop where
  wire_eq : wire = (flying.map fun entry => frame V entry.2).flatten
  in_flight : ∀ entry ∈ flying, InFlight payload aead key p calls moves entry.1 entry.2
  writes : Writes p calls moves (read ++ flying.map Prod.fst)
  followed : (followed p.peer (moves.filterMap visible)).Sublist read

/-- The calls so far, played as moves.  As long as no `send` was refused, nothing was. -/
structure Played (calls : List (Party × Call)) (moves : List Ciphered.Label) (s : State) :
    Prop where
  run : Run (Ciphered.Step V payload aead) (Ciphered.start key nonce) moves s.session
  within : Unrefused calls →
    Run (Ciphered.StepWithin V payload aead key) (Ciphered.start key nonce) moves s.session
  plays : Plays calls moves
  unforged : Unforged payload aead key moves
  flight : ∀ p, ∃ read flying, Flight V payload aead key p calls moves (s.wire p) read flying

end Flight

variable {V : VariableLen} {payload : Payload} {aead : Aead} {key : AesKey} {nonce : Nonce}
  {calls : List (Party × Call)} {moves : List Ciphered.Label} {s s' : State} {p : Party}

theorem played_start : Played V payload aead key nonce [] [] (start key nonce) where
  run := .nil
  within _ := .nil
  plays := .nil
  unforged := throughout_nil
  flight _ := ⟨[], [], rfl, by simp, .nil, .slnil⟩

section Writes

variable {links : List (Link Nonce Bytes)}

/-- Every packet that is written carries a message that was sent. -/
theorem Writes.sent (h : Writes p calls moves links) :
    sentBy p calls = links.filterMap Link.content := by
  induction h with
  | nil => rfl
  | quiet _ _ hsent ih => rw [sentBy_append, hsent, List.append_nil, ih]
  | write _ ih =>
    rw [sentBy_append, List.filterMap_append, ih]
    simp [sentBy]

/-- Every packet that is written has a link. -/
theorem Writes.made (h : Writes p calls moves links) :
    links.Sublist (ownedBy p (Ratchet.made (moves.filterMap visible))) := by
  induction h with
  | nil => exact .slnil
  | quiet _ _ _ ih =>
    rw [List.filterMap_append, Ratchet.made_append, Ratchet.ownedBy_append]
    exact ih.trans (List.sublist_append_left _ _)
  | write _ ih =>
    rw [List.filterMap_append, Ratchet.made_append, Ratchet.ownedBy_append]
    refine ih.append ?_
    simp [visible, Ratchet.made, Ratchet.Act.link, ownedBy]

theorem Writes.plays (h : Writes p calls moves links) : Plays calls moves := by
  induction h with
  | nil => exact .nil
  | quiet _ hmoves _ ih => exact ih.snoc hmoves
  | write _ ih => exact ih.snoc .written

/-- What is written by some calls, and then by those behind them. -/
theorem Writes.split {pre post : List (Party × Call)} (h : Writes p (pre ++ post) moves links) :
    ∃ before after front back, moves = before ++ after ∧ links = front ++ back ∧
      Writes p pre before front ∧
      back.Sublist (ownedBy p (Ratchet.made (after.filterMap visible))) := by
  generalize hcalls : pre ++ post = calls at h
  induction h generalizing post with
  | nil =>
    obtain ⟨rfl, rfl⟩ := List.append_eq_nil_iff.mp hcalls
    exact ⟨[], [], [], [], rfl, rfl, .nil, .slnil⟩
  | @quiet calls moves more links q call h hmoves hsent ih =>
    cases List.eq_nil_or_concat post with
    | inl hnil =>
      subst hnil
      rw [List.append_nil] at hcalls
      subst hcalls
      exact ⟨_, [], _, [], (List.append_nil _).symm, (List.append_nil _).symm,
        .quiet h hmoves hsent, .slnil⟩
    | inr hlast =>
      obtain ⟨rest, last, rfl⟩ := hlast
      rw [List.concat_eq_append, ← List.append_assoc] at hcalls
      obtain ⟨rfl, -⟩ := List.append_inj' hcalls rfl
      obtain ⟨before, after, front, back, rfl, rfl, hpre, hback⟩ := ih rfl
      refine ⟨before, after ++ more, front, back, List.append_assoc .., rfl, hpre, ?_⟩
      rw [List.filterMap_append, Ratchet.made_append, Ratchet.ownedBy_append]
      exact hback.trans (List.sublist_append_left _ _)
  | @write calls moves links level limit n fresh message packet h ih =>
    cases List.eq_nil_or_concat post with
    | inl hnil =>
      subst hnil
      rw [List.append_nil] at hcalls
      subst hcalls
      exact ⟨_, [], _, [], (List.append_nil _).symm, (List.append_nil _).symm, .write h, .slnil⟩
    | inr hlast =>
      obtain ⟨rest, last, rfl⟩ := hlast
      rw [List.concat_eq_append, ← List.append_assoc] at hcalls
      obtain ⟨rfl, -⟩ := List.append_inj' hcalls rfl
      obtain ⟨before, after, front, back, rfl, rfl, hpre, hback⟩ := ih rfl
      refine ⟨before, _, front, _, List.append_assoc .., List.append_assoc .., hpre, ?_⟩
      rw [List.filterMap_append, Ratchet.made_append, Ratchet.ownedBy_append]
      refine hback.append ?_
      simp [visible, Ratchet.made, Ratchet.Act.link, ownedBy]

end Writes

theorem InFlight.mono {link : Link Nonce Bytes} {packet : Bytes}
    (h : InFlight payload aead key p calls moves link packet) (post : List (Party × Call))
    (more : List Ciphered.Label) :
    InFlight payload aead key p (calls ++ post) (moves ++ more) link packet := by
  obtain ⟨⟨level, message, hmem, hlink, hencrypt⟩, limit, hlimit, hle⟩ := h
  refine ⟨⟨level, message, List.mem_append_left _ hmem, hlink, hencrypt⟩, limit, ?_, hle⟩
  rw [sendLimits_append]
  exact List.mem_append_left _ hlimit

/-- A call that neither writes to the stream of `p` nor reads from it. -/
theorem Flight.grow {wire : Bytes} {read : List (Link Nonce Bytes)}
    {flying : List (Link Nonce Bytes × Bytes)}
    (h : Flight V payload aead key p calls moves wire read flying) {q : Party} {call : Call}
    {more : List Ciphered.Label} (hmoves : Moves q call more) (hsent : sentBy p [(q, call)] = [])
    (hfollowed : Ratchet.followed p.peer (more.filterMap visible) = []) :
    Flight V payload aead key p (calls ++ [(q, call)]) (moves ++ more) wire read flying where
  wire_eq := h.wire_eq
  in_flight entry hentry := (h.in_flight entry hentry).mono _ more
  writes := h.writes.quiet hmoves hsent
  followed := by
    rw [List.filterMap_append, Ratchet.followed_append, hfollowed, List.append_nil]
    exact h.followed

/-- A packet that is written is the last one under way. -/
theorem Flight.write {wire : Bytes} {read : List (Link Nonce Bytes)}
    {flying : List (Link Nonce Bytes × Bytes)}
    (h : Flight V payload aead key p calls moves wire read flying) {level : Level} {limit : Usize}
    {n fresh : Nonce} {message : Buf} {packet : Bytes} (hle : packet.length ≤ limit.toNat)
    (hencrypt : aead.encryptInPlace key n (payload.compose level fresh message) = .ok packet) :
    Flight V payload aead key p (calls ++ [(p, .send level limit fresh message (.ok ()))])
      (moves ++ [.act p (.sealing (some n) level fresh message (.ok packet)),
        .act p (.writing limit (.ok ()))]) (wire ++ frame V packet) read
      (flying ++ [(⟨p, n, fresh, some message.flatten⟩, packet)]) where
  wire_eq := by simp [h.wire_eq]
  in_flight entry hentry := by
    rcases List.mem_append.mp hentry with hold | hnew
    · exact (h.in_flight entry hold).mono _ _
    · obtain rfl := List.mem_singleton.mp hnew
      refine ⟨⟨level, message, by simp, rfl, hencrypt⟩, limit, ?_, hle⟩
      rw [sendLimits_append]
      exact List.mem_append_right _ (by simp [sendLimits])
  writes := by
    rw [List.map_append, ← List.append_assoc]
    exact h.writes.write
  followed := by
    rw [List.filterMap_append, Ratchet.followed_append]
    exact (List.append_nil _).symm ▸ h.followed

/-! ## Calls of `send` -/

theorem update_none (p : Party) :
    Function.update (fun _ => none) p none = fun _ : Party => (none : Option Bytes) :=
  Function.update_eq_self p _

/-- Nothing is followed by a critical section of `send`. -/
theorem followed_sealing (q p : Party) (n : Option Nonce) (level : Level) (fresh : Nonce)
    (message : Buf) (result : Except (Fault PacketError) Bytes) :
    Ratchet.followed q ([.act p (.sealing n level fresh message result)].filterMap visible) =
      [] := by
  cases n with
  | none => rfl
  | some n => cases result <;> rfl

/-- A critical section of `send` that returned a packet. -/
theorem seal_eq_ok {level : Level} {fresh : Nonce} {message : Buf} {node : Option Nonce}
    {packet : Bytes} {cipher : Cipher}
    (hcall : (Sealed.sealMessage payload aead level fresh message).outcome (cipherOf key node) =
      (.ok packet, cipher)) :
    ∃ n, node = some n ∧
      aead.encryptInPlace key n (payload.compose level fresh message) = .ok packet := by
  cases node with
  | none =>
    rw [Ciphered.outcome_seal_none] at hcall
    simp at hcall
  | some n =>
    rw [Ciphered.outcome_seal_some] at hcall
    cases hencrypt : aead.encryptInPlace key n (payload.compose level fresh message) with
    | error e => simp [hencrypt] at hcall
    | ok sealed =>
      simp only [hencrypt, Prod.mk.injEq, Except.ok.injEq] at hcall
      exact ⟨n, rfl, hcall.1 ▸ hencrypt⟩

/-- The cipher of a party is empty or holds a nonce. -/
theorem Played.cipher_eq (h : Played V payload aead key nonce calls moves s) (p : Party) :
    ∃ node, s.cipher p = cipherOf key node := by
  obtain ⟨a, _, href⟩ := Ciphered.refines h.run h.unforged
  exact ⟨a.node p, href.cipher p⟩

section Send

variable {level : Level} {limit : Usize} {fresh : Nonce} {message : Buf} {cipher : Cipher}

/-- A `send` that fails in its critical section. -/
theorem Played.unsealed (h : Played V payload aead key nonce calls moves s) {e : Fault PacketError}
    (hcall : (Sealed.sealMessage payload aead level fresh message).outcome (s.cipher p) =
      (.error e, cipher)) :
    Played V payload aead key nonce (calls ++ [(p, .send level limit fresh message (.error e))])
      (moves ++ [.act p (.sealing (held (s.cipher p)) level fresh message (.error e))])
      { s with cipher := Function.update s.cipher p cipher } where
  run := by
    have hrun := h.run.snoc (.sealing rfl hcall)
    simpa [State.session, Except.toOption, update_none] using hrun
  within hunrefused := by
    -- only a broken cipher is refused nothing
    have hbroken : held (s.cipher p) = none := by
      obtain ⟨node, hnode⟩ := h.cipher_eq p
      cases node with
      | none => rw [hnode, Ciphered.held_cipherOf]
      | some n =>
        obtain herror | herror := hunrefused p level limit fresh message (.error e) (by simp)
        · cases herror
        · cases herror
          rw [hnode, Ciphered.outcome_seal_some] at hcall
          cases hencrypt : aead.encryptInPlace key n (payload.compose level fresh message) <;>
            simp [hencrypt] at hcall
    have hstep : Ciphered.StepWithin V payload aead key s.session
        (.act p (.sealing (held (s.cipher p)) level fresh message (.error e))) _ :=
      ⟨.sealing rfl hcall, fun n hn => absurd (hbroken.symm.trans hn) (by simp)⟩
    have hrun := (h.within hunrefused.of_append).snoc hstep
    simpa [State.session, Except.toOption, update_none] using hrun
  plays := h.plays.snoc .unsealed
  unforged := throughout_snoc.mpr ⟨h.unforged, Ciphered.genuine_of_not_opening (by simp)⟩
  flight q := by
    obtain ⟨read, flying, hflight⟩ := h.flight q
    exact ⟨read, flying, hflight.grow .unsealed (by simp [sentBy]) (followed_sealing _ _ _ _ _ _ _)⟩

/-- A `send` that fails after its critical section. -/
theorem Played.unwritten (h : Played V payload aead key nonce calls moves s) {packet : Bytes}
    {e : PacketError} {move : Ciphered.Label}
    (hcall : (Sealed.sealMessage payload aead level fresh message).outcome (s.cipher p) =
      (.ok packet, cipher))
    (hmoves : Moves p (.send level limit fresh message (.error (.error e)))
      [.act p (.sealing (held (s.cipher p)) level fresh message (.ok packet)), move])
    (hmove : Ciphered.Step V payload aead (s.midway p cipher packet) move
      { s with cipher := Function.update s.cipher p cipher }.session)
    (hinvisible : visible move = none)
    (hopening : ∀ q nonce packet result stored, move ≠ .act q (.opening nonce packet result stored))
    (he : e ≠ .broken) :
    Played V payload aead key nonce
      (calls ++ [(p, .send level limit fresh message (.error (.error e)))])
      (moves ++ [.act p (.sealing (held (s.cipher p)) level fresh message (.ok packet)), move])
      { s with cipher := Function.update s.cipher p cipher } where
  run := by
    rw [List.append_cons]
    exact (h.run.snoc (.sealing rfl hcall)).snoc hmove
  within hunrefused := by
    obtain herror | herror :=
      hunrefused p level limit fresh message (.error (.error e)) (by simp)
    · cases herror
    · cases herror
      exact absurd rfl he
  plays := h.plays.snoc hmoves
  unforged := by
    rw [List.append_cons]
    exact throughout_snoc.mpr ⟨throughout_snoc.mpr ⟨h.unforged,
      Ciphered.genuine_of_not_opening (by simp)⟩, Ciphered.genuine_of_not_opening hopening⟩
  flight q := by
    obtain ⟨read, flying, hflight⟩ := h.flight q
    refine ⟨read, flying, hflight.grow hmoves (by simp [sentBy]) ?_⟩
    have hsealing := followed_sealing q.peer p (held (s.cipher p)) level fresh message (.ok packet)
    rw [← List.singleton_append, List.filterMap_append, Ratchet.followed_append, hsealing]
    simp [hinvisible, Ratchet.followed]

/-- The moves of a `send` that returns `Ok`. -/
theorem Played.run_written (h : Played V payload aead key nonce calls moves s) {packet : Bytes}
    (hcall : (Sealed.sealMessage payload aead level fresh message).outcome (s.cipher p) =
      (.ok packet, cipher)) (hle : packet.length ≤ limit.toNat) :
    Run (Ciphered.StepWithin V payload aead key) s.session
      [.act p (.sealing (held (s.cipher p)) level fresh message (.ok packet)),
        .act p (.writing limit (.ok ()))]
      (State.session ⟨Function.update s.cipher p cipher,
        Function.update s.wire p (s.wire p ++ frame V packet)⟩) := by
  have hsealing : Ciphered.StepWithin V payload aead key s.session
      (.act p (.sealing (held (s.cipher p)) level fresh message (.ok packet)))
      (s.midway p cipher packet) := by
    refine ⟨.sealing rfl hcall, fun n hn => ⟨packet, ?_⟩⟩
    obtain ⟨node, hnode⟩ := h.cipher_eq p
    obtain ⟨m, rfl, hencrypt⟩ := seal_eq_ok (hnode ▸ hcall)
    have hheld : held (s.cipher p) = some n := hn
    rw [hnode, Ciphered.held_cipherOf] at hheld
    cases hheld
    exact hencrypt
  have hwriting : Ciphered.StepWithin V payload aead key (s.midway p cipher packet)
      (.act p (.writing limit (.ok ()))) _ :=
    ⟨.writing (s.midway_sending p cipher packet) (Sealed.outcome_writeSealed_of_le V hle _),
      fun sealed hsealed => by
        rw [s.midway_sending, Option.some.injEq] at hsealed
        exact hsealed ▸ hle⟩
  have hrun := (Run.snoc .nil hsealing).snoc hwriting
  simpa [State.session, State.midway, update_none] using hrun

/-- A `send` that returns `Ok`. -/
theorem Played.written (h : Played V payload aead key nonce calls moves s) {packet : Bytes}
    (hcall : (Sealed.sealMessage payload aead level fresh message).outcome (s.cipher p) =
      (.ok packet, cipher)) (hle : packet.length ≤ limit.toNat) :
    Played V payload aead key nonce (calls ++ [(p, .send level limit fresh message (.ok ()))])
      (moves ++ [.act p (.sealing (held (s.cipher p)) level fresh message (.ok packet)),
        .act p (.writing limit (.ok ()))])
      ⟨Function.update s.cipher p cipher,
        Function.update s.wire p (s.wire p ++ frame V packet)⟩ where
  run := h.run.append (Run.mono (fun hstep => hstep.1) (h.run_written hcall hle))
  within hunrefused := (h.within hunrefused.of_append).append (h.run_written hcall hle)
  plays := h.plays.snoc .written
  unforged := by
    rw [List.append_cons]
    exact throughout_snoc.mpr ⟨throughout_snoc.mpr ⟨h.unforged,
      Ciphered.genuine_of_not_opening (by simp)⟩, Ciphered.genuine_of_not_opening (by simp)⟩
  flight q := by
    obtain ⟨node, hnode⟩ := h.cipher_eq p
    obtain ⟨n, rfl, hencrypt⟩ := seal_eq_ok (hnode ▸ hcall)
    rw [hnode, Ciphered.held_cipherOf]
    obtain ⟨read, flying, hflight⟩ := h.flight q
    cases Party.eq_or_eq_peer p q with
    | inl heq =>
      subst heq
      simp only [Function.update_self]
      exact ⟨_, _, hflight.write hle hencrypt⟩
    | inr heq =>
      subst heq
      simp only [Party.update_peer]
      exact ⟨read, flying, hflight.grow .written (by simp [sentBy]) rfl⟩

end Send

/-! ## Calls of `recv` -/

/-- A critical section of `recv` follows nothing for the peer. -/
theorem followed_opening_peer (p : Party) (n : Option Nonce) (packet : Bytes)
    (result : Except (Fault PacketError) Bytes) (stored : Option Nonce) :
    Ratchet.followed p.peer ([.act p (.opening n packet result stored)].filterMap visible) =
      [] := by
  rcases n with _ | n
  · rfl
  · rcases result with e | message
    · rfl
    · rcases stored with _ | next
      · rfl
      · simp [visible, Ratchet.followed, Ratchet.Act.followedBy]

/-- A packet of the peer is opened under the nonce that it was sealed under, or not
at all. -/
theorem open_link (hideal : aead.Ideal) {link : Link Nonce Bytes} {packet : Bytes}
    (hsealed : SealedFor payload aead key p.peer moves link packet) {node : Option Nonce}
    {result : Except (Fault PacketError) Bytes} {cipher : Cipher}
    (hcall : (Sealed.openPacket payload aead packet).outcome (cipherOf key node) =
      (result, cipher)) :
    Genuine payload aead key moves (.act p (.opening node packet result (held cipher))) ∧
      (Ratchet.followed p ([.act p (.opening node packet result (held cipher))].filterMap
        visible)).Sublist [link] := by
  obtain ⟨level, message, hmem, hlink, hencrypt⟩ := hsealed
  cases node with
  | none =>
    refine ⟨fun _ _ _ _ _ _ heq => ?_, List.nil_sublist _⟩
    cases heq
  | some n =>
    by_cases hn : link.src = n
    · subst hn
      rw [Ciphered.outcome_open_same hideal hencrypt] at hcall
      obtain ⟨rfl, rfl⟩ := Prod.mk.inj hcall
      constructor
      · intro _ _ _ _ _ plain heq hdecrypt
        cases heq
        rw [hideal.decrypt_same hencrypt] at hdecrypt
        exact ⟨_, level, _, message, hmem, Except.ok.inj hdecrypt⟩
      · rw [Ciphered.held_cipherOf, hlink]
        simp [visible, Ratchet.followed, Ratchet.Act.followedBy]
    · rw [Ciphered.outcome_open_other hideal hencrypt hn] at hcall
      obtain ⟨rfl, rfl⟩ := Prod.mk.inj hcall
      refine ⟨fun _ _ _ _ _ plain heq hdecrypt => ?_, List.nil_sublist _⟩
      cases heq
      rw [hideal.decrypt_other hencrypt (Ne.symm hn)] at hdecrypt
      cases hdecrypt

/-- The first packet under way is read. -/
theorem Flight.fetch {wire : Bytes} {read : List (Link Nonce Bytes)}
    {link : Link Nonce Bytes} {packet : Bytes} {rest : List (Link Nonce Bytes × Bytes)}
    (h : Flight V payload aead key p.peer calls moves wire read ((link, packet) :: rest))
    {limit : Usize} {result : Except (Fault PacketError) Bytes} {more : List Ciphered.Label}
    (hmoves : Moves p (.recv limit result) more)
    (hfollowed : (Ratchet.followed p (more.filterMap visible)).Sublist [link]) :
    Flight V payload aead key p.peer (calls ++ [(p, .recv limit result)]) (moves ++ more)
      (rest.map fun entry => frame V entry.2).flatten (read ++ [link]) rest where
  wire_eq := rfl
  in_flight entry hentry := (h.in_flight entry (List.mem_cons_of_mem _ hentry)).mono _ more
  writes := by
    rw [List.append_assoc]
    exact h.writes.quiet hmoves (by simp [sentBy])
  followed := by
    rw [List.filterMap_append, Ratchet.followed_append]
    have hread := h.followed
    rw [Party.peer_peer] at hread ⊢
    exact hread.append hfollowed

/-- The moves of a `recv` that finds a packet. -/
theorem run_opened {limit : Usize} {packet rest : Bytes} (hle : packet.length ≤ limit.toNat)
    (hwire : s.wire p.peer = frame V packet ++ rest) {result : Except (Fault PacketError) Bytes}
    {cipher : Cipher} (harrived : arrived V limit (s.wire p.peer) = true)
    (hopen : (Sealed.openPacket payload aead packet).outcome (s.cipher p) = (result, cipher)) :
    Run (Ciphered.StepWithin V payload aead key) s.session
      [.act p (.fetching limit (.ok packet)),
        .act p (.opening (held (s.cipher p)) packet result (held cipher))]
      (State.session ⟨Function.update s.cipher p cipher, Function.update s.wire p.peer rest⟩) := by
  have hread : (readPacket V limit).outcome (s.wire p.peer) = (.ok packet, rest) := by
    rw [hwire]
    exact Io.outcome_of_ok (run_readPacket_frame V hle rest)
  have hfetching : Ciphered.StepWithin V payload aead key s.session
      (.act p (.fetching limit (.ok packet))) (s.fetched p packet rest) := by
    refine ⟨.fetching rfl harrived hread, fun len left hlen => ?_⟩
    have hlength : V.usizeVarintAp.read.run (s.wire p.peer) =
        .ok (UInt64.ofNat packet.length) (packet ++ rest) := by
      rw [hwire, frame, List.append_assoc, WireField.run_read_encode]
    rw [show V.usizeVarintAp.read.run (s.wire p.peer) = .ok len left from hlen] at hlength
    cases hlength
    rw [toNat_ofNat_of_le hle]
    exact hle
  have hopening : Ciphered.StepWithin V payload aead key (s.fetched p packet rest)
      (.act p (.opening (held (s.cipher p)) packet result (held cipher))) _ :=
    ⟨.opening (s.fetched_opening p packet rest) hopen, trivial⟩
  have hrun := (Run.snoc .nil hfetching).snoc hopening
  simpa [State.session, State.fetched, update_none] using hrun

/-- A `recv` that finds a packet under way. -/
theorem Played.opened (hideal : aead.Ideal) (h : Played V payload aead key nonce calls moves s)
    {read : List (Link Nonce Bytes)} {link : Link Nonce Bytes} {packet : Bytes}
    {rest : List (Link Nonce Bytes × Bytes)}
    (hflight : Flight V payload aead key p.peer calls moves (s.wire p.peer) read
      ((link, packet) :: rest)) {limit : Usize} (hle : packet.length ≤ limit.toNat)
    {result : Except (Fault PacketError) Bytes} {cipher : Cipher}
    (harrived : arrived V limit (s.wire p.peer) = true)
    (hopen : (Sealed.openPacket payload aead packet).outcome (s.cipher p) = (result, cipher)) :
    Played V payload aead key nonce (calls ++ [(p, .recv limit result)])
      (moves ++ [.act p (.fetching limit (.ok packet)),
        .act p (.opening (held (s.cipher p)) packet result (held cipher))])
      ⟨Function.update s.cipher p cipher,
        Function.update s.wire p.peer (rest.map fun entry => frame V entry.2).flatten⟩ := by
  obtain ⟨hsealed, _⟩ := hflight.in_flight _ List.mem_cons_self
  obtain ⟨node, hnode⟩ := h.cipher_eq p
  obtain ⟨hgenuine, hfollowed⟩ := open_link hideal hsealed (hnode ▸ hopen)
  have hmore : Run (Ciphered.StepWithin V payload aead key) _ _ _ :=
    run_opened hle hflight.wire_eq harrived hopen
  refine ⟨h.run.append (hmore.mono fun hstep => hstep.1),
    fun hunrefused => (h.within hunrefused.of_append).append hmore, h.plays.snoc .opened, ?_,
    fun q => ?_⟩
  · rw [List.append_cons]
    refine throughout_snoc.mpr ⟨throughout_snoc.mpr ⟨h.unforged,
      Ciphered.genuine_of_not_opening (by simp)⟩, ?_⟩
    rw [hnode, Ciphered.held_cipherOf]
    intro q n packet' result' stored plain heq hdecrypt
    obtain ⟨q', level, fresh, message, hmem, hplain⟩ := hgenuine _ _ _ _ _ _ heq hdecrypt
    exact ⟨q', level, fresh, message, List.mem_append_left _ hmem, hplain⟩
  · rw [hnode, Ciphered.held_cipherOf]
    cases Party.eq_or_eq_peer p q with
    | inl heq =>
      subst heq
      obtain ⟨read', flying', hflight'⟩ := h.flight q
      simp only [Party.update_at_peer]
      exact ⟨read', flying', hflight'.grow .opened (by simp [sentBy])
        (followed_opening_peer q node packet result _)⟩
    | inr heq =>
      subst heq
      simp only [Function.update_self]
      exact ⟨_, _, hflight.fetch .opened hfollowed⟩

/-- A `recv` over a reliable stream finds the first packet under way. -/
theorem Played.recv (hideal : aead.Ideal) (h : Played V payload aead key nonce calls moves s)
    {limit : Usize} (hlimit : ∀ sent ∈ sendLimits p.peer calls, sent.toNat ≤ limit.toNat)
    {result : Except (Fault PacketError) Bytes} {left : Bytes} {cipher : Cipher}
    (harrived : arrived V limit (s.wire p.peer) = true)
    (hcall : (Sealed.recv V payload aead limit).outcome (s.wire p.peer, s.cipher p) =
      (result, (left, cipher))) :
    ∃ moves', Played V payload aead key nonce (calls ++ [(p, .recv limit result)]) moves'
      ⟨Function.update s.cipher p cipher, Function.update s.wire p.peer left⟩ := by
  obtain ⟨read, flying, hflight⟩ := h.flight p.peer
  cases flying with
  | nil =>
    rw [hflight.wire_eq] at harrived
    simp [arrived] at harrived
  | cons entry rest =>
    obtain ⟨link, packet⟩ := entry
    obtain ⟨_, sent, hsent, hwithin⟩ := hflight.in_flight _ List.mem_cons_self
    have hle : packet.length ≤ limit.toNat := Nat.le_trans hwithin (hlimit sent hsent)
    have hread := Io.outcome_of_ok
      (run_readPacket_frame V hle (rest.map fun entry => frame V entry.2).flatten)
    rw [hflight.wire_eq, List.map_cons, List.flatten_cons, Sealed.outcome_recv, hread] at hcall
    obtain ⟨⟨result', cipher'⟩, hopen⟩ :
        ∃ r, (Sealed.openPacket payload aead packet).outcome (s.cipher p) = r := ⟨_, rfl⟩
    simp only [hopen] at hcall
    cases hcall
    exact ⟨_, h.opened hideal hflight hle harrived hopen⟩

/-! ## Steps -/

/-- Every call is one or two moves, whatever it returns. -/
theorem Played.step (hideal : aead.Ideal) (h : Played V payload aead key nonce calls moves s)
    {e : Party × Call} (hstep : Step V payload aead s e s') (hlimits : LimitsAgree (calls ++ [e])) :
    ∃ moves', Played V payload aead key nonce (calls ++ [e]) moves' s' := by
  cases hstep with
  | @send p level limit fresh message result written cipher hcall =>
    rw [Sealed.outcome_send] at hcall
    obtain ⟨⟨sealed, cipher'⟩, hseal⟩ :
        ∃ r, (Sealed.sealMessage payload aead level fresh message).outcome (s.cipher p) = r :=
          ⟨_, rfl⟩
    rw [hseal] at hcall
    cases sealed with
    | error e =>
      cases hcall
      rw [Function.update_eq_self]
      exact ⟨_, h.unsealed hseal⟩
    | ok packet =>
      by_cases hle : packet.length ≤ limit.toNat
      · simp only [Sealed.outcome_writeSealed_of_le V hle] at hcall
        cases hcall
        exact ⟨_, h.written hseal hle⟩
      · have hrefused := Sealed.outcome_writeSealed_of_lt V (Nat.lt_of_not_le hle) (s.wire p)
        simp only [hrefused] at hcall
        cases hcall
        rw [Function.update_eq_self]
        refine ⟨_, h.unwritten hseal .refused ?_ rfl (by simp) (by simp)⟩
        have hwriting : Ciphered.Step V payload aead (s.midway p cipher packet) _ _ :=
          .writing (s.midway_sending p cipher packet) hrefused
        simpa [State.midway, State.session, update_none] using hwriting
  | @recv p limit result left cipher harrived hcall =>
    refine h.recv hideal (fun sent hsent => hlimits p.peer sent ?_ limit ?_) harrived hcall
    · rw [sendLimits_append]
      exact List.mem_append_left _ hsent
    · rw [Party.peer_peer, recvLimits_append]
      exact List.mem_append_right _ (by simp [recvLimits])
  | @lost p level limit fresh message packet cipher error hcall =>
    refine ⟨_, h.unwritten hcall .lost ?_ rfl (by simp) (by simp)⟩
    have hlost : Ciphered.Step V payload aead (s.midway p cipher packet) (.writeLost p error) _ :=
      .writeLost (s.midway_sending p cipher packet)
    simpa [State.midway, State.session, update_none] using hlost

/-- A reader that finds the end of the data finds it behind the last packet. -/
theorem Played.wire_nil (h : Played V payload aead key nonce calls moves s) {limit : Usize}
    (hends : Io.ends (readPacket V limit) (s.wire p) = true) : s.wire p = [] := by
  obtain ⟨read, flying, hflight⟩ := h.flight p
  cases flying with
  | nil => exact hflight.wire_eq
  | cons entry rest =>
    obtain ⟨_, sent, _, hle⟩ := hflight.in_flight _ List.mem_cons_self
    rw [hflight.wire_eq, List.map_cons, List.flatten_cons, ends_readPacket_frame hle] at hends
    cases hends

/-! ## What handlers cannot do to each other -/

theorem Played.fresh (h : Played V payload aead key nonce calls moves s)
    (hfresh : (nonce :: drawn calls).Nodup) : Fresh nonce moves := by
  rw [Fresh, h.plays.drawn]
  exact hfresh

/-- The links that a party followed are a prefix of those written by its peer. -/
theorem Played.followed_written (h : Played V payload aead key nonce calls moves s)
    (hfresh : (nonce :: drawn calls).Nodup) (p : Party) :
    ∃ links, Writes p calls moves links ∧
      Ratchet.followed p.peer (moves.filterMap visible) <+: links := by
  obtain ⟨a, hratchet, href⟩ := Ciphered.refines h.run h.unforged
  obtain ⟨read, flying, hflight⟩ := h.flight p
  have hnodes : (nonce :: a.log.map Link.dst).Nodup := by
    rw [href.log]
    exact Ciphered.fresh_made (h.fresh hfresh)
  have hpart : (read ++ flying.map Prod.fst).Sublist (ownedBy p.peer.peer a.log) := by
    rw [Party.peer_peer, href.log]
    exact hflight.writes.made
  exact ⟨_, hflight.writes, Ratchet.followed_prefix_of_sublist hratchet hnodes hpart
    (hflight.followed.trans (List.sublist_append_left _ _))⟩

/-- The messages that a party received are those of the links it followed. -/
theorem Played.received_eq (h : Played V payload aead key nonce calls moves s) (p : Party) :
    receivedBy p calls =
      (Ratchet.followed p (moves.filterMap visible)).filterMap Link.content := by
  obtain ⟨_, _, href⟩ := Ciphered.refines h.run h.unforged
  rw [← h.plays.received, href.received]

/-- What was received is a prefix of what was sent. -/
theorem Played.received_sent (h : Played V payload aead key nonce calls moves s)
    (hfresh : (nonce :: drawn calls).Nodup) (p : Party) :
    receivedBy p.peer calls <+: sentBy p calls := by
  obtain ⟨links, hwrites, hprefix⟩ := h.followed_written hfresh p
  rw [h.received_eq, hwrites.sent]
  exact hprefix.filterMap _

/-- A `send` that fails makes a link that nothing is written for, or finds that the
cipher is broken. -/
theorem Moves.visible_of_failed {level : Level} {limit : Usize} {fresh : Nonce} {message : Buf}
    {error : Fault PacketError} {more : List Ciphered.Label}
    (h : Moves p (.send level limit fresh message (.error error)) more) :
    (∃ link, more.filterMap visible = [.extend link] ∧ link.owner = p) ∨
      more.filterMap visible = [] ∧
        ∃ result rest, more = .act p (.sealing none level fresh message result) :: rest := by
  cases h with
  | @unsealed held | @refused held | @lost held =>
    cases held with
    | none => exact .inr ⟨rfl, _, _, rfl⟩
    | some n => exact .inl ⟨_, rfl, rfl⟩

/-- A label of a critical section of `send` tells the nonce that the cipher holds. -/
theorem held_of_sealing {σ σ' : Ciphered.State} {node : Option Nonce} {level : Level}
    {fresh : Nonce} {message : Buf} {result : Except (Fault PacketError) Bytes}
    (hstep :
      Ciphered.Step V payload aead σ (.act p (.sealing node level fresh message result)) σ') :
    held (σ.cipher p) = node := by
  cases hstep
  rfl

/-- A party whose cipher is broken makes no more links. -/
theorem Played.made_of_broken {before after : List Ciphered.Label} {level : Level} {fresh : Nonce}
    {message : Buf} {result : Except (Fault PacketError) Bytes}
    (h : Played V payload aead key nonce calls
      (before ++ .act p (.sealing none level fresh message result) :: after) s) :
    ownedBy p (made (after.filterMap visible)) = [] := by
  obtain ⟨_, hratchet, _⟩ := Ciphered.refines h.run h.unforged
  obtain ⟨mid, hbefore, hrest⟩ := Run.split h.run
  obtain ⟨_, hsealing, _⟩ := Run.cons_iff.mp hrest
  obtain ⟨a, hfirst, href⟩ := Ciphered.refines hbefore h.unforged.of_append
  rw [List.filterMap_append] at hratchet
  obtain ⟨b, hb, hafter⟩ := Run.split hratchet
  obtain rfl := Run.unique (fun h₁ h₂ => h₁.unique h₂) hfirst hb
  have hnode := held_of_sealing hsealing
  rw [href.cipher p, Ciphered.held_cipherOf] at hnode
  exact (Ratchet.made_of_lost hafter hnode).2

/-- A `send` that fails writes nothing. -/
theorem Writes.of_failed {links : List (Link Nonce Bytes)} {level : Level} {limit : Usize}
    {fresh : Nonce} {message : Buf} {error : Fault PacketError}
    (h : Writes p (calls ++ [(p, .send level limit fresh message (.error error))]) moves links) :
    ∃ before more, moves = before ++ more ∧
      Moves p (.send level limit fresh message (.error error)) more ∧
      Writes p calls before links := by
  generalize hcalls : calls ++ [(p, Call.send level limit fresh message (.error error))] = all at h
  cases h with
  | nil => simp at hcalls
  | quiet h hmoves hsent =>
    obtain ⟨rfl, hlast⟩ := List.append_inj' hcalls rfl
    cases hlast
    exact ⟨_, _, rfl, hmoves, h⟩
  | write h =>
    obtain ⟨_, hlast⟩ := List.append_inj' hcalls rfl
    cases hlast

/-- The message of a `send` that fails is received by nobody, and nothing that is sent
behind it is. -/
theorem Played.received_before (h : Played V payload aead key nonce calls moves s)
    (hfresh : (nonce :: drawn calls).Nodup) {p : Party} {pre post : List (Party × Call)}
    {level : Level} {limit : Usize} {fresh : Nonce} {message : Buf} {error : Fault PacketError}
    (hcalls : calls = pre ++ (p, .send level limit fresh message (.error error)) :: post) :
    receivedBy p.peer calls <+: sentBy p pre := by
  obtain ⟨links, hwrites, hprefix⟩ := h.followed_written hfresh p
  obtain ⟨a, hratchet, href⟩ := Ciphered.refines h.run h.unforged
  have hnodes : (nonce :: a.log.map Link.dst).Nodup := by
    rw [href.log]
    exact Ciphered.fresh_made (h.fresh hfresh)
  rw [hcalls, List.append_cons] at hwrites
  obtain ⟨upto, after, front, back, rfl, rfl, hpre, hback⟩ := hwrites.split
  obtain ⟨before, more, rfl, hmoves, hfront⟩ := hpre.of_failed
  rw [h.received_eq, hfront.sent]
  refine List.IsPrefix.filterMap _ ?_
  rw [List.append_assoc] at h hratchet hprefix ⊢
  rw [List.filterMap_append, List.filterMap_append] at hratchet hprefix ⊢
  rcases hmoves.visible_of_failed with ⟨link, hlink, rfl⟩ | ⟨hnone, result, rest, rfl⟩
  · rw [hlink] at hratchet hprefix ⊢
    exact Ratchet.followed_prefix_of_gap hratchet hnodes hfront.made hback hprefix
  · rw [List.cons_append] at h
    have hmade := h.made_of_broken
    rw [List.filterMap_append, Ratchet.made_append, Ratchet.ownedBy_append,
      List.append_eq_nil_iff] at hmade
    rw [hmade.2, List.sublist_nil] at hback
    rwa [hback, List.append_nil] at hprefix

/-- No nonce is used twice exactly when a party only sends after it has received
everything. -/
theorem Played.used_once_iff (h : Played V payload aead key nonce calls moves s)
    (hfresh : (nonce :: drawn calls).Nodup) :
    (Ciphered.used moves).Nodup ↔ Ciphered.InTurn moves := by
  obtain ⟨a, hratchet, href⟩ := Ciphered.refines h.run h.unforged
  have hnodes : (nonce :: a.log.map Link.dst).Nodup := by
    rw [href.log]
    exact Ciphered.fresh_made (h.fresh hfresh)
  rw [Ciphered.used_eq, ← href.log, Ratchet.srcs_nodup_iff hratchet hnodes,
    Ciphered.inTurn_iff h.run h.unforged]

end TcpHandler.Session.Whole
