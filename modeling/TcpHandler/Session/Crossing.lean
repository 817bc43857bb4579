/-
  Session/Crossing.lean --- when whole calls keep two ciphers in step.

  `Session/Lockstep.lean` says of the moves of two parties that their ciphers stay
  in step exactly until packets are outstanding in both directions.  A call has at
  most one move that counts, so the same is true of calls: they may be in any
  order, as long as never both parties have sent what the other has not received.
-/
import TcpHandler.Session.Moves

set_option autoImplicit false

namespace TcpHandler.Session.Whole

open TcpHandler.Foundation TcpHandler.Protocols
open TcpHandler.Session.Ciphered (visible OpenResult encryptedBy opensBy)

/-! ## Calls that cross -/

/-- A call of `recv` by `p` that found a cipher. -/
def takes (p : Party) : Party × Call → Bool
  | (_, .recv _ (.error (.error .broken))) => false
  | (q, .recv _ _) => q = p
  | _ => false

/-- How often `recv` took the cipher of `p`. -/
def takenBy (p : Party) (calls : List (Party × Call)) : Nat := calls.countP (takes p)

/-- `p` has sent something that its peer has not received. -/
def Outstanding (p : Party) (calls : List (Party × Call)) : Prop :=
  takenBy p.peer calls < (sentBy p calls).length

/-- Both have. -/
def Crossed (calls : List (Party × Call)) : Prop := ∀ p, Outstanding p calls

/-- At no moment both have. -/
def NeverCrossed (calls : List (Party × Call)) : Prop := ∀ pre, pre <+: calls → ¬ Crossed pre

/-- `p` called `recv`. -/
def Received (p : Party) (calls : List (Party × Call)) : Prop :=
  ∃ limit result, (p, .recv limit result) ∈ calls

/-- What holds behind the call that crossed the directions: the first `recv` of each
party fails to decrypt, and every later call of that party finds its cipher
broken. -/
structure OutOfStep (post : List (Party × Call)) : Prop where
  recv : ∀ before p limit result after, post = before ++ (p, .recv limit result) :: after →
    ¬ Received p before ∧ result = .error (.error (.aes .failure)) ∨
      Received p before ∧ result = .error (.error .broken)
  send : ∀ before p level limit fresh message result after,
    post = before ++ (p, .send level limit fresh message result) :: after → Received p before →
      result = .error (.error .broken)

variable {V : VariableLen} {payload : Payload} {aead : Aead} {key : AesKey} {nonce : Nonce}
  {calls : List (Party × Call)} {moves : List Ciphered.Label} {s : State} {p : Party}

/-! ## Calls and moves -/

/-- The moves of a call are seen as one act at most. -/
theorem Moves.visible_le {call : Call} {more : List Ciphered.Label} (h : Moves p call more) :
    (more.filterMap visible).length ≤ 1 := by
  have hlast : ∀ e e' : Ciphered.Label, visible e = none ∨ visible e' = none →
      ([e, e'].filterMap visible).length ≤ 1 := by
    rintro e e' (hnone | hnone)
    · rw [List.filterMap_cons_none hnone]
      exact List.length_filterMap_le _ _
    · rw [← List.singleton_append, List.filterMap_append, List.filterMap_cons_none hnone]
      simpa using List.length_filterMap_le visible [e]
  cases h with
  | unsealed => exact List.length_filterMap_le _ _
  | written | refused | lost => exact hlast _ _ (.inr rfl)
  | opened => exact hlast _ _ (.inl rfl)

/-- What is seen of the first moves was seen after some of the calls. -/
theorem Plays.prefix_of_visible (h : Plays calls moves) {acts : List (Ratchet.Act Nonce Bytes)}
    (hacts : acts <+: moves.filterMap visible) :
    ∃ pre before, pre <+: calls ∧ before <+: moves ∧ Plays pre before ∧
      before.filterMap visible = acts := by
  induction h generalizing acts with
  | nil => exact ⟨[], [], List.nil_prefix, List.nil_prefix, .nil, (List.prefix_nil.mp hacts).symm⟩
  | @cons p call rest more after hmoves _ ih =>
    rw [List.filterMap_append] at hacts
    rcases hmore : more.filterMap visible with _ | ⟨act, _ | ⟨act', acts'⟩⟩
    · -- nothing is seen of this call
      rw [hmore, List.nil_append] at hacts
      obtain ⟨pre, before, hpre, hbefore, hplays, rfl⟩ := ih hacts
      exact ⟨(p, call) :: pre, more ++ before, List.cons_prefix_cons.mpr ⟨rfl, hpre⟩,
        (List.prefix_append_right_inj more).mpr hbefore, .cons hmoves hplays,
        by rw [List.filterMap_append, hmore, List.nil_append]⟩
    · cases acts with
      | nil => exact ⟨[], [], List.nil_prefix, List.nil_prefix, .nil, rfl⟩
      | cons a acts =>
        rw [hmore, List.singleton_append] at hacts
        obtain ⟨rfl, hrest⟩ := List.cons_prefix_cons.mp hacts
        obtain ⟨pre, before, hpre, hbefore, hplays, rfl⟩ := ih hrest
        exact ⟨(p, call) :: pre, more ++ before, List.cons_prefix_cons.mpr ⟨rfl, hpre⟩,
          (List.prefix_append_right_inj more).mpr hbefore, .cons hmoves hplays,
          by rw [List.filterMap_append, hmore, List.singleton_append]⟩
    · have hle := hmoves.visible_le
      rw [hmore] at hle
      simp at hle

/-- The moves encrypt what the calls send, when nothing is refused. -/
theorem Plays.encrypted (h : Plays calls moves) (hunrefused : Unrefused calls) (p : Party) :
    encryptedBy p moves = sentBy p calls := by
  induction h with
  | nil => rfl
  | @cons q call rest _ _ hmoves _ ih =>
    rw [← List.singleton_append] at hunrefused ⊢
    rw [Ciphered.encryptedBy_append, sentBy_append, ih (hunrefused.of_append_right)]
    cases hmoves with
    | refused | lost =>
      have hresult := hunrefused _ _ _ _ _ _ (List.mem_append_left rest (List.mem_singleton_self _))
      rcases hresult with hok | hbroken
      · cases hok
      · cases hbroken
    | _ => rfl

/-- The moves take the cipher as often as the calls do. -/
theorem Plays.taken (h : Plays calls moves)
    (hresults : ∀ p held packet result stored,
      .act p (.opening held packet result stored) ∈ moves → OpenResult held result stored)
    (p : Party) : Ciphered.takenBy p moves = takenBy p calls := by
  induction h with
  | nil => rfl
  | @cons q call rest more after hmoves _ ih =>
    have hrest := ih fun p held packet result stored hmem =>
      hresults p held packet result stored (List.mem_append_right _ hmem)
    unfold Ciphered.takenBy takenBy at hrest ⊢
    rw [List.countP_append, hrest, ← List.singleton_append, List.countP_append]
    congr 1
    cases hmoves with
    | @opened held stored limit packet result =>
      have hresult := hresults q held packet result stored (by simp)
      cases hresult <;> rfl
    | _ => rfl

theorem received_append {pre post : List (Party × Call)} :
    Received p (pre ++ post) ↔ Received p pre ∨ Received p post := by
  simp only [Received, List.mem_append, exists_or]

/-- Who opens a packet called `recv`. -/
theorem Plays.opens_iff (h : Plays calls moves) (p : Party) :
    (∃ e ∈ moves, opensBy p e) ↔ Received p calls := by
  induction h with
  | nil => simp [Received]
  | @cons q call rest more after hmoves _ ih =>
    have hmore : (∃ e ∈ more, opensBy p e) ↔ Received p [(q, call)] := by
      cases hmoves with
      | opened =>
        by_cases hq : q = p
        · subst hq
          simp [opensBy, Received]
        · simp [opensBy, Received, hq, Ne.symm hq]
      | _ => simp [opensBy, Received]
    rw [← List.singleton_append, received_append, ← hmore, ← ih]
    simp only [List.mem_append, or_and_right, exists_or]

/-! ## In step until they cross -/

/-- A run in which nothing was refused. -/
structure Smooth (V : VariableLen) (payload : Payload) (aead : Aead) (key : AesKey) (nonce : Nonce)
    (calls : List (Party × Call)) (moves : List Ciphered.Label) (s : Ciphered.State) : Prop where
  run : Run (Ciphered.StepWithin V payload aead key) (Ciphered.start key nonce) moves s
  plays : Plays calls moves
  unrefused : Unrefused calls

theorem Played.smooth (h : Played V payload aead key nonce calls moves s)
    (hunrefused : Unrefused calls) :
    Smooth V payload aead key nonce calls moves s.session :=
  ⟨h.within hunrefused, h.plays, hunrefused⟩

variable {session : Ciphered.State}

/-- What is outstanding for the moves is outstanding for the calls. -/
theorem Smooth.outstanding_iff (h : Smooth V payload aead key nonce calls moves session)
    (hideal : aead.Ideal) (p : Party) : Ciphered.Outstanding p moves ↔ Outstanding p calls := by
  obtain ⟨a, hlockstepped⟩ := Ciphered.within_run hideal h.run
  unfold Ciphered.Outstanding Outstanding
  rw [h.plays.taken hlockstepped.carried.results, h.plays.encrypted h.unrefused]

/-- The directions cross for the moves when they cross for the calls. -/
theorem Smooth.crossed_iff (h : Smooth V payload aead key nonce calls moves session)
    (hideal : aead.Ideal) : Ciphered.Crossed moves ↔ Crossed calls :=
  forall_congr' (h.outstanding_iff hideal)

/-- Calls that never cross have moves that never cross. -/
theorem Smooth.neverCrossed (h : Smooth V payload aead key nonce calls moves session)
    (hideal : aead.Ideal) (hcalls : NeverCrossed calls) : Ciphered.NeverCrossed moves := by
  rintro part ⟨rest, rfl⟩ hcrossed
  obtain ⟨t, hpart, _⟩ := Run.split h.run
  obtain ⟨a, hlockstepped⟩ := Ciphered.within_run hideal hpart
  -- after some of the calls as much is seen as in the middle of one
  have hacts : part.filterMap visible <+: (part ++ rest).filterMap visible := by
    rw [List.filterMap_append]
    exact List.prefix_append _ _
  obtain ⟨pre, before, ⟨post, rfl⟩, ⟨after, hafter⟩, hplays, hsame⟩ :=
    h.plays.prefix_of_visible hacts
  rw [← hafter] at h
  obtain ⟨u, hbefore, _⟩ := Run.split h.run
  have hsmooth : Smooth V payload aead key nonce pre before u :=
    ⟨hbefore, hplays, h.unrefused.of_append⟩
  obtain ⟨b, hlockstepped'⟩ := Ciphered.within_run hideal hbefore
  refine hcalls pre (List.prefix_append _ _) ((hsmooth.crossed_iff hideal).mp ?_)
  rw [hlockstepped'.crossed_iff, hsame, ← hlockstepped.crossed_iff]
  exact hcrossed

/-- Calls that never cross are in step. -/
theorem Smooth.inStep (h : Smooth V payload aead key nonce calls moves session)
    (hideal : aead.Ideal) (hcalls : NeverCrossed calls) : Ciphered.InStep V key moves session :=
  Ciphered.inStep_of_neverCrossed hideal h.run (h.neverCrossed hideal hcalls)

/-- A `recv` opened what it returned. -/
theorem Plays.opening_of_recv (h : Plays calls moves) {limit : Usize}
    {result : Except (Fault PacketError) Bytes} (hmem : (p, .recv limit result) ∈ calls) :
    ∃ held packet stored, .act p (.opening held packet result stored) ∈ moves := by
  obtain ⟨pre, post, rfl⟩ := List.append_of_mem hmem
  obtain ⟨before, after, rfl, _, hrest⟩ := h.split
  cases hrest with
  | cons hmoves _ =>
    cases hmoves with
    | @opened held stored _ packet => exact ⟨held, packet, stored, by simp⟩

/-- In step, every `recv` returns a message. -/
theorem Smooth.recv_ok (h : Smooth V payload aead key nonce calls moves session)
    (hideal : aead.Ideal) (hcalls : NeverCrossed calls) {limit : Usize}
    {result : Except (Fault PacketError) Bytes} (hmem : (p, .recv limit result) ∈ calls) :
    ∃ message, result = .ok message := by
  obtain ⟨held, packet, stored, hopening⟩ := h.plays.opening_of_recv hmem
  exact (h.inStep hideal hcalls).opened _ _ _ _ _ hopening

theorem NeverCrossed.of_append {post : List (Party × Call)} (h : NeverCrossed (calls ++ post)) :
    NeverCrossed calls :=
  fun pre hpre => h pre (hpre.trans (List.prefix_append _ _))

/-- In step, every `send` finds a cipher. -/
theorem Smooth.send_ok (h : Smooth V payload aead key nonce calls moves session)
    (hideal : aead.Ideal) (hcalls : NeverCrossed calls) {level : Level} {limit : Usize}
    {fresh : Nonce} {message : Buf} {result : Except (Fault PacketError) Unit}
    (hmem : (p, .send level limit fresh message result) ∈ calls) : result = .ok () := by
  rcases h.unrefused _ _ _ _ _ _ hmem with hok | hbroken
  · exact hok
  · exfalso
    subst hbroken
    obtain ⟨pre, post, rfl⟩ := List.append_of_mem hmem
    obtain ⟨first, last, rfl, hfirst, hrest⟩ := h.plays.split
    obtain ⟨t, hrun, hafter⟩ := Run.split h.run
    have hsmooth : Smooth V payload aead key nonce pre first t :=
      ⟨hrun, hfirst, h.unrefused.of_append⟩
    obtain ⟨a, hlockstepped⟩ := Ciphered.within_run hideal hrun
    obtain ⟨q, _, _, _, _, _, hpeer, hself, _⟩ := (Lockstep.aligned hlockstepped.lockstep
      (Ciphered.neverCrossed_visible hideal hrun
        (hsmooth.neverCrossed hideal hcalls.of_append))).inStep
    obtain ⟨n, hnode⟩ : ∃ n, a.node p = some n := by
      rcases Party.eq_or_eq_peer q p with rfl | rfl
      · exact ⟨_, hself⟩
      · exact ⟨_, hpeer⟩
    cases hrest with
    | cons hone _ =>
      cases hone with
      | unsealed =>
        obtain ⟨_, ⟨hstep, _⟩, _⟩ := Run.cons_iff.mp hafter
        cases hstep with
        | sealing _ hcall =>
          rw [hlockstepped.carried.cipher, hnode, Ciphered.outcome_seal_some] at hcall
          cases hencrypt : aead.encryptInPlace key n (payload.compose level fresh message) <;>
            simp [hencrypt] at hcall

/-- Only a `send` that returns `Ok` can cross the directions. -/
theorem crossed_of_append {e : Party × Call} (hcross : Crossed (calls ++ [e]))
    (hsent : ∀ p, sentBy p [e] = []) : Crossed calls := by
  intro p
  have hp := hcross p
  unfold Outstanding takenBy at hp ⊢
  rw [sentBy_append, hsent, List.append_nil, List.countP_append] at hp
  exact Nat.lt_of_le_of_lt (Nat.le_add_right _ _) hp

/-- Writing a packet does not cross them. -/
theorem crossed_of_writing {tr : List Ciphered.Label} {limit : Usize}
    {result : Except PacketError Unit}
    (hcross : Ciphered.Crossed (tr ++ [.act p (.writing limit result)])) : Ciphered.Crossed tr := by
  intro q
  have hq := hcross q
  unfold Ciphered.Outstanding Ciphered.takenBy at hq ⊢
  rw [Ciphered.encryptedBy_append, List.countP_append] at hq
  simpa [Ciphered.encryptedBy] using hq

/-! ### A `recv` more -/

section Recv

variable {limit : Usize} {result : Except (Fault PacketError) Bytes}

theorem limitsAgree_recv (h : LimitsAgree calls)
    (hlimit : ∀ sent ∈ sendLimits p calls, sent.toNat ≤ limit.toNat) :
    LimitsAgree (calls ++ [(p.peer, .recv limit result)]) := by
  intro q sent hsent within hwithin
  have hnone : sendLimits q [(p.peer, .recv limit result)] = [] := rfl
  rw [sendLimits_append, hnone, List.append_nil] at hsent
  rw [recvLimits_append] at hwithin
  rcases List.mem_append.mp hwithin with hold | hnew
  · exact h q sent hsent within hold
  · cases Party.eq_or_eq_peer p q with
    | inl heq =>
      subst heq
      obtain rfl : within = limit := by simpa [recvLimits] using hnew
      exact hlimit sent hsent
    | inr heq =>
      subst heq
      simp [recvLimits] at hnew

theorem neverCrossed_recv (h : NeverCrossed calls) :
    NeverCrossed (calls ++ [(p, .recv limit result)]) := by
  intro pre hpre
  rcases List.prefix_concat_iff.mp hpre with rfl | hbefore
  · intro hcross
    refine h calls List.prefix_rfl (crossed_of_append hcross fun q => ?_)
    cases result <;> rfl
  · exact h pre hbefore

theorem unrefused_recv (h : Unrefused calls) : Unrefused (calls ++ [(p, .recv limit result)]) := by
  intro q level within fresh message returned hmem
  refine h q level within fresh message returned ?_
  simpa using hmem

end Recv

/-- A `send` begins with its critical section. -/
theorem Moves.sealing {level : Level} {limit : Usize} {fresh : Nonce} {message : Buf}
    {result : Except (Fault PacketError) Unit} {more : List Ciphered.Label}
    (h : Moves p (.send level limit fresh message result) more) :
    ∃ held sealed rest, more = .act p (.sealing held level fresh message sealed) :: rest ∧
      (sealed = .error (.error .broken) → result = .error (.error .broken)) := by
  cases h with
  | @unsealed held _ _ _ _ error =>
    refine ⟨held, .error error, [], rfl, fun hbroken => ?_⟩
    cases hbroken
    rfl
  | @written held _ _ _ _ packet | @refused held _ _ _ _ packet | @lost held _ _ _ _ packet =>
    exact ⟨held, .ok packet, [_], rfl, fun hbroken => by cases hbroken⟩

/-- What is known of moves that are out of step, said of calls. -/
theorem Plays.outOfStep {post : List (Party × Call)} {after : List Ciphered.Label}
    (h : Plays post after) {within : Usize} {written : Except PacketError Unit}
    (hmoves : Ciphered.OutOfStep (.act p (.writing within written) :: after)) : OutOfStep post where
  recv := by
    rintro before q limit result rest rfl
    obtain ⟨first, last, rfl, hfirst, hrest⟩ := h.split
    cases hrest with
    | @cons _ _ _ _ last hone _ =>
      cases hone with
      | @opened held stored _ packet =>
        have hopens : (∃ e ∈ .act p (.writing within written) ::
            (first ++ [.act q (.fetching limit (.ok packet))]), opensBy q e) ↔
              Received q before := by
          rw [← hfirst.opens_iff q]
          simp [opensBy]
        rcases hmoves.opening (.act p (.writing within written) ::
            (first ++ [.act q (.fetching limit (.ok packet))])) q held packet result stored last
            (by simp) with ⟨hnone, hresult⟩ | ⟨hsome, hresult⟩
        · refine .inl ⟨fun hreceived => ?_, hresult⟩
          obtain ⟨e, he, hopened⟩ := hopens.mpr hreceived
          exact hnone e he hopened
        · exact .inr ⟨hopens.mp hsome, hresult⟩
  send := by
    rintro before q level limit fresh message result rest rfl hreceived
    obtain ⟨first, last, rfl, hfirst, hrest⟩ := h.split
    obtain ⟨e, he, hopens⟩ := (hfirst.opens_iff q).mpr hreceived
    cases hrest with
    | @cons _ _ _ _ last hone _ =>
      obtain ⟨held, sealed, more, rfl, hbroken⟩ := hone.sealing
      apply hbroken
      exact hmoves.sealing (.act p (.writing within written) :: first) q held level fresh message
        sealed (more ++ last) (by simp) ⟨e, List.mem_cons_of_mem _ he, hopens⟩

/-- Behind the call that crossed the directions nothing is received any more. -/
theorem Smooth.outOfStep (h : Smooth V payload aead key nonce calls moves session)
    (hideal : aead.Ideal) (hfresh : (nonce :: drawn calls).Nodup) {pre post : List (Party × Call)}
    {e : Party × Call} (hcalls : calls = pre ++ e :: post) (hbefore : NeverCrossed pre)
    (hcross : Crossed (pre ++ [e])) : OutOfStep post := by
  subst hcalls
  have hdrawn : Ciphered.Fresh nonce moves := by
    rw [Ciphered.Fresh, h.plays.drawn]
    exact hfresh
  have hnot : ¬ Crossed pre := hbefore pre List.prefix_rfl
  obtain ⟨first, last, rfl, hfirst, hrest⟩ := h.plays.split
  obtain ⟨t, hrun, hafter⟩ := Run.split h.run
  have hsmooth : Smooth V payload aead key nonce pre first t :=
    ⟨hrun, hfirst, h.unrefused.of_append⟩
  cases hrest with
  | @cons p call _ more after hmoves hpost =>
    cases hmoves with
    | unsealed | refused | lost => exact absurd (crossed_of_append hcross fun _ => rfl) hnot
    | @opened _ _ _ _ result =>
      exact absurd (crossed_of_append hcross fun _ => by cases result <;> rfl) hnot
    | @written held level limit fresh message packet =>
      obtain ⟨t', hsealing, hrest'⟩ := Run.cons_iff.mp hafter
      obtain ⟨u, hwriting, _⟩ := Run.cons_iff.mp hrest'
      have hsmooth' : Smooth V payload aead key nonce
          (pre ++ [(p, .send level limit fresh message (.ok ()))])
          (first ++ [.act p (.sealing held level fresh message (.ok packet)),
            .act p (.writing limit (.ok ()))]) u := by
        refine ⟨?_, hfirst.snoc .written, ?_⟩
        · rw [List.append_cons]
          exact (hrun.snoc hsealing).snoc hwriting
        · have hall := h.unrefused
          rw [List.append_cons] at hall
          exact hall.of_append
      have hcrossed : Ciphered.Crossed
          (first ++ [.act p (.sealing held level fresh message (.ok packet))]) := by
        have hboth := (hsmooth'.crossed_iff hideal).mpr hcross
        rw [List.append_cons] at hboth
        exact crossed_of_writing hboth
      have hsplit : first ++ ([.act p (.sealing held level fresh message (.ok packet)),
            .act p (.writing limit (.ok ()))] ++ after) =
          (first ++ [.act p (.sealing held level fresh message (.ok packet))]) ++
            (.act p (.writing limit (.ok ())) :: after) := by simp
      rw [hsplit] at hdrawn
      have hpart : Ciphered.Fresh nonce
          (first ++ [.act p (.sealing held level fresh message (.ok packet))]) :=
        hdrawn.sublist (List.Sublist.cons_cons nonce ((List.sublist_append_left _ _).filterMap _))
      obtain ⟨a, hcarried, hlost⟩ := Ciphered.lost_of_crossing hideal hpart hrun hsealing
        (hsmooth.neverCrossed hideal hbefore) hcrossed
      exact hpost.outOfStep (Ciphered.outOfStep_of_lost hideal hdrawn hcarried hlost hrest')

/-! ## What is under way in step -/

section InStep

variable (h : Played V payload aead key nonce calls moves s) (hideal : aead.Ideal)
  (hunrefused : Unrefused calls) (hcalls : NeverCrossed calls)
include h hideal hunrefused hcalls

/-- In step, a party that has read the stream to its end has received everything. -/
theorem Played.complete (hnil : s.wire p = []) : receivedBy p.peer calls = sentBy p calls := by
  have hsmooth := h.smooth hunrefused
  have hstep := hsmooth.inStep hideal hcalls
  obtain ⟨packets, ⟨flight, hwire, _, hpackets⟩, hlength⟩ := hstep.in_transit p
  have hflight : flight = [] := by
    cases flight with
    | nil => rfl
    | cons packet rest =>
      rw [show s.session.wire p = [] from hnil, List.map_cons, List.flatten_cons] at hwire
      exact absurd (List.append_eq_nil_iff.mp hwire.symm).1 (frame_ne_nil V packet)
  have hnone : packets = [] := by
    rw [hpackets, hflight]
    rfl
  rw [hnone, List.length_nil, Nat.add_zero] at hlength
  have horder := hstep.in_order p
  rw [List.take_of_length_le (Nat.le_of_eq hlength), hsmooth.plays.received,
    hsmooth.plays.encrypted hunrefused] at horder
  exact horder

/-- In step, something that was not received is in front of the reader. -/
theorem Played.front (hmissing : receivedBy p.peer calls ≠ sentBy p calls) :
    ∃ packet rest, ∃ limit ∈ sendLimits p calls, packet.length ≤ limit.toNat ∧
      s.wire p = frame V packet ++ rest := by
  obtain ⟨read, flying, hflight⟩ := h.flight p
  cases flying with
  | nil => exact absurd (h.complete hideal hunrefused hcalls hflight.wire_eq) hmissing
  | cons entry rest =>
    obtain ⟨_, limit, hlimit, hle⟩ := hflight.in_flight _ List.mem_cons_self
    exact ⟨entry.2, _, limit, hlimit, hle, hflight.wire_eq⟩

/-- In step, two parties that have received everything have the same cipher. -/
theorem Played.cipher_eq_peer (hall : ∀ p, receivedBy p.peer calls = sentBy p calls) :
    s.cipher .client = s.cipher .server := by
  have hsmooth := h.smooth hunrefused
  have hstep := hsmooth.inStep hideal hcalls
  obtain ⟨n, hn⟩ := hstep.ciphers fun p hout => by
    have horder := hstep.in_order p
    rw [hsmooth.plays.received, hall, ← hsmooth.plays.encrypted hunrefused, eq_comm,
      List.take_eq_self_iff] at horder
    exact Nat.not_lt_of_le horder hout
  exact (hn .client).trans (hn .server).symm

end InStep

end TcpHandler.Session.Whole
