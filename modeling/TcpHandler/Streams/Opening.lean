/-
  Streams/Opening.lean --- how a connection opens.

  Two constructors run at the same time, their bytes arrive in pieces, and a server
  that has its handler may send, or drop it, before the client has read its reply.
  None of this shows: the constructors return what they return when they are run
  one after the other (`results_in_turn`), and they do return (`opening_completes`).
-/
import TcpHandler.Streams.Linked

set_option autoImplicit false

namespace TcpHandler.Streams

open TcpHandler.Foundation TcpHandler.Protocols
open TcpHandler.Protocols.Variants

/-- What a constructor that will put `n` bytes under way has left to do. -/
def Stage.pending {Init : Type} (n : Nat) : Stage Init → Nat
  | .fresh => n + 2
  | .opening _ => 1
  | _ => 0

theorem Stage.pending_ofResult {Init ε : Type} (n : Nat) (result : Except ε (Option Cipher)) :
    (ofResult result : Stage Init).pending n = 0 := by
  cases result <;> rfl

/-- Two parties that get along. -/
def Setup.reference (protocol : ProtocolVariant) : Setup Unit Unit where
  protocol _ := protocol
  identifier _ := "a"
  version _ := "1"
  versionPrediction _ := true
  drawn := .ok ()
  aesKey := Reference.key
  nonce := Reference.nonce 0
  seed := ()

namespace Connection

/-- What the transport and the two constructors do. -/
def Label.Opening : Label → Prop
  | .arrive _ _ | .clientInit | .newServer _ | .newClient _ => True
  | _ => False

section Opening

variable {V : VariableLen} {W : Type} [AsyncWrite W] {Sk Pk Seed : Type} {rsa : Rsa Sk Pk Seed}
  {flate : Flate} {aead : Aead} {B : Buffering W} {setup : Setup Sk Seed} {tr : List Label}
  {s s' : Connection W setup.Init} {phase : Phase} {wire : Party → Bytes} {e : Label}

/-! ## A connection

The request arrives in two pieces, and the server sends before the client has read
its reply. -/

/-- The steps of the connection. -/
def opened : List Label :=
  [.clientInit, .arrive .client 5, .arrive .client 10,
    .newServer (.ok ⟨some (Cipher.new (Reference.key, Reference.nonce 0)), "1"⟩),
    .sealed .server (.send 0 64 (Reference.nonce 1) [[7]] (.ok ())), .arrive .server 50,
    .newClient (.ok ⟨some (Cipher.new (Reference.key, Reference.nonce 0))⟩)]

theorem run_opened : ∃ s, Run (Step Reference.variableLen Reference.rsa Reference.flate
    Reference.aead Reference.bufWriter (Setup.reference .encryption)) (start Reference.bufWriter
      (Setup.reference .encryption)) opened s :=
  ⟨_, Run.cons_iff.mpr ⟨_, .clientInit rfl rfl,
    Run.cons_iff.mpr ⟨_, .arrive (by decide) (by decide),
    Run.cons_iff.mpr ⟨_, .arrive (by decide) (by decide),
    Run.cons_iff.mpr ⟨_, .newServer rfl rfl rfl,
    Run.cons_iff.mpr ⟨_, .sendSealed rfl rfl rfl,
    Run.cons_iff.mpr ⟨_, .arrive (by decide) (by decide),
    Run.cons_iff.mpr ⟨_, @Step.newClient _ _ _ _ _ _ _ _ _ _ _ _ _ (.ok _) _ rfl rfl rfl,
    .nil⟩⟩⟩⟩⟩⟩⟩⟩

/-! ## What the constructors return -/

/-- The data under way after any run, and what the constructors returned in it. -/
theorem linked_of_run (hV : V.Patient)
    (hrun : Run (Step V rsa flate aead B setup) (start B setup) tr s) :
    (∃ phase wire, Linked V rsa B setup phase s wire) ∧
      (∀ result, .newServer result ∈ tr → result = (inTurn V rsa B setup).1) ∧
        ∀ result, .newClient result ∈ tr → result = (inTurn V rsa B setup).2 := by
  refine Run.invariant (I := fun tr s => (∃ phase wire, Linked V rsa B setup phase s wire) ∧
    (∀ result, .newServer result ∈ tr → result = (inTurn V rsa B setup).1) ∧
      ∀ result, .newClient result ∈ tr → result = (inTurn V rsa B setup).2)
    ⟨⟨_, _, linked_start⟩, by simp, by simp⟩ ?_ hrun
  rintro tr s e s' _ ⟨⟨phase, wire, hlinked⟩, hserver, hclient⟩ hstep
  obtain ⟨phase', wire', hlinked', heffect⟩ := hlinked.step hV hstep
  refine ⟨⟨phase', wire', hlinked'⟩, fun result hmem => ?_, fun result hmem => ?_⟩
  · rcases List.mem_append.mp hmem with hold | hnew
    · exact hserver result hold
    · obtain rfl := List.mem_singleton.mp hnew
      exact heffect.1
  · rcases List.mem_append.mp hmem with hold | hnew
    · exact hclient result hold
    · obtain rfl := List.mem_singleton.mp hnew
      exact heffect.1

/-- However the two constructors are interleaved with each other, with the arrival of
their bytes and with the calls of the first handler, they return what they return
when they are run one after the other. -/
theorem results_in_turn (hV : V.Patient)
    (hrun : Run (Step V rsa flate aead B setup) (start B setup) tr s) :
    (∀ result, .newServer result ∈ tr → result = (inTurn V rsa B setup).1) ∧
      ∀ result, .newClient result ∈ tr → result = (inTurn V rsa B setup).2 :=
  (linked_of_run hV hrun).2

theorem results_in_turn_opened :
    (∀ result, .newServer result ∈ opened → result = (inTurn Reference.variableLen Reference.rsa
        Reference.bufWriter (Setup.reference .encryption)).1) ∧
      ∀ result, .newClient result ∈ opened → result = (inTurn Reference.variableLen Reference.rsa
        Reference.bufWriter (Setup.reference .encryption)).2 := by
  obtain ⟨s, hrun⟩ := run_opened
  exact results_in_turn Reference.variableLen_patient hrun

/-- A server that has done something has returned. -/
theorem newServer_of_run (hrun : Run (Step V rsa flate aead B setup) (start B setup) tr s)
    (hserver : s.stage .server ≠ .fresh) : ∃ result, .newServer result ∈ tr := by
  induction hrun with
  | nil => exact absurd rfl hserver
  | @snoc tr s s' e _ hstep ih =>
    by_cases hbefore : s.stage .server = .fresh
    · have hnot : ∀ {p : Party} {cipher : Option Cipher}, s.stage p = .live cipher →
          .server ≠ p := by
        rintro p cipher hlive rfl
        rw [hbefore] at hlive
        cases hlive
      cases hstep with
      | newServer => exact ⟨_, List.mem_append_right _ (List.mem_singleton_self _)⟩
      | clientInit | newClient => exact absurd (by simpa using hbefore) hserver
      | sendSealed _ hlive | recvSealed _ hlive | lostSealed _ hlive | drop hlive =>
        exact absurd (by simpa [Function.update_of_ne (hnot hlive)] using hbefore) hserver
      | _ => exact absurd hbefore hserver
    · obtain ⟨result, hmem⟩ := ih hbefore
      exact ⟨result, List.mem_append_left _ hmem⟩

/-- What a client's constructor that succeeds does to the two ends. -/
theorem stage_of_newClient {handler : ClientHandler}
    (hstep : Step V rsa flate aead B setup s (.newClient (.ok handler)) s') :
    s'.stage .client = .live handler.cipher ∧ s'.stage .server = s.stage .server := by
  generalize he : Label.newClient (.ok handler) = e at hstep
  cases hstep with
  | @newClient init started left hopening hreturns hcall =>
    cases started with
    | ok cipher =>
      cases he
      exact ⟨by simp [Stage.ofResult], by simp⟩
    | error e => cases he
  | _ => cases he

/-- Two handlers of one connection fit each other: a server that returns one has
checked the client, the client returns one after the server, and both have the
cipher of the session. -/
theorem handlers_agree (hV : V.Patient)
    (hrun : Run (Step V rsa flate aead B setup) (start B setup) tr s) :
    (∀ handler, .newServer (.ok handler) ∈ tr → setup.firstFailing = none ∧
      handler = ⟨sessionCipher setup.aesKey setup.nonce (setup.protocol .client),
        setup.version .client⟩) ∧
      ∀ pre handler post, tr = pre ++ .newClient (.ok handler) :: post →
        ∃ accepted, .newServer (.ok accepted) ∈ pre ∧ handler.cipher = accepted.cipher := by
  obtain ⟨_, hserver, hclient⟩ := linked_of_run hV hrun
  refine ⟨fun handler hmem => ?_, fun pre handler post htr => ?_⟩
  · have hresult := hserver _ hmem
    have hserved : Served V rsa B setup := ⟨handler, hresult.symm⟩
    rw [inTurn_served hV hserved] at hresult
    exact ⟨((served_iff hV).mp hserved).2, Except.ok.inj hresult⟩
  · subst htr
    obtain ⟨t, hbefore, hrest⟩ := hrun.split
    obtain ⟨t', hstep, _⟩ := Run.cons_iff.mp hrest
    obtain ⟨⟨phase, wire, hlinked⟩, hresults, _⟩ := linked_of_run hV hbefore
    obtain ⟨phase', wire', hlinked', heffect⟩ := hlinked.step hV hstep
    obtain ⟨hlive, hstage⟩ := stage_of_newClient hstep
    have hserved := hlinked'.served .client _ hlive
    have hreturned : t.stage .server ≠ .fresh := by
      rw [← hstage]
      exact hlinked'.fits.peer_of_live hlive
    obtain ⟨result, hmem⟩ := newServer_of_run hbefore hreturned
    have hresult := hresults result hmem
    have hhandler := heffect.1
    rw [inTurn_served hV hserved] at hresult hhandler
    subst hresult
    exact ⟨_, hmem, congrArg ClientHandler.cipher (Except.ok.inj hhandler)⟩

theorem handlers_agree_opened :
    (∀ handler, .newServer (.ok handler) ∈ opened →
      (Setup.reference .encryption).firstFailing = none ∧
        handler = ⟨some (Cipher.new (Reference.key, Reference.nonce 0)), "1"⟩) ∧
      ∀ pre handler post, opened = pre ++ .newClient (.ok handler) :: post →
        ∃ accepted, .newServer (.ok accepted) ∈ pre ∧ handler.cipher = accepted.cipher := by
  obtain ⟨s, hrun⟩ := run_opened
  exact handlers_agree Reference.variableLen_patient hrun

/-! ## That they return -/

variable (V rsa B setup) in
/-- What the transport and the constructors have left to do.  A constructor pays for
the bytes it puts under way. -/
def remaining (s : Connection W setup.Init) : Nat :=
  (s.pipe .client).transit.length + (s.pipe .server).transit.length +
    (s.stage .client).pending (request V rsa B setup).length +
    (s.stage .server).pending (reply V rsa B setup).length

/-- Every step of the transport or of a constructor leaves less to do. -/
theorem remaining_lt (hV : V.Patient) (h : Linked V rsa B setup phase s wire)
    (hstep : Step V rsa flate aead B setup s e s') (he : e.Opening) :
    remaining V rsa B setup s' < remaining V rsa B setup s := by
  unfold remaining
  cases hstep with
  | @arrive p n hpos hle =>
    cases p <;> simp [Pipe.arrive] <;> omega
  | @clientInit init w hfresh hcall =>
    have hnew := h.fresh .client hfresh
    rw [hnew] at hcall
    have hasking : asking V rsa B setup = (init, w) := hcall
    have hrequest : request V rsa B setup = B.delivered w := by rw [request, hasking]
    simp [hfresh, hnew, hrequest, Pipe.write, Pipe.new, B.delivered_new, Stage.pending]
    omega
  | @newServer result left w hfresh hreturns hcall =>
    have hreply : reply V rsa B setup = B.delivered w := by
      rw [reply, h.answering_eq hV hfresh hreturns hcall]
    have htransit : (settle result ((s.pipe .server).write B w)).transit = B.delivered w := by
      rw [h.fresh .server hfresh]
      cases result <;> simp [settle, Pipe.write, Pipe.new, Pipe.close, B.delivered_new]
    simp [hfresh, hreply, htransit, Pipe.read, Stage.pending_ofResult]
    simp [Stage.pending]
    omega
  | @newClient init started left hopening hreturns hcall =>
    have htransit : (settle started (s.pipe .client)).transit = (s.pipe .client).transit := by
      cases started <;> rfl
    simp [hopening, htransit, Pipe.read, Stage.pending_ofResult]
    simp [Stage.pending]
  | _ => exact he.elim

/-- Bytes that are under way can arrive. -/
theorem arrives {p : Party} (htransit : (s.pipe p).transit ≠ []) :
    ∃ n s', Step V rsa flate aead B setup s (.arrive p n) s' :=
  ⟨_, _, .arrive (List.length_pos_iff.mpr htransit) (Nat.le_refl _)⟩

/-- As long as a constructor has not returned, bytes arrive or a constructor goes on. -/
theorem opening_goes_on (hV : V.Patient) (h : Linked V rsa B setup phase s wire)
    (hopen : ¬ ((s.stage .client).Returned ∧ (s.stage .server).Returned)) :
    ∃ e s', e.Opening ∧ Step V rsa flate aead B setup s e s' := by
  have hfits := h.fits
  cases phase with
  | opened => exact absurd hfits hopen
  | fresh => exact ⟨.clientInit, _, trivial, .clientInit hfits.1 rfl⟩
  | asked =>
    obtain ⟨hclient, hfresh⟩ := hfits
    by_cases htransit : (s.pipe .client).transit = []
    · -- the server reads a whole request, or finds that nobody asks, or the client is
      -- the one that returns
      cases hasking : (asking V rsa B setup).1 with
      | error e =>
        rcases hclient with hopening | hgone
        · refine ⟨.newClient _, _, trivial, .newClient hopening ?_ rfl⟩
          rw [Pipe.returns, Io.ends, hasking, run_clientStart_unasked]
          simpa using .inl (isEnd_asking hasking)
        · exact ⟨.newServer _, _, trivial, .newServer hfresh
            (Pipe.returns_of_arrived (B := B) htransit (.inl ((h.closed .client).mpr hgone))) rfl⟩
      | ok k =>
        refine ⟨.newServer _, _, trivial, .newServer hfresh
          (Pipe.returns_of_arrived (B := B) htransit (.inr ⟨?_, h.held .client⟩)) rfl⟩
        rw [h.carries .client (by simp [Party.peer, hfresh]), h.unsent hfresh, List.append_nil]
        exact ends_request hasking
    · obtain ⟨n, s', hstep⟩ := arrives htransit
      exact ⟨.arrive _ n, s', trivial, hstep⟩
  | answered =>
    obtain ⟨hopening, hserver⟩ := hfits
    by_cases htransit : (s.pipe .server).transit = []
    · refine ⟨.newClient _, _, trivial, .newClient hopening ?_ rfl⟩
      rcases hserver with ⟨c, hlive⟩ | hgone
      · refine Pipe.returns_of_arrived (B := B) htransit (.inr ⟨?_, h.held .server⟩)
        rw [h.carries .server (by simp [Party.peer, hopening])]
        exact ends_reply hV (h.served .server c hlive) _
      · exact Pipe.returns_of_arrived (B := B) htransit (.inl ((h.closed .server).mpr hgone))
    · obtain ⟨n, s', hstep⟩ := arrives htransit
      exact ⟨.arrive _ n, s', trivial, hstep⟩

/-- From whatever has happened on a connection, the transport and the constructors
take no more than `remaining` steps, and they do not get stuck before both
constructors have returned. -/
theorem opening_completes (hV : V.Patient)
    (hrun : Run (Step V rsa flate aead B setup) (start B setup) tr s) {tr' : List Label}
    (hrest : Run (Step V rsa flate aead B setup) s tr' s') (hopening : ∀ e ∈ tr', e.Opening) :
    tr'.length ≤ remaining V rsa B setup s ∧
      ((s'.stage .client).Returned ∧ (s'.stage .server).Returned ∨
        ∃ e s'', e.Opening ∧ Step V rsa flate aead B setup s' e s'') := by
  obtain ⟨hinit, _⟩ := linked_of_run hV hrun
  obtain ⟨⟨phase, wire, hlinked⟩, hle⟩ := hrest.length_le
    (I := fun s => ∃ phase wire, Linked V rsa B setup phase s wire) hinit
    (fun ⟨phase, wire, h⟩ hstep => by
      obtain ⟨phase', wire', h', _⟩ := h.step hV hstep
      exact ⟨⟨phase', wire', h'⟩, remaining_lt hV h hstep⟩) hopening
  refine ⟨Nat.le_trans (Nat.le_add_right _ _) hle, ?_⟩
  by_cases hdone : (s'.stage .client).Returned ∧ (s'.stage .server).Returned
  · exact .inl hdone
  · exact .inr (opening_goes_on hV hlinked hdone)

/-- The first half of the connection, from its start. -/
theorem opening_completes_opened : ∃ s : Connection Reference.BufWriter
      (Setup.reference .encryption).Init,
    4 ≤ remaining Reference.variableLen Reference.rsa Reference.bufWriter
        (Setup.reference .encryption) (start Reference.bufWriter _) ∧
      ((s.stage .client).Returned ∧ (s.stage .server).Returned ∨
        ∃ e s', e.Opening ∧ Step Reference.variableLen Reference.rsa Reference.flate Reference.aead
          Reference.bufWriter _ s e s') := by
  obtain ⟨s, hrun⟩ := run_opened
  obtain ⟨t, hfirst, _⟩ := Run.split (show Run _ _ (opened.take 4 ++ opened.drop 4) s from hrun)
  exact ⟨t, opening_completes Reference.variableLen_patient .nil hfirst
    (by simp [opened, Label.Opening])⟩

end Opening

end Connection

end TcpHandler.Streams
