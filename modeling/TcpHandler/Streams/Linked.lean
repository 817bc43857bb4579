/-
  Streams/Linked.lean --- the data under way on a connection.

  On a connection the handshake and the data share the pipes.  `Linked phase s wire`
  takes them apart: `phase` says which halves of the handshake are unread, and
  `wire` are the bytes that each party has sent behind its half and its peer has
  not read.  It holds at the start, and there is one lemma for each kind of step:

      arrive, drop                nothing happens to the data
      write                       data are put at the end
      fetch                       a packet is taken from the front
      ended                       what is left is taken
      clientInit, newServer,      the handshake goes on, and the constructors
      newClient                   return what they return in turn
-/
import TcpHandler.Streams.Calls

set_option autoImplicit false

namespace TcpHandler.Streams

open TcpHandler.Foundation TcpHandler.Protocols
open TcpHandler.Protocols.Variants

namespace Connection

/-! ## How far a connection is -/

/-- The halves of the handshake that are unread. -/
inductive Phase where
  /-- the client has written nothing -/
  | fresh
  /-- the server has not returned -/
  | asked
  /-- the server has returned, the client has not -/
  | answered
  /-- both have returned -/
  | opened

section Linked

variable (V : VariableLen) {W : Type} [AsyncWrite W] {Sk Pk Seed : Type} (rsa : Rsa Sk Pk Seed)
  (B : Buffering W) (setup : Setup Sk Seed)

/-- The bytes of the handshake in front of the data of a party. -/
def Phase.owed : Phase → Party → Bytes
  | .asked, .client => request V rsa B setup
  | .answered, .server => reply V rsa B setup
  | _, _ => []

/-- What has become of the two ends. -/
def Phase.Fits (stage : Party → Stage setup.Init) : Phase → Prop
  | .fresh => stage .client = .fresh ∧ stage .server = .fresh
  | .asked => (stage .client = .opening (asking V rsa B setup).1 ∨ stage .client = .closed) ∧
      stage .server = .fresh
  | .answered => stage .client = .opening (asking V rsa B setup).1 ∧ (stage .server).Returned
  | .opened => (stage .client).Returned ∧ (stage .server).Returned

/-- A connection and the data that are under way on it.

* `carries`: what a party has written and its peer has not read is the handshake,
  then data, as long as the peer may read it.
* `unsent`, `silent`: a server that has not returned has sent no data, and one that
  returns no handler sends none. -/
structure Linked (phase : Phase) (s : Connection W setup.Init) (wire : Party → Bytes) : Prop where
  fits : phase.Fits V rsa B setup s.stage
  fresh : ∀ p, s.stage p = .fresh → s.pipe p = Pipe.new B
  unsent : s.stage .server = .fresh → ∀ p, wire p = []
  closed : ∀ p, (s.pipe p).closed = true ↔ s.stage p = .closed
  held : ∀ p, (s.pipe p).held B = []
  served : ∀ p cipher, s.stage p = .live cipher → Served V rsa B setup
  silent : ¬ Served V rsa B setup → wire .server = []
  carries : ∀ p, s.stage p.peer ≠ .closed →
    (s.pipe p).unread B = phase.owed V rsa B setup p ++ wire p

variable {V rsa B setup} {phase : Phase} {s : Connection W setup.Init} {wire : Party → Bytes}
  {p : Party}

theorem linked_start : Linked V rsa B setup .fresh (start B setup) fun _ => [] where
  fits := ⟨rfl, rfl⟩
  fresh _ _ := rfl
  unsent _ _ := rfl
  closed p := by simp [start, Pipe.new]
  held p := by simp [start, Pipe.new, Pipe.held, B.buffered_new]
  served _ _ h := by simp [start] at h
  silent _ := rfl
  carries p _ := by cases p <;> exact Pipe.unread_new

/-- A party with a handler has an open pipe. -/
theorem Linked.open_of_live (h : Linked V rsa B setup phase s wire) {cipher : Option Cipher}
    (hlive : s.stage p = .live cipher) : (s.pipe p).closed = false := by
  cases hclosed : (s.pipe p).closed with
  | false => rfl
  | true =>
    rw [(h.closed p).mp hclosed] at hlive
    cases hlive

/-- A client has a handler when both have returned, a server as soon as it has. -/
theorem Phase.Fits.of_live {stage : Party → Stage setup.Init}
    (hfits : phase.Fits V rsa B setup stage) {cipher : Option Cipher}
    (hlive : stage p = .live cipher) :
    phase = .opened ∨ phase = .answered ∧ p = .server := by
  cases phase with
  | opened => exact .inl rfl
  | fresh | asked | answered =>
    cases p with
    | client =>
      simp only [Fits, hlive] at hfits
      simp at hfits
    | server => simp_all [Fits]

/-- The peer of a handler has done something. -/
theorem Phase.Fits.peer_of_live {stage : Party → Stage setup.Init}
    (hfits : phase.Fits V rsa B setup stage) {cipher : Option Cipher}
    (hlive : stage p = .live cipher) :
    stage p.peer ≠ .fresh := by
  rcases hfits.of_live hlive with rfl | ⟨rfl, rfl⟩
  · obtain ⟨hclient, hserver⟩ := hfits
    cases p with
    | client => rcases hserver with ⟨_, hserver⟩ | hserver <;> simp [Party.peer, hserver]
    | server => rcases hclient with ⟨_, hclient⟩ | hclient <;> simp [Party.peer, hclient]
  · simp [Party.peer, hfits.1]

theorem Linked.server_of_live (h : Linked V rsa B setup phase s wire) {cipher : Option Cipher}
    (hlive : s.stage p = .live cipher) : s.stage .server ≠ .fresh := by
  cases p with
  | client => exact h.fits.peer_of_live hlive
  | server => simp [hlive]

/-- A party with a handler has read the handshake. -/
theorem Linked.owed_of_live (h : Linked V rsa B setup phase s wire) {cipher : Option Cipher}
    (hlive : s.stage p = .live cipher) : phase.owed V rsa B setup p.peer = [] := by
  rcases h.fits.of_live hlive with rfl | ⟨rfl, rfl⟩
  · cases p <;> rfl
  · rfl

/-- What a party with a handler has to read are data. -/
theorem Linked.unread_of_live (h : Linked V rsa B setup phase s wire) {cipher : Option Cipher}
    (hlive : s.stage p = .live cipher) : (s.pipe p.peer).unread B = wire p.peer := by
  rw [h.carries p.peer (by rw [Party.peer_peer, hlive]; simp), h.owed_of_live hlive,
    List.nil_append]

/-- When everything has arrived, the reader of a handler has the data. -/
theorem Linked.reader_of_live (h : Linked V rsa B setup phase s wire) {cipher : Option Cipher}
    (hlive : s.stage p = .live cipher) (htransit : (s.pipe p.peer).transit = []) :
    (s.pipe p.peer).reader = wire p.peer := by
  have hunread := h.unread_of_live hlive
  rwa [Pipe.unread, htransit, h.held, List.append_nil, List.append_nil] at hunread

/-- A party that had a handler has another, or none. -/
theorem Phase.Fits.update {stage : Party → Stage setup.Init}
    (hfits : phase.Fits V rsa B setup stage) {cipher : Option Cipher}
    (hlive : stage p = .live cipher) {next : Stage setup.Init} (hnext : next.Returned) :
    phase.Fits V rsa B setup (Function.update stage p next) := by
  rcases hfits.of_live hlive with rfl | ⟨rfl, rfl⟩
  · obtain ⟨hclient, hserver⟩ := hfits
    cases p with
    | client => exact ⟨by simpa using hnext, by simpa using hserver⟩
    | server => exact ⟨by simpa using hclient, by simpa using hnext⟩
  · exact ⟨by simpa using hfits.1, by simpa using hnext⟩

/-! ### Handlers -/

/-- The pipes and the data of the others. -/
theorem Linked.carries_frame (h : Linked V rsa B setup phase s wire) {s' : Connection W setup.Init}
    {data : Bytes} (hopen : s.stage p.peer ≠ .closed) (hpipe : s'.pipe p = s.pipe p)
    (hdata : data = wire p) : (s'.pipe p).unread B = phase.owed V rsa B setup p ++ data := by
  rw [hpipe, hdata]
  exact h.carries p hopen

/-- A write of a handler that was flushed. -/
theorem Linked.write (h : Linked V rsa B setup phase s wire) {cipher : Option Cipher}
    (hlive : s.stage p = .live cipher) {w : W} {bytes : Bytes}
    (happends : B.Appends (s.pipe p).writer w bytes) (hbuffered : B.buffered w = []) :
    Linked V rsa B setup phase { s with pipe := Function.update s.pipe p ((s.pipe p).write B w) }
      (Function.update wire p (wire p ++ bytes)) where
  fits := h.fits
  fresh q hfresh := by
    have hq : q ≠ p := by
      rintro rfl
      rw [show s.stage q = .fresh from hfresh] at hlive
      cases hlive
    simpa [Function.update_of_ne hq] using h.fresh q hfresh
  unsent hserver := absurd hserver (h.server_of_live hlive)
  closed q := by
    by_cases hq : q = p
    · subst hq
      simpa using h.closed q
    · simpa [Function.update_of_ne hq] using h.closed q
  held q := by
    by_cases hq : q = p
    · subst hq
      simpa using Pipe.held_write hbuffered
    · simpa [Function.update_of_ne hq] using h.held q
  served := h.served
  silent hserved := by
    have hp : .server ≠ p := by
      rintro rfl
      exact hserved (h.served _ cipher hlive)
    rw [Function.update_of_ne hp]
    exact h.silent hserved
  carries q hopen := by
    by_cases hq : q = p
    · subst hq
      simp only [Function.update_self]
      rw [Pipe.unread_write (h.open_of_live hlive) happends, h.carries q hopen, List.append_assoc]
    · exact h.carries_frame hopen (Function.update_of_ne hq _ _)
        (Function.update_of_ne hq _ _)

/-- What the reader of a handler has left of its stream. -/
theorem Linked.left (h : Linked V rsa B setup phase s wire) {cipher : Option Cipher}
    (hlive : s.stage p = .live cipher) {left data : Bytes}
    (hcarries : ((s.pipe p.peer).read left).unread B = data) :
    Linked V rsa B setup phase
      { s with pipe := Function.update s.pipe p.peer ((s.pipe p.peer).read left) }
      (Function.update wire p.peer data) where
  fits := h.fits
  fresh q hfresh := by
    have hq : q ≠ p.peer := by
      rintro rfl
      exact h.fits.peer_of_live hlive hfresh
    simpa [Function.update_of_ne hq] using h.fresh q hfresh
  unsent hserver := absurd hserver (h.server_of_live hlive)
  closed q := by
    by_cases hq : q = p.peer
    · subst hq
      simpa using h.closed p.peer
    · simpa [Function.update_of_ne hq] using h.closed q
  held q := by
    by_cases hq : q = p.peer
    · subst hq
      simpa using h.held p.peer
    · simpa [Function.update_of_ne hq] using h.held q
  served := h.served
  silent hserved := absurd (h.served p cipher hlive) hserved
  carries q hopen := by
    by_cases hq : q = p.peer
    · subst hq
      simp only [Function.update_self]
      rw [hcarries, h.owed_of_live hlive, List.nil_append]
    · exact h.carries_frame hopen (Function.update_of_ne hq _ _)
        (Function.update_of_ne hq _ _)

/-- A packet is read from the data under way. -/
theorem Linked.fetch (hV : V.Patient) (h : Linked V rsa B setup phase s wire)
    {cipher : Option Cipher} (hlive : s.stage p = .live cipher) {limit : Usize}
    {result : Except PacketError Bytes} {left : Bytes}
    (hreturns : Io.ends (readPacket V limit) (s.pipe p.peer).reader = false)
    (hcall : (readPacket V limit).outcome (s.pipe p.peer).reader = (result, left)) :
    arrived V limit (wire p.peer) = true ∧ ∃ data,
      (readPacket V limit).outcome (wire p.peer) = (result, data) ∧
      Linked V rsa B setup phase
        { s with pipe := Function.update s.pipe p.peer ((s.pipe p.peer).read left) }
        (Function.update wire p.peer data) := by
  have hx := (patient_readPacket hV limit).awaits
  have hret : (s.pipe p.peer).returns (readPacket V limit) = true := by
    simp [Pipe.returns, hreturns]
  have hout := Pipe.outcome_unread (B := B) hx hret hcall
  have hends := Pipe.ends_unread (B := B) hx.toPatient hreturns
  rw [h.unread_of_live hlive] at hout hends
  exact ⟨(arrived_iff hV limit _).mpr hends, _, hout, h.left hlive rfl⟩

/-- A `recv` that finds the end of the stream finds it in the data under way, and
leaves nothing of them. -/
theorem Linked.ended (hV : V.Patient) (h : Linked V rsa B setup phase s wire)
    {cipher : Option Cipher} (hlive : s.stage p = .live cipher) {limit : Usize}
    {error : PacketError} {left : Bytes} (hended : (s.pipe p.peer).ended = true)
    (hends : Io.ends (readPacket V limit) (s.pipe p.peer).reader = true)
    (hcall : (readPacket V limit).outcome (s.pipe p.peer).reader = (.error error, left)) :
    Linked V rsa B setup phase
        { s with pipe := Function.update s.pipe p.peer ((s.pipe p.peer).read left) }
        (Function.update wire p.peer []) ∧
      s.stage p.peer = .closed ∧ Io.ends (readPacket V limit) (wire p.peer) = true := by
  obtain ⟨e, hrun, _⟩ := (patient_readPacket hV limit).run_of_ends hends
  rw [Io.outcome_of_error hrun] at hcall
  obtain ⟨_, rfl⟩ := Prod.mk.inj hcall
  rw [Pipe.ended, Bool.and_eq_true, List.isEmpty_iff] at hended
  obtain ⟨hclosed, htransit⟩ := hended
  have hunread : ∀ left, ((s.pipe p.peer).read left).unread B = left := by
    intro left
    simp [Pipe.unread, Pipe.read, Pipe.held, hclosed, htransit]
  refine ⟨h.left hlive (hunread []), (h.closed p.peer).mp hclosed, ?_⟩
  rw [← h.unread_of_live hlive]
  rwa [← hunread (s.pipe p.peer).reader] at hends

/-- Calls change the cipher of a handler. -/
theorem Linked.restage (h : Linked V rsa B setup phase s wire) {cipher cipher' : Option Cipher}
    (hlive : s.stage p = .live cipher) :
    Linked V rsa B setup phase { s with stage := Function.update s.stage p (.live cipher') }
      wire where
  fits := h.fits.update hlive (.inl ⟨cipher', rfl⟩)
  fresh q hfresh := by
    by_cases hq : q = p
    · subst hq
      simp at hfresh
    · exact h.fresh q (by simpa [Function.update_of_ne hq] using hfresh)
  unsent hserver := by
    by_cases hp : .server = p
    · subst hp
      simp at hserver
    · exact h.unsent (by simpa [Function.update_of_ne hp] using hserver)
  closed q := by
    by_cases hq : q = p
    · subst hq
      simp [h.open_of_live hlive]
    · simpa [Function.update_of_ne hq] using h.closed q
  held := h.held
  served _ _ _ := h.served p cipher hlive
  silent := h.silent
  carries q hopen := by
    by_cases hq : q.peer = p
    · exact h.carries q (by simp [hq, hlive])
    · exact h.carries q (by simpa [Function.update_of_ne hq] using hopen)

/-- A handler is dropped. -/
theorem Linked.drop (h : Linked V rsa B setup phase s wire) {cipher : Option Cipher}
    (hlive : s.stage p = .live cipher) :
    Linked V rsa B setup phase
      ⟨Function.update s.stage p .closed, Function.update s.pipe p (s.pipe p).close⟩ wire where
  fits := h.fits.update hlive (.inr rfl)
  fresh q hfresh := by
    have hq : q ≠ p := by
      rintro rfl
      simp at hfresh
    simp only [Function.update_of_ne hq] at hfresh ⊢
    exact h.fresh q hfresh
  unsent hserver := by
    have hp : .server ≠ p := by
      rintro rfl
      simp at hserver
    exact h.unsent (by simpa [Function.update_of_ne hp] using hserver)
  closed q := by
    by_cases hq : q = p
    · subst hq
      simp
    · simpa [Function.update_of_ne hq] using h.closed q
  held q := by
    by_cases hq : q = p
    · subst hq
      simp
    · simpa [Function.update_of_ne hq] using h.held q
  served _ _ _ := h.served p cipher hlive
  silent := h.silent
  carries q hopen := by
    have hpeer : q.peer ≠ p := by
      rintro rfl
      simp at hopen
    have hthere : s.stage q.peer ≠ .closed := by simpa [Function.update_of_ne hpeer] using hopen
    by_cases hq : q = p
    · subst hq
      simp only [Function.update_self]
      rw [Pipe.unread_close (h.held q), h.carries q hthere]
    · exact h.carries_frame hthere (Function.update_of_ne hq _ _) rfl

/-- Bytes arrive. -/
theorem Linked.arrive (h : Linked V rsa B setup phase s wire) {n : Nat} (hpos : 0 < n)
    (hle : n ≤ (s.pipe p).transit.length) :
    Linked V rsa B setup phase
      { s with pipe := Function.update s.pipe p ((s.pipe p).arrive n) } wire where
  fits := h.fits
  fresh q hfresh := by
    have hq : q ≠ p := by
      rintro rfl
      rw [h.fresh q hfresh] at hle
      exact absurd (Nat.lt_of_lt_of_le hpos hle) (by simp [Pipe.new])
    simpa [Function.update_of_ne hq] using h.fresh q hfresh
  unsent := h.unsent
  closed q := by
    by_cases hq : q = p
    · subst hq
      simpa using h.closed q
    · simpa [Function.update_of_ne hq] using h.closed q
  held q := by
    by_cases hq : q = p
    · subst hq
      simpa using h.held q
    · simpa [Function.update_of_ne hq] using h.held q
  served := h.served
  silent := h.silent
  carries q hopen := by
    by_cases hq : q = p
    · subst hq
      simpa using h.carries q hopen
    · exact h.carries_frame hopen (Function.update_of_ne hq _ _) rfl

/-! ### Constructors -/

/-- The client writes its half. -/
theorem Linked.clientInit (h : Linked V rsa B setup phase s wire)
    (hfresh : s.stage .client = .fresh) :
    Linked V rsa B setup .asked
      ⟨Function.update s.stage .client (.opening (asking V rsa B setup).1),
        Function.update s.pipe .client ((s.pipe .client).write B (asking V rsa B setup).2)⟩
          wire := by
  have hserver : s.stage .server = .fresh := by
    have hfits := h.fits
    cases phase with
    | fresh => exact hfits.2
    | asked => exact hfits.2
    | answered => simp [Phase.Fits, hfresh] at hfits
    | opened => simp [Phase.Fits, Stage.Returned, hfresh] at hfits
  have hclient := h.fresh .client hfresh
  have hbuffered := buffered_asking V rsa B setup
  refine ⟨⟨by simp, by simpa using hserver⟩, ?_, fun _ => h.unsent hserver, ?_, ?_, ?_,
    h.silent, ?_⟩
  · intro p hp
    cases p with
    | client => simp at hp
    | server => simpa using h.fresh .server hserver
  · intro p
    cases p with
    | client => simp [hclient, Pipe.new]
    | server => simpa using h.closed .server
  · intro p
    cases p with
    | client => simpa using Pipe.held_write hbuffered
    | server => simpa using h.held .server
  · intro p cipher hlive
    cases p <;> simp [hserver] at hlive
  · intro p _
    cases p with
    | client =>
      simp only [Function.update_self, hclient, Pipe.unread_write_new hbuffered,
        h.unsent hserver, List.append_nil]
      rfl
    | server => simp [h.fresh .server hserver, h.unsent hserver, Phase.owed]

/-- The client has asked when the server's constructor returns. -/
theorem Linked.asked (h : Linked V rsa B setup phase s wire) (hfresh : s.stage .server = .fresh)
    (hreturns : (s.pipe .client).returns (serverInit V.opened rsa (setup.identifier .server)
      setup.versionPrediction (setup.protocol .server)) = true) : phase = .asked := by
  have hfits := h.fits
  cases phase with
  | asked => rfl
  | fresh =>
    have hclient := h.fresh .client hfits.1
    rw [Pipe.returns, hclient, Io.ends, show (Pipe.new B).reader = [] from rfl,
      run_serverInit_nil] at hreturns
    simp [Pipe.ended, Pipe.new, isEnd] at hreturns
  | answered => simp [Phase.Fits, Stage.Returned, hfresh] at hfits
  | opened => simp [Phase.Fits, Stage.Returned, hfresh] at hfits

/-- The pipe of a server that returned: a handler has flushed everything, and of the
rest only what was passed on is left. -/
theorem settle_new {Init ε α : Type} {result : Except ε α} {w : W}
    (hbuffered : (∃ a, result = .ok a) → B.buffered w = []) (f : α → Option Cipher) :
    ((settle result ((Pipe.new B).write B w)).closed = true ↔
        (Stage.ofResult (result.map f) : Stage Init) = .closed) ∧
      (settle result ((Pipe.new B).write B w)).held B = [] ∧
      (settle result ((Pipe.new B).write B w)).unread B = B.delivered w := by
  cases result with
  | ok a =>
    have hnothing := hbuffered ⟨a, rfl⟩
    refine ⟨?_, Pipe.held_write hnothing, Pipe.unread_write_new hnothing⟩
    simp [settle, Pipe.new, Stage.ofResult, Except.map]
  | error e => exact ⟨⟨fun _ => rfl, fun _ => rfl⟩, rfl, Pipe.unread_close_new⟩

/-- A server's constructor that returns does what it would do if everything had been
there. -/
theorem Linked.answering_eq (hV : V.Patient) (h : Linked V rsa B setup phase s wire)
    (hfresh : s.stage .server = .fresh)
    (hreturns : (s.pipe .client).returns (serverInit V.opened rsa (setup.identifier .server)
      setup.versionPrediction (setup.protocol .server)) = true)
    {result : Except StarterError ServerHandler} {left : Bytes} {w : W}
    (hcall : (newServer V rsa setup.aesKey setup.nonce setup.seed (setup.identifier .server)
      setup.versionPrediction (setup.version .server) (setup.protocol .server)).outcome
        ((s.pipe .client).reader, (s.pipe .server).writer) = (result, (left, w))) :
    answering V rsa B setup = (result, (((s.pipe .client).read left).unread B, w)) := by
  obtain rfl := h.asked hfresh hreturns
  -- everything unread is the request
  have hunread : (s.pipe .client).unread B = request V rsa B setup := by
    rw [h.carries .client (by simp [Party.peer, hfresh]), h.unsent hfresh, List.append_nil]
    rfl
  obtain ⟨⟨read, left₀⟩, hread⟩ : ∃ r, (serverInit V rsa (setup.identifier .server)
    setup.versionPrediction (setup.protocol .server)).outcome (s.pipe .client).reader = r :=
      ⟨_, rfl⟩
  have hwhole := Pipe.outcome_unread (B := B) (awaits_serverInit rsa hV _ _ _) hreturns hread
  rw [hunread] at hwhole
  rw [h.fresh .server hfresh] at hcall
  rw [outcome_newServer V rsa _ _ _ _ _ _ _ hread rfl] at hcall
  obtain ⟨rfl, hrest⟩ := Prod.mk.inj hcall
  obtain ⟨rfl, rfl⟩ := Prod.mk.inj hrest
  exact outcome_newServer V rsa _ _ _ _ _ _ _ hwhole rfl

/-- The server returns what it would return if everything had been there, and the
reply is what it would pass on. -/
theorem Linked.newServer (hV : V.Patient) (h : Linked V rsa B setup phase s wire)
    (hfresh : s.stage .server = .fresh)
    (hreturns : (s.pipe .client).returns (serverInit V.opened rsa (setup.identifier .server)
      setup.versionPrediction (setup.protocol .server)) = true)
    {result : Except StarterError ServerHandler} {left : Bytes} {w : W}
    (hcall : (newServer V rsa setup.aesKey setup.nonce setup.seed (setup.identifier .server)
      setup.versionPrediction (setup.version .server) (setup.protocol .server)).outcome
        ((s.pipe .client).reader, (s.pipe .server).writer) = (result, (left, w))) :
    result = (inTurn V rsa B setup).1 ∧ ∃ phase', Linked V rsa B setup phase'
      ⟨Function.update s.stage .server (.ofResult (result.map ServerHandler.cipher)),
        Function.update (Function.update s.pipe .client ((s.pipe .client).read left)) .server
          (settle result ((s.pipe .server).write B w))⟩ wire := by
  have hanswering := h.answering_eq hV hfresh hreturns hcall
  obtain rfl := h.asked hfresh hreturns
  obtain ⟨hclient, _⟩ := h.fits
  refine ⟨by rw [inTurn, hanswering], ?_⟩
  have hreply : reply V rsa B setup = B.delivered w := by rw [reply, hanswering]
  have hwire := h.unsent hfresh
  have hreturned : (Stage.ofResult (result.map ServerHandler.cipher) : Stage setup.Init).Returned :=
    Stage.returned_ofResult _
  have hserved : (∃ handler, result = .ok handler) → Served V rsa B setup ∧
      ((s.pipe .client).read left).unread B = [] ∧ B.buffered w = [] := by
    rintro ⟨handler, rfl⟩
    have hyes : Served V rsa B setup := ⟨handler, by rw [hanswering]⟩
    obtain ⟨⟨k, hk⟩, hfirst⟩ := (served_iff hV).mp hyes
    obtain ⟨⟨w', haccepted, hbuffered⟩, _⟩ := answering_accepted hk hfirst
    rw [hanswering] at haccepted
    obtain ⟨hleft, rfl⟩ := Prod.mk.inj (Prod.mk.inj haccepted).2
    exact ⟨hyes, hleft, hbuffered⟩
  have hlive : (Stage.ofResult (result.map ServerHandler.cipher) : Stage setup.Init) ≠ .closed →
      ∃ handler, result = .ok handler := by
    intro hne
    cases result with
    | ok handler => exact ⟨handler, rfl⟩
    | error e => exact absurd rfl hne
  obtain ⟨hclosed, hheld, hpipe⟩ :=
    @settle_new W _ B setup.Init _ _ _ _ (fun hok => (hserved hok).2.2) ServerHandler.cipher
  rw [h.fresh .server hfresh]
  -- what is the same whether the client waits for the reply or is gone
  have hlinked : ∀ phase' : Phase, phase'.Fits V rsa B setup
        (Function.update s.stage .server (.ofResult (result.map ServerHandler.cipher))) →
      (phase' = .answered ∨ phase' = .opened ∧ s.stage .client = .closed) →
      Linked V rsa B setup phase'
        ⟨Function.update s.stage .server (.ofResult (result.map ServerHandler.cipher)),
          Function.update (Function.update s.pipe .client ((s.pipe .client).read left)) .server
            (settle result ((Pipe.new B).write B w))⟩ wire := by
    intro phase' hfits hphase
    refine ⟨hfits, ?_, ?_, ?_, ?_, ?_, fun _ => hwire _, ?_⟩
    · intro p hp
      cases p with
      | client => rcases hclient with hclient | hclient <;> simp [hclient] at hp
      | server =>
        simp only [Function.update_self] at hp
        rcases hreturned with ⟨c, hhandler⟩ | hgone
        · rw [hhandler] at hp
          cases hp
        · rw [hgone] at hp
          cases hp
    · intro _ p
      exact hwire p
    · intro p
      cases p with
      | client => simpa using h.closed .client
      | server => simpa using hclosed
    · intro p
      cases p with
      | client => simpa using h.held .client
      | server => simpa using hheld
    · intro p c hhandler
      cases p with
      | client => rcases hclient with hclient | hclient <;> simp [hclient] at hhandler
      | server =>
        simp only [Function.update_self] at hhandler
        exact (hserved (hlive (by rw [hhandler]; simp))).1
    · intro p hopen
      cases p with
      | client =>
        have hleft := (hserved (hlive (by simpa [Party.peer] using hopen))).2.1
        rcases hphase with rfl | ⟨rfl, _⟩ <;> simpa [Phase.owed, hwire] using hleft
      | server =>
        rcases hphase with rfl | ⟨_, hgone⟩
        · simp [Phase.owed, hwire, hreply, hpipe]
        · simp [Party.peer, hgone] at hopen
  rcases hclient with hclient | hclient
  · exact ⟨.answered, hlinked .answered ⟨by simpa using hclient, by simpa using hreturned⟩
      (.inl rfl)⟩
  · exact ⟨.opened, hlinked .opened ⟨.inr (by simpa using hclient), by simpa using hreturned⟩
      (.inr ⟨rfl, hclient⟩)⟩

/-- The client's constructor returns, and what is left of the server's stream is data. -/
theorem Linked.conclude (h : Linked V rsa B setup phase s wire) {init : setup.Init}
    (hopening : s.stage .client = .opening init)
    {started : Except (Fault StarterError) (Option Cipher)} {left : Bytes} {phase' : Phase}
    (hfits : phase'.Fits V rsa B setup (Function.update s.stage .client (.ofResult started)))
    (howed : phase'.owed V rsa B setup .client = phase.owed V rsa B setup .client)
    (hserver : (∃ cipher, started = .ok cipher) → Served V rsa B setup ∧
      ((s.pipe .server).read left).unread B = phase'.owed V rsa B setup .server ++ wire .server)
    (hfresh : s.stage .server = .fresh → (s.pipe .server).read left = Pipe.new B) :
    Linked V rsa B setup phase'
      ⟨Function.update s.stage .client (.ofResult started),
        Function.update (Function.update s.pipe .server ((s.pipe .server).read left)) .client
          (settle started (s.pipe .client))⟩ wire := by
  have hopen : (s.pipe .client).closed = false := by
    cases hclosed : (s.pipe .client).closed with
    | false => rfl
    | true =>
      rw [(h.closed .client).mp hclosed] at hopening
      cases hopening
  refine ⟨hfits, ?_, ?_, ?_, ?_, ?_, h.silent, ?_⟩
  · intro p hp
    cases p with
    | client => cases started <;> simp [Stage.ofResult] at hp
    | server => simpa using hfresh (by simpa using hp)
  · intro hserver p
    exact h.unsent (by simpa using hserver) p
  · intro p
    cases p with
    | client => cases started <;> simp [settle, Stage.ofResult, hopen]
    | server => simpa using h.closed .server
  · intro p
    cases p with
    | client =>
      cases started with
      | ok cipher => simpa [settle] using h.held .client
      | error e => simp [settle]
    | server => simpa using h.held .server
  · intro p cipher hlive
    cases p with
    | client =>
      cases started with
      | ok c => exact (hserver ⟨c, rfl⟩).1
      | error e => simp [Stage.ofResult] at hlive
    | server => exact h.served .server cipher (by simpa using hlive)
  · intro p hthere
    cases p with
    | client =>
      have hunread := h.carries .client (by simpa [Party.peer] using hthere)
      rw [howed]
      cases started with
      | ok cipher => simpa [settle] using hunread
      | error e =>
        simp only [Function.update_self, settle]
        rw [Pipe.unread_close (h.held .client), hunread]
    | server =>
      cases started with
      | ok cipher =>
        simpa using (hserver ⟨cipher, rfl⟩).2
      | error e => simp [Party.peer, Stage.ofResult] at hthere

/-- The client returns what it would return if everything had been there. -/
theorem Linked.newClient (hV : V.Patient) (h : Linked V rsa B setup phase s wire)
    {init : setup.Init} (hopening : s.stage .client = .opening init)
    (hreturns : (s.pipe .server).returns
      (clientStart V.opened rsa (setup.protocol .client) init) = true)
    {started : Except (Fault StarterError) (Option Cipher)} {left : Bytes}
    (hcall : (clientStart V rsa (setup.protocol .client) init).outcome (s.pipe .server).reader =
      (started, left)) :
    started.map ClientHandler.mk = (inTurn V rsa B setup).2 ∧ ∃ phase', Linked V rsa B setup phase'
      ⟨Function.update s.stage .client (.ofResult started),
        Function.update (Function.update s.pipe .server ((s.pipe .server).read left)) .client
          (settle started (s.pipe .client))⟩ wire := by
  have hreturned : (Stage.ofResult started : Stage setup.Init).Returned :=
    Stage.returned_ofResult started
  have hfits := h.fits
  cases phase with
  | fresh =>
    rw [hfits.1] at hopening
    cases hopening
  | opened =>
    rcases hfits.1 with ⟨c, hlive⟩ | hgone
    · rw [hlive] at hopening
      cases hopening
    · rw [hgone] at hopening
      cases hopening
  | asked =>
    -- the server has said nothing, so the client has nothing to wait for
    obtain ⟨hclient, hfresh⟩ := hfits
    rw [hopening] at hclient
    obtain rfl : init = (asking V rsa B setup).1 := by simpa using hclient
    have hnew := h.fresh .server hfresh
    cases hasking : (asking V rsa B setup).1 with
    | ok k =>
      rw [hasking, Pipe.returns, hnew, show (Pipe.new B).reader = [] from rfl,
        ends_clientStart_nil] at hreturns
      simp [Pipe.ended, Pipe.new] at hreturns
    | error e =>
      have hunasked : ∀ stream, (clientStart V rsa (setup.protocol .client)
          (asking V rsa B setup).1).outcome stream = (.error (.error e), stream) := by
        intro stream
        rw [hasking]
        exact Io.outcome_of_error (run_clientStart_unasked _ e stream)
      rw [hunasked] at hcall
      obtain ⟨rfl, rfl⟩ := Prod.mk.inj hcall
      refine ⟨(inTurn_client (hunasked _)).symm, .asked,
        h.conclude hopening ⟨.inr rfl, by simpa using hfresh⟩ rfl ?_ ?_⟩
      · rintro ⟨cipher, hok⟩
        cases hok
      · intro _
        rw [hnew]
        rfl
  | answered =>
    obtain ⟨hclient, hserver⟩ := hfits
    rw [hopening] at hclient
    obtain rfl : init = (asking V rsa B setup).1 := by simpa using hclient
    have hunread : (s.pipe .server).unread B = reply V rsa B setup ++ wire .server :=
      h.carries .server (by simp [Party.peer, hopening])
    have hout := Pipe.outcome_unread (B := B) (awaits_answered V rsa B setup hV) hreturns hcall
    rw [hunread] at hout
    obtain ⟨hresult, hleft⟩ := newClient_answered hV h.silent hout
    refine ⟨hresult, .opened, h.conclude hopening ⟨by simpa using hreturned, by simpa using hserver⟩
      rfl hleft ?_⟩
    intro hfresh
    rcases hserver with ⟨c, hlive⟩ | hgone
    · rw [hfresh] at hlive
      cases hlive
    · rw [hfresh] at hgone
      cases hgone

/-! ### Steps -/

variable (V rsa B setup) in
/-- What a step does to the data under way, and what a constructor returns. -/
def Effect (flate : Flate) (aead : Aead) (s s' : Connection W setup.Init)
    (wire wire' : Party → Bytes) : Label → Prop
  | .newServer result => result = (inTurn V rsa B setup).1 ∧ wire' = wire
  | .newClient result => result = (inTurn V rsa B setup).2 ∧ wire' = wire
  | .plain p call => Served V rsa B setup ∧ s.stage p = .live none ∧ ∃ body,
      plainBody flate (setup.protocol p) = some body ∧
        Session.Stateless.Step V body wire (p, call) wire'
  | .sealed p call => Served V rsa B setup ∧ ∃ payload c c',
      sealedPayload V flate (setup.protocol p) = some payload ∧
        s.stage p = .live (some c) ∧ s'.stage = Function.update s.stage p (.live (some c')) ∧
        ∀ cipher : Party → Cipher, cipher p = c → Session.Whole.Step V payload aead
          ⟨cipher, wire⟩ (p, call) ⟨Function.update cipher p c', wire'⟩
  | .ended p limit _ => s.stage p.peer = .closed ∧
      Io.ends (readPacket V limit) (wire p.peer) = true ∧ wire' = Function.update wire p.peer []
  | _ => wire' = wire

variable {flate : Flate} {aead : Aead}

/-- `recv` of a handler without a cipher is `read_packet` and what is made of its
bytes. -/
theorem outcome_recv_plain (body : Body) (limit : Usize) (stream : Bytes) :
    (Plain.recv V body limit).outcome stream =
      match (readPacket V limit).outcome stream with
      | (.error e, left) => (.error e, left)
      | (.ok bytes, left) => ((body.unpack bytes).mapError .io, left) := by
  simp only [Io.outcome, Plain.recv, EStateM.run_bind]
  cases (readPacket V limit).run stream with
  | error e left => rfl
  | ok bytes left =>
    simp only
    cases (body.unpack bytes).mapError PacketError.io <;> rfl

/-- A `send` of a handler without a cipher is a `send` on the data under way. -/
theorem Linked.sendPlain (h : Linked V rsa B setup phase s wire) {cipher : Option Cipher}
    (hlive : s.stage p = .live cipher) {body : Body} {level : Level} {limit : Usize} {message : Buf}
    {result : Except PacketError Unit} {w : W}
    (hcall : (Plain.send V body level limit message).outcome (s.pipe p).writer = (result, w)) :
    ∃ wire', Linked V rsa B setup phase
        { s with pipe := Function.update s.pipe p ((s.pipe p).write B w) } wire' ∧
      Session.Stateless.Step V body wire (p, .send level limit message result) wire' := by
  obtain ⟨result', written, hwire, w', hwriter, happends, hbuffered⟩ :=
    outcome_packet_flush (V := V) (B := B) limit (body.pack level message) (s.pipe p).writer
  have heq : (result', w') = (result, w) := hwriter.symm.trans hcall
  obtain ⟨rfl, rfl⟩ := Prod.mk.inj heq
  have hheld : B.buffered (s.pipe p).writer = [] := by
    simpa [Pipe.held, h.open_of_live hlive] using h.held p
  refine ⟨_, h.write hlive happends (hbuffered hheld), ?_⟩
  exact .send (hwire (wire p))

/-- A `recv` of a handler without a cipher is a `recv` on the data under way. -/
theorem Linked.recvPlain (hV : V.Patient) (h : Linked V rsa B setup phase s wire)
    {cipher : Option Cipher} (hlive : s.stage p = .live cipher) {body : Body} {limit : Usize}
    {result : Except PacketError Bytes} {left : Bytes}
    (hreturns : Io.ends (readPacket V limit) (s.pipe p.peer).reader = false)
    (hcall : (Plain.recv V body limit).outcome (s.pipe p.peer).reader = (result, left)) :
    ∃ wire', Linked V rsa B setup phase
        { s with pipe := Function.update s.pipe p.peer ((s.pipe p.peer).read left) } wire' ∧
      Session.Stateless.Step V body wire (p, .recv limit result) wire' := by
  obtain ⟨⟨packet, left'⟩, hread⟩ : ∃ r, (readPacket V limit).outcome (s.pipe p.peer).reader = r :=
    ⟨_, rfl⟩
  obtain ⟨harrived, data, hdata, hlinked⟩ := h.fetch hV hlive hreturns hread
  rw [outcome_recv_plain, hread] at hcall
  have hleft : left' = left := by cases packet <;> exact congrArg Prod.snd hcall
  subst hleft
  refine ⟨_, hlinked, .recv harrived ?_⟩
  rw [outcome_recv_plain, hdata]
  cases packet <;> exact congrArg (·, data) (congrArg Prod.fst hcall)

/-- A `send` of a handler with a cipher is a `send` on the data under way. -/
theorem Linked.sendSealed (h : Linked V rsa B setup phase s wire) {cipher cipher' : Cipher}
    (hlive : s.stage p = .live (some cipher)) {payload : Payload} {level : Level} {limit : Usize}
    {fresh : Nonce} {message : Buf} {result : Except (Fault PacketError) Unit} {w : W}
    (hcall : (Sealed.send V payload aead level limit fresh message).outcome
      ((s.pipe p).writer, cipher) = (result, (w, cipher'))) :
    ∃ wire', Linked V rsa B setup phase
        ⟨Function.update s.stage p (.live (some cipher')),
          Function.update s.pipe p ((s.pipe p).write B w)⟩ wire' ∧
      ∀ ciphers : Party → Cipher, ciphers p = cipher → Session.Whole.Step V payload aead
        ⟨ciphers, wire⟩ (p, .send level limit fresh message result)
        ⟨Function.update ciphers p cipher', wire'⟩ := by
  rw [Sealed.outcome_send] at hcall
  obtain ⟨⟨bytes, sealedCipher⟩, hseal⟩ : ∃ r, (Sealed.sealMessage payload aead level fresh
    message).outcome cipher = r := ⟨_, rfl⟩
  rw [hseal] at hcall
  cases bytes with
  | error e =>
    cases hcall
    have hwritten := h.write hlive (.refl (s.pipe p).writer)
      (by simpa [Pipe.held, h.open_of_live hlive] using h.held p)
    refine ⟨_, hwritten.restage hlive, ?_⟩
    rintro ciphers rfl
    refine .send ?_
    rw [Sealed.outcome_send, hseal, List.append_nil]
  | ok packet =>
    obtain ⟨result', written, hwire, w', hwriter, happends, hbuffered⟩ :=
      outcome_packet_flush (V := V) (B := B) limit [packet] (s.pipe p).writer
    have hwrite : (Sealed.writeSealed V limit packet).outcome (s.pipe p).writer = (result', w') :=
      hwriter
    simp only [hwrite] at hcall
    cases hcall
    have hheld : B.buffered (s.pipe p).writer = [] := by
      simpa [Pipe.held, h.open_of_live hlive] using h.held p
    refine ⟨_, (h.write hlive happends (hbuffered hheld)).restage hlive, ?_⟩
    rintro ciphers rfl
    refine .send ?_
    have hreliable : (Sealed.writeSealed V limit packet).outcome (wire p) =
        (result', wire p ++ written) := hwire (wire p)
    rw [Sealed.outcome_send, hseal]
    simp only [hreliable]

/-- A `recv` of a handler with a cipher is a `recv` on the data under way. -/
theorem Linked.recvSealed (hV : V.Patient) (h : Linked V rsa B setup phase s wire)
    {cipher cipher' : Cipher} (hlive : s.stage p = .live (some cipher)) {payload : Payload}
    {limit : Usize} {result : Except (Fault PacketError) Bytes} {left : Bytes}
    (hreturns : Io.ends (readPacket V limit) (s.pipe p.peer).reader = false)
    (hcall : (Sealed.recv V payload aead limit).outcome ((s.pipe p.peer).reader, cipher) =
      (result, (left, cipher'))) :
    ∃ wire', Linked V rsa B setup phase
        ⟨Function.update s.stage p (.live (some cipher')),
          Function.update s.pipe p.peer ((s.pipe p.peer).read left)⟩ wire' ∧
      ∀ ciphers : Party → Cipher, ciphers p = cipher → Session.Whole.Step V payload aead
        ⟨ciphers, wire⟩ (p, .recv limit result) ⟨Function.update ciphers p cipher', wire'⟩ := by
  obtain ⟨⟨packet, left'⟩, hread⟩ : ∃ r, (readPacket V limit).outcome (s.pipe p.peer).reader = r :=
    ⟨_, rfl⟩
  obtain ⟨harrived, data, hdata, hlinked⟩ := h.fetch hV hlive hreturns hread
  rw [Sealed.outcome_recv, hread] at hcall
  cases packet with
  | error e =>
    cases hcall
    refine ⟨_, hlinked.restage hlive, ?_⟩
    rintro ciphers rfl
    refine .recv harrived ?_
    rw [Sealed.outcome_recv, hdata]
  | ok packet =>
    obtain ⟨⟨opened, openedCipher⟩, hopen⟩ : ∃ r, (Sealed.openPacket payload aead packet).outcome
      cipher = r := ⟨_, rfl⟩
    simp only [hopen] at hcall
    cases hcall
    refine ⟨_, hlinked.restage hlive, ?_⟩
    rintro ciphers rfl
    refine .recv harrived ?_
    rw [Sealed.outcome_recv, hdata]
    simp only [hopen]

/-- Every step keeps the handshake and the data apart. -/
theorem Linked.step (hV : V.Patient) (h : Linked V rsa B setup phase s wire) {e : Label}
    {s' : Connection W setup.Init} (hstep : Step V rsa flate aead B setup s e s') :
    ∃ phase' wire', Linked V rsa B setup phase' s' wire' ∧
      Effect V rsa B setup flate aead s s' wire wire' e := by
  cases hstep with
  | arrive hpos hle => exact ⟨phase, wire, h.arrive hpos hle, rfl⟩
  | clientInit hfresh hcall =>
    rw [h.fresh .client hfresh] at hcall ⊢
    have hasking : asking V rsa B setup = _ := hcall
    have hlinked := h.clientInit hfresh
    rw [hasking, h.fresh .client hfresh] at hlinked
    exact ⟨_, wire, hlinked, rfl⟩
  | newServer hfresh hreturns hcall =>
    obtain ⟨hresult, phase', hlinked⟩ := h.newServer hV hfresh hreturns hcall
    exact ⟨phase', wire, hlinked, hresult, rfl⟩
  | newClient hopening hreturns hcall =>
    obtain ⟨hresult, phase', hlinked⟩ := h.newClient hV hopening hreturns hcall
    exact ⟨phase', wire, hlinked, hresult, rfl⟩
  | @sendPlain p body level limit message result w hbody hlive hcall =>
    obtain ⟨wire', hlinked, hcalled⟩ := h.sendPlain hlive hcall
    exact ⟨phase, wire', hlinked, h.served p _ hlive, hlive, body, hbody, hcalled⟩
  | @recvPlain p body limit result left hbody hlive hreturns hcall =>
    obtain ⟨wire', hlinked, hcalled⟩ := h.recvPlain hV hlive hreturns hcall
    exact ⟨phase, wire', hlinked, h.served p _ hlive, hlive, body, hbody, hcalled⟩
  | sendSealed hpayload hlive hcall =>
    obtain ⟨wire', hlinked, hcalled⟩ := h.sendSealed hlive hcall
    exact ⟨phase, wire', hlinked, h.served _ _ hlive, _, _, _, hpayload, hlive, rfl, hcalled⟩
  | recvSealed hpayload hlive hreturns hcall =>
    obtain ⟨wire', hlinked, hcalled⟩ := h.recvSealed hV hlive hreturns hcall
    exact ⟨phase, wire', hlinked, h.served _ _ hlive, _, _, _, hpayload, hlive, rfl, hcalled⟩
  | ended hlive hended hends hcall =>
    obtain ⟨hlinked, hgone, hdata⟩ := h.ended hV hlive hended hends hcall
    exact ⟨phase, _, hlinked, hgone, hdata, rfl⟩
  | lostPlain hlive => exact ⟨phase, wire, h, rfl⟩
  | lostSealed hpayload hlive hcall =>
    refine ⟨phase, wire, h.restage hlive, h.served _ _ hlive, _, _, _, hpayload, hlive, rfl, ?_⟩
    rintro cipher rfl
    exact .lost hcall
  | drop hlive => exact ⟨phase, wire, h.drop hlive, rfl⟩

/-! ## Ciphers -/

/-- What a step that is not a call with a cipher makes of an end, in a session with
`cipher`. -/
inductive Turns {Init : Type} (cipher : Option Cipher) : Stage Init → Stage Init → Prop
  | stays {stage : Stage Init} : Turns cipher stage stage
  | opens {init : Init} : Turns cipher .fresh (.opening init)
  | lives {stage : Stage Init} (hnew : stage = .fresh ∨ ∃ init, stage = .opening init) :
      Turns cipher stage (.live cipher)
  | closes {stage : Stage Init} : Turns cipher stage .closed

/-- One of the ends moves. -/
theorem Turns.update {Init : Type} {cipher : Option Cipher} {stage : Party → Stage Init} {q : Party}
    {stage' : Stage Init} (h : Turns cipher (stage q) stage') (p : Party) :
    Turns cipher (stage p) (Function.update stage q stage' p) := by
  by_cases hp : p = q
  · subst hp
    rw [Function.update_self]
    exact h
  · rw [Function.update_of_ne hp]
    exact .stays

/-- A handler has the cipher of the session, and only its own calls change it. -/
theorem Linked.turns (hV : V.Patient) (h : Linked V rsa B setup phase s wire) {e : Label}
    {s' : Connection W setup.Init} (hstep : Step V rsa flate aead B setup s e s')
    (he : ∀ p call, e ≠ .sealed p call) (p : Party) :
    Turns (Variants.sessionCipher setup.aesKey setup.nonce (setup.protocol .client)) (s.stage p)
      (s'.stage p) := by
  cases hstep with
  | arrive | sendPlain | recvPlain | ended | lostPlain => exact .stays
  | sendSealed | recvSealed | lostSealed => exact absurd rfl (he _ _)
  | clientInit hfresh => exact Turns.update (hfresh ▸ .opens) p
  | drop => exact Turns.update .closes p
  | @newServer result left w hfresh hreturns hcall =>
    have hresult := (h.newServer hV hfresh hreturns hcall).1
    refine Turns.update ?_ p
    cases result with
    | error e => exact .closes
    | ok handler =>
      rw [inTurn_served hV ⟨handler, hresult.symm⟩] at hresult
      cases hresult
      exact .lives (.inl hfresh)
  | @newClient init started left hopening hreturns hcall =>
    obtain ⟨hresult, phase', hlinked⟩ := h.newClient hV hopening hreturns hcall
    refine Turns.update ?_ p
    cases started with
    | error e => exact .closes
    | ok cipher =>
      rw [inTurn_served hV (hlinked.served .client cipher (by simp [Stage.ofResult]))] at hresult
      cases hresult
      exact .lives (.inr ⟨init, hopening⟩)

end Linked

end Connection

end TcpHandler.Streams
