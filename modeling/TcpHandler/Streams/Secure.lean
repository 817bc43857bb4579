/-
  Streams/Secure.lean --- what handlers with a cipher never do.

  Nothing is assumed here of the order in which two handlers of `encrypt` or
  `compress_encrypt` send and receive, nor that what they call succeeds.  Whatever
  they do, they are two parties of a session of `Session/Ciphered.lean`: what one
  of them received is a prefix of what the other sent, nothing is received that was
  sent behind a packet that was refused, and the two part at one nonce at most.
-/
import TcpHandler.Session.Moves
import TcpHandler.Streams.Exchange

set_option autoImplicit false

namespace TcpHandler.Streams

open TcpHandler.Foundation TcpHandler.Protocols
open TcpHandler.Session.Whole (Played Plays LimitsAgree sentBy receivedBy drawn)
open TcpHandler.Session.Ciphered (used usedBy InTurn)

namespace Connection

section Secure

variable {V : VariableLen} {W : Type} [AsyncWrite W] {Sk Pk Seed : Type} {rsa : Rsa Sk Pk Seed}
  {flate : Flate} {aead : Aead} {B : Buffering W} {setup : Setup Sk Seed} {tr : List Label}
  {s : Connection W setup.Init} {payload : Payload}

/-- Calls within limits that agree go on as moves of a session. -/
theorem sustains_played (hideal : aead.Ideal) (key : AesKey) (nonce : Nonce) :
    Sustains V payload aead LimitsAgree
      (fun made s => ∃ moves, Played V payload aead key nonce made moves s) where
  before _ _ hlimits := hlimits.of_append
  step _ _ _ _ h hstep hlimits := by
    obtain ⟨moves, hplayed⟩ := h
    exact hplayed.step hideal hstep hlimits
  wire_nil _ _ _ _ h hends := by
    obtain ⟨moves, hplayed⟩ := h
    exact hplayed.wire_nil hends

/-- The data under way and the ciphers, as the moves of a session have left them. -/
abbrev Playing (V : VariableLen) {W : Type} [AsyncWrite W] {Sk Pk Seed : Type}
    (rsa : Rsa Sk Pk Seed) (B : Buffering W) (setup : Setup Sk Seed) (payload : Payload)
    (aead : Aead) :=
  Sealing V rsa B setup fun made s =>
    ∃ moves, Played V payload aead setup.aesKey setup.nonce made moves s

/-- Every run of a connection is played as a session. -/
theorem playing_of_run (hV : V.Patient) (hideal : aead.Ideal)
    (hpayload : sealedPayload V flate (setup.protocol .client) = some payload)
    (hrun : Run (Step V rsa flate aead B setup) (start B setup) tr s)
    (hlimits : LimitsAgree (sealedCalls tr)) :
    ∃ wire, Playing V rsa B setup payload aead tr s wire :=
  sealing_of_run hV hpayload (sustains_played hideal setup.aesKey setup.nonce)
    ⟨[], Session.Whole.played_start⟩ hrun hlimits

/-- What holds of two handlers with a cipher.

* `in_order`: what a party received is what the other sent first.
* `refused`: what a party received was sent in front of every `send` that failed.
* `run`, `plays`, `ciphers`: the calls are moves of a session that has the ciphers of
  the handlers.
* `nonces`: no party encrypts twice under one nonce.
* `shared`: under at most one nonce both encrypt.
* `in_turn`: under none, exactly when they send in turn. -/
structure Secure (V : VariableLen) (payload : Payload) (aead : Aead) {W Sk Seed : Type}
    (setup : Setup Sk Seed) (tr : List Label) (s : Connection W setup.Init)
    (moves : List Session.Ciphered.Label) (session : Session.Ciphered.State) : Prop where
  in_order : ∀ p, receivedBy p.peer (sealedCalls tr) <+: sentBy p (sealedCalls tr)
  refused : ∀ p pre level limit fresh message error post,
    sealedCalls tr = pre ++ (p, .send level limit fresh message (.error error)) :: post →
      receivedBy p.peer (sealedCalls tr) <+: sentBy p pre
  run : Run (Session.Ciphered.Step V payload aead)
    (Session.Ciphered.start setup.aesKey setup.nonce) moves session
  plays : Plays (sealedCalls tr) moves
  ciphers : ∀ p, (s.stage p).Holds setup.cipher (session.cipher p)
  nonces : ∀ p, (usedBy p moves).Nodup
  shared : ∀ n m, (∀ p, n ∈ usedBy p moves) → (∀ p, m ∈ usedBy p moves) → n = m
  in_turn : (used moves).Nodup ↔ InTurn moves

/-- Whatever two handlers with a cipher do, from their constructors on, what `recv`
returns to one of them is a prefix of what `send` returned `Ok` for to the other,
and nonces are used as in a session. -/
theorem secure (hV : V.Patient) (hideal : aead.Ideal)
    (hpayload : sealedPayload V flate (setup.protocol .client) = some payload)
    (hrun : Run (Step V rsa flate aead B setup) (start B setup) tr s)
    (hlimits : LimitsAgree (sealedCalls tr))
    (hfresh : (setup.nonce :: drawn (sealedCalls tr)).Nodup) :
    ∃ moves session, Secure V payload aead setup tr s moves session := by
  obtain ⟨wire, h⟩ := playing_of_run hV hideal hpayload hrun hlimits
  obtain ⟨cipher, ⟨moves, hplayed⟩, hholds⟩ := h.calls
  have hdrawn := hplayed.fresh hfresh
  refine ⟨moves, _, hplayed.received_sent hfresh, fun p pre _ _ _ _ _ post hcalls =>
      hplayed.received_before hfresh hcalls, hplayed.run, hplayed.plays, hholds, ?_, ?_,
    hplayed.used_once_iff hfresh⟩
  · exact Session.Ciphered.usedBy_nodup hplayed.run hdrawn hplayed.unforged
  · intro n m hn hm
    exact Session.Ciphered.usedBy_both_unique hplayed.run hdrawn hplayed.unforged hn hm

/-- Both handlers send at once, so neither can receive. -/
def crossed : List Label :=
  [.sealed .client (.send 0 64 (Reference.nonce 1) [[7]] (.ok ())),
    .sealed .server (.send 0 64 (Reference.nonce 2) [[8]] (.ok ())),
    .arrive .client 30, .arrive .server 30,
    .sealed .server (.recv 64 (.error (.error (.aes .failure)))),
    .sealed .client (.recv 64 (.error (.error (.aes .failure)))),
    .sealed .server (.send 0 64 (Reference.nonce 3) [[9]] (.error (.error .broken)))]

theorem run_crossed : ∃ s, Run (Step Reference.variableLen Reference.rsa Reference.flate
    Reference.aead Reference.bufWriter (Setup.reference .encryption)) settled crossed s :=
  ⟨_, Run.cons_iff.mpr ⟨_, .sendSealed rfl rfl rfl,
    Run.cons_iff.mpr ⟨_, .sendSealed rfl rfl rfl,
    Run.cons_iff.mpr ⟨_, .arrive (by decide) (by decide),
    Run.cons_iff.mpr ⟨_, .arrive (by decide) (by decide),
    Run.cons_iff.mpr ⟨_, .recvSealed rfl rfl rfl rfl,
    Run.cons_iff.mpr ⟨_, .recvSealed rfl rfl rfl rfl,
    Run.cons_iff.mpr ⟨_, .sendSealed rfl rfl rfl,
    .nil⟩⟩⟩⟩⟩⟩⟩⟩

/-- The calls of two handlers that both send before they receive. -/
theorem sealedCalls_crossed : sealedCalls (greeted ++ crossed) =
    [(.client, .send 0 64 (Reference.nonce 1) [[7]] (.ok ())),
      (.server, .send 0 64 (Reference.nonce 2) [[8]] (.ok ())),
      (.server, .recv 64 (.error (.error (.aes .failure)))),
      (.client, .recv 64 (.error (.error (.aes .failure)))),
      (.server, .send 0 64 (Reference.nonce 3) [[9]] (.error (.error .broken)))] :=
  rfl

theorem limitsAgree_crossed : LimitsAgree (sealedCalls (greeted ++ crossed)) := by
  rw [sealedCalls_crossed]
  intro p
  cases p <;> simp [Session.Whole.sendLimits, Session.Whole.recvLimits, Party.peer]

theorem secure_crossed : ∃ (s : Connection Reference.BufWriter (Setup.reference .encryption).Init)
    (moves : List Session.Ciphered.Label) (session : Session.Ciphered.State),
    Secure Reference.variableLen (Encrypt.payload Reference.variableLen) Reference.aead
      (Setup.reference .encryption)
      (greeted ++ crossed) s moves session := by
  obtain ⟨s, hrun⟩ := run_crossed
  refine ⟨s, secure Reference.variableLen_patient Reference.aead_ideal rfl
    (run_greeted.append hrun) limitsAgree_crossed (by decide)⟩

end Secure

end Connection

end TcpHandler.Streams
