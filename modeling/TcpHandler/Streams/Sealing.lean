/-
  Streams/Sealing.lean --- the calls of handlers with a cipher.

  On a connection of `encrypt` or `compress_encrypt` the calls that return are
  whole calls of `Session/Whole.lean` on two ciphers and two reliable streams,
  which begin with the cipher of the handshake.  What such calls keep, whatever it
  is, every run of a connection keeps (`sealing_of_run`).
-/
import TcpHandler.Session.Whole
import TcpHandler.Streams.Delivery

set_option autoImplicit false

namespace TcpHandler.Streams

open TcpHandler.Foundation TcpHandler.Protocols

/-- The first cipher of both handlers. -/
def Setup.cipher {Sk Seed : Type} (setup : Setup Sk Seed) : Cipher :=
  Cipher.new (setup.aesKey, setup.nonce)

/-- The cipher of an end, which has the cipher of the handshake when it is made. -/
def Stage.Holds {Init : Type} (first cipher : Cipher) : Stage Init → Prop
  | .fresh | .opening _ => cipher = first
  | .live c => c = some cipher
  | .closed => True

namespace Connection

/-- The calls of handlers with a cipher that returned. -/
def sealedCalls (tr : List Label) : List (Party × Session.Whole.Call) :=
  tr.filterMap fun
    | .sealed p call => some (p, call)
    | _ => none

theorem sealedCalls_append (tr post : List Label) :
    sealedCalls (tr ++ post) = sealedCalls tr ++ sealedCalls post :=
  List.filterMap_append

theorem mem_sealedCalls {p : Party} {call : Session.Whole.Call} {tr : List Label} :
    (p, call) ∈ sealedCalls tr ↔ .sealed p call ∈ tr := by
  rw [sealedCalls, List.mem_filterMap]
  constructor
  · rintro ⟨e, hmem, he⟩
    cases e <;> simp_all
  · intro hmem
    exact ⟨_, hmem, rfl⟩

section Sealing

variable {V : VariableLen} {W : Type} [AsyncWrite W] {Sk Pk Seed : Type} {rsa : Rsa Sk Pk Seed}
  {flate : Flate} {aead : Aead} {B : Buffering W} {setup : Setup Sk Seed} {tr : List Label}
  {s s' : Connection W setup.Init} {payload : Payload} {wire : Party → Bytes} {e : Label}
  {cipher : Party → Cipher}

/-! ## Ciphers -/

theorem sessionCipher_of_sealedPayload {protocol : ProtocolVariant} (aesKey : AesKey)
    (nonce : Nonce) (h : sealedPayload V flate protocol = some payload) :
    Variants.sessionCipher aesKey nonce protocol = some (Cipher.new (aesKey, nonce)) := by
  cases protocol with
  | raw | compression => cases h
  | encryption | compressEncryption => rfl

theorem Turns.holds {Init : Type} {first cipher : Cipher} {stage stage' : Stage Init}
    (h : Turns (some first) stage stage') (hholds : stage.Holds first cipher) :
    stage'.Holds first cipher := by
  cases h with
  | stays | opens => exact hholds
  | lives hnew => rcases hnew with rfl | ⟨init, rfl⟩ <;> exact congrArg some hholds.symm
  | closes => trivial

/-- Only the calls of a handler change its cipher. -/
theorem holds_of_step (hV : V.Patient)
    (hpayload : sealedPayload V flate (setup.protocol .client) = some payload) {phase : Phase}
    (h : Linked V rsa B setup phase s wire) (hstep : Step V rsa flate aead B setup s e s')
    (he : ∀ p call, e ≠ .sealed p call)
    (hholds : ∀ p, (s.stage p).Holds setup.cipher (cipher p)) :
    ∀ p, (s'.stage p).Holds setup.cipher (cipher p) := by
  intro p
  have hturns := h.turns hV hstep he p
  rw [sessionCipher_of_sealedPayload _ _ hpayload] at hturns
  exact hturns.holds (hholds p)

/-- When everything has arrived, `recv` of a handler is `recv` on the data. -/
theorem recv_of_outcome (hV : V.Patient)
    (hpayload : sealedPayload V flate (setup.protocol .client) = some payload) {phase : Phase}
    (h : Linked V rsa B setup phase s wire) {p : Party} {c : Option Cipher}
    {cipher cipher' : Cipher}
    (hlive : s.stage p.peer = .live c) (hholds : (s.stage p.peer).Holds setup.cipher cipher)
    (htransit : (s.pipe p).transit = []) {limit : Usize}
    (hends : Io.ends (readPacket V limit) (wire p) = false)
    {result : Except (Fault PacketError) Bytes} {left : Bytes}
    (hcall : (Sealed.recv V payload aead limit).outcome (wire p, cipher) =
      (result, (left, cipher'))) :
    ∃ s', Step V rsa flate aead B setup s (.sealed p.peer (.recv limit result)) s' := by
  have hreader := h.reader_of_live hlive (by simpa using htransit)
  have hpeer := (h.served _ _ hlive).protocol_eq hV p.peer
  have hcipher : s.stage p.peer = .live (some cipher) := by
    rw [hlive] at hholds
    rw [hlive, show c = some cipher from hholds]
  have hreturns : Io.ends (readPacket V limit) (s.pipe p.peer.peer).reader = false := by
    rw [hreader, Party.peer_peer]
    exact hends
  have hrecv : (Sealed.recv V payload aead limit).outcome ((s.pipe p.peer.peer).reader, cipher) =
      (result, (left, cipher')) := by
    rw [hreader, Party.peer_peer]
    exact hcall
  exact ⟨_, .recvSealed (by rw [hpeer, hpayload]) hcipher hreturns hrecv⟩

/-! ## Calls -/

/-- As long as the calls are `ok`, every call keeps `Q`, and a reader that finds the
end of the data finds it behind the last packet. -/
structure Sustains (V : VariableLen) (payload : Payload) (aead : Aead)
    (ok : List (Party × Session.Whole.Call) → Prop)
    (Q : List (Party × Session.Whole.Call) → Session.Whole.State → Prop) : Prop where
  before : ∀ calls e, ok (calls ++ [e]) → ok calls
  step : ∀ calls s e s', Q calls s → Session.Whole.Step V payload aead s e s' →
    ok (calls ++ [e]) → Q (calls ++ [e]) s'
  wire_nil : ∀ calls s p limit, Q calls s →
    Io.ends (readPacket V limit) (s.wire p) = true → s.wire p = []

variable {ok : List (Party × Session.Whole.Call) → Prop}
  {Q : List (Party × Session.Whole.Call) → Session.Whole.State → Prop}

/-- The data under way and the ciphers, of which `Q` is known. -/
abbrev Sealing (V : VariableLen) {W : Type} [AsyncWrite W] {Sk Pk Seed : Type}
    (rsa : Rsa Sk Pk Seed) (B : Buffering W) (setup : Setup Sk Seed)
    (Q : List (Party × Session.Whole.Call) → Session.Whole.State → Prop) :=
  Conveys V rsa B setup fun tr s wire => ∃ cipher, Q (sealedCalls tr) ⟨cipher, wire⟩ ∧
    ∀ p, (s.stage p).Holds setup.cipher (cipher p)

/-- Every step keeps `Q`. -/
theorem Sealing.step (hV : V.Patient)
    (hpayload : sealedPayload V flate (setup.protocol .client) = some payload)
    (hQ : Sustains V payload aead ok Q) (h : Sealing V rsa B setup Q tr s wire)
    (hstep : Step V rsa flate aead B setup s e s') (hok : ok (sealedCalls (tr ++ [e]))) :
    ∃ wire', Sealing V rsa B setup Q (tr ++ [e]) s' wire' := by
  obtain ⟨phase, hlinked⟩ := h.linked
  obtain ⟨cipher, hQs, hholds⟩ := h.calls
  obtain ⟨phase', wire', hlinked', heffect⟩ := hlinked.step hV hstep
  have hsilent : (∀ p call, e ≠ .sealed p call) → sealedCalls [e] = [] → ∃ cipher,
      Q (sealedCalls (tr ++ [e])) ⟨cipher, wire⟩ ∧
        ∀ p, (s'.stage p).Holds setup.cipher (cipher p) := by
    intro he hnone
    rw [sealedCalls_append, hnone, List.append_nil]
    exact ⟨cipher, hQs, holds_of_step hV hpayload hlinked hstep he hholds⟩
  cases e with
  | arrive p n | clientInit | lost p error | drop p =>
    obtain rfl : wire' = wire := heffect
    exact ⟨_, h.silent hstep ⟨phase', hlinked'⟩ (hsilent (by simp) rfl) (by simp)⟩
  | newServer result | newClient result =>
    obtain rfl := heffect.2
    exact ⟨_, h.silent hstep ⟨phase', hlinked'⟩ (hsilent (by simp) rfl) (by simp)⟩
  | ended p limit error =>
    obtain ⟨hgone, hends, rfl⟩ := heffect
    have hnil : wire p.peer = [] := hQ.wire_nil _ _ p.peer limit hQs hends
    have hsame : Function.update wire p.peer [] = wire := by rw [← hnil, Function.update_eq_self]
    rw [hsame] at hlinked'
    refine ⟨_, h.silent hstep ⟨phase', hlinked'⟩ (hsilent (by simp) rfl) ?_⟩
    rintro q _ _ heq
    cases heq
    exact ⟨hgone, hnil⟩
  | plain p call =>
    obtain ⟨hserved, _, body, hbody, _⟩ := heffect
    rw [hserved.protocol_eq hV p] at hbody
    rw [sealedPayload_of_plainBody hbody] at hpayload
    cases hpayload
  | sealed p call =>
    obtain ⟨hserved, payload', c, c', hpayload', hlive, hstage, hcall⟩ := heffect
    rw [hserved.protocol_eq hV p, hpayload] at hpayload'
    cases hpayload'
    have hc : cipher p = c := by
      have hp := hholds p
      rw [hlive] at hp
      exact (Option.some.inj hp).symm
    have hwire : wire p.peer = [] → wire' p.peer = [] :=
      Session.Whole.wire_nil_of_call (hcall cipher hc)
    rw [sealedCalls_append] at hok
    refine ⟨wire', h.call hstep ⟨phase', hlinked'⟩ ⟨Function.update cipher p c', ?_, fun q => ?_⟩
      hlive hwire (by simp)⟩
    · rw [sealedCalls_append]
      exact hQ.step _ _ _ _ hQs (hcall cipher hc) hok
    · rw [hstage]
      cases Party.eq_or_eq_peer p q with
      | inl heq => subst heq; simp [Stage.Holds]
      | inr heq => subst heq; simpa using hholds p.peer

/-- What the calls keep, every run of a connection keeps. -/
theorem sealing_of_run (hV : V.Patient)
    (hpayload : sealedPayload V flate (setup.protocol .client) = some payload)
    (hQ : Sustains V payload aead ok Q)
    (hstart : Q [] (Session.Whole.start setup.aesKey setup.nonce))
    (hrun : Run (Step V rsa flate aead B setup) (start B setup) tr s)
    (hok : ok (sealedCalls tr)) : ∃ wire, Sealing V rsa B setup Q tr s wire := by
  induction hrun with
  | nil => exact ⟨_, ⟨_, linked_start⟩, ⟨_, hstart, fun _ => rfl⟩, by simp⟩
  | @snoc tr s s' e _ hstep ih =>
    have hbefore : ok (sealedCalls tr) := by
      rw [sealedCalls_append] at hok
      cases hcalls : sealedCalls [e] with
      | nil => rwa [hcalls, List.append_nil] at hok
      | cons call rest =>
        have hone : rest = [] := by cases e <;> simp_all [sealedCalls]
        rw [hcalls, hone] at hok
        exact hQ.before _ _ hok
    obtain ⟨wire, h⟩ := ih hbefore
    exact h.step hV hpayload hQ hstep hok

end Sealing

end Connection

end TcpHandler.Streams
