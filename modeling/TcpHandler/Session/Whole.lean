/-
  Session/Whole.lean --- whole calls of `encrypt` and `compress_encrypt`.

  A handler is borrowed for the whole of a call, so the calls of one party never
  overlap.  A step is one call of `send` or `recv` by either party, with both of
  its moves.
-/
import TcpHandler.Session.Ciphered

set_option autoImplicit false

namespace TcpHandler.Session.Whole

open TcpHandler.Foundation TcpHandler.Protocols

/-- A call and what it returned. -/
inductive Call where
  | send (level : Level) (limit : Usize) (fresh : Nonce) (message : Buf)
      (result : Except (Fault PacketError) Unit)
  | recv (limit : Usize) (result : Except (Fault PacketError) Bytes)

/-- Two ciphers and the bytes each party has written and its peer has not read. -/
structure State where
  cipher : Party → Cipher
  wire : Party → Bytes

/-- Both ciphers with the same key and nonce and nothing under way. -/
def start (key : AesKey) (nonce : Nonce) : State :=
  ⟨fun _ => Cipher.new (key, nonce), fun _ => []⟩

variable (V : VariableLen) (payload : Payload) (aead : Aead)

/-- One call of one party. -/
inductive Step : State → Party × Call → State → Prop
  | send {s : State} {p : Party} {level : Level} {limit : Usize} {fresh : Nonce} {message : Buf}
      {result : Except (Fault PacketError) Unit} {written : Bytes} {cipher : Cipher}
      (hcall : (Sealed.send V payload aead level limit fresh message).outcome
        (s.wire p, s.cipher p) = (result, (written, cipher))) :
      Step s (p, .send level limit fresh message result)
        ⟨Function.update s.cipher p cipher, Function.update s.wire p written⟩
  | recv {s : State} {p : Party} {limit : Usize} {result : Except (Fault PacketError) Bytes}
      {left : Bytes} {cipher : Cipher} (harrived : arrived V limit (s.wire p.peer) = true)
      (hcall : (Sealed.recv V payload aead limit).outcome (s.wire p.peer, s.cipher p) =
        (result, (left, cipher))) :
      Step s (p, .recv limit result)
        ⟨Function.update s.cipher p cipher, Function.update s.wire p.peer left⟩
  /-- the transport fails under the write of a packet that was sealed -/
  | lost {s : State} {p : Party} {level : Level} {limit : Usize} {fresh : Nonce} {message : Buf}
      {packet : Bytes} {cipher : Cipher} {error : IoError}
      (hcall : (Sealed.sealMessage payload aead level fresh message).outcome (s.cipher p) =
        (.ok packet, cipher)) :
      Step s (p, .send level limit fresh message (.error (.error (.io error))))
        { s with cipher := Function.update s.cipher p cipher }

/-! ## The calls of a run -/

/-- The messages whose `send` by `p` returned `Ok`. -/
def sentBy (p : Party) (tr : List (Party × Call)) : List Bytes :=
  tr.filterMap fun
    | (q, .send _ _ _ message (.ok ())) => if q = p then some message.flatten else none
    | _ => none

/-- The messages `recv` returned to `p`. -/
def receivedBy (p : Party) (tr : List (Party × Call)) : List Bytes :=
  tr.filterMap fun
    | (q, .recv _ (.ok message)) => if q = p then some message else none
    | _ => none

/-- The limits under which `p` called `send`. -/
def sendLimits (p : Party) (tr : List (Party × Call)) : List Usize :=
  tr.filterMap fun
    | (q, .send _ limit _ _ _) => if q = p then some limit else none
    | _ => none

/-- The limits under which `p` called `recv`. -/
def recvLimits (p : Party) (tr : List (Party × Call)) : List Usize :=
  tr.filterMap fun
    | (q, .recv limit _) => if q = p then some limit else none
    | _ => none

/-- No limit under which a party sends exceeds one under which its peer receives. -/
def LimitsAgree (tr : List (Party × Call)) : Prop :=
  ∀ p, ∀ sent ∈ sendLimits p tr, ∀ limit ∈ recvLimits p.peer tr, sent.toNat ≤ limit.toNat

theorem sentBy_append (p : Party) (tr post : List (Party × Call)) :
    sentBy p (tr ++ post) = sentBy p tr ++ sentBy p post :=
  List.filterMap_append

theorem receivedBy_append (p : Party) (tr post : List (Party × Call)) :
    receivedBy p (tr ++ post) = receivedBy p tr ++ receivedBy p post :=
  List.filterMap_append

theorem sendLimits_append (p : Party) (tr post : List (Party × Call)) :
    sendLimits p (tr ++ post) = sendLimits p tr ++ sendLimits p post :=
  List.filterMap_append

theorem recvLimits_append (p : Party) (tr post : List (Party × Call)) :
    recvLimits p (tr ++ post) = recvLimits p tr ++ recvLimits p post :=
  List.filterMap_append

theorem LimitsAgree.of_append {tr post : List (Party × Call)} (h : LimitsAgree (tr ++ post)) :
    LimitsAgree tr := by
  intro p sent hsent limit hlimit
  refine h p sent ?_ limit ?_
  · rw [sendLimits_append]
    exact List.mem_append_left _ hsent
  · rw [recvLimits_append]
    exact List.mem_append_left _ hlimit

/-- A call leaves an empty stream empty, unless it writes to it. -/
theorem wire_nil_of_call {V : VariableLen} {payload : Payload} {aead : Aead} {s s' : State}
    {p : Party} {call : Call} (hstep : Step V payload aead s (p, call) s')
    (hnil : s.wire p.peer = []) : s'.wire p.peer = [] := by
  cases hstep with
  | send => exact (Function.update_of_ne p.peer_ne _ _).trans hnil
  | recv harrived =>
    rw [hnil] at harrived
    simp [arrived] at harrived
  | lost => exact hnil

end TcpHandler.Session.Whole
