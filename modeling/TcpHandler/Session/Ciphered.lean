/-
  Session/Ciphered.lean --- whole sessions of `encrypt` and `compress_encrypt`.

  A party may send and receive from different tasks; only the lock of its cipher
  orders them.  A call is therefore two moves.  `send` is `sealing` (its critical
  section) and `writing`; `recv` is `fetching` (`read_packet`) and `opening` (its
  critical section).  Between the two moves of a call anything else may happen.
  A writer and a reader are borrowed for the whole call, so a party has at most
  one call of each kind under way.

  The streams are `wire`.  In an honest session they are reliable: what is
  written is appended, what is read is taken from the front.  An attacker who
  owns them may replace what is under way by any other bytes (`tamper`) and may
  fail any write or read.

  Labels show what a call was given, what it returned, and the nonce that the
  cipher held at a critical section.
-/
import TcpHandler.Foundation.Run
import TcpHandler.Protocols.Sealed

set_option autoImplicit false

namespace TcpHandler.Session.Ciphered

open TcpHandler.Foundation TcpHandler.Protocols

/-! ## States and moves -/

/-- Two parties and the two streams between them. -/
structure State where
  cipher : Party → Cipher
  /-- what each party has written and its peer has not read -/
  wire : Party → Bytes
  /-- the packet a party has sealed and not yet written -/
  sending : Party → Option Bytes
  /-- the packet a party has read and not yet opened -/
  opening : Party → Option Bytes

/-- Two parties with the given ciphers and nothing under way. -/
def ofCiphers (cipher : Party → Cipher) : State :=
  ⟨cipher, fun _ => [], fun _ => none, fun _ => none⟩

/-- Both ciphers with the same key and nonce and nothing under way. -/
def start (key : AesKey) (nonce : Nonce) : State := ofCiphers fun _ => Cipher.new (key, nonce)

/-- The nonce a cipher holds. -/
def held (cipher : Cipher) : Option Nonce := cipher.slot.map (·.2)

/-- One half of a call. -/
inductive Move where
  /-- the critical section of `send` -/
  | sealing (held : Option Nonce) (level : Level) (fresh : Nonce) (message : Buf)
      (result : Except (Fault PacketError) Bytes)
  /-- the rest of `send` -/
  | writing (limit : Usize) (result : Except PacketError Unit)
  /-- `recv` up to its critical section -/
  | fetching (limit : Usize) (result : Except PacketError Bytes)
  /-- the critical section of `recv` -/
  | opening (held : Option Nonce) (packet : Bytes) (result : Except (Fault PacketError) Bytes)
      (stored : Option Nonce)

/-- What happens in a session. -/
inductive Label where
  | act (party : Party) (move : Move)
  /-- the attacker puts other bytes in place of those under way from `party` -/
  | tamper (party : Party) (bytes : Bytes)
  /-- the transport fails under a write of `party` -/
  | writeLost (party : Party) (error : IoError)
  /-- the transport fails under a read of `party` -/
  | readLost (party : Party) (error : IoError)

variable (V : VariableLen) (payload : Payload) (aead : Aead)

/-- One step of a session. -/
inductive Step : State → Label → State → Prop
  | sealing {s : State} {p : Party} {level : Level} {fresh : Nonce} {message : Buf}
      {result : Except (Fault PacketError) Bytes} {cipher : Cipher}
      (hidle : s.sending p = none)
      (hcall : (Sealed.sealMessage payload aead level fresh message).outcome (s.cipher p) =
        (result, cipher)) :
      Step s (.act p (.sealing (held (s.cipher p)) level fresh message result))
        { s with
          cipher := Function.update s.cipher p cipher
          sending := Function.update s.sending p result.toOption }
  | writing {s : State} {p : Party} {packet : Bytes} {limit : Usize}
      {result : Except PacketError Unit} {written : Bytes}
      (hpending : s.sending p = some packet)
      (hcall : (Sealed.writeSealed V limit packet).outcome (s.wire p) = (result, written)) :
      Step s (.act p (.writing limit result))
        { s with
          wire := Function.update s.wire p written
          sending := Function.update s.sending p none }
  | fetching {s : State} {p : Party} {limit : Usize} {result : Except PacketError Bytes}
      {left : Bytes} (hidle : s.opening p = none)
      (harrived : arrived V limit (s.wire p.peer) = true)
      (hcall : (readPacket V limit).outcome (s.wire p.peer) = (result, left)) :
      Step s (.act p (.fetching limit result))
        { s with
          wire := Function.update s.wire p.peer left
          opening := Function.update s.opening p result.toOption }
  | opening {s : State} {p : Party} {packet : Bytes} {result : Except (Fault PacketError) Bytes}
      {cipher : Cipher} (hpending : s.opening p = some packet)
      (hcall : (Sealed.openPacket payload aead packet).outcome (s.cipher p) = (result, cipher)) :
      Step s (.act p (.opening (held (s.cipher p)) packet result (held cipher)))
        { s with
          cipher := Function.update s.cipher p cipher
          opening := Function.update s.opening p none }
  | tamper {s : State} {p : Party} {bytes : Bytes} :
      Step s (.tamper p bytes) { s with wire := Function.update s.wire p bytes }
  | writeLost {s : State} {p : Party} {packet : Bytes} {error : IoError}
      (hpending : s.sending p = some packet) :
      Step s (.writeLost p error) { s with sending := Function.update s.sending p none }
  | readLost {s : State} {p : Party} {error : IoError} (hidle : s.opening p = none) :
      Step s (.readLost p error) s

/-- Nobody interferes with the streams. -/
def Honest (tr : List Label) : Prop := ∀ e ∈ tr, ∃ p move, e = .act p move

/-! ## What happened in a run -/

/-- The messages `p` encrypted, in order. -/
def encryptedBy (p : Party) (tr : List Label) : List Bytes :=
  tr.filterMap fun
    | .act q (.sealing _ _ _ message (.ok _)) => if q = p then some message.flatten else none
    | _ => none

/-- The messages `recv` returned to `p`, in order. -/
def receivedBy (p : Party) (tr : List Label) : List Bytes :=
  tr.filterMap fun
    | .act q (.opening _ _ (.ok message) _) => if q = p then some message else none
    | _ => none

theorem encryptedBy_append (p : Party) (tr post : List Label) :
    encryptedBy p (tr ++ post) = encryptedBy p tr ++ encryptedBy p post :=
  List.filterMap_append

theorem receivedBy_append (p : Party) (tr post : List Label) :
    receivedBy p (tr ++ post) = receivedBy p tr ++ receivedBy p post :=
  List.filterMap_append

/-- The nonces drawn by the calls of `send`. -/
def drawn (tr : List Label) : List Nonce :=
  tr.filterMap fun
    | .act _ (.sealing _ _ fresh _ _) => some fresh
    | _ => none

/-- The nonce of a call of `encrypt_in_place` by `p`. -/
def useOf (p : Party) : Label → Option Nonce
  | .act q (.sealing held _ _ _ _) => if q = p then held else none
  | _ => none

/-- The nonces under which `encrypt_in_place` was called, by either party. -/
def used (tr : List Label) : List Nonce :=
  tr.filterMap fun
    | .act _ (.sealing held _ _ _ _) => held
    | _ => none

/-- The nonces under which `p` called `encrypt_in_place`. -/
def usedBy (p : Party) (tr : List Label) : List Nonce := tr.filterMap (useOf p)

/-- Drawn nonces are pairwise distinct and differ from the first. -/
def Fresh (nonce : Nonce) (tr : List Label) : Prop := (nonce :: drawn tr).Nodup

/-- What decrypts under a nonce was encrypted before under this nonce, by one of
the parties, and decrypts to what was encrypted. -/
def Genuine (key : AesKey) (pre : List Label) (e : Label) : Prop :=
  ∀ p nonce packet result stored plain,
    e = .act p (.opening (some nonce) packet result stored) →
    aead.decryptInPlace key nonce packet = .ok plain →
    ∃ q level fresh message, .act q (.sealing (some nonce) level fresh message (.ok packet)) ∈ pre ∧
      payload.compose level fresh message = plain

/-- An ideal cipher in the hands of an attacker without the key. -/
def Unforged (key : AesKey) (tr : List Label) : Prop := Throughout (Genuine payload aead key) tr

/-! ## Critical sections on a cipher with a given nonce -/

section Sections

variable {V payload aead} {key : AesKey}

/-- A cipher that holds a nonce, or nothing. -/
def cipherOf (key : AesKey) (node : Option Nonce) : Cipher :=
  { slot := node.map fun nonce => (key, nonce) }

@[simp] theorem held_cipherOf (node : Option Nonce) : held (cipherOf key node) = node := by
  cases node <;> rfl

@[simp] theorem cipherOf_some (nonce : Nonce) :
    cipherOf key (some nonce) = Cipher.new (key, nonce) := rfl

/-- The ciphers after one of them changed. -/
theorem update_cipherOf {cipher : Party → Cipher} {node : Party → Option Nonce}
    (h : ∀ p, cipher p = cipherOf key (node p)) (p : Party) (next : Option Nonce) (q : Party) :
    Function.update cipher p (cipherOf key next) q =
      cipherOf key (Function.update node p next q) := by
  by_cases hq : q = p
  · simp [hq]
  · simp [Function.update_of_ne hq, h q]

/-- An empty cipher stays empty. -/
theorem update_cipherOf_none {cipher : Party → Cipher} {node : Party → Option Nonce}
    (h : ∀ p, cipher p = cipherOf key (node p)) {p : Party} (hnode : node p = none) (q : Party) :
    Function.update cipher p (cipherOf key none) q = cipherOf key (node q) := by
  rw [update_cipherOf h, ← hnode, Function.update_eq_self]

theorem outcome_seal_none (level : Level) (fresh : Nonce) (message : Buf) :
    (Sealed.sealMessage payload aead level fresh message).outcome (cipherOf key none) =
      (.error (.error .broken), cipherOf key none) :=
  Io.outcome_of_error (Sealed.run_sealMessage rfl level fresh message)

theorem outcome_seal_some (nonce : Nonce) (level : Level) (fresh : Nonce) (message : Buf) :
    (Sealed.sealMessage payload aead level fresh message).outcome (cipherOf key (some nonce)) =
      match aead.encryptInPlace key nonce (payload.compose level fresh message) with
      | .error e => (.error (.error (.aes e)), cipherOf key none)
      | .ok packet => (.ok packet, cipherOf key (some fresh)) := by
  rw [Io.outcome, Sealed.run_sealMessage rfl]
  simp only [cipherOf, Option.map_some, Option.map_none]
  cases aead.encryptInPlace key nonce (payload.compose level fresh message) <;> rfl

theorem outcome_open_none (packet : Bytes) :
    (Sealed.openPacket payload aead packet).outcome (cipherOf key none) =
      (.error (.error .broken), cipherOf key none) :=
  Io.outcome_of_error (Sealed.run_openPacket rfl packet)

theorem outcome_open_some (nonce : Nonce) (packet : Bytes) :
    (Sealed.openPacket payload aead packet).outcome (cipherOf key (some nonce)) =
      match aead.decryptInPlace key nonce packet with
      | .error e => (.error (.error (.aes e)), cipherOf key none)
      | .ok plain =>
          match payload.parse plain with
          | .error e => (.error (.error (.io e)), cipherOf key none)
          | .ok (next, message) => (.ok message, cipherOf key (some next)) := by
  rw [Io.outcome, Sealed.run_openPacket rfl]
  simp only [cipherOf, Option.map_some, Option.map_none]
  cases aead.decryptInPlace key nonce packet with
  | error e => rfl
  | ok plain =>
    simp only
    cases payload.parse plain <;> rfl

/-- A packet of one's own nonce: the message, and the nonce drawn for it. -/
theorem outcome_open_same (hideal : aead.Ideal) {nonce fresh : Nonce} {level : Level}
    {message : Buf} {packet : Bytes}
    (hencrypt : aead.encryptInPlace key nonce (payload.compose level fresh message) = .ok packet) :
    (Sealed.openPacket payload aead packet).outcome (cipherOf key (some nonce)) =
      (.ok message.flatten, cipherOf key (some fresh)) := by
  rw [outcome_open_some, hideal.decrypt_same hencrypt]
  simp only [payload.parse_compose]

/-- A packet of another nonce breaks the cipher. -/
theorem outcome_open_other (hideal : aead.Ideal) {nonce nonce' : Nonce} {plain packet : Bytes}
    (hencrypt : aead.encryptInPlace key nonce plain = .ok packet) (hne : nonce ≠ nonce') :
    (Sealed.openPacket payload aead packet).outcome (cipherOf key (some nonce')) =
      (.error (.error (.aes .failure)), cipherOf key none) := by
  rw [outcome_open_some, hideal.decrypt_other hencrypt hne.symm]

end Sections

/-! ## Whole calls

The two moves of a call, one right after the other, are the call. -/

section Calls

variable {V payload aead} {s s' s'' : State} {p : Party}

theorem send_of_sealing_writing {nonce : Option Nonce} {level : Level} {limit : Usize}
    {fresh : Nonce} {message : Buf} {packet : Bytes} {result : Except PacketError Unit}
    (hseal : Step V payload aead s (.act p (.sealing nonce level fresh message (.ok packet))) s')
    (hwrite : Step V payload aead s' (.act p (.writing limit result)) s'') :
    (Sealed.send V payload aead level limit fresh message).outcome (s.wire p, s.cipher p) =
      (result.mapError .error, (s''.wire p, s''.cipher p)) := by
  cases hseal with
  | sealing _ hcall =>
    cases hwrite with
    | writing hpending hcall' =>
      simp only [Function.update_self, Except.toOption, Option.some.injEq] at hpending
      subst hpending
      simp [Sealed.outcome_send, hcall, hcall']

theorem send_of_sealing_error {nonce : Option Nonce} {level : Level} {limit : Usize}
    {fresh : Nonce} {message : Buf} {e : Fault PacketError}
    (hseal : Step V payload aead s (.act p (.sealing nonce level fresh message (.error e))) s') :
    (Sealed.send V payload aead level limit fresh message).outcome (s.wire p, s.cipher p) =
      (.error e, (s'.wire p, s'.cipher p)) := by
  cases hseal with
  | sealing _ hcall => simp [Sealed.outcome_send, hcall]

theorem recv_of_fetching_opening {limit : Usize} {packet packet' : Bytes}
    {nonce stored : Option Nonce} {result : Except (Fault PacketError) Bytes}
    (hfetch : Step V payload aead s (.act p (.fetching limit (.ok packet))) s')
    (hopen : Step V payload aead s' (.act p (.opening nonce packet' result stored)) s'') :
    (Sealed.recv V payload aead limit).outcome (s.wire p.peer, s.cipher p) =
      (result, (s''.wire p.peer, s''.cipher p)) := by
  cases hfetch with
  | fetching _ _ hcall =>
    cases hopen with
    | opening hpending hcall' =>
      simp only [Function.update_self, Except.toOption, Option.some.injEq] at hpending
      subst hpending
      simp [Sealed.outcome_recv, hcall, hcall']

theorem recv_of_fetching_error {limit : Usize} {e : PacketError}
    (hfetch : Step V payload aead s (.act p (.fetching limit (.error e))) s') :
    (Sealed.recv V payload aead limit).outcome (s.wire p.peer, s.cipher p) =
      (.error (.error e), (s'.wire p.peer, s'.cipher p)) := by
  cases hfetch with
  | fetching _ _ hcall => simp [Sealed.outcome_recv, hcall]

end Calls

end TcpHandler.Session.Ciphered
