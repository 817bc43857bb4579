/-
  Session/Packets.lean --- the data that `recv` accepts.

  A packet is the length of its body, which is within the limit of the reader, and
  the body.  Calls of `recv` without a cipher accept packets whose bodies can be
  unpacked.  Calls with a cipher accept a chain of packets: each decrypts under the
  nonce that the one before it carried.

  Both are said of every stream, whoever wrote it, and of any number of calls up to
  the first that fails: what it finds, and what it leaves of the stream and of the
  cipher.
-/
import TcpHandler.Foundation.Grammar
import TcpHandler.Protocols.Plain
import TcpHandler.Protocols.Reference
import TcpHandler.Protocols.Sealed

set_option autoImplicit false

namespace TcpHandler.Session.Packets

open TcpHandler.Foundation TcpHandler.Protocols
open TcpHandler.Foundation.Io (Field Describes Each)

/-! ## Packets -/

section Packets

variable (V : VariableLen) (limit : Usize)

/-- `s` is a packet with the given body, and then `rest`. -/
def IsPacket (s body rest : Bytes) : Prop :=
  ∃ n, Field V.usizeVarintAp.read s n (body ++ rest) ∧ body.length = n.toNat ∧
    n.toNat ≤ limit.toNat

/-- What is wrong with a packet.  The body of one that is too long is not read. -/
inductive PacketRefused (s : Bytes) : PacketError → Bytes → Prop
  | lengthMissing {e : IoError} {left : Bytes}
      (hread : V.usizeVarintAp.read.run s = .error e left) :
      PacketRefused s (.io e) left
  | tooLarge {n : Usize} {left : Bytes} (hlength : Field V.usizeVarintAp.read s n left)
      (hlimit : limit.toNat < n.toNat) : PacketRefused s (.tooLarge n.toNat limit.toNat) left
  | bodyMissing {n : Usize} {t : Bytes} (hlength : Field V.usizeVarintAp.read s n t)
      (hlimit : n.toNat ≤ limit.toNat) (hshort : t.length < n.toNat) :
      PacketRefused s (.io .unexpectedEof) []

variable {V}

theorem describes_readPacket (hV : Io.Exact V.usizeVarintAp.read) :
    Describes (readPacket V limit) (IsPacket V limit) (PacketRefused V limit) := by
  have hread : readPacket V limit = (V.usizeVarintAp.read.mapError .io >>= fun len =>
      checkBytesLen limit len.toNat >>= fun _ => (readExactly len.toNat).mapError .io) := by
    simp only [readPacket, V.readMore_eq]
  rw [hread]
  refine ((hV.describes.mapError PacketError.io).bind fun len =>
    (Io.describes_ensure (len.toNat ≤ limit.toNat) (.tooLarge len.toNat limit.toNat)).bind fun _ =>
      (Io.describes_readExactly len.toNat).mapError PacketError.io).congr
    (fun s body rest => ?_) fun s e left => ?_
  · constructor
    · rintro ⟨n, t, hlength, _, u, ⟨hlimit, rfl⟩, rfl, hbody⟩
      exact ⟨n, hlength, hbody, hlimit⟩
    · rintro ⟨n, hlength, hbody, hlimit⟩
      exact ⟨n, _, hlength, (), _, ⟨hlimit, rfl⟩, rfl, hbody⟩
  · constructor
    · rintro (⟨e', hmissing, rfl⟩ | ⟨n, t, hlength, hrest⟩)
      · exact .lengthMissing hmissing
      · rcases hrest with ⟨hlimit, rfl, rfl⟩ | ⟨_, u, ⟨hlimit, rfl⟩, e', ⟨hshort, rfl, rfl⟩, rfl⟩
        · exact .tooLarge hlength (Nat.lt_of_not_le hlimit)
        · exact .bodyMissing hlength hlimit hshort
    · intro h
      cases h with
      | lengthMissing hmissing => exact .inl ⟨_, hmissing, rfl⟩
      | tooLarge hlength hlimit =>
        exact .inr ⟨_, _, hlength, .inl ⟨Nat.not_le_of_lt hlimit, rfl, rfl⟩⟩
      | bodyMissing hlength hlimit hshort =>
        exact .inr ⟨_, _, hlength, .inr ⟨(), _, ⟨hlimit, rfl⟩, _, ⟨hshort, rfl, rfl⟩, rfl⟩⟩

end Packets

/-! ## Without a cipher -/

section Plain

variable {V : VariableLen} (body : Body)

/-- A packet whose body is what `message` was packed as, or could have been. -/
def IsPlain (V : VariableLen) (limit : Usize) (s message rest : Bytes) : Prop :=
  ∃ packet, IsPacket V limit s packet rest ∧ body.unpack packet = .ok message

/-- What is wrong with a packet or with its body. -/
def PlainRefused (V : VariableLen) (limit : Usize) (s : Bytes) (e : PacketError) (left : Bytes) :
    Prop :=
  PacketRefused V limit s e left ∨
    ∃ packet e', IsPacket V limit s packet left ∧ body.unpack packet = .error e' ∧ e = .io e'

theorem describes_recv_plain (hV : Io.Exact V.usizeVarintAp.read) (limit : Usize) :
    Describes (Plain.recv V body limit) (IsPlain body V limit) (PlainRefused body V limit) := by
  refine ((describes_readPacket limit hV).bind fun packet =>
    Io.describes_ofExcept_mapError (body.unpack packet) PacketError.io).congr
    (fun s message rest => ?_) fun s e left => or_congr Iff.rfl ?_
  · constructor
    · rintro ⟨packet, t, hpacket, hunpack, rfl⟩
      exact ⟨packet, hpacket, hunpack⟩
    · rintro ⟨packet, hpacket, hunpack⟩
      exact ⟨packet, rest, hpacket, hunpack, rfl⟩
  · constructor
    · rintro ⟨packet, t, hpacket, e', hunpack, rfl, rfl⟩
      exact ⟨packet, e', hpacket, hunpack, rfl⟩
    · rintro ⟨packet, e', hpacket, hunpack, rfl⟩
      exact ⟨packet, left, hpacket, e', hunpack, rfl, rfl⟩

/-- Calls of `recv` without a cipher accept exactly the packets whose bodies can be
unpacked, one after the other, and fail at the first that is not one. -/
theorem recvs_accept_packets (hV : Io.Exact V.usizeVarintAp.read) (limits : List Usize) :
    Describes (limits.mapM (Plain.recv V body)) (Each (IsPlain body V) limits)
      (fun s e left => ∃ before limit after messages t, limits = before ++ limit :: after ∧
        Each (IsPlain body V) before s messages t ∧ PlainRefused body V limit t e left) :=
  Io.describes_mapM (describes_recv_plain body hV) limits

theorem recvs_accept_packets_reference :
    Describes ([64, 8].mapM (Plain.recv Reference.variableLen (Compress.body Reference.flate)))
      (Each (IsPlain (Compress.body Reference.flate) Reference.variableLen) [64, 8])
      (fun s e left => ∃ before limit after messages t, [64, 8] = before ++ limit :: after ∧
        Each (IsPlain (Compress.body Reference.flate) Reference.variableLen) before s messages t ∧
          PlainRefused (Compress.body Reference.flate) Reference.variableLen limit t e left) :=
  recvs_accept_packets (Compress.body Reference.flate) Reference.variableLen_usizeVarintAp_exact
    [64, 8]

end Plain

/-! ## With a cipher -/

section Sealed

variable (V : VariableLen) (payload : Payload) (aead : Aead) (key : AesKey)

/-- Packets that decrypt one after the other, each under the nonce in front of it, and
the nonce behind the last of them. -/
inductive Chain : List Usize → Nonce → Bytes → List Bytes → Nonce → Bytes → Prop
  | nil {nonce : Nonce} {s : Bytes} : Chain [] nonce s [] nonce s
  | cons {limit : Usize} {limits : List Usize} {nonce next last : Nonce}
      {s t rest packet plain message : Bytes} {messages : List Bytes}
      (hpacket : IsPacket V limit s packet t)
      (hdecrypt : aead.decryptInPlace key nonce packet = .ok plain)
      (hparse : payload.parse plain = .ok (next, message))
      (hrest : Chain limits next t messages last rest) :
      Chain (limit :: limits) nonce s (message :: messages) last rest

/-- What ends a chain at `nonce`: the error, and what is left of the stream and of the
cipher.  A packet that cannot be read leaves the cipher as it is; one that cannot be
opened takes it away. -/
inductive ChainEnds (limit : Usize) (nonce : Nonce) (s : Bytes) :
    Fault PacketError → Bytes → Cipher → Prop
  | unread {e : PacketError} {left : Bytes} (hpacket : PacketRefused V limit s e left) :
      ChainEnds limit nonce s (.error e) left (Cipher.new (key, nonce))
  | undecryptable {packet left : Bytes} {e : AeadError} (hpacket : IsPacket V limit s packet left)
      (hdecrypt : aead.decryptInPlace key nonce packet = .error e) :
      ChainEnds limit nonce s (.error (.aes e)) left { slot := none }
  | unparsable {packet left plain : Bytes} {e : IoError} (hpacket : IsPacket V limit s packet left)
      (hdecrypt : aead.decryptInPlace key nonce packet = .ok plain)
      (hparse : payload.parse plain = .error e) :
      ChainEnds limit nonce s (.error (.io e)) left { slot := none }

variable {V payload aead key}

/-- What `recv` does, step by step. -/
theorem describes_recv_sealed (hV : Io.Exact V.usizeVarintAp.read) (limit : Usize) :
    Describes (Sealed.recv V payload aead limit)
      (fun s message t => ∃ packet, IsPacket V limit s.1 packet t.1 ∧
        (Sealed.openPacket payload aead packet).run s.2 = .ok message t.2)
      (fun s e t => (∃ e', PacketRefused V limit s.1 e' t.1 ∧ e = .error e' ∧ t.2 = s.2) ∨
        ∃ packet, IsPacket V limit s.1 packet t.1 ∧
          (Sealed.openPacket payload aead packet).run s.2 = .error e t.2) := by
  have hopen : ∀ packet, Describes (Sealed.openPacket payload aead packet)
      (fun c message c' => (Sealed.openPacket payload aead packet).run c = .ok message c')
      (fun c e c' => (Sealed.openPacket payload aead packet).run c = .error e c') := fun packet =>
    ⟨fun _ _ _ => Iff.rfl, fun _ _ _ => Iff.rfl⟩
  refine ((((describes_readPacket limit hV).mapError Fault.error).onFst).bind fun packet =>
    (hopen packet).onSnd).congr (fun s message u => ?_) fun s e u => or_congr ?_ ?_
  · constructor
    · rintro ⟨packet, t, ⟨hpacket, ht⟩, hrun, hu⟩
      rw [← hu] at hpacket
      rw [ht] at hrun
      exact ⟨packet, hpacket, hrun⟩
    · rintro ⟨packet, hpacket, hrun⟩
      exact ⟨packet, (u.1, s.2), ⟨hpacket, rfl⟩, hrun, rfl⟩
  · constructor
    · rintro ⟨⟨e', hpacket, rfl⟩, hu⟩
      exact ⟨e', hpacket, rfl, hu⟩
    · rintro ⟨e', hpacket, rfl, hu⟩
      exact ⟨⟨e', hpacket, rfl⟩, hu⟩
  · constructor
    · rintro ⟨packet, t, ⟨hpacket, ht⟩, hrun, hu⟩
      rw [← hu] at hpacket
      rw [ht] at hrun
      exact ⟨packet, hpacket, hrun⟩
    · rintro ⟨packet, hpacket, hrun⟩
      exact ⟨packet, (u.1, s.2), ⟨hpacket, rfl⟩, hrun, rfl⟩

variable {limit : Usize} {nonce : Nonce} {s left : Bytes} {cipher : Cipher}

/-- A call that finds a link of the chain. -/
theorem run_recv_eq_ok_iff (hV : Io.Exact V.usizeVarintAp.read) {message : Bytes} :
    (Sealed.recv V payload aead limit).run (s, Cipher.new (key, nonce)) =
        .ok message (left, cipher) ↔
      ∃ packet plain next, IsPacket V limit s packet left ∧
        aead.decryptInPlace key nonce packet = .ok plain ∧
        payload.parse plain = .ok (next, message) ∧ cipher = Cipher.new (key, next) := by
  rw [(describes_recv_sealed hV limit).ok_iff]
  refine exists_congr fun packet => ?_
  rw [Sealed.run_openPacket rfl]
  simp only [Cipher.new]
  cases aead.decryptInPlace key nonce packet with
  | error e => simp
  | ok plain =>
    cases hparse : payload.parse plain with
    | error e => simp [hparse]
    | ok parsed =>
      obtain ⟨next, message'⟩ := parsed
      simp [hparse, eq_comm, and_left_comm]

/-- A call that does not. -/
theorem run_recv_eq_error_iff (hV : Io.Exact V.usizeVarintAp.read) {e : Fault PacketError} :
    (Sealed.recv V payload aead limit).run (s, Cipher.new (key, nonce)) =
        .error e (left, cipher) ↔
      ChainEnds V payload aead key limit nonce s e left cipher := by
  rw [(describes_recv_sealed hV limit).error_iff]
  constructor
  · rintro (⟨e', hpacket, rfl, rfl⟩ | ⟨packet, hpacket, hrun⟩)
    · exact .unread hpacket
    · rw [Sealed.run_openPacket rfl] at hrun
      simp only [Cipher.new] at hrun
      cases hdecrypt : aead.decryptInPlace key nonce packet with
      | error e' =>
        simp only [hdecrypt, EStateM.Result.error.injEq] at hrun
        obtain ⟨rfl, rfl⟩ := hrun
        exact .undecryptable hpacket hdecrypt
      | ok plain =>
        simp only [hdecrypt] at hrun
        cases hparse : payload.parse plain with
        | error e' =>
          simp only [hparse, EStateM.Result.error.injEq] at hrun
          obtain ⟨rfl, rfl⟩ := hrun
          exact .unparsable hpacket hdecrypt hparse
        | ok parsed => simp [hparse] at hrun
  · intro h
    cases h with
    | unread hpacket => exact .inl ⟨_, hpacket, rfl, rfl⟩
    | undecryptable hpacket hdecrypt =>
      refine .inr ⟨_, hpacket, ?_⟩
      rw [Sealed.run_openPacket rfl]
      simp [Cipher.new, hdecrypt]
    | unparsable hpacket hdecrypt hparse =>
      refine .inr ⟨_, hpacket, ?_⟩
      rw [Sealed.run_openPacket rfl]
      simp [Cipher.new, hdecrypt, hparse]

/-- The calls that find a chain, one link each. -/
theorem each_iff_chain (hV : Io.Exact V.usizeVarintAp.read) {limits : List Usize}
    {messages : List Bytes} :
    Each (fun limit s message t => (Sealed.recv V payload aead limit).run s = .ok message t)
        limits (s, Cipher.new (key, nonce)) messages (left, cipher) ↔
      ∃ last, cipher = Cipher.new (key, last) ∧
        Chain V payload aead key limits nonce s messages last left := by
  constructor
  · intro h
    induction limits generalizing nonce s messages with
    | nil =>
      cases h
      exact ⟨nonce, rfl, .nil⟩
    | cons limit limits ih =>
      cases h with
      | @cons _ _ _ t _ _ _ hfirst hrest =>
        obtain ⟨t, c⟩ := t
        obtain ⟨packet, plain, next, hpacket, hdecrypt, hparse, rfl⟩ :=
          (run_recv_eq_ok_iff hV).mp hfirst
        obtain ⟨last, hlast, hchain⟩ := ih hrest
        exact ⟨last, hlast, .cons hpacket hdecrypt hparse hchain⟩
  · rintro ⟨last, rfl, h⟩
    induction h with
    | nil => exact .nil
    | cons hpacket hdecrypt hparse _ ih =>
      exact .cons ((run_recv_eq_ok_iff hV).mpr ⟨_, _, _, hpacket, hdecrypt, hparse, rfl⟩) ih

variable (payload aead key) in
/-- Calls of `recv` with a cipher accept exactly the chains that start at its nonce.
They fail at the packet that ends the chain, with the cipher as that packet leaves
it. -/
theorem recvs_accept_chains (hV : Io.Exact V.usizeVarintAp.read) (limits : List Usize)
    (nonce : Nonce) (s left : Bytes) (cipher : Cipher) :
    (∀ messages, (limits.mapM (Sealed.recv V payload aead)).run (s, Cipher.new (key, nonce)) =
        .ok messages (left, cipher) ↔
      ∃ last, cipher = Cipher.new (key, last) ∧
        Chain V payload aead key limits nonce s messages last left) ∧
    (∀ e, (limits.mapM (Sealed.recv V payload aead)).run (s, Cipher.new (key, nonce)) =
        .error e (left, cipher) ↔
      ∃ before limit after messages last t, limits = before ++ limit :: after ∧
        Chain V payload aead key before nonce s messages last t ∧
        ChainEnds V payload aead key limit last t e left cipher) := by
  have hcalls : Describes (limits.mapM (Sealed.recv V payload aead)) _ _ :=
    Io.describes_mapM (fun limit => ⟨fun _ _ _ => Iff.rfl, fun _ _ _ => Iff.rfl⟩) limits
  refine ⟨fun messages => (hcalls.ok_iff _ _ _).trans (each_iff_chain hV), fun e => ?_⟩
  rw [hcalls.error_iff]
  constructor
  · rintro ⟨before, limit, after, messages, ⟨t, c⟩, hlimits, hbefore, hbad⟩
    obtain ⟨last, rfl, hchain⟩ := (each_iff_chain hV).mp hbefore
    exact ⟨before, limit, after, messages, last, t, hlimits, hchain,
      (run_recv_eq_error_iff hV).mp hbad⟩
  · rintro ⟨before, limit, after, messages, last, t, hlimits, hchain, hbad⟩
    exact ⟨before, limit, after, messages, (t, Cipher.new (key, last)), hlimits,
      (each_iff_chain hV).mpr ⟨last, rfl, hchain⟩, (run_recv_eq_error_iff hV).mpr hbad⟩

theorem recvs_accept_chains_reference :
    (∀ messages, ([64, 8].mapM
        (Sealed.recv Reference.variableLen (Encrypt.payload Reference.variableLen)
          Reference.aead)).run ([5, 1], Cipher.new (Reference.key, Reference.nonce 1)) =
        .ok messages ([], { slot := none }) ↔
      ∃ last, { slot := none } = Cipher.new (Reference.key, last) ∧
        Chain Reference.variableLen (Encrypt.payload Reference.variableLen) Reference.aead
          Reference.key [64, 8]
          (Reference.nonce 1) [5, 1] messages last []) ∧
    (∀ e, ([64, 8].mapM
        (Sealed.recv Reference.variableLen (Encrypt.payload Reference.variableLen)
          Reference.aead)).run ([5, 1], Cipher.new (Reference.key, Reference.nonce 1)) =
        .error e ([], { slot := none }) ↔
      ∃ before limit after messages last t, [64, 8] = before ++ limit :: after ∧
        Chain Reference.variableLen (Encrypt.payload Reference.variableLen) Reference.aead
          Reference.key before
          (Reference.nonce 1) [5, 1] messages last t ∧
        ChainEnds Reference.variableLen (Encrypt.payload Reference.variableLen) Reference.aead
          Reference.key limit last t e
          [] { slot := none }) :=
  recvs_accept_chains (Encrypt.payload Reference.variableLen) Reference.aead Reference.key
    Reference.variableLen_usizeVarintAp_exact [64, 8] (Reference.nonce 1) [5, 1] [] { slot := none }

end Sealed

end TcpHandler.Session.Packets
