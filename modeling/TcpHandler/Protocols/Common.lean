/-
  Protocols/Common.lean --- `protocols/common.rs`.

  The errors, the protocol variant, the two halves of the handshake that every
  protocol shares (`write_head`/`read_head`, `write_last`/`read_last`), the
  packet frame and the `Cipher` lock.

  Every writer of the handshake is first brought to the slices it hands to the
  stream (`headWrites`, `replyWrites`), and a packet to the bytes of its `frame`;
  what arrives then depends only on the stream.  Every reader has one lemma for each kind of input that an
  honest writer produces.

  `Fault` is the error type of a call that contains an `unwrap`: the call either
  returns its own error or panics.
-/
import TcpHandler.Protocols.External

set_option autoImplicit false

namespace TcpHandler.Protocols

open TcpHandler.Foundation

/-! ## Errors and variants -/

/-- The variants of the protocol. -/
inductive ProtocolVariant where
  | raw
  | compression
  | encryption
  | compressEncryption
  deriving DecidableEq, Repr

/-- `impl From<[bool; 2]> for ProtocolVariant`. -/
def ProtocolVariant.ofBools : Bool × Bool → ProtocolVariant
  | (false, false) => .raw
  | (false, true) => .compression
  | (true, false) => .encryption
  | (true, true) => .compressEncryption

/-- `impl From<ProtocolVariant> for [bool; 2]`. -/
def ProtocolVariant.toBools : ProtocolVariant → Bool × Bool
  | .raw => (false, false)
  | .compression => (false, true)
  | .encryption => (true, false)
  | .compressEncryption => (true, true)

@[simp] theorem ProtocolVariant.ofBools_toBools (protocol : ProtocolVariant) :
    ofBools protocol.toBools = protocol := by
  cases protocol <;> rfl

/-- `PacketError`. -/
inductive PacketError where
  /-- the size of the packet and the maximum allowed size -/
  | tooLarge (size limit : Nat)
  | io (error : IoError)
  | aes (error : AeadError)
  /-- broken stream cipher -/
  | broken
  deriving DecidableEq, Repr

/-- `StarterError`.  The parameters come from the other side. -/
inductive StarterError where
  | invalidStream
  | invalidProtocol (received : ProtocolVariant)
  | invalidIdentifier (received : String)
  | invalidVersion (received : String)
  | io (error : IoError)
  | rsa (error : RsaError)
  deriving DecidableEq, Repr

/-- How a call with an `unwrap` in it fails. -/
inductive Fault (ε : Type) where
  | error (error : ε)
  | panic
  deriving DecidableEq, Repr

/-! ## The head -/

/-- `MAGIC_BYTES`. -/
def magicBytes : Bytes := [208, 8, 166, 104]

/-- `MAGIC_VERSION`. -/
def magicVersion : UInt16 := 1

variable (V : VariableLen)

section Head

variable {W : Type} [AsyncWrite W]

/-- `write_head`, in client side. -/
def writeHead (protocol : ProtocolVariant) (identifier version : String) :
    Io W StarterError Unit := do
  (writeMore magicBytes).mapError .io
  (V.u16RawBe.write magicVersion).mapError .io
  (V.bools2.write protocol.toBools).mapError .io
  (V.string.write identifier).mapError .io
  (V.string.write version).mapError .io

/-- The slices of a head. -/
def headWrites (protocol : ProtocolVariant) (identifier version : String) : List Bytes :=
  [magicBytes] ++ V.u16RawBe.writes magicVersion ++ V.bools2.writes protocol.toBools ++
    V.string.writes identifier ++ V.string.writes version

/-- The bytes of a head. -/
def head (protocol : ProtocolVariant) (identifier version : String) : Bytes :=
  (headWrites V protocol identifier version).flatten

theorem writeHead_eq (protocol : ProtocolVariant) (identifier version : String) :
    (writeHead V protocol identifier version : Io W StarterError Unit) =
      (writeChunks (headWrites V protocol identifier version)).mapError .io := by
  simp only [headWrites, writeChunks_append, Io.mapError_bind, writeChunks_singleton,
    writeHead, WireField.write, bind_assoc]

theorem head_eq (protocol : ProtocolVariant) (identifier version : String) :
    head V protocol identifier version =
      magicBytes ++ (V.u16RawBe.encode magicVersion ++ (V.bools2.encode protocol.toBools ++
        (V.string.encode identifier ++ V.string.encode version))) := by
  simp [head, headWrites, WireField.encode]

end Head

/-- `read_head`, in server side. -/
def readHead (protocol : ProtocolVariant) (identifier : String) (version : String → Bool) :
    Io Bytes StarterError (UInt16 × String) := do
  let magic ← (V.readMore 4).mapError .io
  Io.ensure (magic = magicBytes) .invalidStream
  let protocolVersion ← V.u16RawBe.read.mapError .io
  Io.ensure (protocolVersion = magicVersion) .invalidStream
  let bools ← V.bools2.read.mapError .io
  let protocolRead := ProtocolVariant.ofBools bools
  Io.ensure (protocolRead = protocol) (.invalidProtocol protocolRead)
  let identifierRead ← V.string.read.mapError .io
  Io.ensure (identifierRead = identifier) (.invalidIdentifier identifierRead)
  let versionRead ← V.string.read.mapError .io
  Io.ensure (version versionRead) (.invalidVersion versionRead)
  return (protocolVersion, versionRead)

section ReadHead

variable {pc ps : ProtocolVariant} {ic is vc : String} {P : String → Bool}

/-- What `read_head` makes of an honest head, field by field: the first check
that fails decides, and nothing after its field is consumed. -/
theorem run_readHead_head (pc ps : ProtocolVariant) (ic is vc : String)
    (P : String → Bool) (rest : Bytes) :
    (readHead V ps is P).run (head V pc ic vc ++ rest) =
      if pc = ps then
        if ic = is then
          if P vc then .ok (magicVersion, vc) rest
          else .error (.invalidVersion vc) rest
        else .error (.invalidIdentifier ic) (V.string.encode vc ++ rest)
      else .error (.invalidProtocol pc)
        (V.string.encode ic ++ (V.string.encode vc ++ rest)) := by
  have hmagic : ∀ s, (V.readMore 4).run (magicBytes ++ s) = .ok magicBytes s :=
    fun s => V.readMore_append magicBytes s
  rw [head_eq]
  simp only [List.append_assoc, readHead, EStateM.run_bind, Io.run_mapError, hmagic,
    Io.run_ensure, WireField.run_read_encode, ProtocolVariant.ofBools_toBools, if_true]
  by_cases hp : pc = ps
  · by_cases hi : ic = is
    · cases hP : P vc <;> simp [hp, hi, hP]
    · simp [hp, hi]
  · simp [hp]

end ReadHead

/-! ## The reply -/

section Last

variable {W : Type} [AsyncWrite W] {E : Type}

/-- `write_last`, in server side. -/
def writeLast (protocol : ProtocolVariant) (identifier version : String)
    (last : Except StarterError E) : Io W StarterError E :=
  match last with
  | .error e => do
      match e with
      | .invalidProtocol _ => do
          (V.bools2.write (false, false)).mapError .io
          (V.bools2.write protocol.toBools).mapError .io
      | .invalidIdentifier _ => do
          (V.bools2.write (false, true)).mapError .io
          (V.string.write identifier).mapError .io
      | .invalidVersion _ => do
          (V.bools2.write (true, false)).mapError .io
          (V.string.write version).mapError .io
      | _ => pure ()
      throw e
  | .ok k => do
      (V.bools2.write (true, true)).mapError .io
      return k

/-- The slices `write_last` hands to the stream. -/
def replyWrites (protocol : ProtocolVariant) (identifier version : String) :
    Except StarterError E → List Bytes
  | .error (.invalidProtocol _) =>
      V.bools2.writes (false, false) ++ V.bools2.writes protocol.toBools
  | .error (.invalidIdentifier _) => V.bools2.writes (false, true) ++ V.string.writes identifier
  | .error (.invalidVersion _) => V.bools2.writes (true, false) ++ V.string.writes version
  | .error _ => []
  | .ok _ => V.bools2.writes (true, true)

/-- `write_last` writes its reply and returns `last` unchanged. -/
theorem writeLast_eq (protocol : ProtocolVariant) (identifier version : String)
    (last : Except StarterError E) :
    (writeLast V protocol identifier version last : Io W StarterError E) =
      ((writeChunks (replyWrites V protocol identifier version last)).mapError .io >>=
        fun _ => Io.ofExcept last) := by
  cases last with
  | error e =>
    cases e <;>
      simp [writeLast, replyWrites, writeChunks_append, Io.mapError_bind, WireField.write,
        Io.ofExcept]
  | ok k => rfl

/-- `read_last`, in client side. -/
def readLast (last : Except StarterError E) : Io Bytes StarterError E := do
  let extra ← Io.ofExcept last
  match ← V.bools2.read.mapError .io with
  | (true, true) => return extra
  | (false, false) => do
      let protocol ← V.bools2.read.mapError .io
      throw (.invalidProtocol (.ofBools protocol))
  | (false, true) => do
      let identifier ← V.string.read.mapError .io
      throw (.invalidIdentifier identifier)
  | (true, false) => do
      let version ← V.string.read.mapError .io
      throw (.invalidVersion version)

/-- `read_last` behind the status. -/
def afterStatus (extra : E) : Bool × Bool → Io Bytes StarterError E
  | (true, true) => return extra
  | (false, false) => do
      let protocol ← V.bools2.read.mapError .io
      throw (.invalidProtocol (.ofBools protocol))
  | (false, true) => do
      let identifier ← V.string.read.mapError .io
      throw (.invalidIdentifier identifier)
  | (true, false) => do
      let version ← V.string.read.mapError .io
      throw (.invalidVersion version)

theorem readLast_ok (extra : E) :
    readLast V (.ok extra) = (V.bools2.read.mapError .io >>= afterStatus V extra) := rfl

theorem run_readLast_accept (k : E) (rest : Bytes) :
    (readLast V (.ok k)).run (V.bools2.encode (true, true) ++ rest) = .ok k rest := by
  simp [readLast]

theorem run_readLast_protocol (k : E) (protocol : ProtocolVariant) (rest : Bytes) :
    (readLast V (.ok k)).run
      (V.bools2.encode (false, false) ++ (V.bools2.encode protocol.toBools ++ rest)) =
      .error (.invalidProtocol protocol) rest := by
  simp [readLast]

theorem run_readLast_identifier (k : E) (identifier : String) (rest : Bytes) :
    (readLast V (.ok k)).run
      (V.bools2.encode (false, true) ++ (V.string.encode identifier ++ rest)) =
      .error (.invalidIdentifier identifier) rest := by
  simp [readLast]

theorem run_readLast_version (k : E) (version : String) (rest : Bytes) :
    (readLast V (.ok k)).run
      (V.bools2.encode (true, false) ++ (V.string.encode version ++ rest)) =
      .error (.invalidVersion version) rest := by
  simp [readLast]

/-- A client that finds no reply at all: the end of the stream, or what it reads there
as the rejection of a `raw` server for its protocol. -/
theorem run_readLast_nil (hV : V.EndsBools) (k : E) :
    (∃ e left, V.bools2.read.run [] = .error e left ∧
        (readLast V (.ok k)).run [] = .error (.io e) left) ∨
      V.bools2.read.run [] = .ok (false, false) [] ∧
        (readLast V (.ok k)).run [] = .error (.invalidProtocol .raw) [] := by
  rcases hV with ⟨e, left, hread⟩ | hend
  · refine .inl ⟨e, left, hread, ?_⟩
    simp only [readLast, EStateM.run_bind, Io.run_ofExcept_ok, Io.run_mapError, hread]
  · refine .inr ⟨hend, ?_⟩
    simp only [readLast, EStateM.run_bind, Io.run_ofExcept_ok, Io.run_mapError, hend]
    rfl

/-- A client goes on exactly when its own half succeeded and the status accepts. -/
theorem run_readLast_eq_ok {last : Except StarterError E} {extra : E} {s t : Bytes} :
    (readLast V last).run s = .ok extra t ↔
      last = .ok extra ∧ V.bools2.read.run s = .ok (true, true) t := by
  cases last with
  | error e => simp [readLast]
  | ok k =>
    simp only [readLast, EStateM.run_bind, Io.run_ofExcept_ok, Io.run_mapError]
    cases hstatus : V.bools2.read.run s with
    | error e t' => simp
    | ok status t' =>
      obtain ⟨_ | _, _ | _⟩ := status
      · cases hread : V.bools2.read.run t' <;> simp [hread]
      · cases hread : V.string.read.run t' <;> simp [hread]
      · cases hread : V.string.read.run t' <;> simp [hread]
      · simp

end Last

/-! ## Packets -/

/-- `check_bytes_len`; `limit` is what `get_max_packet_size` returns. -/
def checkBytesLen {σ : Type} (limit : Usize) (len : Nat) : Io σ PacketError Unit :=
  Io.ensure (len ≤ limit.toNat) (.tooLarge len limit.toNat)

/-- `write_packet`. -/
def writePacket {W : Type} [AsyncWrite W] (limit : Usize) (bytes : Buf) :
    Io W PacketError Unit := do
  checkBytesLen limit (Buf.remaining bytes)
  (V.usizeVarintAp.write (UInt64.ofNat (Buf.remaining bytes))).mapError .io
  (writeChunks bytes).mapError .io

/-- `read_packet`. -/
def readPacket (limit : Usize) : Io Bytes PacketError Bytes := do
  let len ← V.usizeVarintAp.read.mapError .io
  checkBytesLen limit len.toNat
  (V.readMore len.toNat).mapError .io

/-- `flush`, with the `auto_flush` feature that is on by default. -/
def flush {W : Type} [AsyncWrite W] : Io W IoError Unit := AsyncWrite.flush

/-- A packet on the wire: its length as a varint, then its bytes. -/
def frame (body : Bytes) : Bytes := V.usizeVarintAp.encode (UInt64.ofNat body.length) ++ body

/-- The packet at the front of an open stream has arrived: a reader that needs
more bytes than there are waits for them. -/
def arrived (limit : Usize) (s : Bytes) : Bool :=
  !s.isEmpty &&
    match (readPacket V limit).run s with
    | .error (.io .unexpectedEof) _ => false
    | _ => true

/-- No frame is empty. -/
theorem frame_ne_nil (body : Bytes) : frame V body ≠ [] := by
  intro h
  exact V.usizeVarintAp.encode_ne_nil _ (List.append_eq_nil_iff.mp h).1

/-- A packet longer than the limit is refused before anything is written. -/
theorem run_writePacket_of_lt {W : Type} [AsyncWrite W] {limit : Usize} {bytes : Buf}
    (h : limit.toNat < Buf.remaining bytes) (w : W) :
    (writePacket V limit bytes).run w =
      .error (.tooLarge (Buf.remaining bytes) limit.toNat) w := by
  simp [writePacket, checkBytesLen, Nat.not_le.mpr h]

/-- A packet within the limit is written as one frame, however its bytes are
cut into chunks. -/
theorem run_writePacket_of_le {limit : Usize} {bytes : Buf}
    (h : Buf.remaining bytes ≤ limit.toNat) (w : Bytes) :
    (writePacket V limit bytes).run w = .ok () (w ++ frame V bytes.flatten) := by
  simp only [writePacket, checkBytesLen, EStateM.run_bind, Io.run_ensure, if_pos h,
    Io.run_mapError, WireField.run_write_bytes, run_writeChunks_bytes, List.append_assoc]
  rfl

/-- A length within a limit survives the cast to `usize`. -/
theorem toNat_ofNat_of_le {len : Nat} {limit : Usize} (h : len ≤ limit.toNat) :
    (UInt64.ofNat len).toNat = len :=
  UInt64.toNat_ofNat_of_lt' (Nat.lt_of_le_of_lt h limit.toNat_lt)

/-- A frame whose body is within the reader's limit is read back, and the
stream is left at the byte after it. -/
theorem run_readPacket_frame {limit : Usize} {body : Bytes}
    (h : body.length ≤ limit.toNat) (rest : Bytes) :
    (readPacket V limit).run (frame V body ++ rest) = .ok body rest := by
  have hlen : (UInt64.ofNat body.length).toNat = body.length := toNat_ofNat_of_le h
  simp [readPacket, checkBytesLen, frame, hlen, h]

/-- A frame whose body is longer than the reader's limit is refused after its
length was consumed: the stream is left in the middle of the frame. -/
theorem run_readPacket_oversized {sent limit : Usize} {body : Bytes}
    (hsent : body.length ≤ sent.toNat) (h : limit.toNat < body.length) (rest : Bytes) :
    (readPacket V limit).run (frame V body ++ rest) =
      .error (.tooLarge body.length limit.toNat) (body ++ rest) := by
  have hlen : (UInt64.ofNat body.length).toNat = body.length := toNat_ofNat_of_le hsent
  simp [readPacket, checkBytesLen, frame, hlen, Nat.not_le.mpr h]

/-- A frame that is cut is refused, under every limit. -/
theorem notices_readPacket (hV : V.FailsWhenCut) {sent : Usize} {body : Bytes}
    (hsent : body.length ≤ sent.toNat) (limit : Usize) :
    Io.Notices (fun _ => True) (readPacket V limit) (frame V body) := by
  have hlen : (UInt64.ofNat body.length).toNat = body.length := toNat_ofNat_of_le hsent
  refine (hV.usizeVarintAp.notices (UInt64.ofNat body.length)).checked (E := fun _ => True)
    (c := fun len => len.toNat ≤ limit.toNat) (fun _ _ => trivial) (V.usizeVarintAp.takes_encode _)
    trivial fun _ => ?_
  rw [hlen, V.readMore_eq]
  exact (Io.notices_readExactly body.length (Nat.le_refl _)).mapError fun _ _ => trivial

/-- A stream that has ended holds no packet. -/
theorem run_readPacket_nil (hV : V.FailsWhenCut) (limit : Usize) :
    ∃ e left, (readPacket V limit).run [] = .error e left := by
  have hsent : ([] : Bytes).length ≤ limit.toNat := Nat.zero_le _
  obtain ⟨e, left, hread, _⟩ :=
    notices_readPacket V hV hsent limit [] List.nil_prefix (frame_ne_nil V []).symm
  exact ⟨e, left, hread⟩

/-- What `read_packet` returns is within the limit, whatever the stream. -/
theorem length_le_of_readPacket {limit : Usize} {s rest body : Bytes}
    (h : (readPacket V limit).run s = .ok body rest) : body.length ≤ limit.toNat := by
  obtain ⟨len, t, _, h⟩ := Io.run_bind_eq_ok.mp h
  obtain ⟨_, t', hcheck, h⟩ := Io.run_bind_eq_ok.mp h
  rw [V.readMore_eq] at h
  obtain ⟨_, hbody⟩ := run_readExactly_eq_ok.mp (Io.run_mapError_eq_ok.mp h)
  rw [hbody]
  simp only [checkBytesLen, Io.run_ensure] at hcheck
  split at hcheck
  · assumption
  · simp at hcheck

/-! ## RSA keys -/

section Keys

variable {Sk Pk Seed : Type} (rsa : Rsa Sk Pk Seed)

/-- `generate_rsa_private`; `drawn` is the outcome of `RsaPrivateKey::new`. -/
def generateRsaPrivate (drawn : Except RsaError Sk) : Except StarterError (Sk × Bytes × Bytes) :=
  match drawn with
  | .error e => .error (.rsa e)
  | .ok key => .ok (key, rsa.toBytesLe (rsa.n key), rsa.toBytesLe (rsa.e key))

/-- `compose_rsa_public`. -/
def composeRsaPublic (n e : Bytes) : Except StarterError Pk :=
  (rsa.newPublic (rsa.fromBytesLe n) (rsa.fromBytesLe e)).mapError .rsa

end Keys

/-! ## The cipher lock -/

/-- `InnerAesCipher`: an `Aes256Gcm` is its key. -/
abbrev InnerAesCipher : Type := AesKey × Nonce

/-- `Cipher`: a mutex around the slot that holds the inner cipher.  The slot is
empty while a critical section has the inner cipher, and after one failed. -/
structure Cipher where
  slot : Option InnerAesCipher
  /-- a panic while the guard is held poisons the mutex -/
  poisoned : Bool := false
  deriving DecidableEq

namespace Cipher

/-- `Cipher::new`. -/
def new (inner : InnerAesCipher) : Cipher := { slot := some inner }

/-- `Cipher::get`: lock, `unwrap`, take. -/
def get : Io Cipher (Fault PacketError) InnerAesCipher := fun cipher =>
  if cipher.poisoned then .error .panic cipher
  else
    match cipher.slot with
    | some inner => .ok inner { cipher with slot := none }
    | none => .error (.error .broken) cipher

/-- `Cipher::reset`. -/
def reset (inner : InnerAesCipher) : Io Cipher (Fault PacketError) Unit :=
  modify fun cipher => { cipher with slot := some inner }

/-- Drop the guard at the end of a critical section: a panic poisons the mutex. -/
def guarded {α : Type} (critical : Io Cipher (Fault PacketError) α) :
    Io Cipher (Fault PacketError) α := fun cipher =>
  match critical.run cipher with
  | .ok a cipher' => .ok a cipher'
  | .error (.error e) cipher' => .error (.error e) cipher'
  | .error .panic cipher' => .error .panic { cipher' with poisoned := true }

theorem run_guarded {α : Type} (critical : Io Cipher (Fault PacketError) α) (cipher : Cipher) :
    (guarded critical).run cipher =
      match critical.run cipher with
      | .ok a cipher' => .ok a cipher'
      | .error (.error e) cipher' => .error (.error e) cipher'
      | .error .panic cipher' => .error .panic { cipher' with poisoned := true } := rfl

theorem run_get_some {cipher : Cipher} {inner : InnerAesCipher}
    (hslot : cipher.slot = some inner) (hlock : cipher.poisoned = false) :
    get.run cipher = .ok inner { cipher with slot := none } := by
  show (if _ then _ else _) = _
  simp [hslot, hlock]

theorem run_get_poisoned {cipher : Cipher} (hlock : cipher.poisoned = true) :
    get.run cipher = .error .panic cipher := by
  show (if _ then _ else _) = _
  simp [hlock]

theorem run_get_none {cipher : Cipher} (hslot : cipher.slot = none)
    (hlock : cipher.poisoned = false) : get.run cipher = .error (.error .broken) cipher := by
  show (if _ then _ else _) = _
  simp [hslot, hlock]

end Cipher

end TcpHandler.Protocols
