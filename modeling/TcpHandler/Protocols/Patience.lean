/-
  Protocols/Patience.lean --- the readers of the protocols on streams that arrive
  in pieces.

  Every reader of the crate is a sequence of fields with checks between them, and
  only a field can wait.  A reader is run with the fields of `V.opened` as long as
  its stream is open, and with those of `V` when it has ended.  What a call returns,
  and the bytes it leaves for the next one, are decided by the bytes of the stream
  and not by the pieces in which they arrive.
-/
import TcpHandler.Protocols.Reference
import TcpHandler.Protocols.Variants

set_option autoImplicit false

namespace TcpHandler.Protocols

open TcpHandler.Foundation

instance : StreamEnd StarterError where
  isEnd
    | .io e => isEnd e
    | _ => false

instance : StreamEnd PacketError where
  isEnd
    | .io e => isEnd e
    | _ => false

instance {ε : Type} [StreamEnd ε] : StreamEnd (Fault ε) where
  isEnd
    | .error e => isEnd e
    | .panic => false

/-- On a stream that is open, the readers of `variable-len-reader` wait for the bytes
of their field.  When it has ended they fail; `read_bools_2` may return two zeros. -/
structure VariableLen.Patient (V : VariableLen) : Prop where
  bools2 : Io.Patient V.bools2.opened.read
  bools2_end : V.EndsBools
  usizeVarintAp : Io.Patient V.usizeVarintAp.read
  string : Io.Patient V.string.read
  u8Vec : Io.Patient V.u8Vec.read

theorem Reference.bools2_patient : Io.Patient Reference.bools2.opened.read where
  usedUp {s e left} h he := by
    cases s with
    | nil =>
      cases h
      rfl
    | cons byte s =>
      change (if byte < 4 then _ else _) = _ at h
      split at h
      · cases h
      · cases h
        cases he
  returns {s bools left} h t := by
    obtain ⟨bytes, rfl, htakes⟩ := Reference.bools2_opened_exact s bools left h
    rw [List.append_assoc]
    exact htakes _
  fails {s e left} h he t := by
    cases s with
    | nil =>
      cases h
      cases he
    | cons byte s =>
      change (if byte < 4 then _ else _) = _ at h
      split at h
      · cases h
      · rename_i hge
        cases h
        exact if_neg hge

theorem Reference.variableLen_patient : Reference.variableLen.Patient where
  bools2 := Reference.bools2_patient
  bools2_end := Reference.variableLen_endsBools
  usizeVarintAp := Leb128.patient_uint64
  string := Leb128.patient_prefixed (h := Reference.stringOfBytes_asBytes)
  u8Vec := Leb128.patient_prefixed (h := fun _ => rfl)

theorem patient_u16RawBe (V : VariableLen) : Io.Patient V.u16RawBe.read where
  usedUp {s e left} h _ := by
    match s, h with
    | [], h | [_], h =>
      rw [V.u16RawBe_short (by simp)] at h
      cases h
      rfl
    | high :: low :: rest, h =>
      rw [V.run_u16RawBe] at h
      cases h
  returns {s n left} h t := by
    obtain ⟨bytes, rfl, htakes⟩ := V.u16RawBe_exact s n left h
    rw [List.append_assoc]
    exact htakes _
  fails {s e left} h he := by
    match s, h with
    | [], h | [_], h =>
      rw [V.u16RawBe_short (by simp)] at h
      cases h
      cases he
    | high :: low :: rest, h =>
      rw [V.run_u16RawBe] at h
      cases h

/-- Bytes of a fixed length. -/
theorem patient_readMore (V : VariableLen) (n : Nat) : Io.Patient (V.readMore n) := by
  rw [V.readMore_eq]
  exact Io.patient_readExactly n

theorem patient_readNonce (V : VariableLen) : Io.Patient (readNonce V) := by
  refine (patient_readMore V 12).bind fun bytes => ?_
  by_cases hlength : bytes.length = 12
  · rw [dif_pos hlength]
    exact Io.patient_pure _
  · rw [dif_neg hlength]
    exact Io.patient_throw rfl

/-! ## The readers of the protocols

Each of them on a stream that is open, and on one that has ended. -/

section Readers

variable {V : VariableLen}

/-- A field with a renamed error. -/
theorem awaits_field {α : Type} {x y : Io Bytes IoError α} (h : Io.Awaits x y) :
    Io.Awaits (x.mapError StarterError.io) (y.mapError StarterError.io) :=
  h.mapError StarterError.io fun _ => rfl

/-- A check. -/
theorem awaits_ensure {c : Prop} [Decidable c] {e : StarterError} (he : isEnd e = false) :
    Io.Awaits (Io.ensure c e) (Io.ensure c e) :=
  (Io.patient_ensure he).awaits

theorem awaits_throw {α : Type} {e : StarterError} (he : isEnd e = false) :
    Io.Awaits (throw e : Io Bytes StarterError α) (throw e) :=
  (Io.patient_throw he).awaits

/-- `read_head`. -/
theorem awaits_readHead (hV : V.Patient) (protocol : ProtocolVariant) (identifier : String)
    (version : String → Bool) :
    Io.Awaits (readHead V.opened protocol identifier version)
      (readHead V protocol identifier version) := by
  unfold readHead
  refine (awaits_field (patient_readMore V 4).awaits).bind fun magic => ?_
  refine (awaits_ensure rfl).bind fun _ => ?_
  refine (awaits_field (patient_u16RawBe V).awaits).bind fun protocolVersion => ?_
  refine (awaits_ensure rfl).bind fun _ => ?_
  refine (awaits_field (WireField.awaits_opened hV.bools2)).bind fun bools => ?_
  refine (awaits_ensure rfl).bind fun _ => ?_
  refine (awaits_field hV.string.awaits).bind fun identifierRead => ?_
  refine (awaits_ensure rfl).bind fun _ => ?_
  refine (awaits_field hV.string.awaits).bind fun versionRead => ?_
  exact (awaits_ensure rfl).bind fun _ => (Io.patient_pure _).awaits

/-- `read_last`, for a client whose own half did not meet the end of a stream. -/
theorem awaits_readLast (hV : V.Patient) {E : Type} {last : Except StarterError E}
    (hlast : ∀ e, last = .error e → isEnd e = false) :
    Io.Awaits (readLast V.opened last) (readLast V last) := by
  have hbools : Io.Awaits V.opened.bools2.read V.bools2.read := WireField.awaits_opened hV.bools2
  unfold readLast
  refine (Io.patient_ofExcept hlast).awaits.bind fun extra => ?_
  refine (awaits_field hbools).bind fun status => ?_
  obtain ⟨_ | _, _ | _⟩ := status
  · exact (awaits_field hbools).bind fun _ => awaits_throw rfl
  · exact (awaits_field hV.string.awaits).bind fun _ => awaits_throw rfl
  · exact (awaits_field hV.string.awaits).bind fun _ => awaits_throw rfl
  · exact (Io.patient_pure extra).awaits

/-- `read_packet`, which finds the end of the stream where it waits. -/
theorem patient_readPacket (hV : V.Patient) (limit : Usize) : Io.Patient (readPacket V limit) := by
  unfold readPacket
  refine (hV.usizeVarintAp.mapError PacketError.io fun _ => rfl).bind fun len => ?_
  refine Io.Patient.bind ?_ fun _ => (patient_readMore V _).mapError PacketError.io fun _ => rfl
  exact Io.patient_ensure rfl

variable {Sk Pk Seed : Type} (rsa : Rsa Sk Pk Seed)

/-- `server_init`. -/
theorem awaits_serverInit (hV : V.Patient) (identifier : String) (version : String → Bool)
    (protocol : ProtocolVariant) :
    Io.Awaits (Variants.serverInit V.opened rsa identifier version protocol)
      (Variants.serverInit V rsa identifier version protocol) := by
  cases protocol with
  | raw | compression => exact awaits_readHead hV _ identifier version
  | encryption | compressEncryption =>
    refine (awaits_readHead hV _ identifier version).bind fun versions => ?_
    refine (awaits_field hV.u8Vec.awaits).bind fun n => ?_
    refine (awaits_field hV.u8Vec.awaits).bind fun e => ?_
    refine Io.Awaits.bind ?_ fun key => (Io.patient_pure _).awaits
    refine (Io.patient_ofExcept fun error herror => ?_).awaits
    unfold composeRsaPublic at herror
    cases hkey : rsa.newPublic (rsa.fromBytesLe n) (rsa.fromBytesLe e) with
    | ok pk => simp [hkey, Except.mapError] at herror
    | error rsaError =>
      rw [hkey] at herror
      cases herror
      rfl

/-- `client_start`, for a client whose own half did not meet the end of a stream. -/
theorem awaits_clientStart (hV : V.Patient) (protocol : ProtocolVariant)
    {last : Except StarterError (Variants.ClientInit Sk protocol)}
    (hlast : ∀ e, last = .error e → isEnd e = false) :
    Io.Awaits (Variants.clientStart V.opened rsa protocol last)
      (Variants.clientStart V rsa protocol last) := by
  have hread : ∀ {E : Type} {last : Except StarterError E},
      (∀ e, last = .error e → isEnd e = false) →
      Io.Awaits ((readLast V.opened last).mapError Fault.error)
        ((readLast V last).mapError Fault.error) :=
    fun hlast => (awaits_readLast hV hlast).mapError Fault.error fun _ => rfl
  have hfield : ∀ {α : Type} {x : Io Bytes IoError α}, Io.Patient x →
      Io.Awaits (x.mapError fun e => Fault.error (StarterError.io e))
        (x.mapError fun e => Fault.error (StarterError.io e)) :=
    fun hx => (hx.mapError (fun e => Fault.error (StarterError.io e)) fun _ => rfl).awaits
  cases protocol with
  | raw | compression => exact (hread hlast).bind fun _ => (Io.patient_pure none).awaits
  | encryption | compressEncryption =>
    refine Io.Awaits.bind ?_ fun cipher => (Io.patient_pure (some cipher)).awaits
    refine (hread hlast).bind fun key => ?_
    refine (hfield hV.u8Vec).bind fun encryptedAes => ?_
    refine (hfield (patient_readNonce V)).bind fun nonce => ?_
    refine Io.Awaits.bind (Io.patient_ofExcept fun error herror => ?_).awaits fun aes => ?_
    · cases hdecrypt : rsa.decrypt key encryptedAes with
      | ok aes => simp [hdecrypt, Except.mapError] at herror
      | error rsaError =>
        rw [hdecrypt] at herror
        cases herror
        rfl
    · cases rsa.newFromSlice aes with
      | some aesKey => exact (Io.patient_pure _).awaits
      | none => exact (Io.patient_throw rfl).awaits

/-- A packet has arrived when `read_packet` does not wait. -/
theorem arrived_iff (hV : V.Patient) (limit : Usize) (s : Bytes) :
    arrived V limit s = true ↔ Io.ends (readPacket V limit) s = false := by
  have hnil : Io.ends (readPacket V limit) [] = true := by
    have hframe : ∀ rest, (readPacket V limit).run (frame V [] ++ rest) = .ok [] rest :=
      run_readPacket_frame V (Nat.zero_le _)
    exact (patient_readPacket hV limit).ends_of_cut hframe List.nil_prefix (frame_ne_nil V []).symm
  cases s with
  | nil => simp [arrived, hnil]
  | cons byte s =>
    simp only [arrived, Io.ends, List.isEmpty_cons, Bool.not_false, Bool.true_and]
    cases hread : (readPacket V limit).run (byte :: s) with
    | ok body left => simp
    | error e left =>
      cases e with
      | io error => cases error <;> simp [isEnd]
      | tooLarge _ _ | aes _ | broken => simp [isEnd]

/-- A reader does not find the end of a stream on which there is a frame. -/
theorem ends_readPacket_frame {sent : Usize} {body : Bytes} (hsent : body.length ≤ sent.toNat)
    (limit : Usize) (rest : Bytes) :
    Io.ends (readPacket V limit) (frame V body ++ rest) = false := by
  rw [Io.ends]
  by_cases hle : body.length ≤ limit.toNat
  · rw [run_readPacket_frame V hle]
  · rw [run_readPacket_oversized V hsent (Nat.lt_of_not_le hle)]
    rfl

end Readers

/-! ## Pieces -/

section Pieces

variable (V : VariableLen) {Sk Pk Seed : Type} (rsa : Rsa Sk Pk Seed)

/-- What a server reads: the request, then packets. -/
def serverReads (identifier : String) (version : String → Bool) (protocol : ProtocolVariant)
    (limits : List Usize) :
    Io Bytes (StarterError ⊕ PacketError) (Variants.ServerInit Pk protocol × List Bytes) := do
  let init ← (Variants.serverInit V rsa identifier version protocol).mapError Sum.inl
  let packets ← (limits.mapM (readPacket V)).mapError Sum.inr
  return (init, packets)

/-- What a client that has made its half reads: the reply, then packets. -/
def clientReads (protocol : ProtocolVariant) (extra : Variants.ClientInit Sk protocol)
    (limits : List Usize) :
    Io Bytes (Fault StarterError ⊕ PacketError) (Option Cipher × List Bytes) := do
  let cipher ← (Variants.clientStart V rsa protocol (.ok extra)).mapError Sum.inl
  let packets ← (limits.mapM (readPacket V)).mapError Sum.inr
  return (cipher, packets)

end Pieces

/-- Whatever the pieces in which a connection arrives, both halves of every
handshake, and any number of packets behind it, are read as if all of it had been
there. -/
theorem unsegmented {V : VariableLen} (hV : V.Patient) {Sk Pk Seed : Type} (rsa : Rsa Sk Pk Seed)
    (protocol : ProtocolVariant) (limits : List Usize) :
    (∀ identifier version,
      Io.Unsegmented (serverReads V.opened rsa identifier version protocol limits)
        (serverReads V rsa identifier version protocol limits)) ∧
      ∀ extra, Io.Unsegmented (clientReads V.opened rsa protocol extra limits)
        (clientReads V rsa protocol extra limits) := by
  have hpackets : ∀ {ε : Type} [StreamEnd ε],
      Io.Awaits ((limits.mapM (readPacket V.opened)).mapError
        (Sum.inr : PacketError → ε ⊕ PacketError))
        ((limits.mapM (readPacket V)).mapError Sum.inr) :=
    (Io.awaits_mapM (fun limit => (patient_readPacket hV limit).awaits) limits).mapError _
      fun _ => rfl
  constructor
  · intro identifier version
    refine Io.Awaits.of_pieces (Io.Awaits.bind ?_ fun init => ?_)
    · exact (awaits_serverInit rsa hV identifier version protocol).mapError _ fun _ => rfl
    · exact hpackets.bind fun packets => (Io.patient_pure _).awaits
  · intro extra
    refine Io.Awaits.of_pieces (Io.Awaits.bind ?_ fun cipher => ?_)
    · exact (awaits_clientStart rsa hV protocol (by simp)).mapError _ fun _ => rfl
    · exact hpackets.bind fun packets => (Io.patient_pure _).awaits

/-- Of a sealed and compressed protocol, with one packet behind each handshake. -/
theorem unsegmented_reference :
    (∀ identifier version, Io.Unsegmented
        (serverReads Reference.variableLen.opened Reference.rsa identifier version
          .compressEncryption [64])
        (serverReads Reference.variableLen Reference.rsa identifier version
          .compressEncryption [64])) ∧
      ∀ extra, Io.Unsegmented
        (clientReads Reference.variableLen.opened Reference.rsa .compressEncryption extra [64])
        (clientReads Reference.variableLen Reference.rsa .compressEncryption extra [64]) :=
  unsegmented Reference.variableLen_patient Reference.rsa .compressEncryption [64]

end TcpHandler.Protocols
