/-
  Session/Bounds.lean --- what the receive limit bounds.

  `read_packet` compares the length of a packet with `max_packet_size` before it
  allocates anything.  The bound then goes through decryption, which takes off the
  tag, and through `read_more`, which takes off the nonce.  It does not go through
  inflation: what it bounds there is the compressed message.
-/
import TcpHandler.Protocols.Plain
import TcpHandler.Protocols.Reference
import TcpHandler.Protocols.Sealed

set_option autoImplicit false

namespace TcpHandler.Session.Bounds

open TcpHandler.Foundation TcpHandler.Protocols

/-- Every message that `recv` returns is at most as long as the limit. -/
structure MessagesWithin (V : VariableLen) (flate : Flate) (aead : Aead) (limit : Usize) :
    Prop where
  raw : ∀ s message left, (Raw.recv V limit).run s = .ok message left →
    message.length ≤ limit.toNat
  compress : ∀ s message left, (Compress.recv V flate limit).run s = .ok message left →
    message.length ≤ limit.toNat
  encrypt : ∀ s message left, (Encrypt.recv V aead limit).run s = .ok message left →
    message.length ≤ limit.toNat
  compressEncrypt : ∀ s message left,
    (CompressEncrypt.recv V flate aead limit).run s = .ok message left →
      message.length ≤ limit.toNat

/-- What `recv` makes a message from is at most as long as the limit.

* `raw`: the message itself.
* `compress`: the message before it was inflated.
* `encrypt`: the message, with twelve bytes of nonce and sixteen of tag.
* `compressEncrypt`: the message and the nonce before they were inflated, with
  sixteen bytes of tag. -/
structure PacketsWithin (V : VariableLen) (flate : Flate) (aead : Aead) (limit : Usize) : Prop where
  raw : ∀ s message left, (Raw.recv V limit).run s = .ok message left →
    message.length ≤ limit.toNat
  compress : ∀ s message left, (Compress.recv V flate limit).run s = .ok message left →
    ∃ deflated, flate.inflate deflated = .ok message ∧ deflated.length ≤ limit.toNat
  encrypt : ∀ s message left, (Encrypt.recv V aead limit).run s = .ok message left →
    message.length + 12 + 16 ≤ limit.toNat
  compressEncrypt : ∀ s message left,
    (CompressEncrypt.recv V flate aead limit).run s = .ok message left →
      ∃ deflated, ∃ nonce : Nonce, flate.inflate deflated = .ok (nonce.bytes ++ message) ∧
        deflated.length + 16 ≤ limit.toNat

section Recv

variable {V : VariableLen} {aead : Aead} {limit : Usize}

/-- A message of a protocol without a cipher is the body of a packet within the
limit. -/
theorem of_run_recv_plain {body : Body} {s message left : Bytes}
    (h : (Plain.recv V body limit).run s = .ok message left) :
    ∃ packet, body.unpack packet = .ok message ∧ packet.length ≤ limit.toNat := by
  obtain ⟨packet, t, hread, hunpack⟩ := Io.run_bind_eq_ok.mp h
  refine ⟨packet, ?_, length_le_of_readPacket V hread⟩
  cases hbody : body.unpack packet with
  | error e => simp [hbody, Except.mapError] at hunpack
  | ok unpacked =>
    simp only [hbody, Except.mapError, Io.run_ofExcept_ok, EStateM.Result.ok.injEq] at hunpack
    rw [hunpack.1]

/-- A message of a protocol with a cipher is the payload of what a packet within
the limit decrypts to. -/
theorem of_run_recv_sealed {payload : Payload} {s left : Bytes × Cipher} {message : Bytes}
    (h : (Sealed.recv V payload aead limit).run s = .ok message left) :
    ∃ packet key nonce plain next, aead.decryptInPlace key nonce packet = .ok plain ∧
      payload.parse plain = .ok (next, message) ∧ packet.length ≤ limit.toNat := by
  obtain ⟨s, cipher⟩ := s
  obtain ⟨packet, t, hfetch, hopen⟩ := Io.run_bind_eq_ok.mp h
  simp only [Io.run_onFst, Io.run_mapError] at hfetch
  cases hread : (readPacket V limit).run s with
  | error e s' => simp [hread] at hfetch
  | ok bytes s' =>
    simp only [hread, EStateM.Result.ok.injEq] at hfetch
    obtain ⟨rfl, rfl⟩ := hfetch
    simp only [Io.run_onSnd] at hopen
    cases hsection : (Sealed.openPacket payload aead bytes).run cipher with
    | error e cipher' => simp [hsection] at hopen
    | ok opened cipher' =>
      simp only [hsection, EStateM.Result.ok.injEq] at hopen
      obtain ⟨rfl, _⟩ := hopen
      obtain ⟨key, nonce, plain, next, _, hdecrypt, hparse, _⟩ :=
        Sealed.run_openPacket_eq_ok hsection
      exact ⟨bytes, key, nonce, plain, next, hdecrypt, hparse, length_le_of_readPacket V hread⟩

/-- Every packet is within the limit, whatever the peer sends. -/
theorem packets_within (htag : aead.TagSixteen) (V : VariableLen) (flate : Flate) (limit : Usize) :
    PacketsWithin V flate aead limit where
  raw s message left h := by
    obtain ⟨packet, hunpack, hle⟩ := of_run_recv_plain h
    obtain rfl := Except.ok.inj hunpack
    exact hle
  compress s message left h := of_run_recv_plain h
  encrypt s message left h := by
    obtain ⟨packet, key, nonce, plain, next, hdecrypt, hparse, hle⟩ := of_run_recv_sealed h
    have hplain : plain = next.bytes ++ message := (splitNonce_eq_ok V).mp hparse
    have htagged := htag hdecrypt
    rw [hplain, List.length_append, next.length_eq] at htagged
    omega
  compressEncrypt s message left h := by
    obtain ⟨packet, key, nonce, plain, next, hdecrypt, hparse, hle⟩ := of_run_recv_sealed h
    have htagged := htag hdecrypt
    refine ⟨plain, next, ?_, by omega⟩
    change (flate.inflate plain >>= splitNonce V) = .ok (next, message) at hparse
    cases hinflate : flate.inflate plain with
    | error e =>
      rw [hinflate] at hparse
      cases hparse
    | ok inflated =>
      rw [hinflate] at hparse
      rw [(splitNonce_eq_ok V).mp hparse]

/-- A transparent cipher and DEFLATE, under a limit of 64 bytes. -/
theorem packets_within_reference :
    PacketsWithin Reference.variableLen Reference.flate Reference.aead 64 :=
  packets_within Reference.aead_tagSixteen Reference.variableLen Reference.flate 64

/-- Five bytes of a packet within the limit inflate to thirty-two. -/
theorem inflated_beyond_limit :
    ¬ ∀ (V : VariableLen) (flate : Flate) (aead : Aead) (limit : Usize), aead.TagSixteen →
      MessagesWithin V flate aead limit := by
  intro h
  have hwithin := h Reference.variableLen Reference.flate Reference.aead 5 Reference.aead_tagSixteen
  have hle := hwithin.compress (5 :: Reference.compressedZeros) (List.replicate 32 0) [] rfl
  revert hle
  decide

end Recv

end TcpHandler.Session.Bounds
