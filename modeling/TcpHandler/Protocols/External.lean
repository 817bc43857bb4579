/-
  Protocols/External.lean --- what the crate takes from other crates.

  The functions of `variable-len-reader`, `flate2`, `aes-gcm` and `rsa` are not
  part of the repository.  They are parameters of the model, one structure for
  each crate.  A structure carries the documented behaviour every caller relies
  on (a field reads back what was written, inflating undoes deflating, a
  generated key pair works) as a field of its own.  What only some results
  assume, such as an ideal cipher, is a predicate here and a hypothesis there.

  A reader is given a list of bytes and no sign of whether more will come.  The
  readers of `V` take the end of the list for the end of the stream, and those of
  `V.opened` wait there for more (`Foundation/Arrival.lean`).

  `Nonce` and `AesKey` are byte strings of the length their Rust types have, so
  a nonce of another length cannot be built.
-/
import TcpHandler.Foundation.Arrival

set_option autoImplicit false

namespace TcpHandler.Protocols

open TcpHandler.Foundation

/-- `usize` on the 64-bit targets. -/
abbrev Usize : Type := UInt64

instance nontrivialUsize : Nontrivial Usize := ⟨0, 1, by decide⟩

instance nontrivialString : Nontrivial String := ⟨"", "0", by decide⟩

/-- The level of a `flate2::Compression`. -/
abbrev Level : Type := UInt32

/-- A `bytes::Buf`: the chunks of a message, in order. -/
abbrev Buf : Type := List Bytes

/-- `Buf::remaining`. -/
def Buf.remaining (message : Buf) : Nat := message.flatten.length

/-! ## `variable-len-reader` -/

/-- What the protocols use of `variable-len-reader`: its fields, and the reader of a
given number of bytes. -/
structure VariableLen where
  /-- `write_u16_raw_be` and `read_u16_raw_be` -/
  u16RawBe : WireField UInt16
  /-- the high byte, then the low one -/
  u16RawBe_encode : ∀ n, u16RawBe.encode n =
    [UInt8.ofNat (n.toNat / 256), UInt8.ofNat (n.toNat % 256)]
  /-- a stream that ends before both are there is used up -/
  u16RawBe_short : ∀ {s}, s.length < 2 → u16RawBe.read.run s = .error .unexpectedEof []
  /-- `write_bools_2` and `read_bools_2` -/
  bools2 : WireField (Bool × Bool)
  /-- `write_usize_varint_ap` and `read_usize_varint_ap` -/
  usizeVarintAp : WireField Usize
  /-- `help_write_string` and `help_read_string` -/
  string : WireField String
  /-- `help_write_u8_vec` and `help_read_u8_vec` -/
  u8Vec : WireField Bytes
  /-- `read_more` and `read_more_buf`, into a buffer of the given length -/
  readMore : Nat → Io Bytes IoError Bytes
  /-- the buffer is filled from the front of the stream -/
  readMore_append : ∀ bytes rest, (readMore bytes.length).run (bytes ++ rest) = .ok bytes rest
  /-- a stream that ends before the buffer is full is used up -/
  readMore_short : ∀ {n s}, s.length < n → (readMore n).run s = .error .unexpectedEof []

/-- Filling a buffer is reading exactly its length. -/
@[simp] theorem VariableLen.readMore_eq (V : VariableLen) (n : Nat) :
    V.readMore n = readExactly n := by
  funext s
  by_cases hshort : s.length < n
  · exact (V.readMore_short hshort).trans (run_readExactly_of_lt hshort).symm
  · have hle : n ≤ s.length := Nat.le_of_not_lt hshort
    have hread := V.readMore_append (s.take n) (s.drop n)
    rw [List.take_append_drop, List.length_take, Nat.min_eq_left hle] at hread
    exact hread.trans (if_pos hle).symm

/-- Two bytes are always a number. -/
theorem VariableLen.run_u16RawBe (V : VariableLen) (high low : UInt8) (rest : Bytes) :
    V.u16RawBe.read.run (high :: low :: rest) =
      .ok (UInt16.ofNat (high.toNat * 256 + low.toNat)) rest := by
  have hhigh : high.toNat < 256 := high.toNat_lt
  have hlow : low.toNat < 256 := low.toNat_lt
  have hn : (UInt16.ofNat (high.toNat * 256 + low.toNat)).toNat = high.toNat * 256 + low.toNat := by
    rw [UInt16.toNat_ofNat']
    omega
  have hdiv : (high.toNat * 256 + low.toNat) / 256 = high.toNat := by omega
  have hmod : (high.toNat * 256 + low.toNat) % 256 = low.toNat := by omega
  have hread := V.u16RawBe.run_read_encode (UInt16.ofNat (high.toNat * 256 + low.toNat)) rest
  rw [V.u16RawBe_encode, hn, hdiv, hmod, UInt8.ofNat_toNat, UInt8.ofNat_toNat] at hread
  exact hread

/-- There is one way to read them. -/
theorem VariableLen.u16RawBe_read_eq (V V' : VariableLen) : V'.u16RawBe.read = V.u16RawBe.read := by
  funext s
  match s with
  | [] => exact (V'.u16RawBe_short (by simp)).trans (V.u16RawBe_short (by simp)).symm
  | [_] => exact (V'.u16RawBe_short (by simp)).trans (V.u16RawBe_short (by simp)).symm
  | high :: low :: rest =>
    exact (V'.run_u16RawBe high low rest).trans (V.run_u16RawBe high low rest).symm

theorem VariableLen.u16RawBe_exact (V : VariableLen) : Io.Exact V.u16RawBe.read := by
  intro s n rest h
  match s, h with
  | [], h | [_], h =>
    rw [V.u16RawBe_short (by simp)] at h
    cases h
  | high :: low :: rest', h =>
    rw [V.run_u16RawBe] at h
    cases h
    exact ⟨[high, low], rfl, V.run_u16RawBe high low⟩

theorem VariableLen.u16RawBe_failsWhenCut (V : VariableLen) : V.u16RawBe.FailsWhenCut := by
  intro n cut hpre hne
  have hlt : cut.length < 2 := by
    have hlength : (V.u16RawBe.encode n).length = 2 := by rw [V.u16RawBe_encode]; rfl
    rw [← hlength]
    exact Nat.lt_of_le_of_ne hpre.length_le fun heq => hne (hpre.eq_of_length heq)
  exact ⟨_, _, V.u16RawBe_short hlt⟩

/-- The fields on a stream that is open.  A reader of one waits for the bytes that
are missing; of a stream that has ended, `read_bools_2` need not report the end. -/
def VariableLen.opened (V : VariableLen) : VariableLen := { V with bools2 := V.bools2.opened }

/-- What `read_bools_2` makes of a stream that has ended: it fails, or it returns two
zeros. -/
def VariableLen.EndsBools (V : VariableLen) : Prop :=
  (∃ e left, V.bools2.read.run [] = .error e left) ∨ V.bools2.read.run [] = .ok (false, false) []

/-- `str::as_bytes`. -/
def asBytes (s : String) : Bytes := s.toByteArray.data.toList

/-- How the fields are cut into slices, and what the readers make of a stream that
ends inside a field: two booleans are one byte, and a string is its length, of at
most ten bytes for a 64-bit length, and then one slice with its bytes. -/
structure VariableLen.Sliced (V : VariableLen) : Prop where
  bools2_length : ∀ bools, (V.bools2.encode bools).length = 1
  string_writes : ∀ s, ∃ length, V.string.writes s = length ++ [asBytes s] ∧
    ((asBytes s).length < UInt64.size → length.flatten.length ≤ 10)
  bools2_end : V.EndsBools
  string_cut : V.string.FailsWhenCut

/-- What the readers of a head return, they return for the bytes of their field: no
reader looks behind it, and none returns anything for a stream that has ended. -/
structure VariableLen.Exact (V : VariableLen) : Prop where
  bools2 : Io.Exact V.bools2.read
  string : Io.Exact V.string.read

/-- The same, but for what `read_bools_2` makes of a stream that has ended. -/
structure VariableLen.Delimited (V : VariableLen) : Prop where
  bools2 : Io.Exact V.bools2.opened.read
  bools2_end : V.EndsBools
  string : Io.Exact V.string.read

/-- Every reader fails on a stream that ends inside its field; `read_bools_2` may also
return two zeros. -/
structure VariableLen.FailsWhenCut (V : VariableLen) : Prop where
  bools2 : V.bools2.opened.FailsWhenCut
  bools2_end : V.EndsBools
  usizeVarintAp : V.usizeVarintAp.FailsWhenCut
  string : V.string.FailsWhenCut
  u8Vec : V.u8Vec.FailsWhenCut

theorem VariableLen.Exact.delimited {V : VariableLen} (hV : V.Exact) : V.Delimited where
  bools2 := WireField.exact_opened hV.bools2
  bools2_end := .inl (WireField.exact_nil hV.bools2)
  string := hV.string

/-- What a stream begins with: two booleans, or nothing that is read as two, or it has
ended and is read as two zeros. -/
theorem VariableLen.Delimited.takes_bools2 {V : VariableLen} (hV : V.Delimited) (s : Bytes) :
    (∃ bytes bools rest, s = bytes ++ rest ∧ Io.Takes V.bools2.read bytes bools) ∨
      (∃ e left, V.bools2.read.run s = .error e left) ∨
        s = [] ∧ V.bools2.read.run [] = .ok (false, false) [] := by
  by_cases hnil : s = []
  · subst hnil
    rcases hV.bools2_end with hread | hend
    · exact .inr (.inl hread)
    · exact .inr (.inr ⟨rfl, hend⟩)
  · rcases hV.bools2.takes_or_error s with ⟨bytes, bools, rest, hs, htakes⟩ | ⟨e, left, hread⟩
    · exact .inl ⟨bytes, bools, rest, hs, WireField.takes_opened.mp htakes⟩
    · rw [WireField.run_opened _ hnil] at hread
      exact .inr (.inl ⟨e, left, hread⟩)

/-! ## `flate2` -/

/-- `write::DeflateEncoder` and `write::DeflateDecoder` on a byte buffer. -/
structure Flate where
  /-- the finished encoder after the given writes -/
  deflate : Level → List Bytes → Bytes
  /-- the finished decoder after the given bytes -/
  inflate : Bytes → Except IoError Bytes
  /-- inflate undoes deflate, at every level and however the input was cut -/
  inflate_deflate : ∀ level writes, inflate (deflate level writes) = .ok writes.flatten

/-! ## `aes-gcm` -/

/-- `aes_gcm::Nonce<U12>`. -/
@[ext] structure Nonce where
  /-- the bytes -/
  bytes : Bytes
  /-- there are twelve of them -/
  length_eq : bytes.length = 12
  deriving DecidableEq

/-- A key of `Aes256Gcm`. -/
@[ext] structure AesKey where
  /-- the bytes -/
  bytes : Bytes
  /-- there are thirty-two of them -/
  length_eq : bytes.length = 32
  deriving DecidableEq

/-- `aes_gcm::aead::Error`. -/
inductive AeadError where
  | failure
  deriving DecidableEq, Repr

/-- `AeadMutInPlace` of `Aes256Gcm`, without associated data. -/
structure Aead where
  /-- `encrypt_in_place` -/
  encryptInPlace : AesKey → Nonce → Bytes → Except AeadError Bytes
  /-- `decrypt_in_place` -/
  decryptInPlace : AesKey → Nonce → Bytes → Except AeadError Bytes

/-- An ideal cipher: decryption succeeds exactly on what was encrypted under
the same key and nonce, and returns its plaintext. -/
structure Aead.Ideal (aead : Aead) : Prop where
  decrypt_same : ∀ {key nonce plain packet},
    aead.encryptInPlace key nonce plain = .ok packet →
    aead.decryptInPlace key nonce packet = .ok plain
  decrypt_other : ∀ {key nonce nonce' plain packet},
    aead.encryptInPlace key nonce plain = .ok packet → nonce' ≠ nonce →
    aead.decryptInPlace key nonce' packet = .error .failure

/-- Decryption undoes encryption. -/
def Aead.RoundTrip (aead : Aead) : Prop :=
  ∀ {key nonce plain packet}, aead.encryptInPlace key nonce plain = .ok packet →
    aead.decryptInPlace key nonce packet = .ok plain

/-- Sixteen bytes of every ciphertext are its tag. -/
def Aead.TagSixteen (aead : Aead) : Prop :=
  ∀ {key nonce packet plain}, aead.decryptInPlace key nonce packet = .ok plain →
    plain.length + 16 = packet.length

/-! ## `rsa` -/

/-- `rsa::Error`, as far as the crate can meet it. -/
inductive RsaError where
  | keyGeneration
  | invalidPublicKey
  | messageTooLong
  | decryption
  deriving DecidableEq, Repr

/-- RSA-OAEP with SHA-512, and how keys are turned into bytes and back: `Sk` are the
private keys that key generation returns, `Pk` the public keys, `Seed` the randomness
of one encryption. -/
structure Rsa (Sk Pk Seed : Type) where
  /-- the modulus of a private key -/
  n : Sk → Nat
  /-- the public exponent of a private key -/
  e : Sk → Nat
  /-- `RsaPublicKey::new` -/
  newPublic : Nat → Nat → Except RsaError Pk
  /-- `RsaPublicKey::encrypt` -/
  encrypt : Pk → Seed → Bytes → Except RsaError Bytes
  /-- `RsaPrivateKey::decrypt` -/
  decrypt : Sk → Bytes → Except RsaError Bytes
  /-- the public half of a generated key is accepted, encrypts every AES key,
  and the private half decrypts it -/
  honest : ∀ sk, ∃ pk, newPublic (n sk) (e sk) = .ok pk ∧
    ∀ seed (key : AesKey), ∃ sealedKey,
      encrypt pk seed key.bytes = .ok sealedKey ∧ decrypt sk sealedKey = .ok key.bytes
  /-- `BigUint::to_bytes_le` -/
  toBytesLe : Nat → Bytes
  /-- `BigUint::from_bytes_le` -/
  fromBytesLe : Bytes → Nat
  /-- a number is the one its bytes stand for -/
  fromBytesLe_toBytesLe : ∀ number, fromBytesLe (toBytesLe number) = number
  /-- `Aes256Gcm::new_from_slice` -/
  newFromSlice : Bytes → Option AesKey
  /-- a key is the one its bytes stand for -/
  newFromSlice_bytes : ∀ key, newFromSlice key.bytes = some key
  /-- bytes are refused for their length alone -/
  newFromSlice_eq_none_iff : ∀ {aes}, newFromSlice aes = none ↔ aes.length ≠ 32

attribute [simp] Rsa.fromBytesLe_toBytesLe Rsa.newFromSlice_bytes

/-- Bytes that are not refused are those of the key. -/
theorem Rsa.bytes_of_newFromSlice {Sk Pk Seed : Type} (rsa : Rsa Sk Pk Seed) {aes : Bytes}
    {key : AesKey} (h : rsa.newFromSlice aes = some key) : aes = key.bytes := by
  by_cases hlength : aes.length = 32
  · have hkey : rsa.newFromSlice aes = some ⟨aes, hlength⟩ := rsa.newFromSlice_bytes ⟨aes, hlength⟩
    rw [h] at hkey
    cases hkey
    rfl
  · rw [rsa.newFromSlice_eq_none_iff.mpr hlength] at h
    cases h

end TcpHandler.Protocols
