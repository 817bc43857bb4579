/-
  Protocols/Reference.lean --- instances of the external parameters.

  One lawful instance for each crate, to evaluate the model with:

      variableLen   LEB128 lengths, UTF-8 strings, two bits in a byte
      flate         DEFLATE with stored blocks, and one compressed stream
      aead          a transparent cipher whose tag is the nonce
      rsa           a key pair that leaves messages as they are
      bufWriter     the buffer of `tokio::io::BufWriter`

  `flate` writes what DEFLATE writes at level 0.  Of the compressed streams it
  reads back one, the five bytes that stand for thirty-two zeros.  `aead` and
  `rsa` hide nothing; they satisfy the laws a caller relies on.
-/
import Mathlib.Data.Nat.Digits.Defs
import TcpHandler.Foundation.Buffered
import TcpHandler.Foundation.Leb128
import TcpHandler.Protocols.External

set_option autoImplicit false

namespace TcpHandler.Protocols.Reference

open TcpHandler.Foundation

/-! ## Fields -/

/-- The high byte, then the low one. -/
def u16RawBe : WireField UInt16 where
  writes n := [[UInt8.ofNat (n.toNat / 256), UInt8.ofNat (n.toNat % 256)]]
  read := fun s =>
    match s with
    | high :: low :: rest => .ok (UInt16.ofNat (high.toNat * 256 + low.toNat)) rest
    | _ => .error .unexpectedEof []
  read_writes n rest := by
    have hlt : n.toNat < 65536 := n.toNat_lt
    have hjoin : UInt16.ofNat ((UInt8.ofNat (n.toNat / 256)).toNat * 256 +
        (UInt8.ofNat (n.toNat % 256)).toNat) = n := by
      apply UInt16.toNat_inj.mp
      simp only [UInt16.toNat_ofNat', UInt8.toNat_ofNat']
      omega
    show EStateM.Result.ok _ rest = _
    rw [hjoin]

/-- Two booleans in the low bits of a byte; other bytes are refused.  A stream that
has ended is read as two zeros. -/
def bools2 : WireField (Bool × Bool) where
  writes bools := [[UInt8.ofNat (bools.1.toNat + 2 * bools.2.toNat)]]
  read := fun s =>
    match s with
    | [] => .ok (false, false) []
    | byte :: rest =>
        if byte < 4 then .ok (byte.toNat % 2 = 1, 2 ≤ byte.toNat) rest
        else .error .invalidData rest
  read_writes bools rest := by
    obtain ⟨_ | _, _ | _⟩ := bools <;> rfl

theorem bools2_opened_exact : Io.Exact bools2.opened.read := by
  intro s bools rest h
  cases s with
  | nil => cases h
  | cons byte s =>
    change (if byte < 4 then _ else _) = _ at h
    split at h
    · rename_i hlt
      cases h
      refine ⟨[byte], rfl, fun rest' => ?_⟩
      show (if byte < 4 then _ else _) = _
      rw [if_pos hlt]
      rfl
    · cases h

/-- The string of valid UTF-8 bytes. -/
def stringOfBytes (bytes : Bytes) : Option String := String.fromUTF8? ⟨bytes.toArray⟩

theorem stringOfBytes_asBytes (s : String) : stringOfBytes (asBytes s) = some s := by
  have hbytes : (⟨(asBytes s).toArray⟩ : ByteArray) = s.toByteArray := rfl
  rw [stringOfBytes, String.fromUTF8?, hbytes, dif_pos s.isValidUTF8]
  rfl

/-- The fields of the wire format. -/
def variableLen : VariableLen where
  u16RawBe := u16RawBe
  u16RawBe_encode _ := rfl
  u16RawBe_short {s} h := by
    match s, h with
    | [], _ | [_], _ => rfl
  bools2 := bools2
  usizeVarintAp := Leb128.uint64
  string := Leb128.prefixed asBytes stringOfBytes stringOfBytes_asBytes
  u8Vec := Leb128.prefixed id some fun _ => rfl
  readMore := readExactly
  readMore_append := run_readExactly_append
  readMore_short := run_readExactly_of_lt

theorem variableLen_endsBools : variableLen.EndsBools := .inr rfl

theorem variableLen_sliced : variableLen.Sliced where
  bools2_length bools := by
    obtain ⟨_ | _, _ | _⟩ := bools <;> rfl
  string_writes s := by
    refine ⟨Leb128.nat.writes (asBytes s).length, rfl, fun hlt => ?_⟩
    have hbound : (asBytes s).length < 128 ^ (9 + 1) := Nat.lt_trans hlt (by decide)
    simpa [Leb128.nat] using Leb128.length_groups_le hbound
  bools2_end := variableLen_endsBools
  string_cut := Leb128.prefixed_failsWhenCut (h := stringOfBytes_asBytes)

theorem variableLen_delimited : variableLen.Delimited where
  bools2 := bools2_opened_exact
  bools2_end := variableLen_endsBools
  string := Leb128.prefixed_exact (h := stringOfBytes_asBytes)

/-- On a stream that is open, the fields are exact. -/
theorem variableLen_opened_exact : variableLen.opened.Exact where
  bools2 := bools2_opened_exact
  string := Leb128.prefixed_exact (h := stringOfBytes_asBytes)

theorem variableLen_usizeVarintAp_exact : Io.Exact variableLen.usizeVarintAp.read :=
  Leb128.uint64_exact

theorem variableLen_u8Vec_exact : Io.Exact variableLen.u8Vec.read :=
  Leb128.prefixed_exact (h := fun _ => rfl)

theorem variableLen_failsWhenCut : variableLen.FailsWhenCut where
  bools2 bools cut hpre hne := by
    have hnil : cut = [] := by
      cases cut with
      | nil => rfl
      | cons byte rest =>
        obtain ⟨rfl, hrest⟩ := List.cons_prefix_cons.mp hpre
        rw [List.prefix_nil.mp hrest] at hne
        exact absurd rfl hne
    subst hnil
    exact ⟨.unexpectedEof, [], rfl⟩
  bools2_end := variableLen_endsBools
  usizeVarintAp := Leb128.uint64_failsWhenCut
  string := variableLen_sliced.string_cut
  u8Vec := Leb128.prefixed_failsWhenCut (h := fun _ => rfl)

/-! ## Buffered writers -/

/-- `tokio::io::BufWriter` over a reliable stream: what it passed on and what it
holds. -/
structure BufWriter where
  delivered : Bytes
  buffered : Bytes
  deriving DecidableEq

/-- The default size of the buffer. -/
def bufferSize : Nat := 8192

/-- A write: a slice that does not fit empties the buffer, and one as large as the
buffer goes past it. -/
def BufWriter.write (w : BufWriter) (chunk : Bytes) : BufWriter :=
  let w :=
    if bufferSize < w.buffered.length + chunk.length then ⟨w.delivered ++ w.buffered, []⟩ else w
  if bufferSize ≤ chunk.length then ⟨w.delivered ++ chunk, w.buffered⟩
  else ⟨w.delivered, w.buffered ++ chunk⟩

instance : AsyncWrite BufWriter where
  writeMore chunk := modify (·.write chunk)
  flush := modify fun w => ⟨w.delivered ++ w.buffered, []⟩

/-- The buffer of `tokio::io::BufWriter`. -/
def bufWriter : Buffering BufWriter where
  capacity := bufferSize
  new := ⟨[], []⟩
  delivered := BufWriter.delivered
  buffered := BufWriter.buffered
  delivered_new := rfl
  buffered_new := rfl
  write_fits w chunk hfits hsmall := by
    refine ⟨w.write chunk, rfl, ?_⟩
    simp only [BufWriter.write, if_neg (Nat.not_lt.mpr hfits), if_neg (Nat.not_le.mpr hsmall),
      and_self]
  write_fills w chunk hfills hsmall := by
    refine ⟨w.write chunk, rfl, ?_⟩
    simp only [BufWriter.write, if_pos hfills, if_neg (Nat.not_le.mpr hsmall), List.nil_append,
      and_self]
  write_large w chunk hlarge := by
    refine ⟨w.write chunk, rfl, ?_⟩
    by_cases hfills : bufferSize < w.buffered.length + chunk.length
    · simp only [BufWriter.write, if_pos hfills, if_pos hlarge, and_self]
    · -- the slice is as large as the buffer, and the buffer is empty
      have hnil : w.buffered = [] := List.length_eq_zero_iff.mp (by omega)
      simp only [BufWriter.write, if_neg hfills, if_pos hlarge]
      simp [hnil]
  flush_run w := ⟨⟨w.delivered ++ w.buffered, []⟩, rfl, rfl, rfl⟩

/-! ## DEFLATE -/

/-- The largest stored block. -/
def blockMax : Nat := 65535

/-- A stored block: the final bit, the length, its complement, the bytes. -/
def storedBlock (final : UInt8) (data : Bytes) : Bytes :=
  [final, UInt8.ofNat data.length, UInt8.ofNat (data.length / 256),
    255 - UInt8.ofNat data.length, 255 - UInt8.ofNat (data.length / 256)] ++ data

/-- Stored blocks for the given bytes; the first argument bounds their number. -/
def storedBlocks : Nat → Bytes → Bytes
  | 0, data => storedBlock 1 (data.take blockMax)
  | fuel + 1, data =>
      if data.length ≤ blockMax then storedBlock 1 data
      else storedBlock 0 (data.take blockMax) ++ storedBlocks fuel (data.drop blockMax)

/-- Read stored blocks up to the final one. -/
def readBlocks : Nat → Bytes → Except IoError Bytes
  | fuel + 1, final :: low :: high :: _ :: _ :: rest =>
      let len := low.toNat + 256 * high.toNat
      if rest.length < len then .error .unexpectedEof
      else if final = 1 then .ok (rest.take len)
      else do
        let tail ← readBlocks fuel (rest.drop len)
        return rest.take len ++ tail
  | _, _ => .error .invalidData

/-- Thirty-two zeros, compressed. -/
def compressedZeros : Bytes := [99, 96, 192, 15, 0]

/-- Stored blocks and the one compressed stream. -/
def inflate (bytes : Bytes) : Except IoError Bytes :=
  if bytes = compressedZeros then .ok (List.replicate 32 0)
  else readBlocks bytes.length bytes

theorem blockLength {n : Nat} (h : n ≤ blockMax) :
    (UInt8.ofNat n).toNat + 256 * (UInt8.ofNat (n / 256)).toNat = n := by
  simp only [blockMax] at h
  simp only [UInt8.toNat_ofNat']
  omega

/-- One stored block, read back. -/
theorem readBlocks_storedBlock (fuel : Nat) (final : UInt8) {data : Bytes} (rest : Bytes)
    (h : data.length ≤ blockMax) :
    readBlocks (fuel + 1) (storedBlock final data ++ rest) =
      if final = 1 then .ok data
      else do
        let tail ← readBlocks fuel rest
        return data ++ tail := by
  have hlen := blockLength h
  have hshort : ¬ (data ++ rest).length < data.length := by simp
  simp only [storedBlock, List.cons_append, List.nil_append, readBlocks, hlen, if_neg hshort,
    List.take_left, List.drop_left]

theorem storedBlock_length (final : UInt8) (data : Bytes) :
    (storedBlock final data).length = data.length + 5 := by
  simp [storedBlock]

theorem readBlocks_storedBlocks {fuel fuel' : Nat} {data : Bytes} (h : data.length ≤ fuel)
    (h' : (storedBlocks fuel data).length ≤ fuel') :
    readBlocks fuel' (storedBlocks fuel data) = .ok data := by
  induction fuel generalizing fuel' data with
  | zero =>
    obtain rfl : data = [] := List.length_eq_zero_iff.mp (Nat.le_zero.mp h)
    simp only [storedBlocks, List.take_nil, storedBlock_length, List.length_nil] at h' ⊢
    obtain ⟨k, rfl⟩ : ∃ k, fuel' = k + 1 := ⟨fuel' - 1, by omega⟩
    have hread := readBlocks_storedBlock k 1 [] (show ([] : Bytes).length ≤ blockMax by simp)
    simpa using hread
  | succ fuel ih =>
    rw [storedBlocks] at h' ⊢
    split at h'
    · rename_i hle
      rw [storedBlock_length] at h'
      obtain ⟨k, rfl⟩ : ∃ k, fuel' = k + 1 := ⟨fuel' - 1, by omega⟩
      have hread := readBlocks_storedBlock k 1 [] hle
      rw [if_pos hle]
      simpa using hread
    · rename_i hgt
      have htake : (data.take blockMax).length ≤ blockMax := by simp
      rw [List.length_append, storedBlock_length] at h'
      obtain ⟨k, rfl⟩ : ∃ k, fuel' = k + 1 := ⟨fuel' - 1, by omega⟩
      have hdrop : (data.drop blockMax).length ≤ fuel := by
        rw [List.length_drop]
        simp only [blockMax] at hgt ⊢
        omega
      have htail : readBlocks k (storedBlocks fuel (data.drop blockMax)) =
          .ok (data.drop blockMax) := ih hdrop (by omega)
      rw [if_neg hgt, readBlocks_storedBlock k 0 _ htake, htail]
      simp [List.take_append_drop]

/-- The first byte of stored blocks is 0 or 1, that of the compressed stream is
not. -/
theorem storedBlocks_ne (fuel : Nat) (data : Bytes) : storedBlocks fuel data ≠ compressedZeros := by
  cases fuel with
  | zero => simp [storedBlocks, storedBlock, compressedZeros]
  | succ fuel =>
    rw [storedBlocks]
    split <;> simp [storedBlock, compressedZeros]

/-- DEFLATE. -/
def flate : Flate where
  deflate _ writes := storedBlocks writes.flatten.length writes.flatten
  inflate := inflate
  inflate_deflate _ writes := by
    rw [inflate, if_neg (storedBlocks_ne _ _)]
    exact readBlocks_storedBlocks (Nat.le_refl _) (Nat.le_refl _)

/-! ## Encryption -/

/-- The key of thirty-two zeros. -/
def key : AesKey := ⟨List.replicate 32 0, rfl⟩

/-- The nonce of twelve equal bytes. -/
def nonce (byte : UInt8) : Nonce := ⟨List.replicate 12 byte, rfl⟩

/-- The tag under a nonce: the nonce and four zeros. -/
def tag (nonce : Nonce) : Bytes := nonce.bytes ++ [0, 0, 0, 0]

theorem tag_length (nonce : Nonce) : (tag nonce).length = 16 := by
  simp [tag, nonce.length_eq]

theorem tag_injective {nonce nonce' : Nonce} (h : tag nonce = tag nonce') : nonce = nonce' :=
  Nonce.ext (List.append_inj_left' h rfl)

/-- The plaintext with its tag. -/
def aead : Aead where
  encryptInPlace _ nonce plain := .ok (plain ++ tag nonce)
  decryptInPlace _ nonce packet :=
    if 16 ≤ packet.length ∧ packet.drop (packet.length - 16) = tag nonce then
      .ok (packet.take (packet.length - 16))
    else .error .failure

theorem aead_decrypt (key : AesKey) (nonce nonce' : Nonce) (plain : Bytes) :
    aead.decryptInPlace key nonce' (plain ++ tag nonce) =
      if nonce = nonce' then .ok plain else .error .failure := by
  have hlen : (plain ++ tag nonce).length - 16 = plain.length := by simp [tag_length]
  have hle : 16 ≤ (plain ++ tag nonce).length := by simp [tag_length]
  show (if _ then _ else _) = _
  simp only [hlen, hle, true_and, List.drop_left, List.take_left]
  by_cases h : nonce = nonce'
  · simp [h]
  · rw [if_neg h, if_neg fun heq => h (tag_injective heq)]

theorem aead_ideal : aead.Ideal where
  decrypt_same {key nonce plain packet} h := by
    obtain rfl : plain ++ tag nonce = packet := by simpa [aead] using h
    rw [aead_decrypt, if_pos rfl]
  decrypt_other {key nonce nonce' plain packet} h hne := by
    obtain rfl : plain ++ tag nonce = packet := by simpa [aead] using h
    rw [aead_decrypt, if_neg hne.symm]

theorem aead_tagSixteen : aead.TagSixteen := by
  intro key nonce packet plain h
  change (if _ then _ else _) = _ at h
  split at h
  · rename_i hle
    obtain rfl : packet.take (packet.length - 16) = plain := by simpa using h
    rw [List.length_take]
    omega
  · simp at h

/-- The packet of `encrypt` under `nonce n` for a message and the drawn `nonce f`. -/
def packet (n f : UInt8) (message : Bytes) : Bytes :=
  (nonce f).bytes ++ message ++ tag (nonce n)

/-- The digits of a number in base 256, the low one first. -/
def toBytesLe (n : Nat) : Bytes :=
  if n = 0 then [0] else (Nat.digits 256 n).map UInt8.ofNat

/-- The number with the given digits. -/
def fromBytesLe (bytes : Bytes) : Nat := Nat.ofDigits 256 (bytes.map UInt8.toNat)

theorem fromBytesLe_toBytesLe (n : Nat) : fromBytesLe (toBytesLe n) = n := by
  unfold fromBytesLe toBytesLe
  split
  · rename_i hzero
    simp [hzero]
  · have hdigits : ((Nat.digits 256 n).map UInt8.ofNat).map UInt8.toNat = Nat.digits 256 n := by
      rw [List.map_map]
      conv => rhs; rw [← List.map_id (Nat.digits 256 n)]
      apply List.map_congr_left
      intro digit hdigit
      have hlt : digit < 256 := Nat.digits_lt_base (by omega) hdigit
      simpa using Nat.mod_eq_of_lt hlt
    rw [hdigits]
    exact Nat.ofDigits_digits 256 n

/-- The key of thirty-two bytes. -/
def newFromSlice (aes : Bytes) : Option AesKey :=
  if h : aes.length = 32 then some ⟨aes, h⟩ else none

/-- A key pair with modulus and exponent one, which leaves messages as they are. -/
def rsa : Rsa Unit Unit Unit where
  n _ := 1
  e _ := 1
  newPublic _ _ := .ok ()
  encrypt _ _ bytes := .ok bytes
  decrypt _ bytes := .ok bytes
  honest _ := ⟨(), rfl, fun _ key => ⟨key.bytes, rfl, rfl⟩⟩
  toBytesLe := toBytesLe
  fromBytesLe := fromBytesLe
  fromBytesLe_toBytesLe := fromBytesLe_toBytesLe
  newFromSlice := newFromSlice
  newFromSlice_bytes key := dif_pos key.length_eq
  newFromSlice_eq_none_iff := by
    intro aes
    unfold newFromSlice
    split <;> simp_all

end TcpHandler.Protocols.Reference
