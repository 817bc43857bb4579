/-
  Handshake/Reply.lean --- the replies that `client_start` accepts.

  A reply begins with a status of two booleans.  The status that accepts is
  followed, in the protocols with a cipher, by the sealed AES key and the first
  nonce; each of the three that reject is followed by what the server has.  On any
  stream, `client_start` returns for a reply that is accepted, and fails at the
  first field that is not there, cannot be decoded, or cannot be used.

  `server_init` is treated alike: behind the head of `Handshake/Head.lean`, the
  protocols with a cipher have the two halves of a public key.

  A missing field is an error of the stream, but for one case: where the stream has
  ended, the reader of two booleans may find two zeros.  They are the status that
  rejects for the protocol, and the variant of `raw`.
-/
import TcpHandler.Foundation.Grammar
import TcpHandler.Handshake.Head
import TcpHandler.Protocols.Variants

set_option autoImplicit false

namespace TcpHandler.Handshake

open TcpHandler.Foundation TcpHandler.Protocols
open TcpHandler.Foundation.Io (Field Describes)

/-! ## The grammar of a reply -/

section Grammar

variable (V : VariableLen) {Sk Pk Seed : Type} (rsa : Rsa Sk Pk Seed)

/-- A status that rejects, with what follows it, and a status or a field that cannot
be read.  `ended`: the stream has ended where a variant was due, and two zeros are
read there. -/
inductive LastRefused (s : Bytes) : StarterError → Bytes → Prop
  | statusMissing {e : IoError} {left : Bytes} (hread : V.bools2.read.run s = .error e left) :
      LastRefused s (.io e) left
  | protocol {t rest : Bytes} {bools : Bool × Bool}
      (hstatus : Field V.bools2.read s (false, false) t)
      (hfield : Field V.bools2.read t bools rest) :
      LastRefused s (.invalidProtocol (.ofBools bools)) rest
  | protocolMissing {t left : Bytes} {e : IoError}
      (hstatus : Field V.bools2.read s (false, false) t)
      (hread : V.bools2.read.run t = .error e left) : LastRefused s (.io e) left
  | identifier {t rest : Bytes} {i : String} (hstatus : Field V.bools2.read s (false, true) t)
      (hfield : Field V.string.read t i rest) : LastRefused s (.invalidIdentifier i) rest
  | identifierMissing {t left : Bytes} {e : IoError}
      (hstatus : Field V.bools2.read s (false, true) t)
      (hread : V.string.read.run t = .error e left) : LastRefused s (.io e) left
  | version {t rest : Bytes} {v : String} (hstatus : Field V.bools2.read s (true, false) t)
      (hfield : Field V.string.read t v rest) : LastRefused s (.invalidVersion v) rest
  | versionMissing {t left : Bytes} {e : IoError} (hstatus : Field V.bools2.read s (true, false) t)
      (hread : V.string.read.run t = .error e left) : LastRefused s (.io e) left
  | ended (hs : s = [] ∨ Field V.bools2.read s (false, false) [])
      (hend : V.bools2.read.run [] = .ok (false, false) []) :
      LastRefused s (.invalidProtocol .raw) []

/-- What follows an accepting status: an AES key, sealed for `key`, and a nonce. -/
def SealedKey (key : Sk) (s : Bytes) (cipher : Cipher) (rest : Bytes) : Prop :=
  ∃ encrypted nonce aesKey, Field V.u8Vec.read s encrypted (nonce.bytes ++ rest) ∧
    rsa.decrypt key encrypted = .ok aesKey.bytes ∧ cipher = Cipher.new (aesKey, nonce)

/-- What is wrong with a sealed key, and what is left of the stream.  A key of another
length than that of AES-256 is a panic. -/
inductive SealedKeyRefused (key : Sk) (s : Bytes) : Fault StarterError → Bytes → Prop
  | keyMissing {e : IoError} {left : Bytes} (hread : V.u8Vec.read.run s = .error e left) :
      SealedKeyRefused key s (.error (.io e)) left
  | nonceMissing {encrypted t : Bytes} (hfield : Field V.u8Vec.read s encrypted t)
      (hshort : t.length < 12) : SealedKeyRefused key s (.error (.io .unexpectedEof)) []
  | undecryptable {encrypted rest : Bytes} {nonce : Nonce} {e : RsaError}
      (hfield : Field V.u8Vec.read s encrypted (nonce.bytes ++ rest))
      (hdecrypt : rsa.decrypt key encrypted = .error e) :
      SealedKeyRefused key s (.error (.rsa e)) rest
  | length {encrypted rest aes : Bytes} {nonce : Nonce}
      (hfield : Field V.u8Vec.read s encrypted (nonce.bytes ++ rest))
      (hdecrypt : rsa.decrypt key encrypted = .ok aes) (hlength : aes.length ≠ 32) :
      SealedKeyRefused key s .panic rest

/-- `s` is a reply from which the client has `cipher`, and then `rest`. -/
def IsReply : (protocol : ProtocolVariant) → Variants.ClientInit Sk protocol → Bytes →
    Option Cipher → Bytes → Prop
  | .raw, _, s, cipher, rest | .compression, _, s, cipher, rest =>
      cipher = none ∧ Field V.bools2.read s (true, true) rest
  | .encryption, key, s, cipher, rest | .compressEncryption, key, s, cipher, rest =>
      ∃ c t, cipher = some c ∧ Field V.bools2.read s (true, true) t ∧ SealedKey V rsa key t c rest

/-- The first thing that is wrong with a reply, the error for it, and what is left of
the stream. -/
def ReplyRefused : (protocol : ProtocolVariant) → Variants.ClientInit Sk protocol → Bytes →
    Fault StarterError → Bytes → Prop
  | .raw, _, s, e, left | .compression, _, s, e, left =>
      ∃ e', LastRefused V s e' left ∧ e = .error e'
  | .encryption, key, s, e, left | .compressEncryption, key, s, e, left =>
      (∃ e', LastRefused V s e' left ∧ e = .error e') ∨
        ∃ t, Field V.bools2.read s (true, true) t ∧ SealedKeyRefused V rsa key t e left

end Grammar

/-! ## `client_start` reads it -/

section Reads

variable {V : VariableLen} {Sk Pk Seed : Type} {rsa : Rsa Sk Pk Seed}

/-- Two booleans, or the end of the stream. -/
theorem run_bools2_eq_ok (hV : V.Delimited) {s rest : Bytes} {bools : Bool × Bool} :
    V.bools2.read.run s = .ok bools rest ↔ Field V.bools2.read s bools rest ∨
      s = [] ∧ bools = (false, false) ∧ rest = [] ∧
        V.bools2.read.run [] = .ok (false, false) [] := by
  constructor
  · intro h
    rcases hV.takes_bools2 s with ⟨bytes, b, t, rfl, htakes⟩ | ⟨e, left, hread⟩ | ⟨rfl, hend⟩
    · rw [htakes t] at h
      cases h
      exact .inl ⟨bytes, rfl, htakes⟩
    · rw [hread] at h
      cases h
    · rw [hend] at h
      cases h
      exact .inr ⟨rfl, rfl, rfl, hend⟩
  · rintro (⟨bytes, rfl, htakes⟩ | ⟨rfl, rfl, rfl, hend⟩)
    · exact htakes rest
    · exact hend

/-- A status other than two zeros is in the stream. -/
theorem field_of_status (hV : V.Delimited) {s rest : Bytes} {bools : Bool × Bool}
    (hne : bools ≠ (false, false)) :
    V.bools2.read.run s = .ok bools rest ↔ Field V.bools2.read s bools rest := by
  rw [run_bools2_eq_ok hV]
  refine or_iff_left ?_
  rintro ⟨_, hzero, _⟩
  exact hne hzero

/-- A field behind a status that rejects: the client fails, with the value of the
field or because there is none. -/
theorem run_rejection_eq_error {α E : Type} {x : Io Bytes IoError α} {err : α → StarterError}
    {t left : Bytes} {e : StarterError} :
    (x.mapError StarterError.io >>= fun a => (throw (err a) : Io Bytes StarterError E)).run t =
        .error e left ↔
      (∃ e', x.run t = .error e' left ∧ e = .io e') ∨ ∃ a, x.run t = .ok a left ∧ e = err a := by
  rw [Io.run_bind_eq_error, Io.run_mapError_eq_error]
  refine or_congr Iff.rfl (exists_congr fun a => ?_)
  constructor
  · rintro ⟨t', hread, hthrow⟩
    cases hthrow
    exact ⟨Io.run_mapError_eq_ok.mp hread, rfl⟩
  · rintro ⟨hread, rfl⟩
    exact ⟨left, Io.run_mapError_eq_ok.mpr hread, rfl⟩

/-- What `read_last` makes of the status that rejects for the protocol. -/
theorem run_protocol_eq_error (hV : V.Delimited) {E : Type} {extra : E} {s left : Bytes}
    {e : StarterError} :
    (∃ t, V.bools2.read.run s = .ok (false, false) t ∧
        (afterStatus V extra (false, false)).run t = .error e left) ↔
      (∃ t e', Field V.bools2.read s (false, false) t ∧ V.bools2.read.run t = .error e' left ∧
        e = .io e') ∨
      (∃ t bools, Field V.bools2.read s (false, false) t ∧ Field V.bools2.read t bools left ∧
        e = .invalidProtocol (.ofBools bools)) ∨
      ((s = [] ∨ Field V.bools2.read s (false, false) []) ∧
        V.bools2.read.run [] = .ok (false, false) [] ∧ e = .invalidProtocol .raw ∧ left = []) := by
  constructor
  · rintro ⟨t, hstatus, hrest⟩
    have hprotocol := run_rejection_eq_error.mp hrest
    rcases (run_bools2_eq_ok hV).mp hstatus with hfield | ⟨rfl, _, rfl, hend⟩
    · rcases hprotocol with ⟨e', hmissing, rfl⟩ | ⟨bools, hread, rfl⟩
      · exact .inl ⟨t, e', hfield, hmissing, rfl⟩
      · rcases (run_bools2_eq_ok hV).mp hread with hvalue | ⟨rfl, rfl, rfl, hend⟩
        · exact .inr (.inl ⟨t, bools, hfield, hvalue, rfl⟩)
        · exact .inr (.inr ⟨.inr hfield, hend, rfl, rfl⟩)
    · rcases hprotocol with ⟨e', hmissing, _⟩ | ⟨bools, hread, rfl⟩
      · rw [hend] at hmissing
        cases hmissing
      · rw [hend] at hread
        cases hread
        exact .inr (.inr ⟨.inl rfl, hend, rfl, rfl⟩)
  · have hfails : ∀ {t}, V.bools2.read.run t = .ok (false, false) [] →
        (afterStatus V extra (false, false)).run t = .error (.invalidProtocol .raw) [] :=
      fun hread => run_rejection_eq_error.mpr (.inr ⟨_, hread, rfl⟩)
    rintro (⟨t, e', hfield, hmissing, rfl⟩ | ⟨t, bools, hfield, hvalue, rfl⟩ |
      ⟨rfl | hfield, hend, rfl, rfl⟩)
    · exact ⟨t, (run_bools2_eq_ok hV).mpr (.inl hfield),
        run_rejection_eq_error.mpr (.inl ⟨e', hmissing, rfl⟩)⟩
    · exact ⟨t, (run_bools2_eq_ok hV).mpr (.inl hfield), run_rejection_eq_error.mpr
        (.inr ⟨bools, (run_bools2_eq_ok hV).mpr (.inl hvalue), rfl⟩)⟩
    · exact ⟨[], hend, hfails hend⟩
    · exact ⟨[], (run_bools2_eq_ok hV).mpr (.inl hfield), hfails hend⟩

/-- What `read_last` makes of a status that rejects with a string. -/
theorem run_text_eq_error (hV : V.Delimited) {E : Type} {err : String → StarterError}
    {t left : Bytes} {e : StarterError} :
    (V.string.read.mapError StarterError.io >>=
        fun text => (throw (err text) : Io Bytes StarterError E)).run t = .error e left ↔
      (∃ e', V.string.read.run t = .error e' left ∧ e = .io e') ∨
        ∃ text, Field V.string.read t text left ∧ e = err text := by
  rw [run_rejection_eq_error]
  simp only [hV.string.describes.ok_iff]

/-- `read_last` of a client that has sent its half. -/
theorem describes_readLast (hV : V.Delimited) {E : Type} (extra : E) :
    Describes (readLast V (.ok extra))
      (fun s a rest => a = extra ∧ Field V.bools2.read s (true, true) rest) (LastRefused V) where
  ok_iff s a rest := by
    rw [run_readLast_eq_ok, field_of_status hV (by simp)]
    simp [eq_comm]
  error_iff s e left := by
    rw [readLast_ok, Io.run_bind_eq_error, Io.run_mapError_eq_error]
    simp only [Io.run_mapError_eq_ok]
    constructor
    · rintro (⟨e', hmissing, rfl⟩ | ⟨⟨_ | _, _ | _⟩, t, hstatus, hrest⟩)
      · exact .statusMissing hmissing
      · rcases (run_protocol_eq_error hV).mp ⟨t, hstatus, hrest⟩ with
          ⟨t, e', hfield, hmissing, rfl⟩ | ⟨t, bools, hfield, hvalue, rfl⟩ | ⟨hs, hend, rfl, rfl⟩
        · exact .protocolMissing hfield hmissing
        · exact .protocol hfield hvalue
        · exact .ended hs hend
      · have hfield := (field_of_status hV (by simp)).mp hstatus
        rcases (run_text_eq_error hV).mp hrest with ⟨e', hmissing, rfl⟩ | ⟨i, hvalue, rfl⟩
        · exact .identifierMissing hfield hmissing
        · exact .identifier hfield hvalue
      · have hfield := (field_of_status hV (by simp)).mp hstatus
        rcases (run_text_eq_error hV).mp hrest with ⟨e', hmissing, rfl⟩ | ⟨v, hvalue, rfl⟩
        · exact .versionMissing hfield hmissing
        · exact .version hfield hvalue
      · cases hrest
    · have hprotocol : ∀ {e left}, (∃ t, V.bools2.read.run s = .ok (false, false) t ∧
            (afterStatus V extra (false, false)).run t = .error e left) →
          (∃ e', V.bools2.read.run s = .error e' left ∧ e = .io e') ∨
            ∃ bools t, V.bools2.read.run s = .ok bools t ∧
              (afterStatus V extra bools).run t = .error e left :=
        fun ⟨t, hstatus, hrest⟩ => .inr ⟨_, t, hstatus, hrest⟩
      intro h
      cases h with
      | statusMissing hmissing => exact .inl ⟨_, hmissing, rfl⟩
      | protocol hstatus hfield =>
        exact hprotocol ((run_protocol_eq_error hV).mpr (.inr (.inl ⟨_, _, hstatus, hfield, rfl⟩)))
      | protocolMissing hstatus hmissing =>
        exact hprotocol ((run_protocol_eq_error hV).mpr (.inl ⟨_, _, hstatus, hmissing, rfl⟩))
      | ended hs hend =>
        exact hprotocol ((run_protocol_eq_error hV).mpr (.inr (.inr ⟨hs, hend, rfl, rfl⟩)))
      | identifier hstatus hfield =>
        exact .inr ⟨_, _, (field_of_status hV (by simp)).mpr hstatus,
          (run_text_eq_error hV).mpr (.inr ⟨_, hfield, rfl⟩)⟩
      | identifierMissing hstatus hmissing =>
        exact .inr ⟨_, _, (field_of_status hV (by simp)).mpr hstatus,
          (run_text_eq_error hV).mpr (.inl ⟨_, hmissing, rfl⟩)⟩
      | version hstatus hfield =>
        exact .inr ⟨_, _, (field_of_status hV (by simp)).mpr hstatus,
          (run_text_eq_error hV).mpr (.inr ⟨_, hfield, rfl⟩)⟩
      | versionMissing hstatus hmissing =>
        exact .inr ⟨_, _, (field_of_status hV (by simp)).mpr hstatus,
          (run_text_eq_error hV).mpr (.inl ⟨_, hmissing, rfl⟩)⟩

variable (V rsa) in
/-- `client_start` of a protocol with a cipher behind an accepting status. -/
def afterAccept (key : Sk) : Io Bytes (Fault StarterError) Cipher := do
  let encryptedAes ← V.u8Vec.read.mapError fun e => .error (.io e)
  let nonce ← (readNonce V).mapError fun e => .error (.io e)
  let aes ← Io.ofExcept ((rsa.decrypt key encryptedAes).mapError fun e => .error (.rsa e))
  match rsa.newFromSlice aes with
  | some aesKey => return Cipher.new (aesKey, nonce)
  | none => throw .panic

theorem describes_readNonce :
    Describes (readNonce V) (fun s nonce rest => s = nonce.bytes ++ rest)
      (fun s e left => s.length < 12 ∧ e = .unexpectedEof ∧ left = []) where
  ok_iff _ _ _ := run_readNonce_eq_ok V
  error_iff s e left := by
    by_cases hshort : s.length < 12
    · simp [run_readNonce_of_lt V hshort, hshort, eq_comm]
    · have hlength : (s.take 12).length = 12 := by
        rw [List.length_take]
        omega
      have hread : (readNonce V).run s = .ok ⟨s.take 12, hlength⟩ (s.drop 12) :=
        (run_readNonce_eq_ok V).mpr (List.take_append_drop 12 s).symm
      simp [hread, hshort]

variable (rsa) in
/-- The last step of `client_start`. -/
def openKey (key : Sk) (encrypted : Bytes) (nonce : Nonce) :
    Io Bytes (Fault StarterError) Cipher := do
  let aes ← Io.ofExcept ((rsa.decrypt key encrypted).mapError fun e => .error (.rsa e))
  match rsa.newFromSlice aes with
  | some aesKey => return Cipher.new (aesKey, nonce)
  | none => throw .panic

theorem describes_openKey (key : Sk) (encrypted : Bytes) (nonce : Nonce) :
    Describes (openKey rsa key encrypted nonce)
      (fun s c t => ∃ aesKey : AesKey, rsa.decrypt key encrypted = .ok aesKey.bytes ∧
        c = Cipher.new (aesKey, nonce) ∧ t = s)
      (fun s e t => ((∃ e', rsa.decrypt key encrypted = .error e' ∧ e = .error (.rsa e')) ∨
        ∃ aes, rsa.decrypt key encrypted = .ok aes ∧ aes.length ≠ 32 ∧ e = .panic) ∧ t = s) := by
  unfold openKey
  cases rsa.decrypt key encrypted with
  | error e' =>
    have hthrow : Describes (throw (.error (.rsa e')) : Io Bytes (Fault StarterError) Cipher) _ _ :=
      Io.describes_throw _
    exact hthrow.congr (fun s c t => by simp) fun s e t => by simp [eq_comm]
  | ok aes =>
    simp only [Except.mapError, Io.ofExcept, pure_bind, Except.ok.injEq]
    cases haes : rsa.newFromSlice aes with
    | some aesKey =>
      obtain rfl := rsa.bytes_of_newFromSlice haes
      refine (Io.describes_pure (Cipher.new (aesKey, nonce))).congr
        (fun s c t => ?_) fun s e t => ?_
      · constructor
        · rintro ⟨rfl, rfl⟩
          exact ⟨aesKey, rfl, rfl, rfl⟩
        · rintro ⟨aesKey', hsame, rfl, rfl⟩
          rw [AesKey.ext hsame]
          exact ⟨rfl, rfl⟩
      · simp [aesKey.length_eq]
    | none =>
      have hlength := rsa.newFromSlice_eq_none_iff.mp haes
      refine (Io.describes_throw Fault.panic).congr
        (fun s c t => ?_) fun s e t => ?_
      · simp only [false_iff, not_exists]
        rintro aesKey ⟨rfl, _⟩
        exact hlength aesKey.length_eq
      · simp [hlength]

/-- `client_start` behind an accepting status. -/
theorem describes_afterAccept (hu8Vec : Io.Exact V.u8Vec.read) (key : Sk) :
    Describes (afterAccept V rsa key) (SealedKey V rsa key) (SealedKeyRefused V rsa key) := by
  refine ((hu8Vec.describes.mapError fun e => Fault.error (StarterError.io e)).bind fun encrypted =>
    (describes_readNonce.mapError fun e => Fault.error (StarterError.io e)).bind fun nonce =>
      describes_openKey key encrypted nonce).congr (fun s c rest => ?_) fun s e left => ?_
  · constructor
    · rintro ⟨encrypted, t, hfield, nonce, u, rfl, aesKey, hdecrypt, rfl, rfl⟩
      exact ⟨encrypted, nonce, aesKey, hfield, hdecrypt, rfl⟩
    · rintro ⟨encrypted, nonce, aesKey, hfield, hdecrypt, rfl⟩
      exact ⟨encrypted, _, hfield, nonce, rest, rfl, aesKey, hdecrypt, rfl, rfl⟩
  · constructor
    · rintro (⟨e', hmissing, rfl⟩ | ⟨encrypted, t, hfield, hrest⟩)
      · exact .keyMissing hmissing
      · rcases hrest with ⟨e', ⟨hshort, rfl, rfl⟩, rfl⟩ | ⟨nonce, u, rfl, hkey, rfl⟩
        · exact .nonceMissing hfield hshort
        · rcases hkey with ⟨e', hdecrypt, rfl⟩ | ⟨aes, hdecrypt, hlength, rfl⟩
          · exact .undecryptable hfield hdecrypt
          · exact .length hfield hdecrypt hlength
    · intro h
      cases h with
      | keyMissing hmissing => exact .inl ⟨_, hmissing, rfl⟩
      | nonceMissing hfield hshort =>
        exact .inr ⟨_, _, hfield, .inl ⟨_, ⟨hshort, rfl, rfl⟩, rfl⟩⟩
      | undecryptable hfield hdecrypt =>
        exact .inr ⟨_, _, hfield, .inr ⟨_, _, rfl, .inl ⟨_, hdecrypt, rfl⟩, rfl⟩⟩
      | length hfield hdecrypt hlength =>
        exact .inr ⟨_, _, hfield, .inr ⟨_, _, rfl, .inr ⟨_, hdecrypt, hlength, rfl⟩, rfl⟩⟩

/-- `client_start` of a protocol with a cipher. -/
theorem describes_clientStart_sealed (hV : V.Delimited) (hu8Vec : Io.Exact V.u8Vec.read)
    (key : Sk) :
    Describes (Sealed.clientStart V rsa (.ok key))
      (fun s c rest => ∃ t, Field V.bools2.read s (true, true) t ∧ SealedKey V rsa key t c rest)
      (fun s e left => (∃ e', LastRefused V s e' left ∧ e = .error e') ∨
        ∃ t, Field V.bools2.read s (true, true) t ∧ SealedKeyRefused V rsa key t e left) := by
  refine (((describes_readLast hV key).mapError Fault.error).bind fun k =>
    describes_afterAccept hu8Vec k).congr (fun s c rest => ?_) fun s e left => ?_
  · constructor
    · rintro ⟨_, t, ⟨rfl, hstatus⟩, hkey⟩
      exact ⟨t, hstatus, hkey⟩
    · rintro ⟨t, hstatus, hkey⟩
      exact ⟨key, t, ⟨rfl, hstatus⟩, hkey⟩
  · refine or_congr Iff.rfl ?_
    constructor
    · rintro ⟨_, t, ⟨rfl, hstatus⟩, hkey⟩
      exact ⟨t, hstatus, hkey⟩
    · rintro ⟨t, hstatus, hkey⟩
      exact ⟨key, t, ⟨rfl, hstatus⟩, hkey⟩

/-- On every stream, `client_start` accepts exactly the replies of its grammar, and
fails exactly at the first thing that is wrong with the others. -/
theorem clientStart_reads_replies (hV : V.Delimited) (hu8Vec : Io.Exact V.u8Vec.read)
    (protocol : ProtocolVariant) (init : Variants.ClientInit Sk protocol) :
    Describes (Variants.clientStart V rsa protocol (.ok init)) (IsReply V rsa protocol init)
      (ReplyRefused V rsa protocol init) := by
  have hplain : ∀ init : Unit, Describes
      ((Plain.clientStart V (.ok init)).mapError Fault.error >>= fun _ => pure none)
      (fun s cipher rest =>
        cipher = (none : Option Cipher) ∧ Field V.bools2.read s (true, true) rest)
      (fun s e left => ∃ e', LastRefused V s e' left ∧ e = .error e') := by
    intro init
    refine (((describes_readLast hV init).mapError Fault.error).bind fun _ =>
      Io.describes_pure none).congr (fun s cipher rest => ?_) fun s e left => by simp
    constructor
    · rintro ⟨_, t, ⟨_, hstatus⟩, rfl, rfl⟩
      exact ⟨rfl, hstatus⟩
    · rintro ⟨rfl, hstatus⟩
      exact ⟨(), rest, ⟨rfl, hstatus⟩, rfl, rfl⟩
  have hsealed : ∀ key : Sk, Describes
      (Sealed.clientStart V rsa (.ok key) >>= fun c => pure (some c))
      (fun s cipher rest => ∃ c t, cipher = some c ∧ Field V.bools2.read s (true, true) t ∧
        SealedKey V rsa key t c rest)
      (fun s e left => (∃ e', LastRefused V s e' left ∧ e = .error e') ∨
        ∃ t, Field V.bools2.read s (true, true) t ∧ SealedKeyRefused V rsa key t e left) := by
    intro key
    refine ((describes_clientStart_sealed hV hu8Vec key).bind fun c =>
      Io.describes_pure (some c)).congr (fun s cipher rest => ?_) fun s e left => by simp
    constructor
    · rintro ⟨c, u, ⟨t, hstatus, hkey⟩, rfl, rfl⟩
      exact ⟨c, t, rfl, hstatus, hkey⟩
    · rintro ⟨c, t, rfl, hstatus, hkey⟩
      exact ⟨c, rest, ⟨t, hstatus, hkey⟩, rfl, rfl⟩
  cases protocol with
  | raw | compression => exact hplain init
  | encryption | compressEncryption => exact hsealed init

end Reads

theorem clientStart_reads_replies_reference :
    Describes
      (Variants.clientStart Reference.variableLen Reference.rsa .compressEncryption (.ok ()))
      (IsReply Reference.variableLen Reference.rsa .compressEncryption ())
      (ReplyRefused Reference.variableLen Reference.rsa .compressEncryption ()) :=
  clientStart_reads_replies Reference.variableLen_delimited Reference.variableLen_u8Vec_exact
    .compressEncryption ()

/-! ## `server_init` -/

section Requests

variable (V : VariableLen) {Sk Pk Seed : Type} (rsa : Rsa Sk Pk Seed) (identifier : String)
  (version : String → Bool)

/-- Two fields with the halves of a public key. -/
def PublicKey (s : Bytes) (pk : Pk) (rest : Bytes) : Prop :=
  ∃ n e t, Field V.u8Vec.read s n t ∧ Field V.u8Vec.read t e rest ∧
    composeRsaPublic rsa n e = .ok pk

/-- What is wrong with a public key. -/
inductive PublicKeyRefused (s : Bytes) : StarterError → Bytes → Prop
  | modulusMissing {e : IoError} {left : Bytes} (hread : V.u8Vec.read.run s = .error e left) :
      PublicKeyRefused s (.io e) left
  | exponentMissing {n t left : Bytes} {e : IoError} (hn : Field V.u8Vec.read s n t)
      (hread : V.u8Vec.read.run t = .error e left) : PublicKeyRefused s (.io e) left
  | unusable {n e t rest : Bytes} {error : StarterError} (hn : Field V.u8Vec.read s n t)
      (he : Field V.u8Vec.read t e rest) (hkey : composeRsaPublic rsa n e = .error error) :
      PublicKeyRefused s error rest

/-- `s` is a request of a client that is accepted, and then `rest`. -/
def IsRequest :
    (protocol : ProtocolVariant) → Bytes → Variants.ServerInit Pk protocol → Bytes → Prop
  | .raw, s, (n, v), rest => n = magicVersion ∧ IsHead V .raw identifier version s v rest
  | .compression, s, (n, v), rest =>
      n = magicVersion ∧ IsHead V .compression identifier version s v rest
  | .encryption, s, ((n, v), pk), rest =>
      ∃ t, n = magicVersion ∧ IsHead V .encryption identifier version s v t ∧
        PublicKey V rsa t pk rest
  | .compressEncryption, s, ((n, v), pk), rest =>
      ∃ t, n = magicVersion ∧ IsHead V .compressEncryption identifier version s v t ∧
        PublicKey V rsa t pk rest

/-- The first thing that is wrong with a request. -/
def RequestRefused (protocol : ProtocolVariant) (s : Bytes) (e : StarterError) (left : Bytes) :
    Prop :=
  Refused V protocol identifier version s e left ∨ EndedHead V protocol identifier s e left ∨
    (protocol = .encryption ∨ protocol = .compressEncryption) ∧
      ∃ v t, IsHead V protocol identifier version s v t ∧ PublicKeyRefused V rsa t e left

variable {V rsa identifier version}

theorem describes_readHead (hV : V.Delimited) (protocol : ProtocolVariant) :
    Describes (readHead V protocol identifier version)
      (fun s x rest => x.1 = magicVersion ∧ IsHead V protocol identifier version s x.2 rest)
      (fun s e left => Refused V protocol identifier version s e left ∨
        EndedHead V protocol identifier s e left) where
  ok_iff _ _ _ := run_readHead_eq_ok_iff hV
  error_iff _ _ _ := run_readHead_eq_error_iff hV

/-- `server_init` of a protocol with a cipher behind the head. -/
theorem describes_publicKey (hu8Vec : Io.Exact V.u8Vec.read) (versions : UInt16 × String) :
    Describes (do
        let n ← V.u8Vec.read.mapError .io
        let e ← V.u8Vec.read.mapError .io
        let key ← Io.ofExcept (composeRsaPublic rsa n e)
        return (versions, key) : Io Bytes StarterError ((UInt16 × String) × Pk))
      (fun s x rest => x.1 = versions ∧ PublicKey V rsa s x.2 rest) (PublicKeyRefused V rsa) := by
  have hfield := hu8Vec.describes.mapError StarterError.io
  refine (hfield.bind fun n => hfield.bind fun e =>
    (Io.describes_ofExcept (composeRsaPublic rsa n e)).bind fun key =>
      Io.describes_pure (versions, key)).congr (fun s x rest => ?_) fun s error left => ?_
  · constructor
    · rintro ⟨n, t, hn, e, u, he, pk, _, ⟨hkey, rfl⟩, rfl, rfl⟩
      exact ⟨rfl, n, e, t, hn, he, hkey⟩
    · rintro ⟨rfl, n, e, t, hn, he, hkey⟩
      exact ⟨n, t, hn, e, rest, he, x.2, rest, ⟨hkey, rfl⟩, rfl, rfl⟩
  · constructor
    · rintro (⟨e', hmissing, rfl⟩ | ⟨n, t, hn, hrest⟩)
      · exact .modulusMissing hmissing
      · rcases hrest with ⟨e', hmissing, rfl⟩ | ⟨e, u, he, ⟨hkey, rfl⟩ | ⟨_, _, _, h⟩⟩
        · exact .exponentMissing hn hmissing
        · exact .unusable hn he hkey
        · exact h.elim
    · intro h
      cases h with
      | modulusMissing hmissing => exact .inl ⟨_, hmissing, rfl⟩
      | exponentMissing hn hmissing => exact .inr ⟨_, _, hn, .inl ⟨_, hmissing, rfl⟩⟩
      | unusable hn he hkey => exact .inr ⟨_, _, hn, .inr ⟨_, _, he, .inl ⟨hkey, rfl⟩⟩⟩

/-- On every stream, `server_init` accepts exactly the requests of its grammar, and
fails exactly at the first thing that is wrong with the others. -/
theorem serverInit_reads_requests (hV : V.Delimited) (hu8Vec : Io.Exact V.u8Vec.read)
    (protocol : ProtocolVariant) :
    Describes (Variants.serverInit V rsa identifier version protocol)
      (IsRequest V rsa identifier version protocol)
      (RequestRefused V rsa identifier version protocol) := by
  have hsealed : ∀ protocol, protocol = .encryption ∨ protocol = .compressEncryption →
      Describes (Sealed.serverInit V rsa protocol identifier version)
        (fun s x rest => ∃ t, x.1.1 = magicVersion ∧
          IsHead V protocol identifier version s x.1.2 t ∧ PublicKey V rsa t x.2 rest)
        (RequestRefused V rsa identifier version protocol) := by
    intro protocol hprotocol
    refine ((describes_readHead hV protocol).bind fun versions =>
      describes_publicKey hu8Vec versions).congr (fun s x rest => ?_) fun s e left => ?_
    · constructor
      · rintro ⟨versions, t, ⟨hn, hhead⟩, rfl, hkey⟩
        exact ⟨t, hn, hhead, hkey⟩
      · rintro ⟨t, hn, hhead, hkey⟩
        exact ⟨x.1, t, ⟨hn, hhead⟩, rfl, hkey⟩
    · refine or_assoc.trans (or_congr Iff.rfl (or_congr Iff.rfl ?_))
      constructor
      · rintro ⟨versions, t, ⟨_, hhead⟩, hkey⟩
        exact ⟨hprotocol, versions.2, t, hhead, hkey⟩
      · rintro ⟨_, v, t, hhead, hkey⟩
        exact ⟨(magicVersion, v), t, ⟨rfl, hhead⟩, hkey⟩
  cases protocol with
  | raw | compression =>
    exact (describes_readHead hV _).congr (fun s x rest => Iff.rfl)
      fun s e left => by simp [RequestRefused]
  | encryption => exact hsealed _ (.inl rfl)
  | compressEncryption => exact hsealed _ (.inr rfl)

end Requests

theorem serverInit_reads_requests_reference :
    Describes
      (Variants.serverInit Reference.variableLen Reference.rsa "test" (· == "1") .encryption)
      (IsRequest Reference.variableLen Reference.rsa "test" (· == "1") .encryption)
      (RequestRefused Reference.variableLen Reference.rsa "test" (· == "1") .encryption) :=
  serverInit_reads_requests Reference.variableLen_delimited Reference.variableLen_u8Vec_exact
    .encryption

end TcpHandler.Handshake
