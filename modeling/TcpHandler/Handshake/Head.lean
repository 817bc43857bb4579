/-
  Handshake/Head.lean --- the heads that `read_head` accepts.

  A head is five fields: the magic bytes, the magic version, the variant, the
  identifier and the version.  `Matched` is its grammar up to a field, with the
  value that each field must have.  On any stream, `read_head` accepts a head that
  is matched to its end, or fails at the first field that is not there, cannot be
  decoded or has another value.

  The predicate of a server is a closure, which may change what it has captured.
  `readHeadWith` is `read_head` with such a closure; its state shows when the
  closure is called.
-/
import TcpHandler.Protocols.Common
import TcpHandler.Protocols.Reference

set_option autoImplicit false

namespace TcpHandler.Handshake

open TcpHandler.Foundation TcpHandler.Protocols

/-! ## The grammar -/

/-- The fields of a head that have a fixed value. -/
inductive HeadField where
  | magic
  | magicVersion
  | variant
  | identifier

section Grammar

variable (V : VariableLen) (protocol : ProtocolVariant) (identifier : String)

/-- `bytes` are the fields of a head up to the given one, and each has the value
that is expected of it. -/
inductive Matched : HeadField → Bytes → Prop
  | magic : Matched .magic magicBytes
  | magicVersion {bytes field : Bytes} (hbefore : Matched .magic bytes)
      (hfield : Io.Takes V.u16RawBe.read field magicVersion) :
      Matched .magicVersion (bytes ++ field)
  | variant {bytes field : Bytes} {bools : Bool × Bool} (hbefore : Matched .magicVersion bytes)
      (hfield : Io.Takes V.bools2.read field bools) (hvalue : .ofBools bools = protocol) :
      Matched .variant (bytes ++ field)
  | identifier {bytes field : Bytes} (hbefore : Matched .variant bytes)
      (hfield : Io.Takes V.string.read field identifier) : Matched .identifier (bytes ++ field)

/-- `s` is a head with the version `v`, and then `rest`. -/
def IsHead (version : String → Bool) (s : Bytes) (v : String) (rest : Bytes) : Prop :=
  ∃ bytes field, s = bytes ++ (field ++ rest) ∧ Matched V protocol identifier .identifier bytes ∧
    Io.Takes V.string.read field v ∧ version v = true

/-- The first field of `s` that is missing, undecodable or wrong, the error for
it, and what is left of the stream: what the reader of this field left.

The fields in front of it are `Matched`. -/
inductive Refused (version : String → Bool) (s : Bytes) : StarterError → Bytes → Prop
  | magicMissing (hshort : s.length < 4) : Refused version s (.io .unexpectedEof) []
  | magic {field rest : Bytes} (hs : s = field ++ rest) (hlength : field.length = 4)
      (hvalue : field ≠ magicBytes) : Refused version s .invalidStream rest
  | magicVersionMissing {bytes t rest : Bytes} {e : IoError} (hs : s = bytes ++ t)
      (hbefore : Matched V protocol identifier .magic bytes)
      (hread : V.u16RawBe.read.run t = .error e rest) : Refused version s (.io e) rest
  | magicVersion {bytes field rest : Bytes} {n : UInt16} (hs : s = bytes ++ (field ++ rest))
      (hbefore : Matched V protocol identifier .magic bytes)
      (hfield : Io.Takes V.u16RawBe.read field n) (hvalue : n ≠ Protocols.magicVersion) :
      Refused version s .invalidStream rest
  | variantMissing {bytes t rest : Bytes} {e : IoError} (hs : s = bytes ++ t)
      (hbefore : Matched V protocol identifier .magicVersion bytes)
      (hread : V.bools2.read.run t = .error e rest) : Refused version s (.io e) rest
  | variant {bytes field rest : Bytes} {bools : Bool × Bool} (hs : s = bytes ++ (field ++ rest))
      (hbefore : Matched V protocol identifier .magicVersion bytes)
      (hfield : Io.Takes V.bools2.read field bools)
      (hvalue : ProtocolVariant.ofBools bools ≠ protocol) :
      Refused version s (.invalidProtocol (.ofBools bools)) rest
  | identifierMissing {bytes t rest : Bytes} {e : IoError} (hs : s = bytes ++ t)
      (hbefore : Matched V protocol identifier .variant bytes)
      (hread : V.string.read.run t = .error e rest) : Refused version s (.io e) rest
  | identifier {bytes field rest : Bytes} {i : String} (hs : s = bytes ++ (field ++ rest))
      (hbefore : Matched V protocol identifier .variant bytes)
      (hfield : Io.Takes V.string.read field i) (hvalue : i ≠ identifier) :
      Refused version s (.invalidIdentifier i) rest
  | versionMissing {bytes t rest : Bytes} {e : IoError} (hs : s = bytes ++ t)
      (hbefore : Matched V protocol identifier .identifier bytes)
      (hread : V.string.read.run t = .error e rest) : Refused version s (.io e) rest
  | version {bytes field rest : Bytes} {v : String} (hs : s = bytes ++ (field ++ rest))
      (hbefore : Matched V protocol identifier .identifier bytes)
      (hfield : Io.Takes V.string.read field v) (hvalue : version v = false) :
      Refused version s (.invalidVersion v) rest

/-- The stream has ended in front of the variant, and two zeros are read there: the
variant of `raw`, which is wrong, or else there is no identifier behind it. -/
inductive EndedHead (s : Bytes) : StarterError → Bytes → Prop
  | variant (hbefore : Matched V protocol identifier .magicVersion s)
      (hend : V.bools2.read.run [] = .ok (false, false) []) (hvalue : .raw ≠ protocol) :
      EndedHead s (.invalidProtocol .raw) []
  | identifier {e : IoError} {rest : Bytes}
      (hbefore : Matched V protocol identifier .magicVersion s)
      (hend : V.bools2.read.run [] = .ok (false, false) []) (hvalue : .raw = protocol)
      (hread : V.string.read.run [] = .error e rest) : EndedHead s (.io e) rest

end Grammar

/-! ## A predicate with a state -/

section Closure

variable (V : VariableLen) {σ : Type}

/-- Call a closure that works on the second half of the state. -/
def consult {τ ε : Type} (version : String → σ → Bool × σ) (v : String) : Io (τ × σ) ε Bool :=
  fun s => .ok (version v s.2).1 (s.1, (version v s.2).2)

@[simp] theorem run_consult {τ ε : Type} (version : String → σ → Bool × σ) (v : String) (s : τ)
    (t : σ) : (consult version v : Io (τ × σ) ε Bool).run (s, t) =
      .ok (version v t).1 (s, (version v t).2) := rfl

/-- `read_head` whose `version` is a closure with a state of its own. -/
def readHeadWith (protocol : ProtocolVariant) (identifier : String)
    (version : String → σ → Bool × σ) : Io (Bytes × σ) StarterError (UInt16 × String) := do
  let magic ← ((V.readMore 4).mapError .io).onFst
  Io.ensure (magic = magicBytes) .invalidStream
  let protocolVersion ← (V.u16RawBe.read.mapError .io).onFst
  Io.ensure (protocolVersion = magicVersion) .invalidStream
  let bools ← (V.bools2.read.mapError .io).onFst
  let protocolRead := ProtocolVariant.ofBools bools
  Io.ensure (protocolRead = protocol) (.invalidProtocol protocolRead)
  let identifierRead ← (V.string.read.mapError .io).onFst
  Io.ensure (identifierRead = identifier) (.invalidIdentifier identifierRead)
  let versionRead ← (V.string.read.mapError .io).onFst
  let accepted ← consult version versionRead
  Io.ensure accepted (.invalidVersion versionRead)
  return (protocolVersion, versionRead)

/-- The closure's state after `read_head`: changed by one call when the result
carries the version that was read, and untouched otherwise. -/
def consulted (version : String → σ → Bool × σ) (t : σ) :
    EStateM.Result StarterError Bytes (UInt16 × String) →
      EStateM.Result StarterError (Bytes × σ) (UInt16 × String)
  | .ok (n, v) left => .ok (n, v) (left, (version v t).2)
  | .error (.invalidVersion v) left => .error (.invalidVersion v) (left, (version v t).2)
  | .error e left => .error e (left, t)

section Consulted

variable {α : Type} {version : String → σ → Bool × σ} {t : σ}

/-- A field that is read before the closure is called. -/
theorem consulted_read {x : Io Bytes IoError α}
    {k : α → Io Bytes StarterError (UInt16 × String)}
    {k' : α → Io (Bytes × σ) StarterError (UInt16 × String)}
    (hk : ∀ a s, (k' a).run (s, t) = consulted version t ((k a).run s)) (s : Bytes) :
    ((x.mapError .io).onFst >>= k').run (s, t) =
      consulted version t ((x.mapError .io >>= k).run s) := by
  simp only [EStateM.run_bind, Io.run_onFst, Io.run_mapError]
  cases x.run s with
  | ok a s' => exact hk a s'
  | error e s' => rfl

/-- A test before the closure is called. -/
theorem consulted_ensure {c : Prop} [Decidable c] {e : StarterError}
    (he : ∀ v, e ≠ .invalidVersion v) {y : Io Bytes StarterError (UInt16 × String)}
    {y' : Io (Bytes × σ) StarterError (UInt16 × String)}
    (hy : ∀ s, y'.run (s, t) = consulted version t (y.run s)) (s : Bytes) :
    (Io.ensure c e >>= fun _ => y').run (s, t) =
      consulted version t ((Io.ensure c e >>= fun _ => y).run s) := by
  simp only [EStateM.run_bind, Io.run_ensure]
  by_cases hc : c
  · simp only [if_pos hc]
    exact hy s
  · simp only [if_neg hc]
    cases e with
    | invalidVersion v => exact absurd rfl (he v)
    | _ => rfl

end Consulted

/-- `read_head` calls its predicate on the version it has read, once, or not at
all. -/
theorem run_readHeadWith (protocol : ProtocolVariant) (identifier : String)
    (version : String → σ → Bool × σ) (s : Bytes) (t : σ) :
    (readHeadWith V protocol identifier version).run (s, t) =
      consulted version t
        ((readHead V protocol identifier fun v => (version v t).1).run s) := by
  refine consulted_read (fun magic => consulted_ensure (by simp) ?_) s
  refine consulted_read fun protocolVersion => consulted_ensure (by simp) ?_
  refine consulted_read fun bools => consulted_ensure (by simp) ?_
  refine consulted_read fun identifierRead => consulted_ensure (by simp) ?_
  refine consulted_read fun versionRead s => ?_
  -- here the closure is called
  simp only [EStateM.run_bind, run_consult, Io.run_ensure]
  by_cases haccepted : (version versionRead t).1 = true
  · simp only [if_pos haccepted]
    rfl
  · simp only [if_neg haccepted]
    rfl

end Closure

/-! ## What `read_head` accepts -/

section Accepts

variable {V : VariableLen} {protocol : ProtocolVariant} {identifier : String}
  {version : String → Bool}

section After

variable (V protocol identifier version)

/-- What `read_head` does after the identifier; `n` is the magic version it has read. -/
def afterIdentifier (n : UInt16) : Io Bytes StarterError (UInt16 × String) := do
  let versionRead ← V.string.read.mapError .io
  Io.ensure (version versionRead) (.invalidVersion versionRead)
  return (n, versionRead)

/-- What `read_head` does after the variant. -/
def afterVariant (n : UInt16) : Io Bytes StarterError (UInt16 × String) := do
  let identifierRead ← V.string.read.mapError .io
  Io.ensure (identifierRead = identifier) (.invalidIdentifier identifierRead)
  afterIdentifier V version n

/-- What `read_head` does after the magic version. -/
def afterMagicVersion (n : UInt16) : Io Bytes StarterError (UInt16 × String) := do
  let bools ← V.bools2.read.mapError .io
  Io.ensure (ProtocolVariant.ofBools bools = protocol) (.invalidProtocol (.ofBools bools))
  afterVariant V identifier version n

/-- What `read_head` does after the magic bytes. -/
def afterMagic : Io Bytes StarterError (UInt16 × String) := do
  let protocolVersion ← V.u16RawBe.read.mapError .io
  Io.ensure (protocolVersion = magicVersion) .invalidStream
  afterMagicVersion V protocol identifier version protocolVersion

/-- What `read_head` does after a field with the value that is expected of it. -/
def afterField : HeadField → Io Bytes StarterError (UInt16 × String)
  | .magic => afterMagic V protocol identifier version
  | .magicVersion => afterMagicVersion V protocol identifier version magicVersion
  | .variant => afterVariant V identifier version magicVersion
  | .identifier => afterIdentifier V version magicVersion

end After

/-- `read_head` passes over the fields that are matched. -/
theorem run_readHead_of_matched {field : HeadField} {bytes : Bytes}
    (hmatched : Matched V protocol identifier field bytes) (s : Bytes) :
    (readHead V protocol identifier version).run (bytes ++ s) =
      (afterField V protocol identifier version field).run s := by
  induction hmatched generalizing s with
  | magic =>
    have hfield : Io.Takes (V.readMore 4) magicBytes magicBytes := V.readMore_append magicBytes
    exact Io.run_checked_of_takes (c := (· = magicBytes)) hfield rfl s
  | magicVersion _ hfield ih =>
    rw [List.append_assoc, ih]
    exact Io.run_checked_of_takes (c := (· = magicVersion)) hfield rfl s
  | variant _ hfield hvalue ih =>
    rw [List.append_assoc, ih]
    exact Io.run_checked_of_takes hfield hvalue s
  | identifier _ hfield ih =>
    rw [List.append_assoc, ih]
    exact Io.run_checked_of_takes (c := (· = identifier)) hfield rfl s

/-- `read_head` returns a version for the heads of the grammar. -/
theorem run_readHead_of_isHead {s rest : Bytes} {v : String}
    (h : IsHead V protocol identifier version s v rest) :
    (readHead V protocol identifier version).run s = .ok (magicVersion, v) rest := by
  obtain ⟨bytes, field, rfl, hmatched, hfield, hvalue⟩ := h
  rw [run_readHead_of_matched hmatched]
  exact Io.run_checked_of_takes hfield hvalue rest

/-- `read_head` fails at the first field that is missing, undecodable or wrong. -/
theorem run_readHead_of_refused {s left : Bytes} {e : StarterError}
    (h : Refused V protocol identifier version s e left) :
    (readHead V protocol identifier version).run s = .error e left := by
  cases h with
  | magicMissing hshort =>
    exact Io.run_bind_of_error (Io.run_mapError_of_error (V.readMore_short hshort)) _
  | @magic field _ hs hlength hvalue =>
    subst hs
    have hfield : Io.Takes (V.readMore 4) field field := hlength ▸ V.readMore_append field
    exact Io.run_checked_of_not hfield hvalue left
  | magicVersionMissing hs hbefore hread
  | variantMissing hs hbefore hread
  | identifierMissing hs hbefore hread
  | versionMissing hs hbefore hread =>
    rw [hs, run_readHead_of_matched hbefore]
    exact Io.run_bind_of_error (Io.run_mapError_of_error hread) _
  | magicVersion hs hbefore hfield hvalue
  | variant hs hbefore hfield hvalue
  | identifier hs hbefore hfield hvalue =>
    rw [hs, run_readHead_of_matched hbefore]
    exact Io.run_checked_of_not hfield hvalue left
  | version hs hbefore hfield hvalue =>
    rw [hs, run_readHead_of_matched hbefore]
    exact Io.run_checked_of_not hfield (by simp [hvalue]) left

/-- `read_head` on a stream that has ended in front of the variant. -/
theorem run_readHead_of_ended {s left : Bytes} {e : StarterError}
    (h : EndedHead V protocol identifier s e left) :
    (readHead V protocol identifier version).run s = .error e left := by
  have hrun : ∀ {t}, Matched V protocol identifier .magicVersion t →
      (readHead V protocol identifier version).run t =
        (afterMagicVersion V protocol identifier version magicVersion).run [] := by
    intro t hmatched
    have hwhole : (readHead V protocol identifier version).run (t ++ []) = _ :=
      run_readHead_of_matched hmatched []
    rwa [List.append_nil] at hwhole
  cases h with
  | variant hbefore hend hvalue =>
    rw [hrun hbefore, afterMagicVersion, Io.run_bind_of_ok (Io.run_mapError_of_ok hend)]
    refine Io.run_bind_of_error ?_ _
    rw [Io.run_ensure]
    exact if_neg hvalue
  | identifier hbefore hend hvalue hread =>
    rw [hrun hbefore, afterMagicVersion, Io.run_bind_of_ok (Io.run_mapError_of_ok hend)]
    have hensure : (Io.ensure (ProtocolVariant.ofBools (false, false) = protocol)
        (StarterError.invalidProtocol (.ofBools (false, false)))).run ([] : Bytes) = .ok () [] := by
      rw [Io.run_ensure]
      exact if_pos hvalue
    rw [Io.run_bind_of_ok hensure]
    exact Io.run_bind_of_error (Io.run_mapError_of_error hread) _

/-- A stream is a head, or has a first bad field, or has ended in front of the
variant. -/
theorem isHead_or_refused_or_ended (hV : V.Delimited) (s : Bytes) :
    (∃ v rest, IsHead V protocol identifier version s v rest) ∨
      (∃ e left, Refused V protocol identifier version s e left) ∨
        ∃ e left, EndedHead V protocol identifier s e left := by
  rcases (Io.exact_readExactly 4).takes_or_error s with ⟨magic, a, s₁, hs, htakes⟩ |
    ⟨e, left, hread⟩
  case inr =>
    by_cases hshort : s.length < 4
    · exact .inr (.inl ⟨_, _, .magicMissing hshort⟩)
    · simp [run_readExactly, Nat.not_lt.mp hshort] at hread
  obtain ⟨rfl, hlength⟩ := Io.takes_readExactly_iff.mp htakes
  by_cases hmagic : magic = magicBytes
  case neg => exact .inr (.inl ⟨_, _, .magic hs hlength hmagic⟩)
  have h₁ : Matched V protocol identifier .magic magic := hmagic ▸ .magic
  rcases V.u16RawBe_exact.takes_or_error s₁ with ⟨field₂, n, s₂, hs₁, htakes₂⟩ | ⟨e, left, hread⟩
  case inr => exact .inr (.inl ⟨_, _, .magicVersionMissing hs h₁ hread⟩)
  rw [hs₁] at hs
  by_cases hn : n = magicVersion
  case neg => exact .inr (.inl ⟨_, _, .magicVersion hs h₁ htakes₂ hn⟩)
  have h₂ := h₁.magicVersion (hn ▸ htakes₂)
  rw [← List.append_assoc] at hs
  rcases hV.takes_bools2 s₂ with ⟨field₃, bools, s₃, hs₂, htakes₃⟩ | ⟨e, left, hread⟩ | ⟨rfl, hend⟩
  case inr.inl => exact .inr (.inl ⟨_, _, .variantMissing hs h₂ hread⟩)
  case inr.inr =>
    rw [List.append_nil] at hs
    rw [← hs] at h₂
    by_cases hraw : .raw = protocol
    · obtain ⟨e, left, hread⟩ := WireField.exact_nil hV.string
      exact .inr (.inr ⟨_, _, .identifier h₂ hend hraw hread⟩)
    · exact .inr (.inr ⟨_, _, .variant h₂ hend hraw⟩)
  rw [hs₂] at hs
  by_cases hvariant : ProtocolVariant.ofBools bools = protocol
  case neg => exact .inr (.inl ⟨_, _, .variant hs h₂ htakes₃ hvariant⟩)
  have h₃ := h₂.variant htakes₃ hvariant
  rw [← List.append_assoc] at hs
  rcases hV.string.takes_or_error s₃ with ⟨field₄, i, s₄, hs₃, htakes₄⟩ | ⟨e, left, hread⟩
  case inr => exact .inr (.inl ⟨_, _, .identifierMissing hs h₃ hread⟩)
  rw [hs₃] at hs
  by_cases hidentifier : i = identifier
  case neg => exact .inr (.inl ⟨_, _, .identifier hs h₃ htakes₄ hidentifier⟩)
  have h₄ := h₃.identifier (hidentifier ▸ htakes₄)
  rw [← List.append_assoc] at hs
  rcases hV.string.takes_or_error s₄ with ⟨field₅, v, s₅, hs₄, htakes₅⟩ | ⟨e, left, hread⟩
  case inr => exact .inr (.inl ⟨_, _, .versionMissing hs h₄ hread⟩)
  rw [hs₄] at hs
  cases hversion : version v with
  | false => exact .inr (.inl ⟨_, _, .version hs h₄ htakes₅ hversion⟩)
  | true => exact .inl ⟨v, s₅, _, field₅, hs, h₄, htakes₅, hversion⟩

/-- `read_head` returns a version exactly for the heads of the grammar. -/
theorem run_readHead_eq_ok_iff (hV : V.Delimited) {s rest : Bytes} {n : UInt16} {v : String} :
    (readHead V protocol identifier version).run s = .ok (n, v) rest ↔
      n = magicVersion ∧ IsHead V protocol identifier version s v rest := by
  constructor
  · intro h
    rcases isHead_or_refused_or_ended hV s with
      ⟨v', rest', hhead⟩ | ⟨e, left, hrefused⟩ | ⟨e, left, hended⟩
    · rw [run_readHead_of_isHead hhead] at h
      cases h
      exact ⟨rfl, hhead⟩
    · rw [run_readHead_of_refused hrefused] at h
      cases h
    · rw [run_readHead_of_ended hended] at h
      cases h
  · rintro ⟨rfl, hhead⟩
    exact run_readHead_of_isHead hhead

/-- `read_head` fails exactly at the first bad field, or where the stream has ended. -/
theorem run_readHead_eq_error_iff (hV : V.Delimited) {s left : Bytes} {e : StarterError} :
    (readHead V protocol identifier version).run s = .error e left ↔
      Refused V protocol identifier version s e left ∨
        EndedHead V protocol identifier s e left := by
  constructor
  · intro h
    rcases isHead_or_refused_or_ended hV s with
      ⟨v, rest, hhead⟩ | ⟨e', left', hrefused⟩ | ⟨e', left', hended⟩
    · rw [run_readHead_of_isHead hhead] at h
      cases h
    · rw [run_readHead_of_refused hrefused] at h
      cases h
      exact .inl hrefused
    · rw [run_readHead_of_ended hended] at h
      cases h
      exact .inr hended
  · rintro (hrefused | hended)
    · exact run_readHead_of_refused hrefused
    · exact run_readHead_of_ended hended

/-- Where a reader returns nothing for an ended stream, the end is a missing field. -/
theorem not_endedHead (hV : V.Exact) {s left : Bytes} {e : StarterError} :
    ¬ EndedHead V protocol identifier s e left := by
  obtain ⟨e', rest, hread⟩ := WireField.exact_nil hV.bools2
  intro hended
  cases hended with
  | variant _ hend _ | identifier _ hend _ _ =>
    rw [hread] at hend
    cases hend

/-- A stream is a head or has a first bad field. -/
theorem isHead_or_refused (hV : V.Exact) (s : Bytes) :
    (∃ v rest, IsHead V protocol identifier version s v rest) ∨
      ∃ e left, Refused V protocol identifier version s e left := by
  rcases isHead_or_refused_or_ended hV.delimited s with hhead | hrefused | ⟨e, left, hended⟩
  · exact .inl hhead
  · exact .inr hrefused
  · exact absurd hended (not_endedHead hV)

/-- The fields up to the magic version do not depend on the other readers. -/
theorem Matched.magicVersion_of {V' : VariableLen} {bytes : Bytes}
    (hmatched : Matched V protocol identifier .magicVersion bytes) :
    Matched V' protocol identifier .magicVersion bytes := by
  cases hmatched with
  | magicVersion hbefore hfield =>
    cases hbefore with
    | magic => exact .magicVersion .magic (V.u16RawBe_read_eq V' ▸ hfield)

/-- A stream that is refused up to its variant is refused by every reader of
strings. -/
theorem Refused.of_not_matched {V' : VariableLen} (hbools2 : V'.bools2 = V.bools2) {s left : Bytes}
    {e : StarterError}
    (hs : ∀ bytes rest, s = bytes ++ rest → ¬ Matched V protocol identifier .variant bytes)
    (h : Refused V protocol identifier version s e left) :
    Refused V' protocol identifier version s e left := by
  cases h with
  | magicMissing hshort => exact .magicMissing hshort
  | magic heq hlength hvalue => exact .magic heq hlength hvalue
  | magicVersionMissing heq hbefore hread =>
    cases hbefore with
    | magic => exact .magicVersionMissing heq .magic (V.u16RawBe_read_eq V' ▸ hread)
  | magicVersion heq hbefore hfield hvalue =>
    cases hbefore with
    | magic => exact .magicVersion heq .magic (V.u16RawBe_read_eq V' ▸ hfield) hvalue
  | variantMissing heq hbefore hread =>
    exact .variantMissing heq hbefore.magicVersion_of (hbools2 ▸ hread)
  | variant heq hbefore hfield hvalue =>
    exact .variant heq hbefore.magicVersion_of (hbools2 ▸ hfield) hvalue
  | identifierMissing heq hbefore _ => exact absurd hbefore (hs _ _ heq)
  | identifier heq hbefore _ _ => exact absurd hbefore (hs _ _ heq)
  | versionMissing heq hbefore _ =>
    cases hbefore with
    | identifier hbefore _ => exact absurd hbefore (hs _ _ (heq.trans (List.append_assoc _ _ _)))
  | version heq hbefore _ _ =>
    cases hbefore with
    | identifier hbefore _ => exact absurd hbefore (hs _ _ (heq.trans (List.append_assoc _ _ _)))

/-- Before the variant has matched, no string is read. -/
theorem run_readHead_of_not_matched (hV : V.Exact) {V' : VariableLen}
    (hbools2 : V'.bools2 = V.bools2) {s : Bytes}
    (hs : ∀ bytes rest, s = bytes ++ rest → ¬ Matched V protocol identifier .variant bytes) :
    (readHead V' protocol identifier version).run s =
      (readHead V protocol identifier version).run s := by
  have hsplit : (∃ v rest, IsHead V protocol identifier version s v rest) ∨
      ∃ e left, Refused V protocol identifier version s e left := isHead_or_refused hV s
  rcases hsplit with ⟨v, rest, bytes, field, heq, hmatched, _⟩ | ⟨e, left, hrefused⟩
  · cases hmatched with
    | identifier hbefore _ => exact absurd hbefore (hs _ _ (heq.trans (List.append_assoc _ _ _)))
  · rw [run_readHead_of_refused hrefused,
      run_readHead_of_refused (hrefused.of_not_matched hbools2 hs)]

end Accepts

/-- How `read_head` reads.

* `accepted_iff`: it returns a version exactly for the heads of the grammar, and
  leaves what follows them.
* `refused_iff`: it fails exactly at the first bad field, and leaves what the
  reader of this field left.
* `unread`: while the variant has not matched, the reader of strings is not used.
* `consulted`: its predicate is called once, on the version that it returns or
  refuses, or not at all.
* `written`: what `write_head` wrote is accepted. -/
structure ReadsHeads (V : VariableLen) (protocol : ProtocolVariant) (identifier : String)
    (version : String → Bool) : Prop where
  accepted_iff : ∀ s n v rest,
    (readHead V protocol identifier version).run s = .ok (n, v) rest ↔
      n = 1 ∧ IsHead V protocol identifier version s v rest
  refused_iff : ∀ s e left,
    (readHead V protocol identifier version).run s = .error e left ↔
      Refused V protocol identifier version s e left
  unread : ∀ (V' : VariableLen) (s : Bytes), V'.bools2 = V.bools2 →
    (∀ bytes rest, s = bytes ++ rest → ¬ Matched V protocol identifier .variant bytes) →
    (readHead V' protocol identifier version).run s =
      (readHead V protocol identifier version).run s
  consulted : ∀ {σ : Type} (closure : String → σ → Bool × σ) (t : σ),
    (∀ v, (closure v t).1 = version v) → ∀ s,
      (readHeadWith V protocol identifier closure).run (s, t) =
        consulted closure t ((readHead V protocol identifier version).run s)
  written : ∀ v rest, version v = true →
    (readHead V protocol identifier version).run
      (((writeHead V protocol identifier v : Io Bytes StarterError Unit).outcome []).2 ++ rest) =
        .ok (1, v) rest

/-- `read_head` accepts exactly the heads of its grammar. -/
theorem readHead_readsHeads {V : VariableLen} (hV : V.Exact) (protocol : ProtocolVariant)
    (identifier : String) (version : String → Bool) :
    ReadsHeads V protocol identifier version where
  accepted_iff _ _ _ _ := run_readHead_eq_ok_iff hV.delimited
  refused_iff _ _ _ :=
    (run_readHead_eq_error_iff hV.delimited).trans (or_iff_left (not_endedHead hV))
  unread _ _ hbools2 hs := run_readHead_of_not_matched hV hbools2 hs
  consulted closure t hclosure s := by
    have hversion : (fun v => (closure v t).1) = version := funext hclosure
    rw [run_readHeadWith, hversion]
  written v rest hversion := by
    have hwritten :
        ((writeHead V protocol identifier v : Io Bytes StarterError Unit).outcome []).2 =
        head V protocol identifier v := by
      rw [writeHead_eq, Io.outcome, Io.run_mapError, run_writeChunks_bytes, List.nil_append]
      rfl
    rw [hwritten, run_readHead_head, if_pos rfl, if_pos rfl, if_pos hversion]
    rfl

/-- A server of `encrypt` whose versions begin with `0`. -/
theorem readHead_readsHeads_reference :
    ReadsHeads Reference.variableLen.opened .encryption "test" (·.startsWith "0") :=
  readHead_readsHeads Reference.variableLen_opened_exact _ _ _

end TcpHandler.Handshake
