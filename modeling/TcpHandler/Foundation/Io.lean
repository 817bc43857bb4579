/-
  Foundation/Io.lean --- fallible calls on a state, byte streams, field codecs.

  A call of an asynchronous program is modelled by its effect: it turns the
  state it works on into a new one and returns a value or an error.  The effect
  of a failing call stays: the bytes it read are gone, the bytes it wrote are
  written.  `Io` is that reading of a call, and the only one used below.

  Two kinds of state occur.  A reader is the list of bytes that are still to
  come; reading past its end is `unexpectedEof`.  A writer is anything with
  `AsyncWrite`; the list of bytes written so far is one (a reliable stream), a
  buffered writer is another.

  A `WireField` is one unit of a wire format: how a value is written, chunk by
  chunk, and how it is read back.  The round trip is a field of the structure,
  so that a field without it cannot be built.
-/
import Mathlib.Logic.Nontrivial.Basic

set_option autoImplicit false

namespace TcpHandler.Foundation

/-- A byte string. -/
abbrev Bytes : Type := List UInt8

/-- A call that works on a state `σ` and returns an `α` or fails with an `ε`.
The state after a failing call is kept. -/
abbrev Io (σ ε α : Type) : Type := EStateM ε σ α

/-- The kinds of `std::io::Error` that the model tells apart. -/
inductive IoError where
  /-- the stream ended before the requested number of bytes -/
  | unexpectedEof
  /-- bytes that no value encodes to -/
  | invalidData
  /-- the transport failed -/
  | brokenPipe
  deriving DecidableEq, Repr

namespace Io

variable {σ τ ε ε' ε'' α β : Type}

/-- Rename the error of a call; the effect is untouched (`?` with `From`). -/
def mapError (f : ε → ε') (x : Io σ ε α) : Io σ ε' α := fun s =>
  match x.run s with
  | .ok a s' => .ok a s'
  | .error e s' => .error (f e) s'

/-- Return a result that is already there. -/
def ofExcept : Except ε α → Io σ ε α
  | .ok a => pure a
  | .error e => throw e

/-- Run a call and keep its result, whatever it is (a call without `?`). -/
def attempt (x : Io σ ε α) : Io σ ε' (Except ε α) := fun s =>
  match x.run s with
  | .ok a s' => .ok (.ok a) s'
  | .error e s' => .ok (.error e) s'

/-- Go on if `c` holds, else fail. -/
def ensure (c : Prop) [Decidable c] (e : ε) : Io σ ε Unit :=
  if c then pure () else throw e

/-- A call on the first half of a pair of states. -/
def onFst (x : Io σ ε α) : Io (σ × τ) ε α := fun s =>
  match x.run s.1 with
  | .ok a s' => .ok a (s', s.2)
  | .error e s' => .error e (s', s.2)

/-- A call on the second half of a pair of states. -/
def onSnd (x : Io τ ε α) : Io (σ × τ) ε α := fun s =>
  match x.run s.2 with
  | .ok a s' => .ok a (s.1, s')
  | .error e s' => .error e (s.1, s')

/-- The result of a call and the state it leaves. -/
def outcome (x : Io σ ε α) (s : σ) : Except ε α × σ :=
  match x.run s with
  | .ok a s' => (.ok a, s')
  | .error e s' => (.error e, s')

theorem outcome_of_ok {x : Io σ ε α} {s s' : σ} {a : α} (h : x.run s = .ok a s') :
    x.outcome s = (.ok a, s') := by
  simp [outcome, h]

theorem outcome_of_error {x : Io σ ε α} {s s' : σ} {e : ε} (h : x.run s = .error e s') :
    x.outcome s = (.error e, s') := by
  simp [outcome, h]

theorem run_of_outcome_error {x : Io σ ε α} {s s' : σ} {e : ε} (h : x.outcome s = (.error e, s')) :
    x.run s = .error e s' := by
  rw [outcome] at h
  cases hrun : x.run s with
  | ok a t => simp [hrun] at h
  | error e' t =>
    rw [hrun] at h
    cases h
    rfl

theorem outcome_fst_eq_ok {x : Io σ ε α} {s : σ} {a : α} :
    (x.outcome s).1 = .ok a ↔ ∃ s', x.run s = .ok a s' := by
  rw [outcome]
  cases x.run s <;> simp

@[simp] theorem run_mapError (f : ε → ε') (x : Io σ ε α) (s : σ) :
    (mapError f x).run s =
      match x.run s with
      | .ok a s' => .ok a s'
      | .error e s' => .error (f e) s' := rfl

@[simp] theorem run_ofExcept_ok (a : α) (s : σ) :
    (ofExcept (.ok a) : Io σ ε α).run s = .ok a s := rfl

@[simp] theorem run_ofExcept_error (e : ε) (s : σ) :
    (ofExcept (.error e) : Io σ ε α).run s = .error e s := rfl

@[simp] theorem run_attempt (x : Io σ ε α) (s : σ) :
    (attempt x : Io σ ε' (Except ε α)).run s =
      match x.run s with
      | .ok a s' => .ok (.ok a) s'
      | .error e s' => .ok (.error e) s' := rfl

@[simp] theorem run_ensure (c : Prop) [Decidable c] (e : ε) (s : σ) :
    (ensure c e).run s = if c then .ok () s else .error e s := by
  unfold ensure
  split <;> rfl

@[simp] theorem run_throw (e : ε) (s : σ) :
    (throw e : Io σ ε α).run s = .error e s := rfl

@[simp] theorem run_onFst (x : Io σ ε α) (s : σ) (t : τ) :
    (onFst x).run (s, t) =
      match x.run s with
      | .ok a s' => .ok a (s', t)
      | .error e s' => .error e (s', t) := rfl

@[simp] theorem run_onSnd (x : Io τ ε α) (s : σ) (t : τ) :
    (onSnd x).run (s, t) =
      match x.run t with
      | .ok a t' => .ok a (s, t')
      | .error e t' => .error e (s, t') := rfl

@[simp] theorem mapError_pure (f : ε → ε') (a : α) :
    mapError f (pure a : Io σ ε α) = pure a := rfl

/-- Renaming errors commutes with sequencing. -/
theorem mapError_bind (f : ε → ε') (x : Io σ ε α) (k : α → Io σ ε β) :
    mapError f (x >>= k) = mapError f x >>= fun a => mapError f (k a) := by
  funext s
  show (mapError f (x >>= k)).run s = (mapError f x >>= fun a => mapError f (k a)).run s
  simp only [run_mapError, EStateM.run_bind]
  cases x.run s <;> rfl

@[simp] theorem onFst_pure (a : α) : onFst (pure a : Io σ ε α) = (pure a : Io (σ × τ) ε α) := rfl

@[simp] theorem onSnd_pure (a : α) : onSnd (pure a : Io τ ε α) = (pure a : Io (σ × τ) ε α) := rfl

theorem onFst_bind (x : Io σ ε α) (k : α → Io σ ε β) :
    (onFst (x >>= k) : Io (σ × τ) ε β) = onFst x >>= fun a => onFst (k a) := by
  funext ⟨s, t⟩
  show (onFst (x >>= k)).run (s, t) = (onFst x >>= fun a => onFst (k a)).run (s, t)
  simp only [run_onFst, EStateM.run_bind]
  cases x.run s <;> rfl

theorem onSnd_bind (x : Io τ ε α) (k : α → Io τ ε β) :
    (onSnd (x >>= k) : Io (σ × τ) ε β) = onSnd x >>= fun a => onSnd (k a) := by
  funext ⟨s, t⟩
  show (onSnd (x >>= k)).run (s, t) = (onSnd x >>= fun a => onSnd (k a)).run (s, t)
  simp only [run_onSnd, EStateM.run_bind]
  cases x.run t <;> rfl

/-- What a sequence of two calls returned came from both. -/
theorem run_bind_eq_ok {x : Io σ ε α} {k : α → Io σ ε β} {s s' : σ} {b : β} :
    (x >>= k).run s = .ok b s' ↔
      ∃ a t, x.run s = .ok a t ∧ (k a).run t = .ok b s' := by
  rw [EStateM.run_bind]
  cases x.run s with
  | ok a t =>
    constructor
    · intro h
      exact ⟨a, t, rfl, h⟩
    · rintro ⟨a', t', hx, hk⟩
      injection hx with ha ht
      subst ha ht
      exact hk
  | error e t => simp

/-- What a sequence of two calls failed with came from one of them. -/
theorem run_bind_eq_error {x : Io σ ε α} {k : α → Io σ ε β} {s s' : σ} {e : ε} :
    (x >>= k).run s = .error e s' ↔
      x.run s = .error e s' ∨ ∃ a t, x.run s = .ok a t ∧ (k a).run t = .error e s' := by
  rw [EStateM.run_bind]
  cases x.run s with
  | ok a t =>
    constructor
    · exact fun h => .inr ⟨a, t, rfl, h⟩
    · rintro (h | ⟨a', t', hx, hk⟩)
      · cases h
      · cases hx
        exact hk
  | error e' t => simp

theorem run_bind_of_ok {x : Io σ ε α} {s t : σ} {a : α} (h : x.run s = .ok a t)
    (k : α → Io σ ε β) : (x >>= k).run s = (k a).run t := by
  rw [EStateM.run_bind, h]

theorem run_bind_of_error {x : Io σ ε α} {s t : σ} {e : ε} (h : x.run s = .error e t)
    (k : α → Io σ ε β) : (x >>= k).run s = .error e t := by
  rw [EStateM.run_bind, h]

theorem run_mapError_of_ok {f : ε → ε'} {x : Io σ ε α} {s t : σ} {a : α}
    (h : x.run s = .ok a t) : (mapError f x).run s = .ok a t := by
  rw [run_mapError, h]

theorem run_mapError_of_error {f : ε → ε'} {x : Io σ ε α} {s t : σ} {e : ε}
    (h : x.run s = .error e t) : (mapError f x).run s = .error (f e) t := by
  rw [run_mapError, h]

theorem outcome_bind_pure (x : Io σ ε α) (f : α → β) (s : σ) :
    (x >>= fun a => pure (f a)).outcome s = ((x.outcome s).1.map f, (x.outcome s).2) := by
  rw [outcome, EStateM.run_bind, outcome]
  cases x.run s <;> rfl

/-- A call on the first state whose result is handed to a call on the second. -/
theorem outcome_onFst_onSnd (x : Io σ ε α) (k : Except ε α → Io τ ε' β) (s : σ) (t : τ) :
    (attempt (onFst x) >>= fun result => onSnd (k result)).outcome (s, t) =
      (((k (x.outcome s).1).outcome t).1,
        ((x.outcome s).2, ((k (x.outcome s).1).outcome t).2)) := by
  simp only [outcome, EStateM.run_bind, run_attempt, run_onFst]
  cases x.run s with
  | ok a s' =>
    simp only [run_onSnd]
    cases (k (.ok a)).run t <;> rfl
  | error e s' =>
    simp only [run_onSnd]
    cases (k (.error e)).run t <;> rfl

/-- A call on the second state whose result is handed to a call on the first. -/
theorem outcome_onSnd_onFst (x : Io τ ε α) (k : Except ε α → Io σ ε' β) (s : σ) (t : τ) :
    (attempt (onSnd x) >>= fun result => onFst (k result)).outcome (s, t) =
      (((k (x.outcome t).1).outcome s).1,
        (((k (x.outcome t).1).outcome s).2, (x.outcome t).2)) := by
  simp only [outcome, EStateM.run_bind, run_attempt, run_onSnd]
  cases x.run t with
  | ok a t' =>
    simp only [run_onFst]
    cases (k (.ok a)).run s <;> rfl
  | error e t' =>
    simp only [run_onFst]
    cases (k (.error e)).run s <;> rfl

/-- A renamed call succeeds exactly when the call does. -/
theorem run_mapError_eq_ok {f : ε → ε'} {x : Io σ ε α} {s s' : σ} {a : α} :
    (mapError f x).run s = .ok a s' ↔ x.run s = .ok a s' := by
  rw [run_mapError]
  cases x.run s <;> simp

/-- A renamed call fails with a renamed error. -/
theorem run_mapError_eq_error {f : ε → ε'} {x : Io σ ε α} {s s' : σ} {e : ε'} :
    (mapError f x).run s = .error e s' ↔ ∃ e', x.run s = .error e' s' ∧ e = f e' := by
  rw [run_mapError]
  cases x.run s with
  | ok a t => simp
  | error e' t =>
    constructor
    · intro h
      cases h
      exact ⟨e', rfl, rfl⟩
    · rintro ⟨_, h, rfl⟩
      cases h
      rfl

end Io

/-! ## Streams -/

/-- What the model uses of `tokio::io::AsyncWrite`. -/
class AsyncWrite (W : Type) where
  /-- write the whole slice -/
  writeMore : Bytes → Io W IoError Unit
  /-- pass on what is buffered -/
  flush : Io W IoError Unit

export AsyncWrite (writeMore)

/-- A reliable stream: every byte written is delivered, in order. -/
instance : AsyncWrite Bytes where
  writeMore chunk := modify (· ++ chunk)
  flush := pure ()

@[simp] theorem run_writeMore_bytes (chunk w : Bytes) :
    (writeMore chunk : Io Bytes IoError Unit).run w = .ok () (w ++ chunk) := rfl

@[simp] theorem run_flush_bytes (w : Bytes) :
    (AsyncWrite.flush : Io Bytes IoError Unit).run w = .ok () w := rfl

/-- Write several slices, one after the other. -/
def writeChunks {W : Type} [AsyncWrite W] : List Bytes → Io W IoError Unit
  | [] => pure ()
  | chunk :: rest => do
      writeMore chunk
      writeChunks rest

@[simp] theorem writeChunks_nil {W : Type} [AsyncWrite W] :
    (writeChunks [] : Io W IoError Unit) = pure () := rfl

theorem writeChunks_singleton {W : Type} [AsyncWrite W] (chunk : Bytes) :
    (writeChunks [chunk] : Io W IoError Unit) = writeMore chunk := by
  simp only [writeChunks]
  exact bind_pure _

theorem writeChunks_append {W : Type} [AsyncWrite W] (xs ys : List Bytes) :
    (writeChunks (xs ++ ys) : Io W IoError Unit) =
      (writeChunks xs >>= fun _ => writeChunks ys) := by
  induction xs with
  | nil => simp
  | cons chunk rest ih => simp [writeChunks, ih]

@[simp] theorem run_writeChunks_bytes (chunks : List Bytes) (w : Bytes) :
    (writeChunks chunks : Io Bytes IoError Unit).run w = .ok () (w ++ chunks.flatten) := by
  induction chunks generalizing w with
  | nil => simp [writeChunks]
  | cons chunk rest ih => simp [writeChunks, ih]

/-- Read exactly `n` bytes.  A stream that ends earlier is used up. -/
def readExactly (n : Nat) : Io Bytes IoError Bytes := fun s =>
  if n ≤ s.length then .ok (s.take n) (s.drop n) else .error .unexpectedEof []

theorem run_readExactly (n : Nat) (s : Bytes) :
    (readExactly n).run s =
      if n ≤ s.length then .ok (s.take n) (s.drop n) else .error .unexpectedEof [] := rfl

@[simp] theorem run_readExactly_append (bytes rest : Bytes) :
    (readExactly bytes.length).run (bytes ++ rest) = .ok bytes rest := by
  simp [run_readExactly]

theorem run_readExactly_of_lt {n : Nat} {s : Bytes} (h : s.length < n) :
    (readExactly n).run s = .error .unexpectedEof [] := by
  simp [run_readExactly, Nat.not_le.mpr h]

theorem run_readExactly_eq_ok {n : Nat} {s bytes rest : Bytes} :
    (readExactly n).run s = .ok bytes rest ↔ s = bytes ++ rest ∧ bytes.length = n := by
  constructor
  · intro h
    rw [run_readExactly] at h
    split at h
    · rename_i hle
      injection h with hbytes hrest
      subst hbytes hrest
      exact ⟨(List.take_append_drop n s).symm, by simp [hle]⟩
    · simp at h
  · rintro ⟨rfl, rfl⟩
    exact run_readExactly_append bytes rest

/-! ## Fields -/

/-- One unit of a wire format. -/
structure WireField (α : Type) where
  /-- the slices a writer is given for a value, in order -/
  writes : α → List Bytes
  /-- the reader of the field -/
  read : Io Bytes IoError α
  /-- reading undoes writing and consumes exactly the bytes written -/
  read_writes : ∀ (a : α) (rest : Bytes), read.run ((writes a).flatten ++ rest) = .ok a rest

namespace WireField

variable {α : Type}

/-- The bytes of a value on the wire. -/
def encode (f : WireField α) (a : α) : Bytes := (f.writes a).flatten

/-- Write a value. -/
def write {W : Type} [AsyncWrite W] (f : WireField α) (a : α) : Io W IoError Unit :=
  writeChunks (f.writes a)

@[simp] theorem run_read_encode (f : WireField α) (a : α) (rest : Bytes) :
    f.read.run (f.encode a ++ rest) = .ok a rest := f.read_writes a rest

@[simp] theorem run_write_bytes (f : WireField α) (a : α) (w : Bytes) :
    (f.write a : Io Bytes IoError Unit).run w = .ok () (w ++ f.encode a) :=
  run_writeChunks_bytes _ _

/-- The last field of a stream. -/
@[simp] theorem run_read_encode_end (f : WireField α) (a : α) :
    f.read.run (f.encode a) = .ok a [] := by
  have h := f.run_read_encode a []
  rwa [List.append_nil] at h

/-- A prefix code: no encoding followed by anything is another encoding
followed by anything. -/
theorem encode_append_inj (f : WireField α) {a b : α} {r s : Bytes}
    (h : f.encode a ++ r = f.encode b ++ s) : a = b ∧ r = s := by
  have ha := f.run_read_encode a r
  rw [h, f.run_read_encode b s] at ha
  injection ha with hab hrs
  exact ⟨hab.symm, hrs.symm⟩

/-- Every encoding takes at least one byte. -/
theorem encode_ne_nil [Nontrivial α] (f : WireField α) (a : α) : f.encode a ≠ [] := by
  intro hnil
  obtain ⟨b, hb⟩ := exists_ne a
  have h : f.encode a ++ f.encode b = f.encode b ++ [] := by
    rw [hnil, List.append_nil, List.nil_append]
  exact hb (f.encode_append_inj h).1.symm

/-- The reader fails on every proper prefix of an encoding: the stream ended
inside the field. -/
def FailsWhenCut (f : WireField α) : Prop :=
  ∀ (a : α) (cut : Bytes), cut <+: f.encode a → cut ≠ f.encode a →
    ∃ e rest, f.read.run cut = .error e rest

end WireField

end TcpHandler.Foundation
