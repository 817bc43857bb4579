/-
  Foundation/Arrival.lean --- streams that arrive in pieces.

  A transport delivers a stream in pieces of any size.  A reader that needs more
  bytes than have arrived waits for them as long as the stream is open, and does
  without when the stream has ended.  Here these are two runs on the bytes that
  have arrived: that of a reader of the open stream, which reports the end of the
  stream where it waits, and that of a reader of the ended one.  Most readers
  report the end where they would have waited, and the two are the same; a reader
  that takes the end of the stream for a value is not (`WireField.opened`).

  `Patient x`: where `x` waits it has used up the stream, and otherwise bytes that
  arrive later change nothing about what it did.

  `Awaits x y`: `x` is a patient reader that does what `y` does, or waits.

      Awaits.bind           both compose
      Awaits.of_pieces      a stream in pieces is read as the whole stream
      Patient.ends_of_cut   on a part of bytes it takes, a patient reader waits
-/
import TcpHandler.Foundation.Reading

set_option autoImplicit false

namespace TcpHandler.Foundation

/-- The errors that report the end of a stream. -/
class StreamEnd (ε : Type) where
  isEnd : ε → Bool

export StreamEnd (isEnd)

instance : StreamEnd IoError where
  isEnd
    | .unexpectedEof => true
    | _ => false

instance {ε ε' : Type} [StreamEnd ε] [StreamEnd ε'] : StreamEnd (ε ⊕ ε') where
  isEnd := Sum.elim isEnd isEnd

namespace Io

variable {ε ε' α β : Type} [StreamEnd ε] [StreamEnd ε']

/-- `x` reports the end of the stream `s`. -/
def ends (x : Io Bytes ε α) (s : Bytes) : Bool :=
  match x.run s with
  | .ok _ _ => false
  | .error e _ => isEnd e

/-- What a call did, with more bytes behind those it left. -/
def followedBy (t : Bytes) : EStateM.Result ε Bytes α → EStateM.Result ε Bytes α
  | .ok a left => .ok a (left ++ t)
  | .error e left => .error e (left ++ t)

/-- Read what has arrived, with `x` while there are more pieces and with `y` behind
the last one.  As long as `x` waits, the next piece arrives.  The pieces that have
not arrived are returned with the result. -/
def await (x y : Io Bytes ε α) : Bytes → List Bytes → EStateM.Result ε Bytes α × List Bytes
  | s, [] => (y.run s, [])
  | s, piece :: pieces =>
      if ends x s then await x y (s ++ piece) pieces else (x.run s, piece :: pieces)

/-- What is returned and what is left do not depend on the pieces a stream arrives
in. -/
def Unsegmented (x y : Io Bytes ε α) : Prop :=
  ∀ s pieces, followedBy (await x y s pieces).2.flatten (await x y s pieces).1 =
    y.run (s ++ pieces.flatten)

/-- A reader whose result does not depend on how its stream arrives.

* `usedUp`: it reports the end of the stream at its end.
* `returns`, `fails`: whatever else it does, it does on every longer stream. -/
structure Patient (x : Io Bytes ε α) : Prop where
  usedUp : ∀ {s e left}, x.run s = .error e left → isEnd e = true → left = []
  returns : ∀ {s a left}, x.run s = .ok a left → ∀ t, x.run (s ++ t) = .ok a (left ++ t)
  fails : ∀ {s e left}, x.run s = .error e left → isEnd e = false →
    ∀ t, x.run (s ++ t) = .error e (left ++ t)

/-- `x` is what `y` does on a stream that is open: it waits, or it does what `y`
does. -/
structure Awaits (x y : Io Bytes ε α) : Prop extends Patient x where
  agrees : ∀ {s}, ends x s = false → y.run s = x.run s

omit [StreamEnd ε] in
@[simp] theorem followedBy_nil (r : EStateM.Result ε Bytes α) : followedBy [] r = r := by
  cases r <;> simp [followedBy]

section Patient

variable {x : Io Bytes ε α} {k : α → Io Bytes ε β} {s : Bytes}

theorem ends_eq_true : ends x s = true ↔ ∃ e left, x.run s = .error e left ∧ isEnd e = true := by
  unfold ends
  cases x.run s <;> simp

/-- A reader that does not wait does the same on every longer stream. -/
theorem Patient.run_append (hx : Patient x) (h : ends x s = false) (t : Bytes) :
    x.run (s ++ t) = followedBy t (x.run s) := by
  unfold ends at h
  cases hrun : x.run s with
  | ok a left => exact hx.returns hrun t
  | error e left =>
    rw [hrun] at h
    exact hx.fails hrun h t

theorem Patient.ends_append (hx : Patient x) (h : ends x s = false) (t : Bytes) :
    ends x (s ++ t) = false := by
  unfold ends at h ⊢
  cases hrun : x.run s with
  | ok a left => rw [hx.returns hrun t]
  | error e left =>
    rw [hrun] at h
    rw [hx.fails hrun h t]
    exact h

/-- A reader that waits has used up what has arrived. -/
theorem Patient.run_of_ends (hx : Patient x) (h : ends x s = true) :
    ∃ e, x.run s = .error e [] ∧ isEnd e = true := by
  obtain ⟨e, left, hrun, he⟩ := ends_eq_true.mp h
  rw [hx.usedUp hrun he] at hrun
  exact ⟨e, hrun, he⟩

/-- Of a reader that would wait, bytes that arrive later change nothing in what is
read of the ended stream. -/
theorem Awaits.run_append {y : Io Bytes ε α} (h : Awaits x y) (hends : ends x s = false)
    (t : Bytes) : y.run (s ++ t) = followedBy t (x.run s) := by
  rw [h.agrees (h.ends_append hends t)]
  exact h.toPatient.run_append hends t

/-- A stream in any pieces is read as the whole stream. -/
theorem Awaits.of_pieces {y : Io Bytes ε α} (h : Awaits x y) : Unsegmented x y := by
  intro s pieces
  induction pieces generalizing s with
  | nil => simp [await]
  | cons piece pieces ih =>
    rw [await]
    cases hends : ends x s with
    | true => rw [if_pos rfl, ih, List.flatten_cons, List.append_assoc]
    | false =>
      rw [if_neg Bool.false_ne_true]
      exact (h.run_append hends _).symm

/-- On a part of the bytes that it takes, a reader waits for the others. -/
theorem Patient.ends_of_cut (hx : Patient x) {bytes cut : Bytes} {a : α} (htakes : Takes x bytes a)
    (hpre : cut <+: bytes) (hne : cut ≠ bytes) : ends x cut = true := by
  by_contra h
  obtain ⟨t, rfl⟩ := hpre
  have hwhole := htakes []
  rw [List.append_nil, hx.run_append (Bool.not_eq_true _ ▸ h)] at hwhole
  have ht : t = [] := by
    cases hrun : x.run cut with
    | ok a' left =>
      rw [hrun] at hwhole
      simp only [followedBy, EStateM.Result.ok.injEq, List.append_eq_nil_iff] at hwhole
      exact hwhole.2.2
    | error e left =>
      rw [hrun] at hwhole
      cases hwhole
  exact hne (by rw [ht, List.append_nil])

/-! ## Patient readers -/

theorem patient_pure (a : α) : Patient (pure a : Io Bytes ε α) where
  usedUp h := by cases h
  returns h t := by
    cases h
    rfl
  fails h := by cases h

theorem patient_throw {e : ε} (he : isEnd e = false) : Patient (throw e : Io Bytes ε α) where
  usedUp h he' := by
    cases h
    rw [he] at he'
    cases he'
  returns h := by cases h
  fails h _ t := by
    cases h
    rfl

theorem patient_ofExcept {result : Except ε α} (h : ∀ e, result = .error e → isEnd e = false) :
    Patient (ofExcept result) := by
  cases result with
  | ok a => exact patient_pure a
  | error e => exact patient_throw (h e rfl)

theorem patient_ensure {c : Prop} [Decidable c] {e : ε} (he : isEnd e = false) :
    Patient (ensure c e) := by
  unfold ensure
  split
  · exact patient_pure ()
  · exact patient_throw he

/-- Patient readers compose. -/
theorem Patient.bind (hx : Patient x) (hk : ∀ a, Patient (k a)) : Patient (x >>= k) where
  usedUp h he := by
    rcases run_bind_eq_error.mp h with hfirst | ⟨a, s', _, hsecond⟩
    · exact hx.usedUp hfirst he
    · exact (hk a).usedUp hsecond he
  returns h t := by
    obtain ⟨a, s', hfirst, hsecond⟩ := run_bind_eq_ok.mp h
    rw [run_bind_of_ok (hx.returns hfirst t)]
    exact (hk a).returns hsecond t
  fails h he t := by
    rcases run_bind_eq_error.mp h with hfirst | ⟨a, s', hfirst, hsecond⟩
    · exact run_bind_of_error (hx.fails hfirst he t) k
    · rw [run_bind_of_ok (hx.returns hfirst t)]
      exact (hk a).fails hsecond he t

theorem Patient.mapError (hx : Patient x) (f : ε → ε') (hf : ∀ e, isEnd (f e) = isEnd e) :
    Patient (mapError f x) where
  usedUp h he := by
    obtain ⟨e, hrun, rfl⟩ := run_mapError_eq_error.mp h
    exact hx.usedUp hrun ((hf e).symm.trans he)
  returns h t := run_mapError_of_ok (hx.returns (run_mapError_eq_ok.mp h) t)
  fails h he t := by
    obtain ⟨e, hrun, rfl⟩ := run_mapError_eq_error.mp h
    exact run_mapError_of_error (hx.fails hrun ((hf e).symm.trans he) t)

end Patient

/-! ## Open and ended streams -/

section Awaits

variable {x y : Io Bytes ε α} {k l : α → Io Bytes ε β}

/-- A reader that reports the end of the stream where it waits. -/
theorem Patient.awaits (hx : Patient x) : Awaits x x where
  toPatient := hx
  agrees _ := rfl

/-- One reader after the other. -/
theorem Awaits.bind (hx : Awaits x y) (hk : ∀ a, Awaits (k a) (l a)) :
    Awaits (x >>= k) (y >>= l) where
  toPatient := hx.toPatient.bind fun a => (hk a).toPatient
  agrees {s} hends := by
    rw [ends, EStateM.run_bind] at hends
    rw [EStateM.run_bind, EStateM.run_bind]
    cases hrun : x.run s with
    | ok a t =>
      rw [hrun] at hends
      rw [hx.agrees (by rw [ends, hrun]), hrun]
      exact (hk a).agrees hends
    | error e t =>
      rw [hrun] at hends
      rw [hx.agrees (by rw [ends, hrun]; exact hends), hrun]

theorem Awaits.mapError (hx : Awaits x y) (f : ε → ε') (hf : ∀ e, isEnd (f e) = isEnd e) :
    Awaits (mapError f x) (mapError f y) where
  toPatient := hx.toPatient.mapError f hf
  agrees {s} hends := by
    have hsame : ends x s = false := by
      rw [ends, run_mapError] at hends
      rw [ends]
      cases hrun : x.run s with
      | ok a t => rfl
      | error e t =>
        rw [hrun] at hends
        exact (hf e).symm.trans hends
    rw [run_mapError, run_mapError, hx.agrees hsame]

theorem awaits_mapM {f g : β → Io Bytes ε α} (hf : ∀ b, Awaits (f b) (g b)) (bs : List β) :
    Awaits (bs.mapM f) (bs.mapM g) := by
  induction bs with
  | nil =>
    rw [List.mapM_nil, List.mapM_nil]
    exact (patient_pure []).awaits
  | cons b bs ih =>
    rw [List.mapM_cons, List.mapM_cons]
    exact (hf b).bind fun a => ih.bind fun as => (patient_pure (a :: as)).awaits

end Awaits

theorem patient_readExactly (n : Nat) : Patient (readExactly n) where
  usedUp h _ := by
    rw [run_readExactly] at h
    split at h
    · cases h
    · cases h
      rfl
  returns h t := by
    obtain ⟨rfl, rfl⟩ := run_readExactly_eq_ok.mp h
    rw [List.append_assoc]
    exact run_readExactly_append _ _
  fails h he := by
    rw [run_readExactly] at h
    split at h
    · cases h
    · cases h
      cases he

end Io

namespace WireField

variable {α : Type} [Nontrivial α]

/-- The field on a stream that is open: before its first byte the reader waits,
whatever it makes of a stream that has ended. -/
def opened (f : WireField α) : WireField α where
  writes := f.writes
  read := fun s => if s.isEmpty then .error .unexpectedEof [] else f.read.run s
  read_writes a rest := by
    have hne : (f.encode a ++ rest).isEmpty = false := by
      rw [List.isEmpty_eq_false_iff]
      exact fun hnil => f.encode_ne_nil a (List.append_eq_nil_iff.mp hnil).1
    show (if (f.encode a ++ rest).isEmpty then _ else _) = _
    rw [hne]
    exact f.run_read_encode a rest

@[simp] theorem run_opened_nil (f : WireField α) :
    f.opened.read.run [] = .error .unexpectedEof [] := rfl

theorem run_opened (f : WireField α) {s : Bytes} (h : s ≠ []) :
    f.opened.read.run s = f.read.run s := by
  show (if s.isEmpty then _ else _) = _
  rw [List.isEmpty_eq_false_iff.mpr h]
  rfl

/-- Of no bytes at all the reader returns nothing that it took. -/
theorem takes_ne_nil {f : WireField α} {bytes : Bytes} {a : α} (h : Io.Takes f.read bytes a) :
    bytes ≠ [] := by
  rintro rfl
  obtain ⟨b, hb⟩ := exists_ne a
  have hread := h (f.encode b)
  rw [List.nil_append, f.run_read_encode_end b] at hread
  injection hread with hba
  exact hb hba

/-- The bytes of a field are the same on both streams. -/
theorem takes_opened {f : WireField α} {bytes : Bytes} {a : α} :
    Io.Takes f.opened.read bytes a ↔ Io.Takes f.read bytes a := by
  have hne : bytes ≠ [] → ∀ rest,
      f.opened.read.run (bytes ++ rest) = f.read.run (bytes ++ rest) :=
    fun hbytes rest => f.run_opened fun hnil => hbytes (List.append_eq_nil_iff.mp hnil).1
  constructor
  · intro h rest
    rw [← hne (takes_ne_nil h)]
    exact h rest
  · intro h rest
    rw [hne (takes_ne_nil h)]
    exact h rest

/-- An exact reader returns nothing for a stream that has ended. -/
theorem exact_nil {f : WireField α} (h : Io.Exact f.read) :
    ∃ e left, f.read.run [] = .error e left := by
  rcases h.takes_or_error [] with ⟨bytes, a, rest, hs, htakes⟩ | hread
  · exact absurd (List.append_eq_nil_iff.mp hs.symm).1 (takes_ne_nil htakes)
  · exact hread

theorem exact_opened {f : WireField α} (h : Io.Exact f.read) : Io.Exact f.opened.read := by
  intro s a rest hread
  have hne : s ≠ [] := by
    rintro rfl
    cases hread
  rw [f.run_opened hne] at hread
  obtain ⟨bytes, hs, htakes⟩ := h s a rest hread
  exact ⟨bytes, hs, takes_opened.mpr htakes⟩

/-- A reader of an ended stream, and the same reader while the stream is open. -/
theorem awaits_opened {f : WireField α} (h : Io.Patient f.opened.read) :
    Io.Awaits f.opened.read f.read where
  toPatient := h
  agrees {s} hends := by
    refine (f.run_opened ?_).symm
    rintro rfl
    rw [Io.ends, run_opened_nil] at hends
    cases hends

end WireField

end TcpHandler.Foundation
