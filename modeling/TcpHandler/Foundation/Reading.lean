/-
  Foundation/Reading.lean --- what a reader takes from a stream.

  `Takes x bytes a`: on every stream that begins with `bytes`, the reader `x`
  returns `a` and leaves what follows them.  Bytes that are taken decide what is
  returned, and nothing behind them was looked at.

  `Exact x`: whatever `x` returns, it returns for bytes it took.

  `Notices E x bytes`: when the stream ends inside `bytes`, `x` fails with one of
  the errors `E`.

  All three pass from readers to sequences of readers, so that a format has them
  when its fields do.
-/
import Mathlib.Data.List.TakeDrop
import TcpHandler.Foundation.Io

set_option autoImplicit false

namespace TcpHandler.Foundation

namespace Io

variable {ε ε' α β : Type}

/-- `x` takes `bytes` for `a`, whatever follows them. -/
def Takes (x : Io Bytes ε α) (bytes : Bytes) (a : α) : Prop :=
  ∀ rest, x.run (bytes ++ rest) = .ok a rest

/-- `x` returns nothing but what it takes. -/
def Exact (x : Io Bytes ε α) : Prop :=
  ∀ s a rest, x.run s = .ok a rest → ∃ bytes, s = bytes ++ rest ∧ Takes x bytes a

/-- `x` fails, with an error of `E`, when the stream ends inside `bytes`. -/
def Notices (E : ε → Prop) (x : Io Bytes ε α) (bytes : Bytes) : Prop :=
  ∀ cut, cut <+: bytes → cut ≠ bytes → ∃ e left, x.run cut = .error e left ∧ E e

/-! ## Bytes that are taken -/

theorem takes_pure (a : α) : Takes (pure a : Io Bytes ε α) [] a := fun _ => rfl

theorem Takes.bind {x : Io Bytes ε α} {k : α → Io Bytes ε β} {bytes bytes' : Bytes} {a : α} {b : β}
    (hx : Takes x bytes a) (hk : Takes (k a) bytes' b) : Takes (x >>= k) (bytes ++ bytes') b := by
  intro rest
  rw [List.append_assoc, run_bind_of_ok (hx _)]
  exact hk rest

theorem Takes.mapError {x : Io Bytes ε α} {bytes : Bytes} {a : α} (hx : Takes x bytes a)
    (f : ε → ε') : Takes (mapError f x) bytes a :=
  fun rest => run_mapError_of_ok (hx rest)

theorem exact_pure (a : α) : Exact (pure a : Io Bytes ε α) := by
  intro s b rest h
  cases h
  exact ⟨[], rfl, takes_pure a⟩

theorem exact_throw (e : ε) : Exact (throw e : Io Bytes ε α) := by
  intro s a rest h
  cases h

theorem Exact.bind {x : Io Bytes ε α} {k : α → Io Bytes ε β} (hx : Exact x)
    (hk : ∀ a, Exact (k a)) : Exact (x >>= k) := by
  intro s b rest h
  obtain ⟨a, t, hread, hnext⟩ := run_bind_eq_ok.mp h
  obtain ⟨bytes, rfl, htakes⟩ := hx s a t hread
  obtain ⟨bytes', rfl, htakes'⟩ := hk a t b rest hnext
  exact ⟨bytes ++ bytes', (List.append_assoc _ _ _).symm, htakes.bind htakes'⟩

/-- What a stream begins with: bytes the reader takes, or none of those. -/
theorem Exact.takes_or_error {x : Io Bytes ε α} (hx : Exact x) (s : Bytes) :
    (∃ bytes a rest, s = bytes ++ rest ∧ Takes x bytes a) ∨ ∃ e left, x.run s = .error e left := by
  cases hread : x.run s with
  | ok a rest =>
    obtain ⟨bytes, hs, htakes⟩ := hx s a rest hread
    exact .inl ⟨bytes, a, rest, hs, htakes⟩
  | error e left => exact .inr ⟨e, left, rfl⟩

theorem exact_readExactly (n : Nat) : Exact (readExactly n) := by
  intro s bytes rest h
  obtain ⟨rfl, rfl⟩ := run_readExactly_eq_ok.mp h
  exact ⟨bytes, rfl, fun _ => run_readExactly_append bytes _⟩

/-- Fixed bytes are taken as themselves. -/
theorem takes_readExactly_iff {n : Nat} {bytes a : Bytes} :
    Takes (readExactly n) bytes a ↔ bytes = a ∧ a.length = n := by
  constructor
  · intro h
    have hrun := h []
    rw [List.append_nil] at hrun
    obtain ⟨hbytes, hlength⟩ := run_readExactly_eq_ok.mp hrun
    rw [List.append_nil] at hbytes
    exact ⟨hbytes, hlength⟩
  · rintro ⟨rfl, rfl⟩ rest
    exact run_readExactly_append bytes rest

/-! ## Fields that are checked

A reader, a test of what it returned, and what follows. -/

section Checked

variable {x : Io Bytes ε' α} {f : ε' → ε} {c : α → Prop} [∀ a, Decidable (c a)] {err : α → ε}
  {k : α → Io Bytes ε β} {bytes : Bytes} {a : α}

/-- A field that is there and passes its test. -/
theorem run_checked_of_takes (hx : Takes x bytes a) (hc : c a) (s : Bytes) :
    (mapError f x >>= fun a => ensure (c a) (err a) >>= fun _ => k a).run (bytes ++ s) =
      (k a).run s := by
  rw [run_bind_of_ok (run_mapError_of_ok (hx s))]
  refine run_bind_of_ok (a := ()) ?_ _
  rw [run_ensure, if_pos hc]

/-- A field that is there and fails its test. -/
theorem run_checked_of_not (hx : Takes x bytes a) (hc : ¬ c a) (s : Bytes) :
    (mapError f x >>= fun a => ensure (c a) (err a) >>= fun _ => k a).run (bytes ++ s) =
      .error (err a) s := by
  rw [run_bind_of_ok (run_mapError_of_ok (hx s))]
  refine run_bind_of_error ?_ _
  rw [run_ensure, if_neg hc]

end Checked

/-! ## Streams that end too early -/

section Cut

variable {E : ε → Prop} {x : Io Bytes ε α} {k : α → Io Bytes ε β} {bytes bytes' : Bytes}

/-- A stream that ends inside two parts ends inside the first, or inside the
second. -/
theorem cut_append {cut : Bytes} (hpre : cut <+: bytes ++ bytes') (hne : cut ≠ bytes ++ bytes') :
    (cut <+: bytes ∧ cut ≠ bytes) ∨ ∃ cut', cut = bytes ++ cut' ∧ cut' <+: bytes' ∧
      cut' ≠ bytes' := by
  cases List.prefix_or_prefix_of_prefix hpre (List.prefix_append bytes bytes') with
  | inl hfirst =>
    by_cases heq : cut = bytes
    · subst heq
      refine .inr ⟨[], (List.append_nil cut).symm, List.nil_prefix, ?_⟩
      rintro rfl
      exact hne (List.append_nil cut).symm
    · exact .inl ⟨hfirst, heq⟩
  | inr hsecond =>
    obtain ⟨cut', rfl⟩ := hsecond
    refine .inr ⟨cut', rfl, (List.prefix_append_right_inj _).mp hpre, ?_⟩
    rintro rfl
    exact hne rfl

/-- The first bytes of what is read. -/
theorem Notices.take (hx : Notices E x bytes) {n : Nat} (h : n < bytes.length) :
    ∃ e left, x.run (bytes.take n) = .error e left ∧ E e := by
  have hne : bytes.take n ≠ bytes := fun heq =>
    absurd ((List.take_eq_self_iff bytes).mp heq) (Nat.not_le.mpr h)
  exact hx _ (List.take_prefix n bytes) hne

/-- What follows a reader that notices the end may do as it likes with the rest. -/
theorem Notices.bind (hx : Notices E x bytes)
    (hk : ∀ cut, cut <+: bytes' → cut ≠ bytes' →
      ∃ e left, (x >>= k).run (bytes ++ cut) = .error e left ∧ E e) :
    Notices E (x >>= k) (bytes ++ bytes') := by
  intro cut hpre hne
  cases cut_append hpre hne with
  | inl hfirst =>
    obtain ⟨e, left, hread, he⟩ := hx cut hfirst.1 hfirst.2
    exact ⟨e, left, run_bind_of_error hread k, he⟩
  | inr hsecond =>
    obtain ⟨cut', rfl, hpre', hne'⟩ := hsecond
    exact hk cut' hpre' hne'

/-- One reader after the other. -/
theorem Notices.seq {a : α} (hx : Notices E x bytes) (htakes : Takes x bytes a)
    (hk : Notices E (k a) bytes') : Notices E (x >>= k) (bytes ++ bytes') := by
  refine hx.bind fun cut hpre hne => ?_
  obtain ⟨e, left, hread, he⟩ := hk cut hpre hne
  exact ⟨e, left, (run_bind_of_ok (htakes cut) k).trans hread, he⟩

/-- A reader and a rest that reads no more. -/
theorem Notices.last (hx : Notices E x bytes) : Notices E (x >>= k) bytes := by
  intro cut hpre hne
  obtain ⟨e, left, hread, he⟩ := hx cut hpre hne
  exact ⟨e, left, run_bind_of_error hread k, he⟩

theorem Notices.mapError {E' : ε' → Prop} {f : ε → ε'} (hx : Notices E x bytes)
    (hE : ∀ e, E e → E' (f e)) : Notices E' (mapError f x) bytes := by
  intro cut hpre hne
  obtain ⟨e, left, hread, he⟩ := hx cut hpre hne
  exact ⟨f e, left, run_mapError_of_error hread, hE e he⟩

theorem Notices.mono {E' : ε → Prop} (hx : Notices E x bytes) (hE : ∀ e, E e → E' e) :
    Notices E' x bytes := by
  intro cut hpre hne
  obtain ⟨e, left, hread, he⟩ := hx cut hpre hne
  exact ⟨e, left, hread, hE e he⟩

/-- A test in front of a rest: when it fails, so does everything. -/
theorem Notices.ensure {c : Prop} [Decidable c] {e : ε} {y : Io Bytes ε β} (he : E e)
    (hy : c → Notices E y bytes) : Notices E (ensure c e >>= fun _ => y) bytes := by
  intro cut hpre hne
  by_cases hc : c
  · obtain ⟨e', left, hread, he'⟩ := hy hc cut hpre hne
    refine ⟨e', left, ?_, he'⟩
    rw [EStateM.run_bind, run_ensure, if_pos hc]
    exact hread
  · refine ⟨e, cut, run_bind_of_error ?_ _, he⟩
    rw [run_ensure, if_neg hc]

/-- A field with a test of what it returned. -/
theorem Notices.checked {E' : ε' → Prop} {x : Io Bytes ε' α} {f : ε' → ε} {c : α → Prop}
    [∀ a, Decidable (c a)] {err : α → ε} {k : α → Io Bytes ε β} {a : α} (hx : Notices E' x bytes)
    (hE : ∀ e, E' e → E (f e)) (htakes : Takes x bytes a) (herr : E (err a))
    (hk : c a → Notices E (k a) bytes') :
    Notices E (Io.mapError f x >>= fun a => Io.ensure (c a) (err a) >>= fun _ => k a)
      (bytes ++ bytes') :=
  (hx.mapError hE).seq (htakes.mapError f) (Notices.ensure herr hk)

theorem notices_readExactly (n : Nat) {bytes : Bytes} (h : bytes.length ≤ n) :
    Notices (· = .unexpectedEof) (readExactly n) bytes := by
  intro cut hpre hne
  have hlt : cut.length < bytes.length :=
    Nat.lt_of_le_of_ne hpre.length_le fun hlen => hne (hpre.eq_of_length hlen)
  exact ⟨_, _, run_readExactly_of_lt (Nat.lt_of_lt_of_le hlt h), rfl⟩

end Cut

end Io

namespace WireField

variable {α : Type}

theorem takes_encode (f : WireField α) (a : α) : Io.Takes f.read (f.encode a) a :=
  f.run_read_encode a

theorem FailsWhenCut.notices {f : WireField α} (h : f.FailsWhenCut) (a : α) :
    Io.Notices (fun _ => True) f.read (f.encode a) := by
  intro cut hpre hne
  obtain ⟨e, left, hread⟩ := h a cut hpre hne
  exact ⟨e, left, hread, trivial⟩

end WireField

end TcpHandler.Foundation
