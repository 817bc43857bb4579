/-
  Foundation/Grammar.lean --- calls and what they accept.

  `A s a t` says that in the state `s` a call finds an `a` and leaves `t`;
  `R s e t` that it does not, for the reason `e`.  `Describes x A R`: on every
  state, `x` returns exactly what `A` says and fails exactly as `R` says.  For a
  reader, `A` is the grammar of a format and `R` says where a stream leaves it.

  The description of a sequence is put together from those of its parts.

      Describes.bind     one call after the other
      describes_mapM     a call for each element of a list
      Exact.describes    a field, read by a reader that does not look behind it
-/
import TcpHandler.Foundation.Reading

set_option autoImplicit false

namespace TcpHandler.Foundation

namespace Io

variable {σ τ ε ε' α β : Type}

/-- `x` returns what `A` says and fails as `R` says. -/
structure Describes (x : Io σ ε α) (A : σ → α → σ → Prop) (R : σ → ε → σ → Prop) : Prop where
  ok_iff : ∀ s a t, x.run s = .ok a t ↔ A s a t
  error_iff : ∀ s e t, x.run s = .error e t ↔ R s e t

/-- The stream `s` begins with a field for `a`, and `rest` follows it. -/
def Field (x : Io Bytes ε α) (s : Bytes) (a : α) (rest : Bytes) : Prop :=
  ∃ bytes, s = bytes ++ rest ∧ Takes x bytes a

/-- What the calls for a list find, one after the other. -/
inductive Each (A : β → σ → α → σ → Prop) : List β → σ → List α → σ → Prop
  | nil {s : σ} : Each A [] s [] s
  | cons {b : β} {bs : List β} {s t u : σ} {a : α} {as : List α} (hfirst : A b s a t)
      (hrest : Each A bs t as u) : Each A (b :: bs) s (a :: as) u

variable {x : Io σ ε α} {A A' : σ → α → σ → Prop} {R R' : σ → ε → σ → Prop}

theorem Describes.congr (h : Describes x A R) (hA : ∀ s a t, A s a t ↔ A' s a t)
    (hR : ∀ s e t, R s e t ↔ R' s e t) : Describes x A' R' where
  ok_iff s a t := (h.ok_iff s a t).trans (hA s a t)
  error_iff s e t := (h.error_iff s e t).trans (hR s e t)

theorem describes_pure (a : α) :
    Describes (pure a : Io σ ε α) (fun s b t => b = a ∧ t = s) (fun _ _ _ => False) where
  ok_iff s b t := by simp [EStateM.run_pure, eq_comm]
  error_iff s e t := by simp [EStateM.run_pure]

theorem describes_throw (e : ε) :
    Describes (throw e : Io σ ε α) (fun _ _ _ => False) (fun s e' t => e' = e ∧ t = s) where
  ok_iff s a t := by simp
  error_iff s e' t := by simp [eq_comm]

theorem describes_ofExcept (result : Except ε α) :
    Describes (ofExcept result : Io σ ε α) (fun s a t => result = .ok a ∧ t = s)
      (fun s e t => result = .error e ∧ t = s) where
  ok_iff s a t := by cases result <;> simp [eq_comm]
  error_iff s e t := by cases result <;> simp [eq_comm]

theorem describes_ofExcept_mapError (result : Except ε α) (f : ε → ε') :
    Describes (ofExcept (result.mapError f) : Io σ ε' α) (fun s a t => result = .ok a ∧ t = s)
      (fun s e' t => ∃ e, result = .error e ∧ e' = f e ∧ t = s) where
  ok_iff s a t := by cases result <;> simp [Except.mapError, eq_comm]
  error_iff s e' t := by cases result <;> simp [Except.mapError, eq_comm]

theorem describes_ensure (c : Prop) [Decidable c] (e : ε) :
    Describes (ensure c e : Io σ ε Unit) (fun s _ t => c ∧ t = s)
      (fun s e' t => ¬ c ∧ e' = e ∧ t = s) where
  ok_iff s a t := by
    rw [run_ensure]
    split <;> simp [*, eq_comm]
  error_iff s e' t := by
    rw [run_ensure]
    split <;> simp [*, eq_comm]

theorem Describes.mapError (h : Describes x A R) (f : ε → ε') :
    Describes (mapError f x) A (fun s e' t => ∃ e, R s e t ∧ e' = f e) where
  ok_iff s a t := run_mapError_eq_ok.trans (h.ok_iff s a t)
  error_iff s e' t := by
    rw [run_mapError_eq_error]
    exact exists_congr fun e => and_congr_left fun _ => h.error_iff s e t

/-- A call on the first half of a pair of states leaves the second alone. -/
theorem Describes.onFst (h : Describes x A R) :
    Describes (onFst x : Io (σ × τ) ε α) (fun s a t => A s.1 a t.1 ∧ t.2 = s.2)
      (fun s e t => R s.1 e t.1 ∧ t.2 = s.2) where
  ok_iff s a t := by
    rw [← h.ok_iff, run_onFst]
    cases x.run s.1 <;> simp [Prod.ext_iff, and_assoc, eq_comm]
  error_iff s e t := by
    rw [← h.error_iff, run_onFst]
    cases x.run s.1 <;> simp [Prod.ext_iff, and_assoc, eq_comm]

/-- And the other way round. -/
theorem Describes.onSnd {A : τ → α → τ → Prop} {R : τ → ε → τ → Prop} {x : Io τ ε α}
    (h : Describes x A R) :
    Describes (onSnd x : Io (σ × τ) ε α) (fun s a t => A s.2 a t.2 ∧ t.1 = s.1)
      (fun s e t => R s.2 e t.2 ∧ t.1 = s.1) where
  ok_iff s a t := by
    rw [← h.ok_iff, run_onSnd]
    cases x.run s.2 <;> simp [Prod.ext_iff, and_assoc, and_comm, eq_comm]
  error_iff s e t := by
    rw [← h.error_iff, run_onSnd]
    cases x.run s.2 <;> simp [Prod.ext_iff, and_assoc, and_comm, eq_comm]

/-- One call after the other. -/
theorem Describes.bind {k : α → Io σ ε β} {B : α → σ → β → σ → Prop} {Q : α → σ → ε → σ → Prop}
    (hx : Describes x A R) (hk : ∀ a, Describes (k a) (B a) (Q a)) :
    Describes (x >>= k) (fun s b u => ∃ a t, A s a t ∧ B a t b u)
      (fun s e u => R s e u ∨ ∃ a t, A s a t ∧ Q a t e u) where
  ok_iff s b u := by
    rw [run_bind_eq_ok]
    exact exists₂_congr fun a t => and_congr (hx.ok_iff s a t) ((hk a).ok_iff t b u)
  error_iff s e u := by
    rw [run_bind_eq_error]
    exact or_congr (hx.error_iff s e u)
      (exists₂_congr fun a t => and_congr (hx.ok_iff s a t) ((hk a).error_iff t e u))

/-- A call for each element of a list: all of them find what they look for, or the
first that does not ends it. -/
theorem describes_mapM {f : β → Io σ ε α} {A : β → σ → α → σ → Prop} {R : β → σ → ε → σ → Prop}
    (hf : ∀ b, Describes (f b) (A b) (R b)) (bs : List β) :
    Describes (bs.mapM f) (Each A bs) (fun s e u => ∃ before b after as t,
      bs = before ++ b :: after ∧ Each A before s as t ∧ R b t e u) := by
  induction bs with
  | nil =>
    rw [List.mapM_nil]
    refine (describes_pure []).congr (fun s as t => ?_) (fun s e t => ?_)
    · constructor
      · rintro ⟨rfl, rfl⟩
        exact .nil
      · intro h
        cases h
        exact ⟨rfl, rfl⟩
    · simp
  | cons b bs ih =>
    rw [List.mapM_cons]
    refine ((hf b).bind fun a => ih.bind fun as => describes_pure (a :: as)).congr
      (fun s as u => ?_) (fun s e u => ?_)
    · constructor
      · rintro ⟨a, t, hfirst, as, u, hrest, rfl, rfl⟩
        exact .cons hfirst hrest
      · intro h
        cases h with
        | cons hfirst hrest => exact ⟨_, _, hfirst, _, _, hrest, rfl, rfl⟩
    · constructor
      · rintro (hbad | ⟨a, t, hfirst, (⟨before, b', after, as, t', rfl, hbefore, hbad⟩ |
          ⟨_, _, _, h⟩)⟩)
        · exact ⟨[], b, bs, [], s, rfl, .nil, hbad⟩
        · exact ⟨b :: before, b', after, a :: as, t', rfl, .cons hfirst hbefore, hbad⟩
        · exact h.elim
      · rintro ⟨before, b', after, as, t, hbs, hbefore, hbad⟩
        cases hbefore with
        | nil =>
          obtain ⟨rfl, rfl⟩ := List.cons.inj hbs
          exact .inl hbad
        | cons hfirst hrest =>
          obtain ⟨rfl, rfl⟩ := List.cons.inj hbs
          exact .inr ⟨_, _, hfirst, .inl ⟨_, _, _, _, _, rfl, hrest, hbad⟩⟩

/-! ## Readers -/

/-- A field, read by a reader that does not look behind it. -/
theorem Exact.describes {x : Io Bytes ε α} (hx : Exact x) :
    Describes x (Field x) (fun s e left => x.run s = .error e left) where
  ok_iff s a rest := by
    constructor
    · exact hx s a rest
    · rintro ⟨bytes, rfl, htakes⟩
      exact htakes rest
  error_iff _ _ _ := Iff.rfl

theorem describes_readExactly (n : Nat) :
    Describes (readExactly n) (fun s bytes rest => s = bytes ++ rest ∧ bytes.length = n)
      (fun s e left => s.length < n ∧ e = .unexpectedEof ∧ left = []) where
  ok_iff _ _ _ := run_readExactly_eq_ok
  error_iff s e left := by
    rw [run_readExactly]
    split
    · simp [Nat.not_lt_of_le ‹_›]
    · simp [Nat.lt_of_not_le ‹_›, eq_comm]

end Io

end TcpHandler.Foundation
