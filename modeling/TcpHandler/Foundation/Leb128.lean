/-
  Foundation/Leb128.lean --- fields built on LEB128 varints.

  A number is written in groups of seven bits, lowest first; every byte but the
  last has its high bit set.  From it are built a bounded number, a byte string
  behind its length, and values that have an encoding as byte strings.

  Each field comes with its round trip, as `WireField` demands, and with the facts
  that its reader looks at nothing behind it, fails on a stream that ends inside
  it, and does not depend on the pieces its stream arrives in.
-/
import Mathlib.Algebra.Group.Nat.Defs
import Mathlib.Data.List.Infix
import TcpHandler.Foundation.Arrival

set_option autoImplicit false

namespace TcpHandler.Foundation

namespace Leb128

/-- The groups of a number.  The first argument bounds the recursion; the number
itself is always enough. -/
def groups : Nat → Nat → Bytes
  | 0, n => [UInt8.ofNat n]
  | fuel + 1, n =>
      if n < 128 then [UInt8.ofNat n]
      else UInt8.ofNat (n % 128 + 128) :: groups fuel (n / 128)

/-- Read groups up to the first byte without a high bit. -/
def readGroups : Bytes → EStateM.Result IoError Bytes Nat
  | [] => .error .unexpectedEof []
  | byte :: rest =>
      if byte.toNat < 128 then .ok byte.toNat rest
      else
        match readGroups rest with
        | .ok n rest' => .ok (byte.toNat - 128 + 128 * n) rest'
        | .error e rest' => .error e rest'

theorem readGroups_last {n : Nat} (h : n < 128) (rest : Bytes) :
    readGroups (UInt8.ofNat n :: rest) = .ok n rest := by
  have hn : (UInt8.ofNat n).toNat = n := UInt8.toNat_ofNat_of_lt' (Nat.lt_trans h (by decide))
  rw [readGroups, hn, if_pos h]

theorem toNat_continued (n : Nat) : (UInt8.ofNat (n % 128 + 128)).toNat = n % 128 + 128 :=
  UInt8.toNat_ofNat_of_lt' (by show n % 128 + 128 < 256; omega)

theorem readGroups_groups {fuel n : Nat} (h : n ≤ fuel) (rest : Bytes) :
    readGroups (groups fuel n ++ rest) = .ok n rest := by
  induction fuel generalizing n with
  | zero =>
    obtain rfl : n = 0 := by omega
    exact readGroups_last (by decide) rest
  | succ fuel ih =>
    rw [groups]
    split
    · rename_i hlt
      exact readGroups_last hlt rest
    · rename_i hge
      have hdiv := ih (n := n / 128) (by omega)
      rw [List.cons_append, readGroups, toNat_continued, if_neg (by omega), hdiv]
      simp only
      congr 1
      omega

/-- The groups of a number of at most `7 * (k + 1)` bits. -/
theorem length_groups_le {k fuel n : Nat} (h : n < 128 ^ (k + 1)) :
    (groups fuel n).length ≤ k + 1 := by
  induction k generalizing fuel n with
  | zero =>
    cases fuel with
    | zero => simp [groups]
    | succ fuel =>
      rw [groups, if_pos (by simpa using h)]
      simp
  | succ k ih =>
    cases fuel with
    | zero => simp [groups]
    | succ fuel =>
      rw [groups]
      split
      · simp
      · have hdiv : n / 128 < 128 ^ (k + 1) := by
          rw [Nat.div_lt_iff_lt_mul (by decide)]
          rwa [Nat.pow_succ] at h
        have hrest : (groups fuel (n / 128)).length ≤ k + 1 := ih hdiv
        rw [List.length_cons]
        omega

/-- A stream that ends inside the groups of a number is refused. -/
theorem readGroups_cut {fuel n : Nat} (h : n ≤ fuel) {cut : Bytes} (hpre : cut <+: groups fuel n)
    (hne : cut ≠ groups fuel n) : readGroups cut = .error .unexpectedEof [] := by
  induction fuel generalizing n cut with
  | zero =>
    rw [groups] at hpre hne
    cases cut with
    | nil => rfl
    | cons byte rest =>
      rw [List.cons_prefix_cons, List.prefix_nil] at hpre
      obtain ⟨rfl, rfl⟩ := hpre
      exact absurd rfl hne
  | succ fuel ih =>
    cases cut with
    | nil => rfl
    | cons byte rest =>
      rw [groups] at hpre hne
      split at hpre
      · rename_i hlt
        rw [if_pos hlt] at hne
        rw [List.cons_prefix_cons, List.prefix_nil] at hpre
        obtain ⟨rfl, rfl⟩ := hpre
        exact absurd rfl hne
      · rename_i hge
        rw [if_neg hge] at hne
        obtain ⟨rfl, hrest⟩ := List.cons_prefix_cons.mp hpre
        have hcut := ih (n := n / 128) (by omega) hrest fun heq => hne (by rw [heq])
        rw [readGroups, toNat_continued, if_neg (by omega), hcut]

/-- A number of any size. -/
def nat : WireField Nat where
  writes n := [groups n n]
  read := readGroups
  read_writes n rest := by
    rw [List.flatten_cons, List.flatten_nil, List.append_nil]
    exact readGroups_groups (Nat.le_refl n) rest

theorem encode_nat (n : Nat) : nat.encode n = groups n n := by
  simp [WireField.encode, nat]

theorem nat_failsWhenCut : nat.FailsWhenCut := by
  intro n cut hpre hne
  rw [encode_nat] at hpre hne
  exact ⟨.unexpectedEof, [], readGroups_cut (Nat.le_refl n) hpre hne⟩

theorem nat_exact : Io.Exact nat.read := by
  intro s n rest h
  induction s generalizing n with
  | nil => cases h
  | cons byte s ih =>
    have hread : readGroups (byte :: s) = .ok n rest := h
    rw [readGroups] at hread
    split at hread
    · rename_i hlt
      cases hread
      refine ⟨[byte], rfl, fun rest' => ?_⟩
      show readGroups (byte :: rest') = _
      rw [readGroups, if_pos hlt]
    · rename_i hge
      split at hread
      · rename_i m s' htail
        cases hread
        obtain ⟨bytes, rfl, htakes⟩ := ih m htail
        refine ⟨byte :: bytes, rfl, fun rest' => ?_⟩
        have htail' : readGroups (bytes ++ rest') = .ok m rest' := htakes rest'
        show readGroups (byte :: (bytes ++ rest')) = _
        rw [readGroups, if_neg hge, htail']
      · cases hread

theorem patient_nat : Io.Patient nat.read where
  usedUp {s e left} h he := by
    induction s generalizing e left with
    | nil =>
      cases h
      rfl
    | cons byte s ih =>
      have hread : readGroups (byte :: s) = .error e left := h
      rw [readGroups] at hread
      split at hread
      · cases hread
      · split at hread
        · cases hread
        · rename_i e' left' htail
          cases hread
          exact ih htail he
  returns {s n left} h t := by
    obtain ⟨bytes, rfl, htakes⟩ := nat_exact s n left h
    rw [List.append_assoc]
    exact htakes _
  fails {s e left} h he t := by
    -- the only error is the end of the stream
    induction s generalizing e left with
    | nil =>
      cases h
      cases he
    | cons byte s ih =>
      have hread : readGroups (byte :: s) = .error e left := h
      rw [readGroups] at hread
      split at hread
      · cases hread
      · rename_i hge
        split at hread
        · cases hread
        · rename_i e' left' htail
          cases hread
          have htail' : readGroups (s ++ t) = .error e (left ++ t) := ih htail he
          show readGroups (byte :: (s ++ t)) = _
          rw [readGroups, if_neg hge, htail']

/-- A number that fits 64 bits; larger ones are refused. -/
def uint64 : WireField UInt64 where
  writes n := nat.writes n.toNat
  read := do
    let n ← nat.read
    if n < UInt64.size then return UInt64.ofNat n else throw .invalidData
  read_writes n rest := by
    have hn : nat.read.run (nat.encode n.toNat ++ rest) = .ok n.toNat rest :=
      nat.run_read_encode n.toNat rest
    rw [WireField.encode] at hn
    rw [EStateM.run_bind, hn]
    simp only [if_pos n.toNat_lt, UInt64.ofNat_toNat]
    rfl

theorem uint64_failsWhenCut : uint64.FailsWhenCut := by
  intro n cut hpre hne
  obtain ⟨e, rest, hread⟩ := nat_failsWhenCut n.toNat cut hpre hne
  exact ⟨e, rest, Io.run_bind_of_error hread _⟩

theorem uint64_exact : Io.Exact uint64.read := by
  refine nat_exact.bind fun n => ?_
  split
  · exact Io.exact_pure _
  · exact Io.exact_throw _

theorem patient_uint64 : Io.Patient uint64.read := by
  refine patient_nat.bind fun n => ?_
  split
  · exact Io.patient_pure _
  · exact Io.patient_throw rfl

/-- A value behind the length of its bytes. -/
def prefixed {α : Type} (toBytes : α → Bytes) (ofBytes : Bytes → Option α)
    (h : ∀ a, ofBytes (toBytes a) = some a) : WireField α where
  writes a := nat.writes (toBytes a).length ++ [toBytes a]
  read := do
    let n ← nat.read
    let bytes ← readExactly n
    match ofBytes bytes with
    | some a => return a
    | none => throw .invalidData
  read_writes a rest := by
    have hn : ∀ s, nat.read.run (nat.encode (toBytes a).length ++ s) = .ok (toBytes a).length s :=
      nat.run_read_encode _
    have hsplit : (nat.writes (toBytes a).length ++ [toBytes a]).flatten ++ rest =
        nat.encode (toBytes a).length ++ (toBytes a ++ rest) := by
      simp [WireField.encode]
    rw [hsplit, EStateM.run_bind, hn]
    simp only [EStateM.run_bind, run_readExactly_append, h]
    rfl

theorem encode_prefixed {α : Type} {toBytes : α → Bytes} {ofBytes : Bytes → Option α}
    {h : ∀ a, ofBytes (toBytes a) = some a} (a : α) :
    (prefixed toBytes ofBytes h).encode a = nat.encode (toBytes a).length ++ toBytes a := by
  simp [WireField.encode, prefixed]

theorem prefixed_exact {α : Type} {toBytes : α → Bytes} {ofBytes : Bytes → Option α}
    {h : ∀ a, ofBytes (toBytes a) = some a} : Io.Exact (prefixed toBytes ofBytes h).read := by
  refine nat_exact.bind fun n => (Io.exact_readExactly n).bind fun bytes => ?_
  cases ofBytes bytes with
  | some a => exact Io.exact_pure a
  | none => exact Io.exact_throw _

theorem patient_prefixed {α : Type} {toBytes : α → Bytes} {ofBytes : Bytes → Option α}
    {h : ∀ a, ofBytes (toBytes a) = some a} : Io.Patient (prefixed toBytes ofBytes h).read := by
  refine patient_nat.bind fun n => (Io.patient_readExactly n).bind fun bytes => ?_
  cases ofBytes bytes with
  | some a => exact Io.patient_pure a
  | none => exact Io.patient_throw rfl

theorem prefixed_failsWhenCut {α : Type} {toBytes : α → Bytes} {ofBytes : Bytes → Option α}
    {h : ∀ a, ofBytes (toBytes a) = some a} : (prefixed toBytes ofBytes h).FailsWhenCut := by
  intro a cut hpre hne
  rw [encode_prefixed] at hpre hne
  cases List.prefix_or_prefix_of_prefix hpre (List.prefix_append _ _) with
  | inl hlength =>
    -- the stream ends inside the length, or right after it
    by_cases heq : cut = nat.encode (toBytes a).length
    · subst heq
      have hshort : ([] : Bytes).length < (toBytes a).length := by
        rw [List.length_nil, List.length_pos_iff]
        intro hnil
        exact hne (by rw [hnil, List.append_nil])
      refine ⟨.unexpectedEof, [], ?_⟩
      simp only [prefixed, EStateM.run_bind, WireField.run_read_encode_end,
        run_readExactly_of_lt hshort]
    · obtain ⟨e, rest, hread⟩ := nat_failsWhenCut _ cut hlength heq
      exact ⟨e, rest, by simp only [prefixed, EStateM.run_bind, hread]⟩
  | inr hbody =>
    obtain ⟨bytes, rfl⟩ := hbody
    have hbytes : bytes <+: toBytes a := (List.prefix_append_right_inj _).mp hpre
    have hshort : bytes.length < (toBytes a).length := by
      apply Nat.lt_of_le_of_ne hbytes.length_le
      intro hlen
      exact hne (by rw [hbytes.eq_of_length hlen])
    refine ⟨.unexpectedEof, [], ?_⟩
    simp only [prefixed, EStateM.run_bind, WireField.run_read_encode, run_readExactly_of_lt hshort]

end Leb128

end TcpHandler.Foundation
