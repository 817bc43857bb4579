/-
  Foundation/Transcript.lean --- transcripts that end too early.

  A transcript is the bytes of a list of items.  It is read by calls, one for each
  item, and a reader may keep something besides the stream, which each item
  changes.  `Format` says what an item is on the wire, what its call returns, what
  the reader keeps afterwards, and which calls take an item at all: a call may be
  given a bound, and refuse what is beyond it.

  `ReadsItems` is what a reader owes each item, whole or cut.  From it follows what
  the calls return on every prefix of a transcript, up to their first error
  (`reading_cut`): the values of the items that are whole, in order, and what the
  last of them left.
-/
import Mathlib.Data.List.GetD
import TcpHandler.Foundation.Reading

set_option autoImplicit false

namespace TcpHandler.Foundation

/-! ## Calls up to the first error -/

/-- What a sequence of calls returned, the error of the call that failed, and the
state after it. -/
structure Reading (σ ε α : Type) where
  values : List α
  failure : Option ε
  state : σ

/-- Call `read` for each of the given arguments in turn, up to the first error. -/
def untilError {κ σ ε α : Type} (read : κ → Io σ ε α) : List κ → σ → Reading σ ε α
  | [], s => ⟨[], none, s⟩
  | c :: calls, s =>
      match (read c).run s with
      | .ok a s' =>
          let rest := untilError read calls s'
          ⟨a :: rest.values, rest.failure, rest.state⟩
      | .error e s' => ⟨[], some e, s'⟩

section UntilError

variable {κ σ ε α : Type} {read : κ → Io σ ε α} {c : κ} {calls : List κ} {s s' : σ}

theorem untilError_of_ok {a : α} (h : (read c).run s = .ok a s') :
    untilError read (c :: calls) s =
      ⟨a :: (untilError read calls s').values, (untilError read calls s').failure,
        (untilError read calls s').state⟩ := by
  rw [untilError, h]

theorem untilError_of_error {e : ε} (h : (read c).run s = .error e s') :
    untilError read (c :: calls) s = ⟨[], some e, s'⟩ := by
  rw [untilError, h]

end UntilError

/-! ## Items -/

/-- How items of a type `ι` stand in a transcript.  A call is given a `κ`, returns
an `α`, and leaves the reader with a `τ` besides the stream. -/
structure Format (ι κ τ α : Type) where
  bytes : ι → Bytes
  value : ι → α
  after : ι → τ
  /-- the call takes the item, however long it is -/
  Takes : κ → ι → Prop

namespace Format

variable {ι κ τ α : Type} (F : Format ι κ τ α)

/-- The bytes of a list of items. -/
def transcript (items : List ι) : Bytes := (items.map F.bytes).flatten

/-- How many items are whole in the first `n` bytes of their transcript. -/
def whole : List ι → Nat → Nat
  | [], _ => 0
  | item :: items, n =>
      if (F.bytes item).length ≤ n then whole items (n - (F.bytes item).length) + 1 else 0

/-- What a reader keeps after the given items. -/
def settled (t : τ) (items : List ι) : τ := (items.map F.after).getLastD t

theorem settled_cons (t : τ) (item : ι) (items : List ι) :
    F.settled t (item :: items) = F.settled (F.after item) items := by
  rw [settled, List.map_cons, List.getLastD_cons]
  rfl

variable {σ ε : Type} (read : κ → Io σ ε α) (place : Bytes → τ → σ) (E : ε → Prop)

/-- What a reader that keeps `t` makes of one item and of every part of it.  `place`
joins the stream and what is kept to the state of the reader; errors are in `E`.

* `reads`: a call that takes the item returns its value.
* `refuses`: any other call fails, and keeps `t`.
* `notices`: on a part of the item every call fails, and keeps `t`. -/
structure ReadsItem (t : τ) (item : ι) : Prop where
  reads : ∀ c rest, F.Takes c item →
    (read c).run (place (F.bytes item ++ rest) t) = .ok (F.value item) (place rest (F.after item))
  refuses : ∀ c rest, ¬ F.Takes c item → ∃ e left,
    (read c).run (place (F.bytes item ++ rest) t) = .error e (place left t) ∧ E e
  notices : ∀ c cut, cut <+: F.bytes item → cut ≠ F.bytes item → ∃ e left,
    (read c).run (place cut t) = .error e (place left t) ∧ E e

/-- Each item is read with what its predecessor left. -/
def ReadsItems : τ → List ι → Prop
  | _, [] => True
  | t, item :: items =>
      F.ReadsItem read place E t item ∧ ReadsItems (F.after item) items

/-- What calls on the first `n` bytes of a transcript returned, up to the first
error: the values of the first `j` items.

* `whole`: these items are whole.
* `kept`: the reader keeps what the last of them left.
* `stopped`: there were no more calls, or the next call failed.
* `cause`: it failed at an item that is not whole, or at one that it does not take. -/
structure Stopped (t : τ) (items : List ι) (calls : List κ) (n : Nat) (r : Reading σ ε α)
    (j : Nat) : Prop where
  values : r.values = (items.take j).map F.value
  whole : j ≤ F.whole items n
  kept : ∃ left, r.state = place left (F.settled t (items.take j))
  stopped : (r.failure = none ∧ calls.length = j) ∨
    ∃ e, r.failure = some e ∧ E e ∧ j < calls.length
  cause : r.failure = none ∨ j = F.whole items n ∨
    ∃ c item, calls[j]? = some c ∧ items[j]? = some item ∧ ¬ F.Takes c item

variable {F read place E} {t : τ} {items : List ι} {calls : List κ} {n : Nat}

/-- The part of a transcript that begins with a whole item. -/
theorem take_transcript_of_le {item : ι} (h : (F.bytes item).length ≤ n) :
    (F.transcript (item :: items)).take n =
      F.bytes item ++ (F.transcript items).take (n - (F.bytes item).length) := by
  rw [transcript, List.map_cons, List.flatten_cons, List.take_append, List.take_of_length_le h]
  rfl

/-- The part of a transcript that ends inside its first item. -/
theorem take_transcript_of_lt {item : ι} (h : n < (F.bytes item).length) :
    (F.transcript (item :: items)).take n = (F.bytes item).take n := by
  rw [transcript, List.map_cons, List.flatten_cons,
    List.take_append_of_le_length (Nat.le_of_lt h)]

/-- Calls on a stream that fail at once. -/
theorem stopped_of_error {c : κ} {s left : Bytes} {e : ε}
    (h : (read c).run (place s t) = .error e (place left t)) (he : E e)
    (hcause : F.whole items n = 0 ∨ ∃ item, items[0]? = some item ∧ ¬ F.Takes c item) :
    F.Stopped place E t items (c :: calls) n (untilError read (c :: calls) (place s t)) 0 := by
  rw [untilError_of_error h]
  refine ⟨rfl, Nat.zero_le _, ⟨left, rfl⟩, .inr ⟨e, rfl, he, Nat.succ_pos _⟩, .inr ?_⟩
  cases hcause with
  | inl hzero => exact .inl hzero.symm
  | inr hrefused =>
    obtain ⟨item, hitem, htakes⟩ := hrefused
    exact .inr ⟨c, item, rfl, hitem, htakes⟩

/-- Calls whose first one took an item. -/
theorem stopped_of_ok {c : κ} {item : ι} {s : Bytes} {s' : σ} {j : Nat}
    (h : (read c).run s' = .ok (F.value item) (place s (F.after item)))
    (hwhole : (F.bytes item).length ≤ n)
    (hrest : F.Stopped place E (F.after item) items calls (n - (F.bytes item).length)
      (untilError read calls (place s (F.after item))) j) :
    F.Stopped place E t (item :: items) (c :: calls) n (untilError read (c :: calls) s')
      (j + 1) := by
  have hcount : F.whole (item :: items) n = F.whole items (n - (F.bytes item).length) + 1 := by
    rw [Format.whole, if_pos hwhole]
  rw [untilError_of_ok h]
  refine ⟨?_, ?_, ?_, ?_, ?_⟩
  · rw [List.take_succ_cons, List.map_cons, hrest.values]
  · rw [hcount]
    exact Nat.succ_le_succ hrest.whole
  · rw [List.take_succ_cons, settled_cons]
    exact hrest.kept
  · cases hrest.stopped with
    | inl hdone => exact .inl ⟨hdone.1, congrArg Nat.succ hdone.2⟩
    | inr hfailed =>
      obtain ⟨e, hfailure, he, hlt⟩ := hfailed
      exact .inr ⟨e, hfailure, he, Nat.succ_lt_succ hlt⟩
  · rcases hrest.cause with hnone | heq | ⟨c', item', hc, hitem, htakes⟩
    · exact .inl hnone
    · exact .inr (.inl (by rw [hcount, heq]))
    · exact .inr (.inr ⟨c', item', hc, hitem, htakes⟩)

/-- Calls on a transcript that ends too early return the items that are whole. -/
theorem reading_cut
    (hend : ∀ c t, ∃ e left, (read c).run (place [] t) = .error e (place left t) ∧ E e)
    (hreads : F.ReadsItems read place E t items) (calls : List κ) (n : Nat) :
    ∃ j, F.Stopped place E t items calls n
      (untilError read calls (place ((F.transcript items).take n) t)) j := by
  induction calls generalizing t items n with
  | nil => exact ⟨0, rfl, Nat.zero_le _, ⟨_, rfl⟩, .inl ⟨rfl, rfl⟩, .inl rfl⟩
  | cons c calls ih =>
    cases items with
    | nil =>
      obtain ⟨e, left, hread, he⟩ := hend c t
      rw [transcript, List.map_nil, List.flatten_nil, List.take_nil]
      exact ⟨0, stopped_of_error hread he (.inl rfl)⟩
    | cons item items =>
      obtain ⟨hitem, hrest⟩ := hreads
      by_cases hwhole : (F.bytes item).length ≤ n
      · rw [take_transcript_of_le hwhole]
        by_cases htakes : F.Takes c item
        · obtain ⟨j, hj⟩ := ih hrest (n - (F.bytes item).length)
          exact ⟨j + 1, stopped_of_ok (hitem.reads c _ htakes) hwhole hj⟩
        · obtain ⟨e, left, hread, he⟩ := hitem.refuses c _ htakes
          exact ⟨0, stopped_of_error hread he (.inr ⟨item, rfl, htakes⟩)⟩
      · have hlt := Nat.lt_of_not_le hwhole
        rw [take_transcript_of_lt hlt]
        have hne : (F.bytes item).take n ≠ F.bytes item :=
          fun heq => hwhole ((List.take_eq_self_iff _).mp heq)
        obtain ⟨e, left, hread, he⟩ := hitem.notices c _ (List.take_prefix n _) hne
        refine ⟨0, stopped_of_error hread he (.inl ?_)⟩
        rw [whole, if_neg hwhole]

/-- When the whole items are taken, all of them are returned, and then a call fails. -/
theorem Stopped.of_takes {r : Reading σ ε α} {j : Nat} (h : F.Stopped place E t items calls n r j)
    (hcalls : F.whole items n < calls.length)
    (htakes : ∀ i c item, i < F.whole items n → calls[i]? = some c → items[i]? = some item →
      F.Takes c item) :
    j = F.whole items n ∧ ∃ e, r.failure = some e ∧ E e := by
  rcases h.stopped with ⟨_, hlength⟩ | ⟨e, hfailure, he, _⟩
  · have hle := h.whole
    omega
  · refine ⟨?_, e, hfailure, he⟩
    rcases h.cause with hnone | heq | ⟨c, item, hc, hitem, hrefused⟩
    · rw [hfailure] at hnone
      cases hnone
    · exact heq
    · by_contra hne
      have hlt : j < F.whole items n := Nat.lt_of_le_of_ne h.whole hne
      exact hrefused (htakes j c item hlt hc hitem)

end Format

end TcpHandler.Foundation
