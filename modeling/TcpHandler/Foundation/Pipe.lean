/-
  Foundation/Pipe.lean --- one direction of a connection.

  A writer passes bytes on when it likes, a transport delivers them in pieces of
  any size, a reader waits for what it needs.  What was written and not read is in
  three places: it has arrived, it is under way, or the writer holds it.
  `Pipe.unread` is all of it, in order, and what each operation does to a pipe is
  said of `unread` alone:

      unread_arrive   an arrival changes nothing
      unread_write    a write puts its bytes at the end
      outcome_unread  a call that returns does what it would do if everything
                      unread had arrived
      unread_close    closing loses what the writer holds, and nothing else

  So a pipe is a list of bytes, read from the front and written at the end, for
  everybody who does not look at what its readers wait for.  `returns_of_arrived`
  says when they do not wait for ever.
-/
import TcpHandler.Foundation.Arrival
import TcpHandler.Foundation.Buffered

set_option autoImplicit false

namespace TcpHandler.Foundation

/-- A writer, a transport and a reader. -/
structure Pipe (W : Type) where
  writer : W
  /-- what the writer has passed on and has not arrived -/
  transit : Bytes
  /-- what has arrived and was not read -/
  reader : Bytes
  /-- the writer is gone, with everything it held -/
  closed : Bool

namespace Pipe

variable {W : Type} [AsyncWrite W] (B : Buffering W)

/-- A pipe through which nothing was sent. -/
def new : Pipe W := { writer := B.new, transit := [], reader := [], closed := false }

/-- What the writer has not passed on and still can. -/
def held (pipe : Pipe W) : Bytes := if pipe.closed then [] else B.buffered pipe.writer

/-- What was written and not read. -/
def unread (pipe : Pipe W) : Bytes := pipe.reader ++ (pipe.transit ++ pipe.held B)

/-- Nothing will arrive any more. -/
def ended (pipe : Pipe W) : Bool := pipe.closed && pipe.transit.isEmpty

/-- A call on what has arrived does not wait: it needs no more, as `x` says, which
runs on the open stream, or there is no more. -/
def returns {ε α : Type} [StreamEnd ε] (x : Io Bytes ε α) (pipe : Pipe W) : Bool :=
  !Io.ends x pipe.reader || pipe.ended

/-- The next `n` bytes arrive. -/
def arrive (n : Nat) (pipe : Pipe W) : Pipe W :=
  { pipe with transit := pipe.transit.drop n, reader := pipe.reader ++ pipe.transit.take n }

/-- The writer has become `w`; what it has passed on meanwhile is under way. -/
def write (w : W) (pipe : Pipe W) : Pipe W :=
  { pipe with
    writer := w
    transit := pipe.transit ++ (B.delivered w).drop (B.delivered pipe.writer).length }

/-- The reader has left `left` of what had arrived. -/
def read (left : Bytes) (pipe : Pipe W) : Pipe W := { pipe with reader := left }

/-- The writer is dropped. -/
def close (pipe : Pipe W) : Pipe W := { pipe with closed := true }

variable {B} {pipe : Pipe W} {w : W} {bytes : Bytes} {n : Nat}

@[simp] theorem unread_new : (new B).unread B = [] := by
  simp [new, unread, held, B.buffered_new]

omit [AsyncWrite W] in
@[simp] theorem closed_arrive : (pipe.arrive n).closed = pipe.closed := rfl

@[simp] theorem held_arrive : (pipe.arrive n).held B = pipe.held B := rfl

@[simp] theorem unread_arrive : (pipe.arrive n).unread B = pipe.unread B := by
  show pipe.reader ++ pipe.transit.take n ++ (pipe.transit.drop n ++ pipe.held B) = _
  rw [List.append_assoc, ← List.append_assoc (pipe.transit.take n), List.take_append_drop]
  rfl

@[simp] theorem closed_write : (pipe.write B w).closed = pipe.closed := rfl

omit [AsyncWrite W] in
@[simp] theorem closed_read : (pipe.read bytes).closed = pipe.closed := rfl

@[simp] theorem held_read : (pipe.read bytes).held B = pipe.held B := rfl

omit [AsyncWrite W] in
@[simp] theorem closed_close : pipe.close.closed = true := rfl

theorem unread_write (hopen : pipe.closed = false) (h : B.Appends pipe.writer w bytes) :
    (pipe.write B w).unread B = pipe.unread B ++ bytes := by
  obtain ⟨passed, hpassed⟩ := h.passes
  have hgathers := h.gathers
  rw [Buffering.gathered, Buffering.gathered, ← hpassed, List.append_assoc, List.append_assoc]
    at hgathers
  have hbuffered := List.append_cancel_left hgathers
  simp only [unread, write, held, hopen, Bool.false_eq_true, if_false, ← hpassed,
    List.drop_left, List.append_assoc, hbuffered]

/-- What a fresh writer that holds nothing was given is under way. -/
theorem unread_write_new (hbuffered : B.buffered w = []) :
    ((new B).write B w).unread B = B.delivered w := by
  simp [unread, write, held, new, hbuffered, B.delivered_new]

theorem held_write (hbuffered : B.buffered w = []) : (pipe.write B w).held B = [] := by
  unfold held
  split
  · rfl
  · exact hbuffered

theorem unread_close (hheld : pipe.held B = []) : pipe.close.unread B = pipe.unread B := by
  simp only [unread, hheld]
  simp [close, held]

/-- What a fresh writer has not passed on is lost when it is dropped. -/
theorem unread_close_new : ((new B).write B w).close.unread B = B.delivered w := by
  simp [unread, write, held, new, close, B.delivered_new]

@[simp] theorem held_close : pipe.close.held B = [] := rfl

section Readers

variable {ε α : Type} [StreamEnd ε] {x y : Io Bytes ε α}

/-- A call that returns does what it would do if everything had arrived. -/
theorem run_unread (h : Io.Awaits x y) (hreturns : pipe.returns x = true) :
    y.run (pipe.unread B) = Io.followedBy (pipe.transit ++ pipe.held B) (y.run pipe.reader) := by
  rw [returns, Bool.or_eq_true] at hreturns
  cases hreturns with
  | inl hreader =>
    have hends : Io.ends x pipe.reader = false := Bool.not_eq_true' _ ▸ hreader
    rw [h.agrees hends]
    exact h.run_append hends _
  | inr hended =>
    rw [ended, Bool.and_eq_true, List.isEmpty_iff] at hended
    simp [unread, held, hended.1, hended.2]

theorem outcome_unread (h : Io.Awaits x y) (hreturns : pipe.returns x = true)
    {result : Except ε α} {left : Bytes} (hcall : y.outcome pipe.reader = (result, left)) :
    y.outcome (pipe.unread B) = (result, (pipe.read left).unread B) := by
  have hrun := run_unread (B := B) h hreturns
  rw [Io.outcome] at hcall ⊢
  rw [hrun]
  cases hreader : y.run pipe.reader <;>
  · rw [hreader] at hcall
    obtain ⟨rfl, rfl⟩ := Prod.mk.inj hcall
    rfl

/-- A reader that would wait for more than there is has used up everything. -/
theorem ends_unread (hx : Io.Patient x) (h : Io.ends x pipe.reader = false) :
    Io.ends x (pipe.unread B) = false :=
  hx.ends_append h _

/-- When everything has arrived, a reader waits for bytes that were not written
or that the writer holds, and only as long as the writer is there. -/
theorem returns_of_arrived (htransit : pipe.transit = [])
    (h : pipe.closed = true ∨ Io.ends x (pipe.unread B) = false ∧ pipe.held B = []) :
    pipe.returns x = true := by
  rw [returns, Bool.or_eq_true]
  cases h with
  | inl hclosed => exact .inr (by simp [ended, hclosed, htransit])
  | inr hends =>
    obtain ⟨hends, hheld⟩ := hends
    rw [unread, htransit, hheld, List.append_nil, List.append_nil] at hends
    exact .inl (by rw [hends]; rfl)

end Readers

end Pipe

end TcpHandler.Foundation
