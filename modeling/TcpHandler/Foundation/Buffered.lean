/-
  Foundation/Buffered.lean --- buffered writers.

  A buffered writer gathers small writes and passes them on in large ones.  What
  it was given is at every moment what it has passed on and what it holds; what
  it holds is lost when the writer is dropped.  `Buffering` states when it passes
  bytes on, over a stream that takes every slice it is offered:

      write_fits      a slice for which there is room is held
      write_fills     a slice for which there is no room empties the buffer first
      write_large     a slice as large as the whole buffer is not held at all
      flush_run       a flush empties the buffer
-/
import TcpHandler.Foundation.Io

set_option autoImplicit false

namespace TcpHandler.Foundation

/-- What a caller relies on of a buffered writer. -/
structure Buffering (W : Type) [AsyncWrite W] where
  /-- the size of the buffer -/
  capacity : Nat
  /-- a writer that was given nothing -/
  new : W
  /-- the bytes it has passed on -/
  delivered : W → Bytes
  /-- the bytes it holds -/
  buffered : W → Bytes
  delivered_new : delivered new = []
  buffered_new : buffered new = []
  write_fits : ∀ w chunk, (buffered w).length + chunk.length ≤ capacity → chunk.length < capacity →
    ∃ w', (writeMore chunk).run w = .ok () w' ∧ delivered w' = delivered w ∧
      buffered w' = buffered w ++ chunk
  write_fills : ∀ w chunk, capacity < (buffered w).length + chunk.length → chunk.length < capacity →
    ∃ w', (writeMore chunk).run w = .ok () w' ∧ delivered w' = delivered w ++ buffered w ∧
      buffered w' = chunk
  write_large : ∀ w chunk, capacity ≤ chunk.length →
    ∃ w', (writeMore chunk).run w = .ok () w' ∧ delivered w' = delivered w ++ buffered w ++ chunk ∧
      buffered w' = []
  flush_run : ∀ w, ∃ w', (AsyncWrite.flush : Io W IoError Unit).run w = .ok () w' ∧
    delivered w' = delivered w ++ buffered w ∧ buffered w' = []

namespace Buffering

variable {W : Type} [AsyncWrite W] (B : Buffering W)

/-- Everything a writer was given. -/
def gathered (w : W) : Bytes := B.delivered w ++ B.buffered w

@[simp] theorem gathered_new : B.gathered B.new = [] := by
  simp [gathered, B.delivered_new, B.buffered_new]

/-- `w'` is `w` after it was given `bytes`: nothing it had passed on is changed,
and nothing is lost. -/
structure Appends (w w' : W) (bytes : Bytes) : Prop where
  passes : B.delivered w <+: B.delivered w'
  gathers : B.gathered w' = B.gathered w ++ bytes

variable {B} in
theorem Appends.refl (w : W) : B.Appends w w [] :=
  ⟨List.prefix_refl _, (List.append_nil _).symm⟩

variable {B} in
theorem Appends.trans {w w' w'' : W} {bytes bytes' : Bytes} (h : B.Appends w w' bytes)
    (h' : B.Appends w' w'' bytes') : B.Appends w w'' (bytes ++ bytes') :=
  ⟨h.passes.trans h'.passes, by rw [h'.gathers, h.gathers, List.append_assoc]⟩

/-- A write succeeds and loses nothing. -/
theorem appends_writeMore (w : W) (chunk : Bytes) :
    ∃ w', (writeMore chunk).run w = .ok () w' ∧ B.Appends w w' chunk := by
  by_cases hlarge : B.capacity ≤ chunk.length
  · obtain ⟨w', hrun, hdelivered, hbuffered⟩ := B.write_large w chunk hlarge
    refine ⟨w', hrun, ?_, by simp [gathered, hdelivered, hbuffered]⟩
    rw [hdelivered, List.append_assoc]
    exact List.prefix_append _ _
  · by_cases hfits : (B.buffered w).length + chunk.length ≤ B.capacity
    · obtain ⟨w', hrun, hdelivered, hbuffered⟩ :=
        B.write_fits w chunk hfits (Nat.lt_of_not_le hlarge)
      refine ⟨w', hrun, ?_, by simp [gathered, hdelivered, hbuffered]⟩
      exact hdelivered ▸ List.prefix_refl _
    · obtain ⟨w', hrun, hdelivered, hbuffered⟩ :=
        B.write_fills w chunk (Nat.lt_of_not_le hfits) (Nat.lt_of_not_le hlarge)
      refine ⟨w', hrun, ?_, by simp [gathered, hdelivered, hbuffered]⟩
      rw [hdelivered]
      exact List.prefix_append _ _

theorem appends_writeChunks (w : W) (chunks : List Bytes) :
    ∃ w', (writeChunks chunks).run w = .ok () w' ∧ B.Appends w w' chunks.flatten := by
  induction chunks generalizing w with
  | nil => exact ⟨w, rfl, .refl w⟩
  | cons chunk rest ih =>
    obtain ⟨t, hwrite, ht⟩ := B.appends_writeMore w chunk
    obtain ⟨w', hrest, hw'⟩ := ih t
    refine ⟨w', ?_, by simpa using ht.trans hw'⟩
    rw [writeChunks, Io.run_bind_of_ok hwrite, hrest]

theorem run_writeChunks (w : W) (chunks : List Bytes) :
    ∃ w', (writeChunks chunks).run w = .ok () w' ∧
      B.gathered w' = B.gathered w ++ chunks.flatten := by
  obtain ⟨w', hrun, happends⟩ := B.appends_writeChunks w chunks
  exact ⟨w', hrun, happends.gathers⟩

/-- A flush gives a writer nothing new and leaves it holding nothing. -/
theorem appends_flush (w : W) :
    ∃ w', (AsyncWrite.flush : Io W IoError Unit).run w = .ok () w' ∧
      B.Appends w w' [] ∧ B.buffered w' = [] := by
  obtain ⟨w', hrun, hdelivered, hbuffered⟩ := B.flush_run w
  refine ⟨w', hrun, ⟨?_, by simp [gathered, hdelivered, hbuffered]⟩, hbuffered⟩
  rw [hdelivered]
  exact List.prefix_append _ _

/-- A flush passes on everything. -/
theorem run_flush (w : W) :
    ∃ w', (AsyncWrite.flush : Io W IoError Unit).run w = .ok () w' ∧
      B.delivered w' = B.gathered w := by
  obtain ⟨w', hrun, hdelivered, _⟩ := B.flush_run w
  exact ⟨w', hrun, hdelivered⟩

/-- Slices for which there is room together are held. -/
theorem run_writeChunks_fits (w : W) (chunks : List Bytes)
    (hfits : (B.buffered w).length + chunks.flatten.length < B.capacity) :
    ∃ w', (writeChunks chunks).run w = .ok () w' ∧ B.delivered w' = B.delivered w ∧
      B.buffered w' = B.buffered w ++ chunks.flatten := by
  induction chunks generalizing w with
  | nil => exact ⟨w, rfl, rfl, by simp⟩
  | cons chunk rest ih =>
    rw [List.flatten_cons, List.length_append] at hfits
    obtain ⟨t, hwrite, hdelivered, hbuffered⟩ := B.write_fits w chunk (by omega) (by omega)
    have hroom : (B.buffered t).length + rest.flatten.length < B.capacity := by
      rw [hbuffered, List.length_append]
      omega
    obtain ⟨w', hrest, hdelivered', hbuffered'⟩ := ih t hroom
    refine ⟨w', ?_, hdelivered'.trans hdelivered, by simp [hbuffered', hbuffered]⟩
    rw [writeChunks, Io.run_bind_of_ok hwrite, hrest]

/-- A last slice as large as the buffer takes everything before it along. -/
theorem delivered_large (chunks : List Bytes) {last : Bytes} (hlarge : B.capacity ≤ last.length) :
    ∃ w', (writeChunks (chunks ++ [last])).run B.new = .ok () w' ∧
      B.delivered w' = chunks.flatten ++ last := by
  obtain ⟨t, hchunks, hgathered⟩ := B.run_writeChunks B.new chunks
  obtain ⟨w', hlast, hdelivered, _⟩ := B.write_large t last hlarge
  refine ⟨w', ?_, ?_⟩
  · rw [writeChunks_append, Io.run_bind_of_ok hchunks, writeChunks_singleton, hlast]
  · rw [gathered_new, List.nil_append] at hgathered
    rw [hdelivered, ← hgathered, gathered]

/-- Small slices are held; if the last one does not fit, those before it arrive. -/
theorem delivered_small (chunks : List Bytes) {last : Bytes}
    (hchunks : chunks.flatten.length < B.capacity) (hlast : last.length < B.capacity) :
    ∃ w', (writeChunks (chunks ++ [last])).run B.new = .ok () w' ∧
      B.delivered w' =
        if B.capacity < chunks.flatten.length + last.length then chunks.flatten else [] := by
  obtain ⟨t, hrun, hdelivered, hbuffered⟩ := B.run_writeChunks_fits B.new chunks
    (by simpa [B.buffered_new] using hchunks)
  rw [B.delivered_new] at hdelivered
  rw [B.buffered_new, List.nil_append] at hbuffered
  have hwrite : ∀ w', (writeMore last).run t = .ok () w' →
      (writeChunks (chunks ++ [last])).run B.new = .ok () w' := by
    intro w' h
    rw [writeChunks_append, Io.run_bind_of_ok hrun, writeChunks_singleton, h]
  by_cases hfills : B.capacity < chunks.flatten.length + last.length
  · obtain ⟨w', h, hdelivered', _⟩ := B.write_fills t last (by rwa [hbuffered]) hlast
    exact ⟨w', hwrite w' h, by rw [if_pos hfills, hdelivered', hdelivered, hbuffered]; rfl⟩
  · obtain ⟨w', h, hdelivered', _⟩ :=
      B.write_fits t last (by rw [hbuffered]; exact Nat.le_of_not_lt hfills) hlast
    exact ⟨w', hwrite w' h, by rw [if_neg hfills, hdelivered', hdelivered]⟩

end Buffering

end TcpHandler.Foundation
