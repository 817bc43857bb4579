/-
  Session/Threads.lean --- threads that share one cipher.

  A thread calls `send` and `recv` of `encrypt` and `compress_encrypt`, one call
  after the other, with a cipher that other threads use as well.  A call is the
  steps of its critical section and what happens outside the lock: `recv` reads its
  packet first, `send` writes its packet last.  The streams are not modelled; the
  bytes a reader finds and the writer are given with each step.

  At the lock, a run is a run of `Foundation/Mutex.lean`, so the sections run one at
  a time and refine the slot of `Session/Sections.lean` (`reached`).
-/
import TcpHandler.Protocols.Reference
import TcpHandler.Session.Sections

set_option autoImplicit false

namespace TcpHandler.Session.Shared

open TcpHandler.Foundation TcpHandler.Protocols

/-! ## Calls -/

/-- A call, with what it is given. -/
inductive Call where
  | send (protocol : CipherProtocol) (level : Level) (limit : Usize) (newNonce : Nonce)
      (message : Buf)
  | recv (protocol : CipherProtocol) (limit : Usize)

/-- What a call returns; `send` returns no message. -/
abbrev Returned : Type := Except (Fault PacketError) (Option Bytes)

/-- Which call a critical section belongs to. -/
inductive Purpose where
  | send (limit : Usize)
  | recv

/-- Where a thread is in its call. -/
inductive Stage where
  | idle
  /-- `recv`, in `read_packet` -/
  | fetching (protocol : CipherProtocol) (limit : Usize)
  /-- in `Cipher::get` or behind it, up to the end of the critical section -/
  | critical (purpose : Purpose)
  /-- `send`, in `write_packet` and `flush` -/
  | writing (limit : Usize) (packet : Bytes)
  | returning (result : Returned)

/-- What a call does after its critical section. -/
def Purpose.after : Purpose → Result → Stage
  | _, .error e => .returning (.error e)
  | .send limit, .ok packet => .writing limit packet
  | .recv, .ok message => .returning (.ok (some message))

/-- The lock with the cipher, and where each thread is. -/
structure State (T : Type) where
  lock : Mutex.State T Cipher Note Result
  stage : T → Stage

/-- What happens. -/
inductive Label (T : Type) where
  | began (thread : T) (call : Call)
  | fetched (thread : T) (result : Except PacketError Bytes)
  | lock (thread : T)
  | act (thread : T) (note : Note)
  | unlock (thread : T) (result : Result)
  | wrote (thread : T) (result : Except PacketError Unit)
  | returned (thread : T) (result : Returned)

/-- The thread that moves. -/
def Label.thread {T : Type} : Label T → T
  | .began t _ | .fetched t _ | .lock t | .act t _ | .unlock t _ | .wrote t _ | .returned t _ => t

/-- A new cipher and no call. -/
def start (T : Type) (key : AesKey) (nonce : Nonce) : State T :=
  ⟨Mutex.start (Cipher.new (key, nonce)), fun _ => .idle⟩

section Steps

variable {T : Type} [DecidableEq T] (V : VariableLen) (flate : Flate) (aead : Aead)

/-- One step of one thread. -/
inductive Step : State T → Label T → State T → Prop
  | send {s : State T} {t : T} {protocol : CipherProtocol} {level : Level} {limit : Usize}
      {newNonce : Nonce} {message : Buf} (hstage : s.stage t = .idle)
      (houtside : s.lock.phase t = .outside) :
      Step s (.began t (.send protocol level limit newNonce message))
        { lock := s.lock.reach t
            (sealSection aead newNonce ((protocol.payload V flate).compose level newNonce message))
          stage := Function.update s.stage t (.critical (.send limit)) }
  | recv {s : State T} {t : T} {protocol : CipherProtocol} {limit : Usize}
      (hstage : s.stage t = .idle) :
      Step s (.began t (.recv protocol limit))
        { s with stage := Function.update s.stage t (.fetching protocol limit) }
  | fetched {s : State T} {t : T} {protocol : CipherProtocol} {limit : Usize}
      {incoming left packet : Bytes} (hstage : s.stage t = .fetching protocol limit)
      (houtside : s.lock.phase t = .outside)
      (hcall : (readPacket V limit).outcome incoming = (.ok packet, left)) :
      Step s (.fetched t (.ok packet))
        { lock := s.lock.reach t (openSection V flate aead protocol packet)
          stage := Function.update s.stage t (.critical .recv) }
  | notFetched {s : State T} {t : T} {protocol : CipherProtocol} {limit : Usize}
      {incoming left : Bytes} {e : PacketError} (hstage : s.stage t = .fetching protocol limit)
      (hcall : (readPacket V limit).outcome incoming = (.error e, left)) :
      Step s (.fetched t (.error e))
        { s with stage := Function.update s.stage t (.returning (.error (.error e))) }
  | lock {s : State T} {t : T} {purpose : Purpose} {lock' : Mutex.State T Cipher Note Result}
      (hstage : s.stage t = .critical purpose)
      (hlock : Mutex.Step (IsSection V flate aead) s.lock (.lock t) lock') :
      Step s (.lock t) { s with lock := lock' }
  | act {s : State T} {t : T} {purpose : Purpose} {note : Note}
      {lock' : Mutex.State T Cipher Note Result} (hstage : s.stage t = .critical purpose)
      (hlock : Mutex.Step (IsSection V flate aead) s.lock (.act t note) lock') :
      Step s (.act t note) { s with lock := lock' }
  | unlock {s : State T} {t : T} {purpose : Purpose} {result : Result}
      {lock' : Mutex.State T Cipher Note Result} (hstage : s.stage t = .critical purpose)
      (hlock : Mutex.Step (IsSection V flate aead) s.lock (.unlock t result) lock') :
      Step s (.unlock t result)
        { lock := lock', stage := Function.update s.stage t (purpose.after result) }
  | wrote {W : Type} [AsyncWrite W] {s : State T} {t : T} {limit : Usize} {packet : Bytes}
      {w w' : W} {result : Except PacketError Unit} (hstage : s.stage t = .writing limit packet)
      (hcall : (Sealed.writeSealed V limit packet).outcome w = (result, w')) :
      Step s (.wrote t result)
        { s with
          stage := Function.update s.stage t
            (.returning ((result.map fun _ => none).mapError .error)) }
  | returned {s : State T} {t : T} {result : Returned} (hstage : s.stage t = .returning result) :
      Step s (.returned t result) { s with stage := Function.update s.stage t .idle }

end Steps

/-! ## What passes through the lock -/

/-- What happens at the lock. -/
def atLock {T : Type} : Label T → Option (Event T)
  | .began t (.send _ _ _ _ _) => some (.reach t)
  | .began _ (.recv _ _) => none
  | .fetched t (.ok _) => some (.reach t)
  | .fetched _ (.error _) => none
  | .lock t => some (.lock t)
  | .act t note => some (.act t note)
  | .unlock t result => some (.unlock t result)
  | .wrote _ _ | .returned _ _ => none

/-- What passes through the lock, in order. -/
def crossings {T : Type} (tr : List (Label T)) : List (Event T) :=
  (tr.filterMap atLock).filterMap Mutex.passes

theorem crossings_append {T : Type} (tr post : List (Label T)) :
    crossings (tr ++ post) = crossings tr ++ crossings post := by
  simp only [crossings, List.filterMap_append]

section Crossings

variable {T : Type} [DecidableEq T] {V : VariableLen} {flate : Flate} {aead : Aead} {key : AesKey}
  {nonce : Nonce} {s : State T} {tr : List (Label T)}

/-- A step is one of the lock, or the lock is not concerned. -/
theorem Step.atLock {s s' : State T} {e : Label T} (hstep : Step V flate aead s e s') :
    Run.Answers (Mutex.Step (IsSection V flate aead)) (s'.lock = ·) s.lock (atLock e) := by
  cases hstep with
  | send _ houtside => exact ⟨_, .reach .send houtside, rfl⟩
  | fetched _ houtside _ => exact ⟨_, .reach .recv houtside, rfl⟩
  | lock _ hlock | act _ hlock | unlock _ hlock => exact ⟨_, hlock, rfl⟩
  | recv | notFetched | wrote | returned => exact rfl

/-- At the lock, a run is a run of the lock. -/
theorem lock_run (hrun : Run (Step V flate aead) (start T key nonce) tr s) :
    Run (Mutex.Step (IsSection V flate aead)) (Mutex.start (Cipher.new (key, nonce)))
      (tr.filterMap atLock) s.lock := by
  have hall : Throughout (fun _ _ => True) tr := fun _ _ _ _ => trivial
  obtain ⟨l, hlock, rfl⟩ := Run.simulation (R := fun _ s l => s.lock = l)
    (fun _ hl hstep => hl ▸ hstep.atLock) hrun hall rfl
  exact hlock

/-- What the lock, the section that runs and the slot are in a run. -/
structure Reached (V : VariableLen) (flate : Flate) (aead : Aead) (key : AesKey) (nonce : Nonce)
    (tr : List (Label T)) (s : State T) (a : Mutex.Serial T Cipher Note Result) (slot : Slot T) :
    Prop where
  shows : Mutex.Shows (IsSection V flate aead) s.lock a
  serial : Run (Mutex.SerialStep (IsSection V flate aead)) ⟨Cipher.new (key, nonce), none⟩
    (crossings tr) a
  slotRun : Run SlotStep (.full nonce) (crossings tr) slot
  inSlot : InSlot V flate aead key slot a

theorem reached (hrun : Run (Step V flate aead) (start T key nonce) tr s) :
    ∃ a slot, Reached V flate aead key nonce tr s a slot := by
  obtain ⟨a, hserial, hshows⟩ := Mutex.serializes (lock_run hrun)
  obtain ⟨slot, hslot, hin⟩ := slot_run hserial
  exact ⟨a, slot, hshows, hserial, hslot, hin⟩

end Crossings

/-! ## Steps of one thread -/

section Frame

variable {T : Type} [DecidableEq T] {V : VariableLen} {flate : Flate} {aead : Aead}
  {s s' : State T} {e : Label T} {t : T}

/-- A step of one thread leaves the others where they are. -/
theorem Step.frame (hstep : Step V flate aead s e s') (hne : t ≠ e.thread) :
    s'.stage t = s.stage t ∧ s'.lock.phase t = s.lock.phase t := by
  cases hstep with
  | send | fetched =>
    exact ⟨Function.update_of_ne hne _ _, Function.update_of_ne hne _ _⟩
  | recv | notFetched | wrote | returned => exact ⟨Function.update_of_ne hne _ _, rfl⟩
  | lock _ hlock | act _ hlock => exact ⟨rfl, hlock.phase_of_ne hne⟩
  | unlock _ hlock => exact ⟨Function.update_of_ne hne _ _, hlock.phase_of_ne hne⟩

/-- A step of another thread leaves the cipher of the thread that is inside. -/
theorem Step.data_of_ne {a : Mutex.Serial T Cipher Note Result}
    (hshows : Mutex.Shows (IsSection V flate aead) s.lock a) (hstep : Step V flate aead s e s')
    {body : CipherSection} (hinside : s.lock.phase t = .inside body) (hne : t ≠ e.thread) :
    s'.lock.data = s.lock.data := by
  cases hstep with
  | send | recv | fetched | notFetched | wrote | returned => rfl
  | lock _ hlock | act _ hlock | unlock _ hlock => exact hshows.data_of_ne hlock hinside hne

/-- No thread is in a critical section. -/
def Free (s : State T) : Prop := ∀ t body, s.lock.phase t ≠ .inside body

end Frame

end TcpHandler.Session.Shared
