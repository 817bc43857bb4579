/-
  Session/Linear.lean --- the critical sections of a shared cipher, one after the
  other.

  However the steps of threads interleave, their sections might as well have been
  run at once, in the order in which they let go of the lock: each finds the nonce
  that the one before it left, or nothing, and leaves the nonce that its `send` drew
  or that its `recv` found in the packet, or nothing (`Atomic`).

  What a section is given is read off the labels: what the thread called, and which
  packet it read (`tracked`).
-/
import TcpHandler.Session.Ciphered
import TcpHandler.Session.Threads

set_option autoImplicit false

namespace TcpHandler.Session.Shared

open TcpHandler.Foundation TcpHandler.Protocols
open TcpHandler.Session.Ciphered (cipherOf)

/-! ## Sections in one step -/

/-- A critical section, with what it is given. -/
inductive Critical where
  | sealing (protocol : CipherProtocol) (level : Level) (newNonce : Nonce) (message : Buf)
  | opening (protocol : CipherProtocol) (packet : Bytes)

/-- A critical section that is over. -/
structure Finished (T : Type) where
  thread : T
  critical : Critical
  result : Result

section Sections

variable (V : VariableLen) (flate : Flate) (aead : Aead)

/-- The steps of a section. -/
def Critical.body : Critical → CipherSection
  | .sealing protocol level newNonce message =>
      sealSection aead newNonce ((protocol.payload V flate).compose level newNonce message)
  | .opening protocol packet => openSection V flate aead protocol packet

/-- The section of `Protocols/Sealed.lean`. -/
def Critical.outcome : Critical → Cipher → Result × Cipher
  | .sealing protocol level newNonce message =>
      (Sealed.sealMessage (protocol.payload V flate) aead level newNonce message).outcome
  | .opening protocol packet => (Sealed.openPacket (protocol.payload V flate) aead packet).outcome

/-- What a section finds in the slot, what it returns, and what it leaves. -/
inductive Atomic {T : Type} (key : AesKey) : Option Nonce → Finished T → Option Nonce → Prop
  | sealed {t : T} {protocol : CipherProtocol} {level : Level} {nonce newNonce : Nonce}
      {message : Buf} {packet : Bytes} (hencrypt : aead.encryptInPlace key nonce
        ((protocol.payload V flate).compose level newNonce message) = .ok packet) :
      Atomic key (some nonce) ⟨t, .sealing protocol level newNonce message, .ok packet⟩
        (some newNonce)
  | opened {t : T} {protocol : CipherProtocol} {nonce newNonce : Nonce}
      {packet plain message : Bytes} (hdecrypt : aead.decryptInPlace key nonce packet = .ok plain)
      (hparse : (protocol.payload V flate).parse plain = .ok (newNonce, message)) :
      Atomic key (some nonce) ⟨t, .opening protocol packet, .ok message⟩ (some newNonce)
  | notEncrypted {t : T} {protocol : CipherProtocol} {level : Level} {nonce newNonce : Nonce}
      {message : Buf} {e : AeadError} (hencrypt : aead.encryptInPlace key nonce
        ((protocol.payload V flate).compose level newNonce message) = .error e) :
      Atomic key (some nonce)
        ⟨t, .sealing protocol level newNonce message, .error (.error (.aes e))⟩ none
  | notDecrypted {t : T} {protocol : CipherProtocol} {nonce : Nonce} {packet : Bytes}
      {e : AeadError} (hdecrypt : aead.decryptInPlace key nonce packet = .error e) :
      Atomic key (some nonce) ⟨t, .opening protocol packet, .error (.error (.aes e))⟩ none
  | notParsed {t : T} {protocol : CipherProtocol} {nonce : Nonce} {packet plain : Bytes}
      {e : IoError} (hdecrypt : aead.decryptInPlace key nonce packet = .ok plain)
      (hparse : (protocol.payload V flate).parse plain = .error e) :
      Atomic key (some nonce) ⟨t, .opening protocol packet, .error (.error (.io e))⟩ none
  | broken {t : T} {critical : Critical} :
      Atomic key none ⟨t, critical, .error (.error .broken)⟩ none

variable {V flate aead} {T : Type} {key : AesKey}

theorem Critical.run_body (critical : Critical) (cipher : Cipher) :
    (critical.body V flate aead).run cipher = critical.outcome V flate aead cipher := by
  cases critical with
  | sealing protocol level newNonce message => exact sealSection_run _ level newNonce message cipher
  | opening protocol packet => exact openSection_run protocol packet cipher

/-- A section of `Protocols/Sealed.lean` is one step. -/
theorem Critical.atomic (critical : Critical) (held : Option Nonce) (t : T) {result : Result}
    {cipher : Cipher} (h : critical.outcome V flate aead (cipherOf key held) = (result, cipher)) :
    ∃ held', Atomic V flate aead key held ⟨t, critical, result⟩ held' ∧
      cipher = cipherOf key held' := by
  cases critical with
  | sealing protocol level newNonce message =>
    rw [outcome] at h
    cases held with
    | none =>
      rw [Ciphered.outcome_seal_none] at h
      cases h
      exact ⟨none, .broken, rfl⟩
    | some nonce =>
      rw [Ciphered.outcome_seal_some] at h
      split at h
      · cases h
        exact ⟨none, .notEncrypted ‹_›, rfl⟩
      · cases h
        exact ⟨some newNonce, .sealed ‹_›, rfl⟩
  | opening protocol packet =>
    rw [outcome] at h
    cases held with
    | none =>
      rw [Ciphered.outcome_open_none] at h
      cases h
      exact ⟨none, .broken, rfl⟩
    | some nonce =>
      rw [Ciphered.outcome_open_some] at h
      split at h
      · cases h
        exact ⟨none, .notDecrypted ‹_›, rfl⟩
      · split at h
        · cases h
          exact ⟨none, .notParsed ‹_› ‹_›, rfl⟩
        · cases h
          exact ⟨_, .opened ‹_› ‹_›, rfl⟩

end Sections

/-! ## Threads and their sections -/

/-- What a thread has called. -/
inductive Pending where
  | nothing
  /-- `recv`, which has not read its packet -/
  | fetch (protocol : CipherProtocol)
  | critical (critical : Critical)

/-- What each thread has called last, and the sections that are over. -/
structure Tracking (T : Type) where
  pending : T → Pending
  finished : List (Finished T)

section Tracking

variable {T : Type}

/-- Who let go of the lock, and with which result. -/
def unlocks (tr : List (Label T)) : List (T × Result) :=
  tr.filterMap fun
    | .unlock t result => some (t, result)
    | _ => none

theorem unlocks_append (tr post : List (Label T)) :
    unlocks (tr ++ post) = unlocks tr ++ unlocks post :=
  List.filterMap_append

variable [DecidableEq T]

def Tracking.put (k : Tracking T) (t : T) (pending : Pending) : Tracking T :=
  { k with pending := Function.update k.pending t pending }

/-- What a label tells of the thread that moves. -/
def Tracking.next (k : Tracking T) : Label T → Tracking T
  | .began t (.send protocol level _ newNonce message) =>
      k.put t (.critical (.sealing protocol level newNonce message))
  | .began t (.recv protocol _) => k.put t (.fetch protocol)
  | .fetched t (.ok packet) =>
      match k.pending t with
      | .fetch protocol => k.put t (.critical (.opening protocol packet))
      | _ => k
  | .unlock t result =>
      match k.pending t with
      | .critical critical => { k with finished := k.finished ++ [⟨t, critical, result⟩] }
      | _ => k
  | _ => k

/-- What the labels of a run tell. -/
def tracked (tr : List (Label T)) : Tracking T := tr.foldl Tracking.next ⟨fun _ => .nothing, []⟩

/-- The sections that are over, in the order in which they let go of the lock. -/
def finished (tr : List (Label T)) : List (Finished T) := (tracked tr).finished

theorem tracked_snoc (tr : List (Label T)) (e : Label T) :
    tracked (tr ++ [e]) = (tracked tr).next e := by
  simp [tracked]

/-- A label tells nothing of the other threads. -/
theorem Tracking.pending_of_ne (k : Tracking T) {e : Label T} {t : T} (hne : t ≠ e.thread) :
    (k.next e).pending t = k.pending t := by
  rcases e with ⟨u, call⟩ | ⟨u, result⟩ | u | _ | ⟨u, result⟩ | _ | _
  · cases call <;> exact Function.update_of_ne hne _ _
  · cases result with
    | error e => rfl
    | ok packet =>
      rw [next]
      cases k.pending u with
      | fetch protocol => exact Function.update_of_ne hne _ _
      | nothing | critical => rfl
  · rfl
  · rfl
  · rw [next]
    cases k.pending u <;> rfl
  · rfl
  · rfl

end Tracking

/-! ## Runs -/

section Runs

variable {T : Type} {V : VariableLen} {flate : Flate} {aead : Aead} {key : AesKey} {nonce : Nonce}
  {k : Tracking T} {s s' : State T} {held held' : Option Nonce} {t : T}
  {e : Label T} {tr : List (Label T)}

/-- Where a thread is, and what is known of it.  What is left of a section that runs
makes of the cipher what the whole section makes of the nonce it found. -/
inductive Placed (V : VariableLen) (flate : Flate) (aead : Aead) (key : AesKey) (k : Tracking T)
    (s : State T) (held : Option Nonce) (t : T) : Prop
  | resting (hstage : ∀ protocol limit, s.stage t ≠ .fetching protocol limit)
      (houtside : s.lock.phase t = .outside)
  | fetching {protocol : CipherProtocol} {limit : Usize}
      (hstage : s.stage t = .fetching protocol limit)
      (houtside : s.lock.phase t = .outside) (hpending : k.pending t = .fetch protocol)
  | waiting {purpose : Purpose} {critical : Critical} (hstage : s.stage t = .critical purpose)
      (hwaiting : s.lock.phase t = .waiting (critical.body V flate aead))
      (hpending : k.pending t = .critical critical)
  | inside {purpose : Purpose} {critical : Critical} {body : CipherSection}
      (hstage : s.stage t = .critical purpose) (hinside : s.lock.phase t = .inside body)
      (hpending : k.pending t = .critical critical)
      (hrun : body.run s.lock.data = critical.outcome V flate aead (cipherOf key held))

/-- A thread in no critical section, and not on its way into one, is outside. -/
theorem Placed.outside (h : Placed V flate aead key k s held t)
    (hstage : ∀ purpose, s.stage t ≠ .critical purpose) : s.lock.phase t = .outside := by
  cases h with
  | resting _ houtside => exact houtside
  | fetching _ houtside => exact houtside
  | waiting hcritical => exact absurd hcritical (hstage _)
  | inside hcritical => exact absurd hcritical (hstage _)

/-- A thread that reads its packet has called `recv`. -/
theorem Placed.of_fetching (h : Placed V flate aead key k s held t) {protocol : CipherProtocol}
    {limit : Usize} (hfetching : s.stage t = .fetching protocol limit) :
    k.pending t = .fetch protocol := by
  cases h with
  | resting hstage => exact absurd hfetching (hstage _ _)
  | fetching hstage _ hpending =>
    cases hstage.symm.trans hfetching
    exact hpending
  | waiting hstage | inside hstage => cases hstage.symm.trans hfetching

/-- A thread at the lock has the section that it has called. -/
theorem Placed.of_waiting (h : Placed V flate aead key k s held t) {body : CipherSection}
    (hat : s.lock.phase t = .waiting body) :
    ∃ purpose critical, s.stage t = .critical purpose ∧ body = critical.body V flate aead ∧
      k.pending t = .critical critical := by
  cases h with
  | resting _ houtside | fetching _ houtside => cases houtside.symm.trans hat
  | inside _ hinside => cases hinside.symm.trans hat
  | waiting hstage hwaiting hpending =>
    cases hwaiting.symm.trans hat
    exact ⟨_, _, hstage, rfl, hpending⟩

/-- A thread inside has a part of the section that it has called. -/
theorem Placed.of_inside (h : Placed V flate aead key k s held t) {body : CipherSection}
    (hin : s.lock.phase t = .inside body) :
    ∃ purpose critical, s.stage t = .critical purpose ∧ k.pending t = .critical critical ∧
      body.run s.lock.data = critical.outcome V flate aead (cipherOf key held) := by
  cases h with
  | resting _ houtside | fetching _ houtside => cases houtside.symm.trans hin
  | waiting _ hwaiting => cases hwaiting.symm.trans hin
  | inside hstage hinside hpending hrun =>
    cases hinside.symm.trans hin
    exact ⟨_, _, hstage, hpending, hrun⟩

variable [DecidableEq T]

/-- The sections that are over, as steps from the first nonce to the one that is held
when no section runs. -/
structure Linear (V : VariableLen) (flate : Flate) (aead : Aead) (key : AesKey) (nonce : Nonce)
    (tr : List (Label T)) (s : State T) (held : Option Nonce) : Prop where
  placed : ∀ t, Placed V flate aead key (tracked tr) s held t
  run : Run (Atomic V flate aead key) (some nonce) (finished tr) held
  free : Free s → s.lock.data = cipherOf key held
  unlocked : (finished tr).map (fun done => (done.thread, done.result)) = unlocks tr

theorem linear_start :
    Linear V flate aead key nonce [] (start T key nonce) (some nonce) where
  placed _ := .resting (fun _ _ h => by cases h) rfl
  run := .nil
  free _ := rfl
  unlocked := rfl

/-- A step of another thread. -/
theorem Placed.frame (h : Placed V flate aead key k s held t) (hne : t ≠ e.thread)
    (hstep : Step V flate aead s e s')
    (hrun : ∀ body, s.lock.phase t = .inside body → s'.lock.data = s.lock.data ∧ held' = held) :
    Placed V flate aead key (k.next e) s' held' t := by
  obtain ⟨hstage', hphase'⟩ := hstep.frame hne
  have hpending' := k.pending_of_ne hne
  cases h with
  | resting hstage houtside => exact .resting (hstage' ▸ hstage) (hphase'.trans houtside)
  | fetching hstage houtside hpending =>
    exact .fetching (hstage'.trans hstage) (hphase'.trans houtside) (hpending'.trans hpending)
  | waiting hstage hwaiting hpending =>
    exact .waiting (hstage'.trans hstage) (hphase'.trans hwaiting) (hpending'.trans hpending)
  | inside hstage hinside hpending hbody =>
    obtain ⟨hdata, rfl⟩ := hrun _ hinside
    exact .inside (hstage'.trans hstage) (hphase'.trans hinside) (hpending'.trans hpending)
      (hdata ▸ hbody)

/-- What a step makes of the thread that takes it, and of the sections that are over. -/
structure Moved (V : VariableLen) (flate : Flate) (aead : Aead) (key : AesKey) (nonce : Nonce)
    (k : Tracking T) (e : Label T) (s' : State T) (held held' : Option Nonce) : Prop where
  placed : Placed V flate aead key (k.next e) s' held' e.thread
  run : Run (Atomic V flate aead key) (some nonce) (k.next e).finished held'
  free : Free s' → s'.lock.data = cipherOf key held'
  unlocked : (k.next e).finished.map (fun done => (done.thread, done.result)) =
    k.finished.map (fun done => (done.thread, done.result)) ++ unlocks [e]
  held : held' = held ∨ Free s'

theorem Purpose.after_ne_fetching (purpose : Purpose) (result : Result) (protocol : CipherProtocol)
    (limit : Usize) : purpose.after result ≠ .fetching protocol limit := by
  cases result <;> cases purpose <;> exact fun h => by cases h

/-! ## The thread that moves -/

/-- Outside the lock. -/
theorem Linear.outside (h : Linear V flate aead key nonce tr s held)
    (hplaced : Placed V flate aead key ((tracked tr).next e) s' held e.thread)
    (hdata : s'.lock.data = s.lock.data) (hfree : Free s' → Free s)
    (hfinished : ((tracked tr).next e).finished = (tracked tr).finished)
    (hunlocks : unlocks [e] = []) :
    Moved V flate aead key nonce (tracked tr) e s' held held where
  placed := hplaced
  run := hfinished ▸ h.run
  free hfree' := hdata.trans (h.free (hfree hfree'))
  unlocked := by rw [hfinished, hunlocks, List.append_nil]
  held := .inl rfl

/-- A call that has got past its packet or its section. -/
theorem Linear.rests (h : Linear V flate aead key nonce tr s held) {stage : Stage}
    (hcritical : ∀ purpose, s.stage e.thread ≠ .critical purpose)
    (hfetching : ∀ protocol limit, stage ≠ .fetching protocol limit)
    (hnext : (tracked tr).next e = tracked tr) (hunlocks : unlocks [e] = []) :
    Moved V flate aead key nonce (tracked tr) e
      { s with stage := Function.update s.stage e.thread stage } held held := by
  have houtside : s.lock.phase e.thread = .outside := (h.placed e.thread).outside hcritical
  refine h.outside (.resting (fun protocol limit hs => ?_) houtside) rfl id (by rw [hnext]) hunlocks
  exact hfetching protocol limit ((Function.update_self ..).symm.trans hs)

/-- A call that comes to the lock. -/
theorem Linear.reaches (h : Linear V flate aead key nonce tr s held) (critical : Critical)
    {purpose : Purpose} (houtside : s.lock.phase e.thread = .outside)
    (hnext : (tracked tr).next e = (tracked tr).put e.thread (.critical critical))
    (hunlocks : unlocks [e] = []) :
    Moved V flate aead key nonce (tracked tr) e
      { lock := s.lock.reach e.thread (critical.body V flate aead)
        stage := Function.update s.stage e.thread (.critical purpose) } held held := by
  refine h.outside (.waiting (Function.update_self ..) (Function.update_self ..) ?_) rfl
    (fun hfree u body hin => ?_) (by rw [hnext]; rfl) hunlocks
  · rw [hnext]
    exact Function.update_self ..
  · have hne : u ≠ e.thread := by
      rintro rfl
      cases houtside.symm.trans hin
    exact hfree u body ((Function.update_of_ne hne _ _).trans hin)

/-- A section that runs. -/
theorem Linear.runs (h : Linear V flate aead key nonce tr s held) {critical : Critical}
    {purpose : Purpose} {body : CipherSection} {lock' : Mutex.State T Cipher Note Result}
    (hstage : s.stage e.thread = .critical purpose)
    (hinside : lock'.phase e.thread = .inside body)
    (hpending : (tracked tr).pending e.thread = .critical critical)
    (hrun : body.run lock'.data = critical.outcome V flate aead (cipherOf key held))
    (hnext : (tracked tr).next e = tracked tr) (hunlocks : unlocks [e] = []) :
    Moved V flate aead key nonce (tracked tr) e { s with lock := lock' } held held where
  placed := .inside hstage hinside (by rw [hnext]; exact hpending) hrun
  run := by rw [hnext]; exact h.run
  free hfree := absurd hinside (hfree _ _)
  unlocked := by rw [hnext, hunlocks, List.append_nil]
  held := .inl rfl

/-- A section begins with the cipher that the last one left. -/
theorem Linear.lock_step {a : Mutex.Serial T Cipher Note Result}
    (hshows : Mutex.Shows (IsSection V flate aead) s.lock a)
    (h : Linear V flate aead key nonce tr s held) {lock' : Mutex.State T Cipher Note Result}
    (hlock : Mutex.Step (IsSection V flate aead) s.lock (.lock t) lock') :
    Moved V flate aead key nonce (tracked tr) (.lock t) { s with lock := lock' } held held := by
  cases hlock with
  | @lock _ body hwaiting hholder =>
    obtain ⟨purpose, critical, hstage, rfl, hpending⟩ := (h.placed t).of_waiting hwaiting
    have hfree : Free s := by
      intro u body hin
      rw [hshows.inside, hshows.current_of_free hholder] at hin
      cases hin
    refine h.runs hstage (Function.update_self ..) hpending ?_ rfl rfl
    rw [← h.free hfree]
    exact critical.run_body _

/-- A section goes on to what it makes of the nonce that it found. -/
theorem Linear.act_step (h : Linear V flate aead key nonce tr s held) {note : Note}
    {lock' : Mutex.State T Cipher Note Result}
    (hlock : Mutex.Step (IsSection V flate aead) s.lock (.act t note) lock') :
    Moved V flate aead key nonce (tracked tr) (.act t note) { s with lock := lock' } held held := by
  cases hlock with
  | act hin =>
    obtain ⟨purpose, critical, hstage, hpending, hrun⟩ := (h.placed t).of_inside hin
    exact h.runs hstage (Function.update_self ..) hpending hrun rfl rfl

/-- A section that ends is one step from the nonce that it found. -/
theorem Linear.unlock_step {a : Mutex.Serial T Cipher Note Result}
    (hshows : Mutex.Shows (IsSection V flate aead) s.lock a)
    (h : Linear V flate aead key nonce tr s held) {purpose : Purpose} {result : Result}
    {lock' : Mutex.State T Cipher Note Result}
    (hlock : Mutex.Step (IsSection V flate aead) s.lock (.unlock t result) lock') :
    ∃ held', Moved V flate aead key nonce (tracked tr) (.unlock t result)
      { lock := lock', stage := Function.update s.stage t (purpose.after result) } held held' := by
  cases hlock with
  | unlock hin =>
    obtain ⟨_, critical, _, hpending, hrun⟩ := (h.placed t).of_inside hin
    obtain ⟨held', hatomic, hdata⟩ := critical.atomic held t hrun.symm
    have hnext : (tracked tr).next (.unlock t result) =
        { tracked tr with finished := (tracked tr).finished ++ [⟨t, critical, result⟩] } := by
      simp only [Tracking.next, hpending]
    refine ⟨held', .resting (fun protocol limit hs => ?_) (Function.update_self ..), ?_,
      fun _ => hdata, ?_, .inr fun u body hu => ?_⟩
    · exact purpose.after_ne_fetching result protocol limit
        ((Function.update_self ..).symm.trans hs)
    · rw [hnext]
      exact h.run.snoc hatomic
    · rw [hnext, List.map_append]
      rfl
    · by_cases hut : u = t
      · subst hut
        cases (Function.update_self u _ s.lock.phase).symm.trans hu
      · exact hut (hshows.exclusive ((Function.update_of_ne hut _ _).symm.trans hu) hin)

/-- What becomes of the thread that moves. -/
theorem Linear.moved {a : Mutex.Serial T Cipher Note Result}
    (hshows : Mutex.Shows (IsSection V flate aead) s.lock a)
    (h : Linear V flate aead key nonce tr s held) (hstep : Step V flate aead s e s') :
    ∃ held', Moved V flate aead key nonce (tracked tr) e s' held held' := by
  cases hstep with
  | @send _ t protocol level limit newNonce message hstage houtside =>
    exact ⟨held, h.reaches (e := .began t (.send protocol level limit newNonce message))
      (.sealing protocol level newNonce message) houtside rfl rfl⟩
  | @recv _ t protocol limit hstage =>
    have houtside := (h.placed t).outside fun purpose hs => by cases hstage.symm.trans hs
    exact ⟨held, h.outside (.fetching (Function.update_self ..) houtside (Function.update_self ..))
      rfl id rfl rfl⟩
  | @fetched _ t protocol limit incoming left packet hstage houtside hcall =>
    have hpending := (h.placed t).of_fetching hstage
    have hnext : (tracked tr).next (.fetched t (.ok packet)) =
        (tracked tr).put t (.critical (.opening protocol packet)) := by
      simp only [Tracking.next, hpending]
    exact ⟨held, h.reaches (.opening protocol packet) houtside hnext rfl⟩
  | @notFetched _ t protocol limit incoming left error hstage =>
    exact ⟨held, h.rests (e := .fetched t (.error error))
      (fun purpose hs => by cases hstage.symm.trans hs) (by simp) rfl rfl⟩
  | @wrote W _ _ t limit packet w w' result hstage hcall =>
    exact ⟨held, h.rests (e := .wrote t result)
      (fun purpose hs => by cases hstage.symm.trans hs) (by simp) rfl rfl⟩
  | @returned _ t result hstage =>
    exact ⟨held, h.rests (e := .returned t result)
      (fun purpose hs => by cases hstage.symm.trans hs) (by simp) rfl rfl⟩
  | lock _ hlock => exact ⟨held, h.lock_step hshows hlock⟩
  | act _ hlock => exact ⟨held, h.act_step hlock⟩
  | unlock _ hlock => exact h.unlock_step hshows hlock

/-- Every step keeps the sections in order. -/
theorem Linear.step {a : Mutex.Serial T Cipher Note Result}
    (hshows : Mutex.Shows (IsSection V flate aead) s.lock a)
    (h : Linear V flate aead key nonce tr s held) (hstep : Step V flate aead s e s') :
    ∃ held', Linear V flate aead key nonce (tr ++ [e]) s' held' := by
  obtain ⟨held', hmoved⟩ := h.moved hshows hstep
  refine ⟨held', fun t => ?_, ?_, hmoved.free, ?_⟩
  · rw [tracked_snoc]
    by_cases ht : t = e.thread
    · exact ht ▸ hmoved.placed
    · refine (h.placed t).frame ht hstep fun body hin => ⟨hstep.data_of_ne hshows hin ht, ?_⟩
      refine hmoved.held.resolve_right fun hfree => hfree t body ?_
      exact (hstep.frame ht).2.trans hin
  · rw [finished, tracked_snoc]
    exact hmoved.run
  · rw [finished, tracked_snoc, unlocks_append, ← h.unlocked]
    exact hmoved.unlocked

/-- The sections of every run are steps, one after the other. -/
theorem linear_of_run (hrun : Run (Step V flate aead) (start T key nonce) tr s) :
    ∃ held, Linear V flate aead key nonce tr s held := by
  induction hrun with
  | nil => exact ⟨_, linear_start⟩
  | snoc hrun hstep ih =>
    obtain ⟨held, h⟩ := ih
    obtain ⟨a, slot, hreached⟩ := reached hrun
    exact h.step hreached.shows hstep

end Runs

end TcpHandler.Session.Shared
