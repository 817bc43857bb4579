/-
  Session/Shared.lean --- one cipher, shared by any number of threads.

  What becomes of a call is settled when it takes the lock: it returns `Broken`
  exactly when a critical section has failed before.  `cipher_guards` says what the
  threads may rely on: their sections might as well have been run one after the
  other, and none loses a nonce.  `debug_tells` says what one can see of the cipher
  from outside.
-/
import TcpHandler.Session.Linear

set_option autoImplicit false

namespace TcpHandler.Session.Shared

open TcpHandler.Foundation TcpHandler.Protocols
open TcpHandler.Session.Ciphered (cipherOf)

/-! ## Single calls -/

/-- A call that has taken the lock returns `Broken` if and only if `broken`: what is
left of its section will, or it has. -/
inductive Fated {T : Type} (broken : Prop) (t : T) (s : State T) : Prop
  | inside {purpose : Purpose} {body : CipherSection} (hstage : s.stage t = .critical purpose)
      (hinside : s.lock.phase t = .inside body)
      (hresult : (body.run s.lock.data).1 = .error (.error .broken) ↔ broken)
  | writing {limit : Usize} {packet : Bytes} (hstage : s.stage t = .writing limit packet)
      (hbroken : ¬ broken)
  | returning {result : Returned} (hstage : s.stage t = .returning result)
      (hresult : result = .error (.error .broken) ↔ broken)

/-- After the critical section. -/
theorem Fated.after {T : Type} {t : T} {s : State T} {broken : Prop} {purpose : Purpose}
    {result : Result} (hstage : s.stage t = purpose.after result)
    (hresult : result = .error (.error .broken) ↔ broken) : Fated broken t s := by
  cases result with
  | error e =>
    refine .returning (hstage.trans (by cases purpose <;> rfl)) ?_
    rw [← hresult]
    simp
  | ok packet =>
    have hbroken : ¬ broken := fun h => by cases hresult.mpr h
    cases purpose with
    | send limit => exact .writing hstage hbroken
    | recv => exact .returning hstage (by simp [hbroken])

section Calls

variable {T : Type} [DecidableEq T] {V : VariableLen} {flate : Flate} {aead : Aead}
  {s s' : State T} {e : Label T} {t : T}

/-- The steps of the call itself. -/
theorem Fated.step_self {broken : Prop} (h : Fated broken t s) (hstep : Step V flate aead s e s')
    (hthread : t = e.thread) (hreturned : ∀ result, e ≠ .returned t result) :
    Fated broken t s' := by
  cases h with
  | @inside purpose body hstage hinside hresult =>
    cases hstep with
    | send hs | recv hs | fetched hs | notFetched hs | wrote hs | returned hs =>
      obtain rfl : t = _ := hthread
      cases hstage.symm.trans hs
    | lock _ hlock =>
      obtain rfl : t = _ := hthread
      cases hlock with
      | lock hwaiting => cases hinside.symm.trans hwaiting
    | act _ hlock =>
      obtain rfl : t = _ := hthread
      cases hlock with
      | act hact =>
        cases hinside.symm.trans hact
        exact .inside hstage (Function.update_self _ _ _) hresult
    | unlock hs hlock =>
      obtain rfl : t = _ := hthread
      cases hlock with
      | unlock hdone =>
        cases hinside.symm.trans hdone
        exact .after (Function.update_self _ _ _) hresult
  | writing hstage hbroken =>
    cases hstep with
    | send hs | recv hs | fetched hs | notFetched hs | returned hs | lock hs | act hs | unlock hs =>
      obtain rfl : t = _ := hthread
      cases hstage.symm.trans hs
    | @wrote W _ _ u limit packet w w' result hs hcall =>
      obtain rfl : t = u := hthread
      refine .returning (Function.update_self _ _ _) (iff_of_false ?_ hbroken)
      cases result with
      | ok _ => exact fun h => by cases h
      | error e =>
        have hne := Sealed.error_writeSealed V (Io.run_of_outcome_error hcall)
        exact fun h => hne (by cases h; rfl)
  | returning hstage hresult =>
    cases hstep with
    | send hs | recv hs | fetched hs | notFetched hs | wrote hs | lock hs | act hs | unlock hs =>
      obtain rfl : t = _ := hthread
      cases hstage.symm.trans hs
    | returned hs =>
      obtain rfl : t = _ := hthread
      exact absurd rfl (hreturned _)

/-- Until the call returns, every step keeps what becomes of it. -/
theorem Fated.step {broken : Prop} {a : Mutex.Serial T Cipher Note Result}
    (hshows : Mutex.Shows (IsSection V flate aead) s.lock a) (h : Fated broken t s)
    (hstep : Step V flate aead s e s') (hreturned : ∀ result, e ≠ .returned t result) :
    Fated broken t s' := by
  by_cases hthread : t = e.thread
  · exact h.step_self hstep hthread hreturned
  · obtain ⟨hstage', hphase'⟩ := hstep.frame hthread
    cases h with
    | inside hstage hinside hresult =>
      refine .inside (hstage'.trans hstage) (hphase'.trans hinside) ?_
      rwa [hstep.data_of_ne hshows hinside hthread]
    | writing hstage hbroken => exact .writing (hstage'.trans hstage) hbroken
    | returning hstage hresult => exact .returning (hstage'.trans hstage) hresult

/-- What becomes of a call is settled when it takes the lock. -/
theorem fated_of_lock {key : AesKey} {nonce : Nonce} {tr : List (Label T)}
    {a : Mutex.Serial T Cipher Note Result} {slot : Slot T}
    (hreached : Reached V flate aead key nonce tr s a slot)
    (hstep : Step V flate aead s (.lock t) s') :
    Fated (Failed (crossings tr)) t s' := by
  cases hstep with
  | lock hstage hlock =>
    cases hlock with
    | lock hwaiting hfree =>
      have hcurrent := hreached.shows.current_of_free hfree
      have hdata := hreached.shows.data
      have hin := hreached.inSlot
      obtain ⟨d, current⟩ := a
      obtain rfl : current = none := hcurrent
      obtain rfl : d = s.lock.data := hdata
      obtain ⟨hpoisoned, hnone⟩ := hin.slot_none_iff
      have hbroken := (hreached.shows.waiting t _ hwaiting).broken_iff hpoisoned
      exact .inside hstage (Function.update_self _ _ _)
        (hbroken.trans (hnone.trans (lost_iff hreached.slotRun)))

/-- A call that has not taken the lock. -/
inductive Approaching {T : Type} (t : T) (s : State T) : Prop
  | fetching {protocol : CipherProtocol} {limit : Usize}
      (hstage : s.stage t = .fetching protocol limit)
  | waiting {purpose : Purpose} {body : CipherSection} (hstage : s.stage t = .critical purpose)
      (hwaiting : s.lock.phase t = .waiting body)
  | failed {e : Fault PacketError} (hstage : s.stage t = .returning (.error e))

theorem approaching_of_began {call : Call} (hstep : Step V flate aead s (.began t call) s') :
    Approaching t s' := by
  cases hstep with
  | send => exact .waiting (Function.update_self _ _ _) (Function.update_self _ _ _)
  | recv => exact .fetching (Function.update_self _ _ _)

/-- Without the lock, a call can only fail. -/
theorem Approaching.step_self (h : Approaching t s) (hstep : Step V flate aead s e s')
    (hthread : t = e.thread) (hlock : e ≠ .lock t) (hreturned : ∀ result, e ≠ .returned t result) :
    Approaching t s' := by
  cases h with
  | fetching hstage =>
    cases hstep with
    | send hs | recv hs | wrote hs | returned hs | lock hs | act hs | unlock hs =>
      obtain rfl : t = _ := hthread
      cases hstage.symm.trans hs
    | fetched =>
      obtain rfl : t = _ := hthread
      exact .waiting (Function.update_self _ _ _) (Function.update_self _ _ _)
    | notFetched =>
      obtain rfl : t = _ := hthread
      exact .failed (Function.update_self _ _ _)
  | waiting hstage hwaiting =>
    cases hstep with
    | send hs | recv hs | fetched hs | notFetched hs | wrote hs | returned hs =>
      obtain rfl : t = _ := hthread
      cases hstage.symm.trans hs
    | lock =>
      obtain rfl : t = _ := hthread
      exact absurd rfl hlock
    | act _ hact =>
      obtain rfl : t = _ := hthread
      cases hact with
      | act hinside => cases hwaiting.symm.trans hinside
    | unlock _ hdone =>
      obtain rfl : t = _ := hthread
      cases hdone with
      | unlock hinside => cases hwaiting.symm.trans hinside
  | failed hstage =>
    cases hstep with
    | send hs | recv hs | fetched hs | notFetched hs | wrote hs | lock hs | act hs | unlock hs =>
      obtain rfl : t = _ := hthread
      cases hstage.symm.trans hs
    | returned =>
      obtain rfl : t = _ := hthread
      exact absurd rfl (hreturned _)

theorem Approaching.step (h : Approaching t s) (hstep : Step V flate aead s e s')
    (hlock : e ≠ .lock t) (hreturned : ∀ result, e ≠ .returned t result) : Approaching t s' := by
  by_cases hthread : t = e.thread
  · exact h.step_self hstep hthread hlock hreturned
  · obtain ⟨hstage', hphase'⟩ := hstep.frame hthread
    cases h with
    | fetching hstage => exact .fetching (hstage'.trans hstage)
    | waiting hstage hwaiting => exact .waiting (hstage'.trans hstage) (hphase'.trans hwaiting)
    | failed hstage => exact .failed (hstage'.trans hstage)

end Calls

/-! ## Whole runs -/

section Runs

variable {T : Type} [DecidableEq T] {V : VariableLen} {flate : Flate} {aead : Aead} {key : AesKey}
  {nonce : Nonce} {s s₁ s₂ : State T} {t : T} {tr pre mid post : List (Label T)}

/-- A step that returns. -/
theorem Step.stage_of_returned {result : Returned}
    (hstep : Step V flate aead s (.returned t result) s₁) : s.stage t = .returning result := by
  cases hstep with
  | returned hstage => exact hstage

/-- What has become of a call that has taken the lock. -/
theorem fated_of_run (hpre : Run (Step V flate aead) (start T key nonce) pre s)
    (hlock : Step V flate aead s (.lock t) s₁) (hmid : Run (Step V flate aead) s₁ mid s₂)
    (hreturned : ∀ result, .returned t result ∉ mid) : Fated (Failed (crossings pre)) t s₂ := by
  induction hmid with
  | nil =>
    obtain ⟨a, slot, hreached⟩ := reached hpre
    exact fated_of_lock hreached hlock
  | @snoc mid s₂ s₃ e hmid hstep ih =>
    obtain ⟨a, slot, hreached⟩ := reached ((hpre.snoc hlock).append hmid)
    have hbefore : ∀ result, .returned t result ∉ mid :=
      fun result hmem => hreturned result (List.mem_append_left _ hmem)
    refine (ih hbefore).step hreached.shows hstep fun result heq => hreturned result ?_
    simp [heq]

/-- A call that takes the lock returns `Broken` exactly when a section has failed
before. -/
theorem broken_iff {result : Returned} (hrun : Run (Step V flate aead) (start T key nonce) tr s)
    (htr : tr = pre ++ .lock t :: (mid ++ .returned t result :: post))
    (hreturned : ∀ result, .returned t result ∉ mid) :
    result = .error (.error .broken) ↔ Failed (crossings pre) := by
  subst htr
  obtain ⟨s₁, hpre, hrest⟩ := hrun.split
  obtain ⟨s₂, hlock, hrest⟩ := Run.cons_iff.mp hrest
  obtain ⟨s₃, hmid, hrest⟩ := hrest.split
  obtain ⟨s₄, hreturn, _⟩ := Run.cons_iff.mp hrest
  have hstage := hreturn.stage_of_returned
  cases fated_of_run hpre hlock hmid hreturned with
  | inside hs => cases hstage.symm.trans hs
  | writing hs => cases hstage.symm.trans hs
  | returning hs hresult =>
    cases hstage.symm.trans hs
    exact hresult

/-- A call that never takes the lock returns an error. -/
theorem error_of_not_lock {call : Call} {result : Returned}
    (hbegan : Step V flate aead s (.began t call) s₁) (hmid : Run (Step V flate aead) s₁ mid s₂)
    (hlock : .lock t ∉ mid) (hreturned : ∀ result, .returned t result ∉ mid)
    (hstage : s₂.stage t = .returning result) : ∃ e, result = .error e := by
  have happroaching : Approaching t s₂ := by
    clear hstage
    induction hmid with
    | nil => exact approaching_of_began hbegan
    | @snoc mid s₂ s₃ e hmid hstep ih =>
      have hbefore := ih (fun hmem => hlock (List.mem_append_left _ hmem))
        fun result hmem => hreturned result (List.mem_append_left _ hmem)
      refine hbefore.step hstep (fun heq => hlock ?_) fun result heq => hreturned result ?_
      · simp [heq]
      · simp [heq]
  cases happroaching with
  | fetching hs => cases hstage.symm.trans hs
  | waiting hs => cases hstage.symm.trans hs
  | @failed e hs =>
    cases hstage.symm.trans hs
    exact ⟨e, rfl⟩

/-- A call that begins after a section has failed returns an error. -/
theorem error_of_failed {call : Call} {result : Returned}
    (hrun : Run (Step V flate aead) (start T key nonce) tr s)
    (htr : tr = pre ++ .began t call :: (mid ++ .returned t result :: post))
    (hreturned : ∀ result, .returned t result ∉ mid) (hfailed : Failed (crossings pre)) :
    ∃ e, result = .error e := by
  by_cases hlock : .lock t ∈ mid
  · obtain ⟨before, after, rfl⟩ := List.append_of_mem hlock
    have hsplit : tr = (pre ++ .began t call :: before) ++
        .lock t :: (after ++ .returned t result :: post) := by simp [htr]
    have hafter : ∀ result, .returned t result ∉ after := fun result hmem =>
      hreturned result (List.mem_append_right _ (List.mem_cons_of_mem _ hmem))
    refine ⟨_, (broken_iff hrun hsplit hafter).mpr ?_⟩
    rw [crossings_append, failed_append]
    exact .inl hfailed
  · subst htr
    obtain ⟨s₁, _, hrest⟩ := hrun.split
    obtain ⟨s₂, hbegan, hrest⟩ := Run.cons_iff.mp hrest
    obtain ⟨s₃, hmid, hrest⟩ := hrest.split
    obtain ⟨s₄, hreturn, _⟩ := Run.cons_iff.mp hrest
    exact error_of_not_lock hbegan hmid hlock hreturned hreturn.stage_of_returned

end Runs

/-! ## The cipher -/

section Cipher

variable {T : Type} [DecidableEq T] {V : VariableLen} {flate : Flate} {aead : Aead} {key : AesKey}
  {nonce : Nonce} {s : State T} {tr : List (Label T)}

/-- What a shared cipher guarantees its threads.

* `exclusive`, `serial`: no two threads are in a critical section, and what passes
  through the lock is the steps of critical sections that run one at a time.
* `linear`, `unlocked`: the sections that are over, with what their calls were given and
  what they returned, are steps of a nonce: each found the one that the section before
  it left, and left the one that its `send` drew or its `recv` found in the packet, or
  nothing when it failed.  While no section runs, the cipher is what the last one left.
* `chained`: the sections that reach `Cipher::reset` are those that took the cipher,
  in this order (the last may still work, or have failed), and each began with the
  nonce that the one before it stored.
* `empty_iff`: the slot is empty while a section has the cipher, and after one failed.
* `found_empty`: a thread finds the slot empty only after a section has failed.
* `broken_iff`: a call that takes the lock returns `Broken` exactly when a section has
  failed before it took the lock.
* `error_of_failed`: a call that begins after a section has failed returns an error.
* `lost`, `lost_forever`: then the slot is empty, no section takes the cipher, and none
  puts one back. -/
structure Guards (V : VariableLen) (flate : Flate) (aead : Aead) (key : AesKey) (nonce : Nonce)
    (tr : List (Label T)) (s : State T) : Prop where
  exclusive : ∀ t u body body',
    s.lock.phase t = .inside body → s.lock.phase u = .inside body' → t = u
  serial : ∃ a, Run (Mutex.SerialStep (IsSection V flate aead)) ⟨Cipher.new (key, nonce), none⟩
    (crossings tr) a
  linear : ∃ held, Run (Atomic V flate aead key) (some nonce) (finished tr) held ∧
    (Free s → s.lock.data = cipherOf key held)
  unlocked : (finished tr).map (fun done => (done.thread, done.result)) = unlocks tr
  chained : (stores (crossings tr)).map Prod.fst <+: (takes (crossings tr)).map Prod.fst ∧
    (takes (crossings tr)).map Prod.snd <+: nonce :: (stores (crossings tr)).map Prod.snd
  empty_iff : s.lock.data.slot = none ↔
    (takes (crossings tr)).length ≠ (stores (crossings tr)).length
  found_empty : ∀ pre t post, crossings tr = pre ++ .act t (.take none) :: post → Failed pre
  broken_iff : ∀ pre t mid result post, tr = pre ++ .lock t :: (mid ++ .returned t result :: post) →
    (∀ result, .returned t result ∉ mid) →
      (result = .error (.error .broken) ↔ Failed (crossings pre))
  error_of_failed : ∀ pre t call mid result post,
    tr = pre ++ .began t call :: (mid ++ .returned t result :: post) →
    (∀ result, .returned t result ∉ mid) → Failed (crossings pre) → ∃ e, result = .error e
  lost : Failed (crossings tr) → s.lock.data.slot = none
  lost_forever : ∀ pre e post, crossings tr = pre ++ e :: post → Failed pre →
    ∀ t held, e ≠ .act t (.take (some held)) ∧ e ≠ .act t (.reset held)

/-- However its threads interleave, a shared cipher loses no nonce, and is broken
exactly when one of its critical sections has failed. -/
theorem cipher_guards (hrun : Run (Step V flate aead) (start T key nonce) tr s) :
    Guards V flate aead key nonce tr s := by
  obtain ⟨a, slot, hreached⟩ := reached hrun
  have hbalanced := balanced_of_run hreached.slotRun
  have hforever := lost_forever hreached.slotRun
  obtain ⟨held, hlinear⟩ := linear_of_run hrun
  have hfull := hreached.inSlot.slot_isSome_iff
  rw [hreached.shows.data, hbalanced.full_iff] at hfull
  exact
    { exclusive := fun t u body body' ht hu => hreached.shows.exclusive ht hu
      serial := ⟨a, hreached.serial⟩
      linear := ⟨held, hlinear.run, hlinear.free⟩
      unlocked := hlinear.unlocked
      chained := hbalanced.chained
      empty_iff := by
        rw [← Option.not_isSome_iff_eq_none, hfull]
      found_empty := fun pre t post htr => (hforever pre _ post htr).1 t rfl
      broken_iff := fun pre t mid result post htr => broken_iff hrun htr
      error_of_failed := fun pre t call mid result post htr => error_of_failed hrun htr
      lost := by
        intro hfailed
        have hlost := (lost_iff hreached.slotRun).mpr hfailed
        have hnone : ¬ a.data.slot.isSome := by
          rw [hreached.inSlot.slot_isSome_iff, hlost]
          rintro ⟨held, hheld⟩
          cases hheld
        rwa [Option.not_isSome_iff_eq_none, hreached.shows.data] at hnone
      lost_forever := fun pre e post htr => (hforever pre e post htr).2 }

/-- The message `[7]` and the next nonce, encrypted under the first. -/
def sealedPacket : Bytes :=
  (Reference.nonce 1).bytes ++ [7] ++ Reference.tag (Reference.nonce 0)

/-- Two threads: one sends, the other receives a packet that does not decrypt, and the
first sends again. -/
def failingRun : List (Label Bool) :=
  [.began true (.recv .encrypt 64),
    .began false (.send .encrypt 0 64 (Reference.nonce 1) [[7]]),
    .lock false,
    .act false (.take (some (Reference.nonce 0))),
    .fetched true (.ok []),
    .act false (.work .encrypt true),
    .act false (.reset (Reference.nonce 1)),
    .unlock false (.ok sealedPacket),
    .lock true,
    .wrote false (.ok ()),
    .act true (.take (some (Reference.nonce 1))),
    .returned false (.ok none),
    .began false (.send .encrypt 0 64 (Reference.nonce 2) [[8]]),
    .act true (.work .decrypt false),
    .unlock true (.error (.error (.aes .failure))),
    .lock false,
    .act false (.take none),
    .unlock false (.error (.error .broken)),
    .returned true (.error (.error (.aes .failure))),
    .returned false (.error (.error .broken))]

/-- A run in which one thread fails and the other finds the cipher broken. -/
theorem cipher_guards_failing :
    ∃ s, Run (Step Reference.variableLen Reference.flate Reference.aead)
        (start Bool Reference.key (Reference.nonce 0)) failingRun s ∧
      Guards Reference.variableLen Reference.flate Reference.aead Reference.key (Reference.nonce 0)
        failingRun s := by
  have hpacket : (readPacket Reference.variableLen 64).outcome [0] = (.ok [], []) := rfl
  have hwrite : (Sealed.writeSealed Reference.variableLen 64 sealedPacket).outcome ([] : Bytes) =
      (.ok (), 29 :: sealedPacket) := rfl
  have h₀ : Run (Step Reference.variableLen Reference.flate Reference.aead)
      (start Bool Reference.key (Reference.nonce 0)) [] _ := .nil
  have h₁ := h₀.snoc (e := .began true (.recv .encrypt 64)) (.recv rfl)
  have h₂ := h₁.snoc (e := .began false (.send .encrypt 0 64 (Reference.nonce 1) [[7]]))
    (.send rfl rfl)
  have h₃ := h₂.snoc (.lock (t := false) rfl (.lock rfl rfl))
  have h₄ := h₃.snoc (.act (t := false) rfl (.act rfl))
  have h₅ := h₄.snoc (.fetched (t := true) rfl rfl hpacket)
  have h₆ := h₅.snoc (.act (t := false) rfl (.act rfl))
  have h₇ := h₆.snoc (.act (t := false) rfl (.act rfl))
  have h₈ := h₇.snoc (.unlock (t := false) rfl (.unlock rfl))
  have h₉ := h₈.snoc (.lock (t := true) rfl (.lock rfl rfl))
  have h₁₀ := h₉.snoc (.wrote (t := false) rfl hwrite)
  have h₁₁ := h₁₀.snoc (.act (t := true) rfl (.act rfl))
  have h₁₂ := h₁₁.snoc (.returned (t := false) rfl)
  have h₁₃ := h₁₂.snoc (e := .began false (.send .encrypt 0 64 (Reference.nonce 2) [[8]]))
    (.send rfl rfl)
  have h₁₄ := h₁₃.snoc (.act (t := true) rfl (.act rfl))
  have h₁₅ := h₁₄.snoc (.unlock (t := true) rfl (.unlock rfl))
  have h₁₆ := h₁₅.snoc (.lock (t := false) rfl (.lock rfl rfl))
  have h₁₇ := h₁₆.snoc (.act (t := false) rfl (.act rfl))
  have h₁₈ := h₁₇.snoc (.unlock (t := false) rfl (.unlock rfl))
  have h₁₉ := h₁₈.snoc (.returned (t := true) rfl)
  have h₂₀ := h₁₉.snoc (.returned (t := false) rfl)
  exact ⟨_, h₂₀, cipher_guards h₂₀⟩

end Cipher

/-! ## What `Debug` shows -/

/-- `Debug for Cipher`: its one field.  `try_lock` fails while a thread holds the lock,
and when the lock is poisoned. -/
def shown {T : Type} (lock : Mutex.State T Cipher Note Result) : String :=
  if lock.holder.isSome || lock.data.poisoned then "<locked>"
  else if lock.data.slot.isSome then "<unlocked>"
  else "<broken>"

section Debug

variable {T : Type} [DecidableEq T] {V : VariableLen} {flate : Flate} {aead : Aead} {key : AesKey}
  {nonce : Nonce} {s s' : State T} {tr : List (Label T)}

/-- What is shown in each state that a run reaches. -/
theorem shown_of_run (hrun : Run (Step V flate aead) (start T key nonce) tr s) :
    (¬ Free s ∧ shown s.lock = "<locked>") ∨
      (Free s ∧ Failed (crossings tr) ∧ shown s.lock = "<broken>") ∨
      (Free s ∧ ¬ Failed (crossings tr) ∧ shown s.lock = "<unlocked>") := by
  obtain ⟨⟨d, current⟩, slot, hreached⟩ := reached hrun
  have hlost := lost_iff hreached.slotRun
  have hdata : d = s.lock.data := hreached.shows.data
  have hholder : current.map Prod.fst = s.lock.holder := hreached.shows.holder
  rw [shown, ← hdata, ← hholder]
  cases current with
  | some running =>
    obtain ⟨t, body⟩ := running
    exact .inl ⟨fun hfree => hfree t body ((hreached.shows.inside t body).mpr rfl), rfl⟩
  | none =>
    have hfree : Free s := fun t body hin => by cases (hreached.shows.inside t body).mp hin
    obtain ⟨hpoisoned, hslot⟩ := hreached.inSlot.slot_none_iff
    rw [← hlost, ← hslot]
    cases hd : d.slot with
    | none => exact .inr (.inl ⟨hfree, rfl, by simp [hpoisoned]⟩)
    | some inner => exact .inr (.inr ⟨hfree, by simp, by simp [hpoisoned]⟩)

/-- Before anybody takes a free lock, nobody is in a critical section. -/
theorem free_of_not_lock (hfree : Free s) (hrun : Run (Step V flate aead) s tr s')
    (hlock : ∀ t, .lock t ∉ tr) : Free s' ∧ crossings tr = [] := by
  induction hrun with
  | nil => exact ⟨hfree, rfl⟩
  | @snoc tr s' s'' e _ hstep ih =>
    obtain ⟨hbefore, hnone⟩ := ih fun t hmem => hlock t (List.mem_append_left _ hmem)
    have hne : ∀ t, e ≠ .lock t := fun t heq => hlock t (by simp [heq])
    rw [crossings_append, hnone, List.nil_append]
    have hreach : ∀ t body, Free { s' with lock := s'.lock.reach t body } := by
      intro t body u running hin
      by_cases hu : u = t
      · subst hu
        simp [Mutex.State.reach] at hin
      · simp only [Mutex.State.reach, Function.update_of_ne hu] at hin
        exact hbefore u running hin
    cases hstep with
    | send | fetched => exact ⟨hreach _ _, rfl⟩
    | recv | notFetched | wrote | returned => exact ⟨hbefore, rfl⟩
    | lock => exact absurd rfl (hne _)
    | act _ hlock' =>
      cases hlock' with
      | act hin => exact absurd hin (hbefore _ _)
    | unlock _ hlock' =>
      cases hlock' with
      | unlock hin => exact absurd hin (hbefore _ _)

/-- What `Debug` shows is true in every state, and tells what comes next.

* `locked_iff`, `broken_iff`, `unlocked_iff`: a thread is in its critical section, or
  a section has failed, or neither.
* `broken`: every call that takes the lock after `<broken>` was shown returns `Broken`.
* `unlocked`: the first call that takes the lock after `<unlocked>` was shown does
  not. -/
structure Tells (V : VariableLen) (flate : Flate) (aead : Aead) (tr : List (Label T))
    (s : State T) : Prop where
  locked_iff : shown s.lock = "<locked>" ↔ ∃ t body, s.lock.phase t = .inside body
  broken_iff : shown s.lock = "<broken>" ↔ Free s ∧ Failed (crossings tr)
  unlocked_iff : shown s.lock = "<unlocked>" ↔ Free s ∧ ¬ Failed (crossings tr)
  broken : shown s.lock = "<broken>" → ∀ before t mid result post s',
    Run (Step V flate aead) s (before ++ .lock t :: (mid ++ .returned t result :: post)) s' →
    (∀ result, .returned t result ∉ mid) → result = .error (.error .broken)
  unlocked : shown s.lock = "<unlocked>" → ∀ before t mid result post s',
    Run (Step V flate aead) s (before ++ .lock t :: (mid ++ .returned t result :: post)) s' →
    (∀ u, .lock u ∉ before) → (∀ result, .returned t result ∉ mid) →
    result ≠ .error (.error .broken)

/-- Whatever the threads do, `Debug` tells the truth about the cipher. -/
theorem debug_tells (hrun : Run (Step V flate aead) (start T key nonce) tr s) :
    Tells V flate aead tr s := by
  have hshown := shown_of_run hrun
  have hfree : Free s ↔ ¬ ∃ t body, s.lock.phase t = .inside body := by simp [Free]
  have hbroken : shown s.lock = "<broken>" ↔ Free s ∧ Failed (crossings tr) := by
    rcases hshown with ⟨h, heq⟩ | ⟨h, hfailed, heq⟩ | ⟨h, hfailed, heq⟩ <;> simp_all
  have hunlocked : shown s.lock = "<unlocked>" ↔ Free s ∧ ¬ Failed (crossings tr) := by
    rcases hshown with ⟨h, heq⟩ | ⟨h, hfailed, heq⟩ | ⟨h, hfailed, heq⟩ <;> simp_all
  refine ⟨?_, hbroken, hunlocked, ?_, ?_⟩
  · rw [← not_iff_not, ← hfree]
    rcases hshown with ⟨h, heq⟩ | ⟨h, _, heq⟩ | ⟨h, _, heq⟩ <;> simp [h, heq]
  · intro heq before t mid result post s' hrest hmid
    have hsplit : tr ++ (before ++ .lock t :: (mid ++ .returned t result :: post)) =
        (tr ++ before) ++ .lock t :: (mid ++ .returned t result :: post) := by simp
    rw [Shared.broken_iff (hrun.append hrest) hsplit hmid, crossings_append, failed_append]
    exact .inl (hbroken.mp heq).2
  · intro heq before t mid result post s' hrest hlock hmid
    obtain ⟨hnow, hfailed⟩ := hunlocked.mp heq
    have hsplit : tr ++ (before ++ .lock t :: (mid ++ .returned t result :: post)) =
        (tr ++ before) ++ .lock t :: (mid ++ .returned t result :: post) := by simp
    obtain ⟨s₁, hbefore, _⟩ := hrest.split
    rw [Ne, Shared.broken_iff (hrun.append hrest) hsplit hmid, crossings_append,
      (free_of_not_lock hnow hbefore hlock).2, List.append_nil]
    exact hfailed

/-- One thread, whose packet does not decrypt. -/
def brokenRun : List (Label Unit) :=
  [.began () (.recv .encrypt 64),
    .fetched () (.ok []),
    .lock (),
    .act () (.take (some (Reference.nonce 0))),
    .act () (.work .decrypt false),
    .unlock () (.error (.error (.aes .failure)))]

/-- Behind it, the cipher is shown to be broken. -/
theorem debug_tells_broken : ∃ s, shown s.lock = "<broken>" ∧
    Tells Reference.variableLen Reference.flate Reference.aead brokenRun s := by
  have hpacket : (readPacket Reference.variableLen 64).outcome [0] = (.ok [], []) := rfl
  have h₀ : Run (Step Reference.variableLen Reference.flate Reference.aead)
      (start Unit Reference.key (Reference.nonce 0)) [] _ := .nil
  have h₁ := h₀.snoc (e := .began () (.recv .encrypt 64)) (.recv rfl)
  have h₂ := h₁.snoc (.fetched (t := ()) rfl rfl hpacket)
  have h₃ := h₂.snoc (.lock (t := ()) rfl (.lock rfl rfl))
  have h₄ := h₃.snoc (.act (t := ()) rfl (.act rfl))
  have h₅ := h₄.snoc (.act (t := ()) rfl (.act rfl))
  have h₆ := h₅.snoc (.unlock (t := ()) rfl (.unlock rfl))
  exact ⟨_, rfl, debug_tells h₆⟩

end Debug

end TcpHandler.Session.Shared
