/-
  Session/Sections.lean --- the critical sections of a shared cipher.

  `send` and `recv` take the inner cipher out of its slot, work with it and put it
  back, and return early when a step in between fails.  Here a section is its
  steps, one by one, so that threads can be interleaved between them; all steps at
  once are the sections of `Protocols/Sealed.lean` (`sealSection_run`,
  `openSection_run`).

  `Slot` is what the lock is for: a slot that is full, taken by one thread, or lost
  for good.  Sections that run one at a time refine it (`InSlot.step`), and what is
  said of runs is proved of its runs.
-/
import TcpHandler.Foundation.Mutex
import TcpHandler.Protocols.Sealed

set_option autoImplicit false

namespace TcpHandler.Session.Shared

open TcpHandler.Foundation TcpHandler.Protocols

/-! ## Sections -/

/-- The steps between `Cipher::get` and `Cipher::reset`. -/
inductive Work where
  | encrypt
  | decrypt
  | inflate
  | readNonce
  deriving DecidableEq, Repr

/-- What a step of a critical section shows. -/
inductive Note where
  /-- `take` in `Cipher::get`, with the nonce that was found -/
  | take (found : Option Nonce)
  /-- a step that may return early, and whether it went on -/
  | work (what : Work) (ok : Bool)
  /-- `Cipher::reset`, with the nonce that is stored -/
  | reset (stored : Nonce)
  deriving DecidableEq

/-- What a critical section returns. -/
abbrev Result : Type := Except (Fault PacketError) Bytes

abbrev CipherSection : Type := Section Cipher Note Result

/-- `Cipher::get`, behind the lock. -/
def get (next : AesKey → Nonce → CipherSection) : CipherSection :=
  .act (fun cipher => .take (cipher.slot.map Prod.snd))
    (fun cipher => (Cipher.get.outcome cipher).2)
    fun cipher =>
      match (Cipher.get.outcome cipher).1 with
      | .ok (key, nonce) => next key nonce
      | .error e => .done (.error e)

/-- A step with a `?` behind it. -/
def attempt {α : Type} (what : Work) (result : Except PacketError α) (next : α → CipherSection) :
    CipherSection :=
  .act (fun _ => .work what result.isOk) id fun _ =>
    match result with
    | .ok a => next a
    | .error e => .done (.error (.error e))

/-- `Cipher::reset`, and the end of the section. -/
def reset (inner : InnerAesCipher) (message : Bytes) : CipherSection :=
  .act (fun _ => .reset inner.2) (fun cipher => ((Cipher.reset inner).outcome cipher).2)
    fun _ => .done (.ok message)

/-- The protocols with a cipher. -/
inductive CipherProtocol where
  | encrypt
  | compressEncrypt
  deriving DecidableEq, Repr

section Callers

variable (V : VariableLen) (flate : Flate) (aead : Aead)

/-- The plaintexts of a protocol. -/
def CipherProtocol.payload : CipherProtocol → Payload
  | .encrypt => Encrypt.payload V
  | .compressEncrypt => CompressEncrypt.payload V flate

/-- The critical section of `send`, the same in both protocols. -/
def sealSection (newNonce : Nonce) (bytes : Bytes) : CipherSection :=
  get fun key nonce =>
    attempt .encrypt ((aead.encryptInPlace key nonce bytes).mapError .aes) fun bytes =>
      reset (key, newNonce) bytes

/-- How `recv` ends: `read_more` for the nonce, then `Cipher::reset`. -/
def storeNonce (key : AesKey) (plain : Bytes) : CipherSection :=
  attempt .readNonce ((splitNonce V plain).mapError .io) fun opened =>
    reset (key, opened.1) opened.2

/-- What `recv` does with a plaintext. -/
def afterDecrypt : CipherProtocol → AesKey → Bytes → CipherSection
  | .encrypt, key, plain => storeNonce V key plain
  | .compressEncrypt, key, plain =>
      attempt .inflate ((flate.inflate plain).mapError .io) fun inflated =>
        storeNonce V key inflated

/-- The critical section of `recv`. -/
def openSection (protocol : CipherProtocol) (bytes : Bytes) : CipherSection :=
  get fun key nonce =>
    attempt .decrypt ((aead.decryptInPlace key nonce bytes).mapError .aes) fun plain =>
      afterDecrypt V flate protocol key plain

/-- The critical sections of the four callers. -/
inductive IsSection : CipherSection → Prop
  | send {newNonce : Nonce} {bytes : Bytes} : IsSection (sealSection aead newNonce bytes)
  | recv {protocol : CipherProtocol} {bytes : Bytes} :
      IsSection (openSection V flate aead protocol bytes)

end Callers

/-! ### All steps at once -/

section AllSteps

variable {V : VariableLen} {flate : Flate} {aead : Aead}

theorem get_run (next : AesKey → Nonce → CipherSection) (cipher : Cipher) :
    (get next).run cipher =
      if cipher.poisoned then (.error .panic, cipher)
      else
        match cipher.slot with
        | none => (.error (.error .broken), cipher)
        | some (key, nonce) => (next key nonce).run { cipher with slot := none } := by
  obtain ⟨slot, poisoned⟩ := cipher
  cases poisoned with
  | true => rfl
  | false => cases slot <;> rfl

theorem attempt_run {α : Type} (what : Work) (result : Except PacketError α)
    (next : α → CipherSection) (cipher : Cipher) :
    (attempt what result next).run cipher =
      match result with
      | .ok a => (next a).run cipher
      | .error e => (.error (.error e), cipher) := by
  cases result <;> rfl

theorem reset_run (inner : InnerAesCipher) (message : Bytes) (cipher : Cipher) :
    (reset inner message).run cipher = (.ok message, { cipher with slot := some inner }) := rfl

/-- A critical section behind a poisoned lock. -/
theorem outcome_guarded_poisoned {α : Type} (k : InnerAesCipher → Io Cipher (Fault PacketError) α)
    {cipher : Cipher} (hlock : cipher.poisoned = true) :
    (Cipher.guarded (Cipher.get >>= k)).outcome cipher = (.error .panic, cipher) := by
  obtain ⟨slot, poisoned⟩ := cipher
  obtain rfl : poisoned = true := hlock
  rfl

/-- The steps of `send` are the critical section of `send`. -/
theorem sealSection_run (payload : Payload) (level : Level) (newNonce : Nonce) (message : Buf)
    (cipher : Cipher) :
    (sealSection aead newNonce (payload.compose level newNonce message)).run cipher =
      (Sealed.sealMessage payload aead level newNonce message).outcome cipher := by
  rw [sealSection, get_run]
  cases hlock : cipher.poisoned with
  | true => exact (outcome_guarded_poisoned _ hlock).symm
  | false =>
    rw [Io.outcome, Sealed.run_sealMessage hlock]
    cases cipher.slot with
    | none => rfl
    | some inner =>
      obtain ⟨key, nonce⟩ := inner
      simp only [attempt_run]
      cases aead.encryptInPlace key nonce (payload.compose level newNonce message) with
      | error e => simp [Except.mapError]
      | ok packet => simp [Except.mapError, reset_run, Cipher.new]

theorem storeNonce_run (key : AesKey) (plain : Bytes) (cipher : Cipher) :
    (storeNonce V key plain).run cipher =
      match splitNonce V plain with
      | .error e => (.error (.error (.io e)), cipher)
      | .ok (newNonce, message) => (.ok message, { cipher with slot := some (key, newNonce) }) := by
  rw [storeNonce, attempt_run]
  cases splitNonce V plain <;> rfl

theorem afterDecrypt_run (protocol : CipherProtocol) (key : AesKey) (plain : Bytes)
    (cipher : Cipher) :
    (afterDecrypt V flate protocol key plain).run cipher =
      match (protocol.payload V flate).parse plain with
      | .error e => (.error (.error (.io e)), cipher)
      | .ok (newNonce, message) => (.ok message, { cipher with slot := some (key, newNonce) }) := by
  cases protocol with
  | encrypt => exact storeNonce_run key plain cipher
  | compressEncrypt =>
    rw [afterDecrypt, attempt_run]
    change _ = match flate.inflate plain >>= splitNonce V with
      | .error e => _
      | .ok (newNonce, message) => _
    cases flate.inflate plain with
    | error e => rfl
    | ok inflated => exact storeNonce_run key inflated cipher

/-- The steps of `recv` are the critical section of `recv`. -/
theorem openSection_run (protocol : CipherProtocol) (bytes : Bytes) (cipher : Cipher) :
    (openSection V flate aead protocol bytes).run cipher =
      (Sealed.openPacket (protocol.payload V flate) aead bytes).outcome cipher := by
  rw [openSection, get_run]
  cases hlock : cipher.poisoned with
  | true => exact (outcome_guarded_poisoned _ hlock).symm
  | false =>
    rw [Io.outcome, Sealed.run_openPacket hlock]
    cases cipher.slot with
    | none => rfl
    | some inner =>
      obtain ⟨key, nonce⟩ := inner
      simp only [attempt_run]
      cases aead.decryptInPlace key nonce bytes with
      | error e => simp [Except.mapError]
      | ok plain =>
        simp only [Except.mapError, afterDecrypt_run]
        cases (protocol.payload V flate).parse plain <;> simp [Cipher.new]

end AllSteps

/-! ## The slot -/

/-- What the lock is for. -/
inductive Slot (T : Type) where
  /-- the cipher is there, with this nonce -/
  | full (nonce : Nonce)
  /-- a thread works with the cipher -/
  | taken (thread : T)
  /-- the cipher is gone -/
  | lost

abbrev Event (T : Type) : Type := Mutex.Event T Note Result

/-- What may happen to the slot. -/
inductive SlotStep {T : Type} : Slot T → Event T → Slot T → Prop
  | lock {slot : Slot T} {t : T} : SlotStep slot (.lock t) slot
  | unlock {slot : Slot T} {t : T} {result : Result} : SlotStep slot (.unlock t result) slot
  | take {nonce : Nonce} {t : T} :
      SlotStep (.full nonce) (.act t (.take (some nonce))) (.taken t)
  | work {t : T} {what : Work} : SlotStep (.taken t) (.act t (.work what true)) (.taken t)
  | reset {t : T} {nonce : Nonce} : SlotStep (.taken t) (.act t (.reset nonce)) (.full nonce)
  | fail {t : T} {what : Work} : SlotStep (.taken t) (.act t (.work what false)) .lost
  | takeNone {t : T} : SlotStep .lost (.act t (.take none)) .lost

/-- What is left of a section that has taken the cipher and neither put it back nor
failed.  No step in between fails with `Broken`. -/
inductive Working (key : AesKey) : CipherSection → Prop
  | attempt {α : Type} {what : Work} {result : Except PacketError α} {next : α → CipherSection}
      (hbroken : result ≠ .error .broken) (hnext : ∀ a, result = .ok a → Working key (next a)) :
      Working key (attempt what result next)
  | reset {nonce : Nonce} {message : Bytes} : Working key (reset (key, nonce) message)

section Refinement

variable {T : Type} {V : VariableLen} {flate : Flate} {aead : Aead} {key : AesKey}

theorem mapError_ne_broken {ε α : Type} {f : ε → PacketError} (hf : ∀ e, f e ≠ .broken)
    (result : Except ε α) : result.mapError f ≠ .error .broken := by
  cases result with
  | ok a => exact fun h => by cases h
  | error e => exact fun h => hf e (Except.error.inj h)

/-- Every section begins with `Cipher::get`, and then works. -/
theorem IsSection.get_working {body : CipherSection} (h : IsSection V flate aead body) :
    ∃ next, body = get next ∧ ∀ key nonce, Working key (next key nonce) := by
  have haes : ∀ e, PacketError.aes e ≠ .broken := fun e h => by cases h
  have hio : ∀ e, PacketError.io e ≠ .broken := fun e h => by cases h
  have hstore : ∀ key plain, Working key (storeNonce V key plain) :=
    fun key plain => .attempt (mapError_ne_broken hio _) fun _ _ => .reset
  cases h with
  | send =>
    exact ⟨_, rfl, fun key nonce => .attempt (mapError_ne_broken haes _) fun _ _ => .reset⟩
  | @recv protocol bytes =>
    refine ⟨_, rfl, fun key nonce => .attempt (mapError_ne_broken haes _) fun plain _ => ?_⟩
    cases protocol with
    | encrypt => exact hstore key plain
    | compressEncrypt =>
      exact .attempt (mapError_ne_broken hio _) fun inflated _ => hstore key inflated

theorem Working.run_ne_broken {body : CipherSection} (h : Working key body) (cipher : Cipher) :
    (body.run cipher).1 ≠ .error (.error .broken) := by
  induction h generalizing cipher with
  | @attempt α what result next hbroken hnext ih =>
    rw [attempt_run]
    cases result with
    | ok a => exact ih a rfl cipher
    | error e => exact fun h => hbroken (by cases h; rfl)
  | reset => exact fun h => by cases h

/-- A section returns `Broken` exactly when it finds the slot empty. -/
theorem IsSection.broken_iff {body : CipherSection} (h : IsSection V flate aead body)
    {cipher : Cipher} (hlock : cipher.poisoned = false) :
    (body.run cipher).1 = .error (.error .broken) ↔ cipher.slot = none := by
  obtain ⟨next, rfl, hworking⟩ := h.get_working
  rw [get_run, hlock]
  cases cipher.slot with
  | none => simp
  | some inner =>
    obtain ⟨key, nonce⟩ := inner
    simpa using (hworking key nonce).run_ne_broken _

/-- How the lock and the section that runs stand for a slot. -/
inductive InSlot (V : VariableLen) (flate : Flate) (aead : Aead) (key : AesKey) :
    Slot T → Mutex.Serial T Cipher Note Result → Prop
  | full {nonce : Nonce} : InSlot V flate aead key (.full nonce) ⟨Cipher.new (key, nonce), none⟩
  | entered {nonce : Nonce} {t : T} {body : CipherSection} (hbody : IsSection V flate aead body) :
      InSlot V flate aead key (.full nonce) ⟨Cipher.new (key, nonce), some (t, body)⟩
  | working {t : T} {body : CipherSection} (hbody : Working key body) :
      InSlot V flate aead key (.taken t) ⟨{ slot := none }, some (t, body)⟩
  | stored {nonce : Nonce} {t : T} {message : Bytes} :
      InSlot V flate aead key (.full nonce) ⟨Cipher.new (key, nonce), some (t, .done (.ok message))⟩
  | lost : InSlot V flate aead key .lost ⟨{ slot := none }, none⟩
  | lostEntered {t : T} {body : CipherSection} (hbody : IsSection V flate aead body) :
      InSlot V flate aead key .lost ⟨{ slot := none }, some (t, body)⟩
  | failed {t : T} {e : Fault PacketError} :
      InSlot V flate aead key .lost ⟨{ slot := none }, some (t, .done (.error e))⟩

/-- A step of a section is one of the slot. -/
theorem InSlot.step {slot : Slot T} {a a' : Mutex.Serial T Cipher Note Result} {e : Event T}
    (h : InSlot V flate aead key slot a)
    (hstep : Mutex.SerialStep (IsSection V flate aead) a e a') :
    ∃ slot', SlotStep slot e slot' ∧ InSlot V flate aead key slot' a' := by
  cases h with
  | full =>
    cases hstep with
    | lock hbody => exact ⟨_, .lock, .entered hbody⟩
  | lost =>
    cases hstep with
    | lock hbody => exact ⟨_, .lock, .lostEntered hbody⟩
  | stored =>
    cases hstep with
    | unlock => exact ⟨_, .unlock, .full⟩
  | failed =>
    cases hstep with
    | unlock => exact ⟨_, .unlock, .lost⟩
  | entered hbody =>
    obtain ⟨next, rfl, hworking⟩ := hbody.get_working
    cases hstep with
    | act => exact ⟨_, .take, .working (hworking _ _)⟩
  | lostEntered hbody =>
    obtain ⟨next, rfl, _⟩ := hbody.get_working
    cases hstep with
    | act => exact ⟨_, .takeNone, .failed⟩
  | working hbody =>
    cases hbody with
    | @attempt α what result next hbroken hnext =>
      cases hstep with
      | act =>
        cases result with
        | ok a => exact ⟨_, .work, .working (hnext a rfl)⟩
        | error e => exact ⟨_, .fail, .failed⟩
    | reset =>
      cases hstep with
      | act => exact ⟨_, .reset, .stored⟩

/-- Sections that run one at a time refine the slot. -/
theorem slot_run {nonce : Nonce} {tr : List (Event T)} {a : Mutex.Serial T Cipher Note Result}
    (hrun : Run (Mutex.SerialStep (IsSection V flate aead)) ⟨Cipher.new (key, nonce), none⟩ tr a) :
    ∃ slot, Run SlotStep (.full nonce) tr slot ∧ InSlot V flate aead key slot a := by
  induction hrun with
  | nil => exact ⟨_, .nil, .full⟩
  | snoc _ hstep ih =>
    obtain ⟨slot, hslot, hin⟩ := ih
    obtain ⟨slot', hstep', hin'⟩ := hin.step hstep
    exact ⟨slot', .snoc hslot hstep', hin'⟩

/-- Between two sections, the slot is empty exactly when it is lost. -/
theorem InSlot.slot_none_iff {slot : Slot T} {d : Cipher}
    (h : InSlot V flate aead key slot ⟨d, none⟩) :
    d.poisoned = false ∧ (d.slot = none ↔ slot = .lost) := by
  cases h with
  | full => simp [Cipher.new]
  | lost => simp

/-- The cipher is there exactly when the slot is full. -/
theorem InSlot.slot_isSome_iff {slot : Slot T} {a : Mutex.Serial T Cipher Note Result}
    (h : InSlot V flate aead key slot a) : a.data.slot.isSome ↔ ∃ nonce, slot = .full nonce := by
  cases h <;> simp [Cipher.new]

end Refinement

/-! ## Runs of the slot -/

section Runs

variable {T : Type} {nonce : Nonce} {tr : List (Event T)} {slot : Slot T}

/-- A section failed between `Cipher::get` and `Cipher::reset`. -/
def Failed (tr : List (Event T)) : Prop := ∃ t what, .act t (.work what false) ∈ tr

/-- The threads that took the cipher, with the nonce that each began with. -/
def takes (tr : List (Event T)) : List (T × Nonce) :=
  tr.filterMap fun
    | .act t (.take (some nonce)) => some (t, nonce)
    | _ => none

/-- The threads that put the cipher back, with the nonce that each stored. -/
def stores (tr : List (Event T)) : List (T × Nonce) :=
  tr.filterMap fun
    | .act t (.reset nonce) => some (t, nonce)
    | _ => none

/-- What was taken and what was stored, from a first nonce on. -/
def Balanced (nonce : Nonce) (tr : List (Event T)) : Slot T → Prop
  | .full held =>
      (takes tr).map Prod.fst = (stores tr).map Prod.fst ∧
        (takes tr).map Prod.snd ++ [held] = nonce :: (stores tr).map Prod.snd
  | .taken t =>
      (takes tr).map Prod.fst = (stores tr).map Prod.fst ++ [t] ∧
        (takes tr).map Prod.snd = nonce :: (stores tr).map Prod.snd
  | .lost =>
      ∃ t, (takes tr).map Prod.fst = (stores tr).map Prod.fst ++ [t] ∧
        (takes tr).map Prod.snd = nonce :: (stores tr).map Prod.snd

theorem failed_append {post : List (Event T)} : Failed (tr ++ post) ↔ Failed tr ∨ Failed post := by
  simp only [Failed, List.mem_append, exists_or]

theorem takes_append (post : List (Event T)) : takes (tr ++ post) = takes tr ++ takes post :=
  List.filterMap_append

theorem stores_append (post : List (Event T)) : stores (tr ++ post) = stores tr ++ stores post :=
  List.filterMap_append

/-- The slot is lost once a section has failed, and not before. -/
theorem lost_iff (hrun : Run SlotStep (.full nonce) tr slot) : slot = .lost ↔ Failed tr := by
  induction hrun with
  | nil => simp [Failed]
  | snoc _ hstep ih =>
    rw [failed_append, ← ih]
    cases hstep <;> simp [Failed]

/-- What neither takes nor stores keeps the balance. -/
theorem Balanced.snoc {e : Event T} (h : Balanced nonce tr slot) (htakes : takes [e] = [])
    (hstores : stores [e] = []) : Balanced nonce (tr ++ [e]) slot := by
  cases slot <;>
    simpa only [Balanced, takes_append, stores_append, htakes, hstores, List.append_nil] using h

/-- Every section begins with the nonce that the one before it stored. -/
theorem balanced_of_run (hrun : Run SlotStep (.full nonce) tr slot) : Balanced nonce tr slot := by
  induction hrun with
  | nil => exact ⟨rfl, rfl⟩
  | @snoc tr slot slot' e _ hstep ih =>
    cases hstep with
    | lock | unlock | work | takeNone => exact ih.snoc rfl rfl
    | @take held t =>
      obtain ⟨hthreads, hnonces⟩ := ih
      have htakes : takes [(.act t (.take (some held)) : Event T)] = [(t, held)] := rfl
      have hstores : stores [(.act t (.take (some held)) : Event T)] = [] := rfl
      simp only [Balanced, takes_append, stores_append, htakes, hstores, List.map_append,
        List.map_cons, List.map_nil, List.append_nil, hthreads, hnonces, and_self]
    | @reset t stored =>
      obtain ⟨hthreads, hnonces⟩ := ih
      have htakes : takes [(.act t (.reset stored) : Event T)] = [] := rfl
      have hstores : stores [(.act t (.reset stored) : Event T)] = [(t, stored)] := rfl
      simp only [Balanced, takes_append, stores_append, htakes, hstores, List.map_append,
        List.map_cons, List.map_nil, List.append_nil, hthreads, hnonces, List.cons_append, and_self]
    | @fail t what =>
      have htaken : Balanced nonce (tr ++ [.act t (.work what false)]) (.taken t) := ih.snoc rfl rfl
      exact ⟨t, htaken⟩

/-- Threads take the cipher in the order in which they store, each from the nonce
that was stored last. -/
theorem Balanced.chained (h : Balanced nonce tr slot) :
    (stores tr).map Prod.fst <+: (takes tr).map Prod.fst ∧
      (takes tr).map Prod.snd <+: nonce :: (stores tr).map Prod.snd := by
  cases slot with
  | full held => exact ⟨h.1 ▸ List.prefix_rfl, h.2 ▸ List.prefix_append _ _⟩
  | taken t => exact ⟨h.1 ▸ List.prefix_append _ _, h.2 ▸ List.prefix_rfl⟩
  | lost =>
    obtain ⟨t, hthreads, hnonces⟩ := h
    exact ⟨hthreads ▸ List.prefix_append _ _, hnonces ▸ List.prefix_rfl⟩

/-- The slot is full exactly when whoever took the cipher has put it back. -/
theorem Balanced.full_iff (h : Balanced nonce tr slot) :
    (∃ held, slot = .full held) ↔ (takes tr).length = (stores tr).length := by
  have hlength : ∀ {t : T}, (takes tr).map Prod.fst = (stores tr).map Prod.fst ++ [t] →
      (takes tr).length = (stores tr).length + 1 := by
    intro t heq
    simpa using congrArg List.length heq
  cases slot with
  | full held =>
    have heq : (takes tr).length = (stores tr).length := by simpa using congrArg List.length h.1
    simp [heq]
  | taken t => simp [hlength h.1]
  | lost =>
    obtain ⟨t, hthreads, _⟩ := h
    simp [hlength hthreads]

/-- The slot is found empty only when it is lost, and a lost slot is never filled. -/
theorem lost_forever (hrun : Run SlotStep (.full nonce) tr slot) :
    Throughout (fun pre e => (∀ t, e = .act t (.take none) → Failed pre) ∧
      (Failed pre → ∀ t n, e ≠ .act t (.take (some n)) ∧ e ≠ .act t (.reset n))) tr := by
  induction hrun with
  | nil => exact throughout_nil
  | snoc hrun hstep ih =>
    refine throughout_snoc.mpr ⟨ih, ?_⟩
    rw [← lost_iff hrun]
    cases hstep <;> simp

end Runs

end TcpHandler.Session.Shared
