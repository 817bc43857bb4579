/-
  Foundation/Mutex.lean --- critical sections under one lock.

  A critical section is a program of steps on the data that the lock guards.  Each
  step leaves a note, and what follows may depend on the data.  Threads reach the
  lock with a section, take the lock when nobody holds it, take the steps of their
  section one by one, and let go.  Between any two steps other threads may do what
  they can.

  `Step` is the system with all its threads.  `SerialStep` runs sections one at a
  time and knows no other threads.  What passes through the lock in a run of the
  first is a run of the second (`serializes`), so an invariant of sections that run
  alone holds however threads interleave.
-/
import TcpHandler.Foundation.Run

set_option autoImplicit false

namespace TcpHandler.Foundation

/-- A program of steps on `D` that leaves notes and ends with a result. -/
inductive Section (D N R : Type) where
  | done (result : R)
  | act (note : D → N) (effect : D → D) (next : D → Section D N R)

/-- All steps of a section at once: its result and the data it leaves. -/
def Section.run {D N R : Type} : Section D N R → D → R × D
  | .done result, d => (result, d)
  | .act _ effect next, d => (next d).run (effect d)

namespace Mutex

variable {T D N R : Type}

/-- Where a thread is. -/
inductive Phase (D N R : Type) where
  | outside
  | waiting (body : Section D N R)
  | inside (body : Section D N R)

/-- The data, the thread that holds the lock, and where each thread is. -/
structure State (T D N R : Type) where
  data : D
  holder : Option T
  phase : T → Phase D N R

/-- What happens at the lock. -/
inductive Event (T N R : Type) where
  | reach (thread : T)
  | lock (thread : T)
  | act (thread : T) (note : N)
  | unlock (thread : T) (result : R)

/-- The thread that moves. -/
def Event.thread : Event T N R → T
  | .reach t | .lock t | .act t _ | .unlock t _ => t

/-- Nobody is at the lock. -/
def start (d : D) : State T D N R := ⟨d, none, fun _ => .outside⟩

/-! ## One section at a time -/

/-- The data, and the section that runs. -/
structure Serial (T D N R : Type) where
  data : D
  current : Option (T × Section D N R)

/-- Sections run one at a time, each from the data that the one before it left. -/
inductive SerialStep (Program : Section D N R → Prop) :
    Serial T D N R → Event T N R → Serial T D N R → Prop
  | lock {d : D} {t : T} {body : Section D N R} (hbody : Program body) :
      SerialStep Program ⟨d, none⟩ (.lock t) ⟨d, some (t, body)⟩
  | act {d : D} {t : T} {note : D → N} {effect : D → D} {next : D → Section D N R} :
      SerialStep Program ⟨d, some (t, .act note effect next)⟩ (.act t (note d))
        ⟨effect d, some (t, next d)⟩
  | unlock {d : D} {t : T} {result : R} :
      SerialStep Program ⟨d, some (t, .done result)⟩ (.unlock t result) ⟨d, none⟩

/-- What passes through the lock. -/
def passes : Event T N R → Option (Event T N R)
  | .reach _ => none
  | e => some e

/-- The section that runs is the one of the thread that is inside, and there is
only one. -/
structure Shows (Program : Section D N R → Prop) (s : State T D N R) (a : Serial T D N R) :
    Prop where
  data : a.data = s.data
  holder : a.current.map Prod.fst = s.holder
  inside : ∀ t body, s.phase t = .inside body ↔ a.current = some (t, body)
  waiting : ∀ t body, s.phase t = .waiting body → Program body

section Shows

variable {Program : Section D N R → Prop} {s : State T D N R} {a : Serial T D N R}

theorem shows_start (d : D) : Shows Program (start d : State T D N R) ⟨d, none⟩ where
  data := rfl
  holder := rfl
  inside t body := by simp [start]
  waiting t body h := by cases h

/-- When nobody holds the lock, no section runs. -/
theorem Shows.current_of_free (h : Shows Program s a) (hfree : s.holder = none) :
    a.current = none := by
  rw [← h.holder] at hfree
  exact Option.map_eq_none_iff.mp hfree

/-- Two threads are not inside at once. -/
theorem Shows.exclusive (h : Shows Program s a) {t u : T} {body body' : Section D N R}
    (ht : s.phase t = .inside body) (hu : s.phase u = .inside body') : t = u := by
  have hcurrent := (h.inside t body).mp ht
  rw [(h.inside u body').mp hu] at hcurrent
  cases hcurrent
  rfl

end Shows

/-! ## Threads -/

section Threads

variable [DecidableEq T]

/-- A thread comes to the lock with a section. -/
def State.reach (s : State T D N R) (t : T) (body : Section D N R) : State T D N R :=
  { s with phase := Function.update s.phase t (.waiting body) }

/-- One step of one thread; `Program` are the sections of the program. -/
inductive Step (Program : Section D N R → Prop) :
    State T D N R → Event T N R → State T D N R → Prop
  | reach {s : State T D N R} {t : T} {body : Section D N R} (hbody : Program body)
      (houtside : s.phase t = .outside) : Step Program s (.reach t) (s.reach t body)
  | lock {s : State T D N R} {t : T} {body : Section D N R} (hwaiting : s.phase t = .waiting body)
      (hfree : s.holder = none) :
      Step Program s (.lock t)
        { s with holder := some t, phase := Function.update s.phase t (.inside body) }
  | act {s : State T D N R} {t : T} {note : D → N} {effect : D → D} {next : D → Section D N R}
      (hinside : s.phase t = .inside (.act note effect next)) :
      Step Program s (.act t (note s.data))
        { s with
          data := effect s.data
          phase := Function.update s.phase t (.inside (next s.data)) }
  | unlock {s : State T D N R} {t : T} {result : R} (hinside : s.phase t = .inside (.done result)) :
      Step Program s (.unlock t result)
        { s with holder := none, phase := Function.update s.phase t .outside }

variable {Program : Section D N R → Prop} {s s' : State T D N R} {a : Serial T D N R}
  {e : Event T N R}

/-- A step of one thread leaves the others where they are. -/
theorem Step.phase_of_ne (hstep : Step Program s e s') {t : T} (hne : t ≠ e.thread) :
    s'.phase t = s.phase t := by
  cases hstep <;> exact Function.update_of_ne hne _ _

/-- A step of another thread leaves the data of the thread that is inside. -/
theorem Shows.data_of_ne (h : Shows Program s a) (hstep : Step Program s e s') {t : T}
    {body : Section D N R} (hinside : s.phase t = .inside body) (hne : t ≠ e.thread) :
    s'.data = s.data := by
  cases hstep with
  | reach | lock | unlock => rfl
  | act hin => exact absurd (h.exclusive hinside hin) hne

/-- A thread comes to the lock: nothing passes through it. -/
theorem Shows.reach (h : Shows Program s a) {t : T} {body : Section D N R} (hbody : Program body)
    (houtside : s.phase t = .outside) : Shows Program (s.reach t body) a where
  data := h.data
  holder := h.holder
  inside u body' := by
    rw [← h.inside]
    by_cases hu : u = t
    · subst hu
      simp [State.reach, houtside]
    · simp [State.reach, Function.update_of_ne hu]
  waiting u body' hwaiting := by
    by_cases hu : u = t
    · subst hu
      simp only [State.reach, Function.update_self, Phase.waiting.injEq] at hwaiting
      rwa [← hwaiting]
    · simp only [State.reach, Function.update_of_ne hu] at hwaiting
      exact h.waiting u body' hwaiting

/-- The thread that is inside moves on, and the others stay where they are. -/
theorem Shows.move (h : Shows Program s a) {t : T}
    (halone : ∀ u body, s.phase u = .inside body → u = t)
    (d : D) (holder : Option T) (body : Option (Section D N R))
    (hholder : holder = body.map fun _ => t) :
    Shows Program
      { data := d
        holder := holder
        phase := Function.update s.phase t (body.elim .outside .inside) }
      ⟨d, body.map fun b => (t, b)⟩ where
  data := rfl
  holder := by
    subst hholder
    cases body <;> rfl
  inside u body' := by
    by_cases hu : u = t
    · subst hu
      cases body <;> simp
    · have hout : s.phase u ≠ .inside body' := fun hin => hu (halone u body' hin)
      cases body <;> simp [Function.update_of_ne hu, hout, Ne.symm hu]
  waiting u body' hwaiting := by
    by_cases hu : u = t
    · subst hu
      cases body <;> simp at hwaiting
    · simp only [Function.update_of_ne hu] at hwaiting
      exact h.waiting u body' hwaiting

/-- A step of the system is one of the section that runs, or a thread comes to the
lock. -/
theorem Shows.step (h : Shows Program s a) (hstep : Step Program s e s') :
    Run.Answers (SerialStep Program) (Shows Program s') a (passes e) := by
  obtain ⟨d, current⟩ := a
  obtain rfl : d = s.data := h.data
  cases hstep with
  | @reach t body hbody houtside => exact h.reach hbody houtside
  | @lock t body hwaiting hfree =>
    obtain rfl : current = none := h.current_of_free hfree
    refine ⟨_, .lock (h.waiting t body hwaiting),
      h.move (fun u body' hin => ?_) _ _ (some body) rfl⟩
    cases (h.inside u body').mp hin
  | @act t note effect next hin =>
    obtain rfl := (h.inside t _).mp hin
    exact ⟨_, .act,
      h.move (fun u _ hu => h.exclusive hu hin) _ _ (some (next s.data)) (h.holder.symm)⟩
  | @unlock t result hin =>
    obtain rfl := (h.inside t _).mp hin
    exact ⟨_, .unlock, h.move (fun u _ hu => h.exclusive hu hin) _ _ none rfl⟩

/-- What passes through the lock is a run of sections one at a time. -/
theorem serializes {d : D} {tr : List (Event T N R)} (hrun : Run (Step Program) (start d) tr s) :
    ∃ a, Run (SerialStep Program) ⟨d, none⟩ (tr.filterMap passes) a ∧ Shows Program s a := by
  have hall : Throughout (fun _ _ => True) tr := fun _ _ _ _ => trivial
  exact Run.simulation (R := fun _ s a => Shows Program s a) (fun _ h hstep => h.step hstep) hrun
    hall (shows_start d)

end Threads

end Mutex

end TcpHandler.Foundation
