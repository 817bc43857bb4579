/-
  Foundation/Requests.lean --- requests and their replies.

  A client sends a request, receives its reply, and asks again.  A server receives
  a request, sends what answers it, and waits for the next.  Each gives up at the
  first call that fails.  Neither sees more of the other than what it receives.

  When what each of them received is what the other sent first:

      replies_answer   the reply at every place answers the request at that place
      awaited          while the client waits, its request is under way, or the
                       server has it, or its reply is under way, or the server
                       gave up
-/
import Mathlib.Data.List.Forall2
import TcpHandler.Foundation.Run

set_option autoImplicit false

namespace TcpHandler.Foundation

namespace Requests

variable {α β : Type}

/-- One use of a connection by a party that sends `α` and receives `β`. -/
inductive Use (α β : Type) where
  | send (a : α)
  /-- nothing was sent -/
  | refused
  | recv (b : β)
  /-- nothing was received -/
  | failed

/-- The call returned an error. -/
def Use.fails : Use α β → Bool
  | .send _ | .recv _ => false
  | .refused | .failed => true

/-- What a call sent. -/
@[simp] def Use.sends : Use α β → Option α
  | .send a => some a
  | _ => none

/-- What a call received. -/
@[simp] def Use.receives : Use α β → Option β
  | .recv b => some b
  | _ => none

/-- What was sent. -/
def sent (uses : List (Use α β)) : List α := uses.filterMap Use.sends

/-- What was received. -/
def received (uses : List (Use α β)) : List β := uses.filterMap Use.receives

@[simp] theorem sent_snoc (uses : List (Use α β)) (use : Use α β) :
    sent (uses ++ [use]) = sent uses ++ use.sends.toList := by
  rw [sent, List.filterMap_append]
  cases use <;> rfl

@[simp] theorem received_snoc (uses : List (Use α β)) (use : Use α β) :
    received (uses ++ [use]) = received uses ++ use.receives.toList := by
  rw [received, List.filterMap_append]
  cases use <;> rfl

/-- The calls that did not fail. -/
def succeeded (uses : List (Use α β)) : List (Use α β) := uses.filter fun use => !use.fails

theorem sent_succeeded (uses : List (Use α β)) : sent (succeeded uses) = sent uses := by
  rw [sent, succeeded, List.filterMap_filter, sent]
  apply List.filterMap_congr
  intro use _
  cases use <;> rfl

theorem received_succeeded (uses : List (Use α β)) : received (succeeded uses) = received uses := by
  rw [received, succeeded, List.filterMap_filter, received]
  apply List.filterMap_congr
  intro use _
  cases use <;> rfl

/-- A call that did not fail has sent or received something. -/
theorem length_succeeded (uses : List (Use α β)) :
    (succeeded uses).length = (sent uses).length + (received uses).length := by
  induction uses using List.reverseRecOn with
  | nil => rfl
  | append_singleton uses use ih =>
    rw [succeeded] at ih
    rw [sent_snoc, received_snoc, succeeded, List.filter_append, List.length_append, ih]
    cases use <;> simp [Use.fails] <;> omega

/-- Whether a party has a request without a reply. -/
inductive Phase (α : Type) where
  | idle
  | busy (request : α)
  /-- a call has failed -/
  | stopped

/-- A client: a request, then its reply. -/
inductive Asks : Phase α → Use α β → Phase α → Prop
  | send {a : α} : Asks .idle (.send a) (.busy a)
  | refused : Asks .idle .refused .stopped
  | recv {a : α} {b : β} : Asks (.busy a) (.recv b) .idle
  | failed {a : α} : Asks (.busy a) .failed .stopped

/-- A server: a request, then what answers it. -/
inductive Serves (answers : α → β → Prop) : Phase α → Use β α → Phase α → Prop
  | recv {a : α} : Serves answers .idle (.recv a) (.busy a)
  | failed : Serves answers .idle .failed .stopped
  | send {a : α} {b : β} (hanswers : answers a b) : Serves answers (.busy a) (.send b) .idle
  | refused {a : α} : Serves answers (.busy a) .refused .stopped

/-! ## Giving up -/

/-- A party that does nothing after a call that failed. -/
structure Quits {δ ε : Type} (Step : Phase α → Use δ ε → Phase α → Prop) : Prop where
  done : ∀ use phase, ¬ Step .stopped use phase
  stopped : ∀ phase use phase', Step phase use phase' → use.fails = true → phase' = .stopped

theorem quits_asks : Quits (Asks (α := α) (β := β)) where
  done _ _ h := by cases h
  stopped _ _ _ h hfails := by cases h <;> first | rfl | cases hfails

theorem quits_serves {answers : α → β → Prop} : Quits (Serves answers) where
  done _ _ h := by cases h
  stopped _ _ _ h hfails := by cases h <;> first | rfl | cases hfails

section Quits

variable {δ ε : Type} {Step : Phase α → Use δ ε → Phase α → Prop} {uses : List (Use δ ε)}
  {use : Use δ ε} {phase : Phase α}

/-- No call of a party that has not given up has failed. -/
theorem Quits.unfailed (h : Quits Step) (hrun : Run Step .idle uses phase)
    (hphase : phase ≠ .stopped) : ∀ u ∈ uses, u.fails = false := by
  induction hrun with
  | nil => simp
  | @snoc uses phase phase' use _ hstep ih =>
    have hbefore : phase ≠ .stopped := by
      rintro rfl
      exact h.done _ _ hstep
    intro u hu
    rcases List.mem_append.mp hu with hold | hnew
    · exact ih hbefore u hold
    · obtain rfl := List.mem_singleton.mp hnew
      exact Bool.eq_false_iff.mpr fun hfails => hphase (h.stopped _ _ _ hstep hfails)

/-- No call but the last has failed. -/
theorem Quits.unfailed_before (h : Quits Step) (hrun : Run Step .idle (uses ++ [use]) phase) :
    ∀ u ∈ uses, u.fails = false := by
  obtain ⟨before, hbefore, hstep⟩ := Run.snoc_iff.mp hrun
  refine h.unfailed hbefore ?_
  rintro rfl
  exact h.done _ _ hstep

/-- Leaving out calls that failed leaves the calls before the last, or all of them. -/
theorem Quits.leaveOut {κ : Type} (h : Quits Step) {f g : κ → Option (Use δ ε)} {es : List κ}
    (hkept : ∀ e ∈ es, g e = f e ∨ g e = none ∧ ∀ u, f e = some u → u.fails = true)
    (hrun : Run Step .idle (es.filterMap f) phase) :
    es.filterMap g <+: es.filterMap f ∧
      (phase ≠ .stopped → es.filterMap g = es.filterMap f) := by
  induction es using List.reverseRecOn generalizing phase with
  | nil => exact ⟨List.prefix_rfl, fun _ => rfl⟩
  | append_singleton es e ih =>
    have hbefore : ∀ e ∈ es, g e = f e ∨ g e = none ∧ ∀ u, f e = some u → u.fails = true :=
      fun e hmem => hkept e (List.mem_append_left _ hmem)
    have hlast := hkept e (List.mem_append_right _ (List.mem_singleton_self _))
    rw [List.filterMap_append] at hrun
    rw [List.filterMap_append, List.filterMap_append]
    cases hf : f e with
    | none =>
      have hg : g e = none := by
        rcases hlast with hsame | ⟨hnone, _⟩
        · rw [hsame, hf]
        · exact hnone
      simp only [List.filterMap_cons_none hf, List.filterMap_cons_none hg, List.filterMap_nil,
        List.append_nil] at hrun ⊢
      exact ih hbefore hrun
    | some u =>
      rw [List.filterMap_cons_some hf, List.filterMap_nil] at hrun ⊢
      obtain ⟨phase₀, hrun₀, hstep⟩ := Run.snoc_iff.mp hrun
      -- a party that calls has not given up
      have hall : es.filterMap g = es.filterMap f := by
        refine (ih hbefore hrun₀).2 ?_
        rintro rfl
        exact h.done _ _ hstep
      rw [hall]
      rcases hlast with hsame | ⟨hnone, hfails⟩
      · rw [List.filterMap_cons_some (hsame.trans hf), List.filterMap_nil]
        exact ⟨List.prefix_rfl, fun _ => rfl⟩
      · rw [List.filterMap_cons_none hnone, List.filterMap_nil, List.append_nil]
        exact ⟨List.prefix_append _ _,
          fun hphase => absurd (h.stopped _ _ _ hstep (hfails u hf)) hphase⟩

end Quits

/-! ## One party -/

/-- What a client has sent and received. -/
def Asked (uses : List (Use α β)) : Phase α → Prop
  | .idle => (sent uses).length = (received uses).length
  | .busy a => ∃ before, sent uses = before ++ [a] ∧ before.length = (received uses).length
  | .stopped => True

/-- What a server has received and sent. -/
def Served (answers : α → β → Prop) (uses : List (Use β α)) : Phase α → Prop
  | .idle => List.Forall₂ answers (received uses) (sent uses)
  | .busy a => ∃ before, received uses = before ++ [a] ∧ List.Forall₂ answers before (sent uses)
  | .stopped => ∃ before, before <+: received uses ∧ List.Forall₂ answers before (sent uses)

theorem asked_of_run {uses : List (Use α β)} {phase : Phase α} (hrun : Run Asks .idle uses phase) :
    Asked uses phase := by
  induction hrun with
  | nil => rfl
  | snoc _ hstep ih =>
    cases hstep with
    | send =>
      rw [Asked] at ih
      exact ⟨_, sent_snoc _ _, by simpa using ih⟩
    | recv =>
      obtain ⟨before, hsent, hlength⟩ := ih
      simp [Asked, hsent, hlength]
    | refused | failed => trivial

theorem served_of_run {answers : α → β → Prop} {uses : List (Use β α)} {phase : Phase α}
    (hrun : Run (Serves answers) .idle uses phase) : Served answers uses phase := by
  induction hrun with
  | nil => exact .nil
  | snoc _ hstep ih =>
    cases hstep with
    | recv =>
      rw [Served] at ih
      exact ⟨_, received_snoc _ _, by simpa using ih⟩
    | @send a b hanswers =>
      obtain ⟨before, hreceived, hbefore⟩ := ih
      have hlast : List.Forall₂ answers [a] [b] := .cons hanswers .nil
      simpa [Served, hreceived] using List.rel_append hbefore hlast
    | failed =>
      rw [Served] at ih
      exact ⟨_, List.prefix_rfl, by simpa using ih⟩
    | refused =>
      obtain ⟨before, hreceived, hbefore⟩ := ih
      exact ⟨before, by simp [hreceived], by simpa using hbefore⟩

/-- What a server sent answers what it received first. -/
theorem Served.answered {answers : α → β → Prop} {uses : List (Use β α)} {phase : Phase α}
    (h : Served answers uses phase) :
    ∃ before, before <+: received uses ∧ List.Forall₂ answers before (sent uses) := by
  cases phase with
  | idle => exact ⟨_, List.prefix_rfl, h⟩
  | busy a =>
    obtain ⟨before, hreceived, hall⟩ := h
    exact ⟨before, hreceived ▸ List.prefix_append _ _, hall⟩
  | stopped => exact h

/-- A client that may ask has made an even number of calls. -/
theorem Asked.even {uses : List (Use α β)} (h : Asked uses .idle) :
    ((sent uses).length + (received uses).length) % 2 = 0 := by
  have hlength : (sent uses).length = (received uses).length := h
  omega

/-- A server that may answer has made an odd number of calls. -/
theorem Served.odd {answers : α → β → Prop} {uses : List (Use β α)} {a : α}
    (h : Served answers uses (.busy a)) :
    ((sent uses).length + (received uses).length) % 2 = 1 := by
  obtain ⟨before, hreceived, hall⟩ := h
  rw [hreceived, List.length_append, List.length_singleton, hall.length_eq]
  omega

/-! ## Both parties -/

section Both

variable {answers : α → β → Prop} {client : List (Use α β)} {server : List (Use β α)}
  {phase : Phase α} {a : α}

/-- The reply at every place answers the request at that place. -/
theorem replies_answer (hserver : Run (Serves answers) .idle server phase)
    (hrequests : received server <+: sent client) (hreplies : received client <+: sent server) :
    List.Forall₂ answers ((sent client).take (received client).length) (received client) := by
  obtain ⟨before, hbefore, hall⟩ := (served_of_run hserver).answered
  have htake := List.forall₂_take (received client).length hall
  rw [← List.prefix_iff_eq_take.mp hreplies] at htake
  have hasked : before.take (received client).length <+: sent client :=
    (List.take_prefix _ _).trans (hbefore.trans hrequests)
  have hlength := htake.length_eq
  rwa [List.prefix_iff_eq_take.mp hasked, hlength] at htake

/-- While a client waits, everything but the last reply has reached it. -/
theorem sent_while_waiting (hclient : Asked client (.busy a))
    (hserver : Served answers server phase)
    (hrequests : received server <+: sent client) (hreplies : received client <+: sent server) :
    sent server = received client ∨ received server = sent client ∧
      ∃ b, answers a b ∧ sent server = received client ++ [b] := by
  obtain ⟨asked, hasked, hlength⟩ := hclient
  obtain ⟨before, hbefore, hall⟩ := hserver.answered
  obtain ⟨pending, hpending⟩ := hreplies
  have hserved := hall.length_eq
  rw [← hpending, List.length_append] at hserved
  have hsent : (sent client).length = (received client).length + 1 := by
    rw [hasked, List.length_append, hlength, List.length_singleton]
  have hle := hbefore.length_le
  have hle' := hrequests.length_le
  cases pending with
  | nil => exact .inl (by simpa using hpending.symm)
  | cons b rest =>
    rw [List.length_cons] at hserved
    obtain rfl : rest = [] := List.eq_nil_of_length_eq_zero (by omega)
    have hreceived : received server = sent client := hrequests.eq_of_length (by omega)
    have hsame : before = sent client := (hbefore.trans hrequests).eq_of_length (by
      rw [List.length_nil] at hserved
      omega)
    refine .inr ⟨hreceived, b, ?_, hpending.symm⟩
    rw [← hpending, hsame, hasked] at hall
    have hlast := List.forall₂_drop_append _ _ _ hall
    rw [← hlength, List.drop_left] at hlast
    exact (List.forall₂_cons.mp hlast).1

/-- Where the request of a client that waits has gone. -/
def Awaited (answers : α → β → Prop) (client : List (Use α β)) (server : List (Use β α)) (a : α) :
    Phase α → Prop
  | .idle => sent client = received server ++ [a] ∨
      ∃ b, answers a b ∧ sent server = received client ++ [b]
  | .busy request => request = a
  | .stopped => sent server = received client ∨
      ∃ b, answers a b ∧ sent server = received client ++ [b]

theorem awaited (hclient : Run Asks .idle client (.busy a))
    (hserver : Run (Serves answers) .idle server phase)
    (hrequests : received server <+: sent client) (hreplies : received client <+: sent server) :
    Awaited answers client server a phase := by
  have hwaits := asked_of_run hclient
  have hserved := served_of_run hserver
  have hlast := sent_while_waiting hwaits hserved hrequests hreplies
  obtain ⟨asked, hasked, hlength⟩ := hwaits
  have hsent : (sent client).length = (received client).length + 1 := by
    rw [hasked, List.length_append, hlength, List.length_singleton]
  cases phase with
  | idle =>
    rcases hlast with hsame | ⟨_, hreply⟩
    · refine .inl ?_
      have hall : (received server).length = (received client).length := by
        rw [List.Forall₂.length_eq hserved, hsame]
      rw [hasked] at hrequests ⊢
      rw [(List.prefix_of_prefix_length_le hrequests (List.prefix_append _ _)
        (by omega)).eq_of_length (by omega)]
    · exact .inr hreply
  | busy request =>
    obtain ⟨before, hreceived, hall⟩ := hserved
    have hserves : (received server).length = (sent server).length + 1 := by
      rw [hreceived, List.length_append, hall.length_eq, List.length_singleton]
    rcases hlast with hsame | ⟨hsame, b, _, hreply⟩
    · have hequal : received server = sent client := hrequests.eq_of_length (by
        rw [hsame] at hserves
        omega)
      rw [hreceived, hasked] at hequal
      exact (List.cons.inj (List.append_inj' hequal rfl).2).1
    · rw [hreply, List.length_append, List.length_singleton, hsame] at hserves
      omega
  | stopped =>
    rcases hlast with hsame | ⟨_, hreply⟩
    · exact .inl hsame
    · exact .inr hreply

end Both

end Requests

end TcpHandler.Foundation
