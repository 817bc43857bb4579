/-
  Foundation/Conversation.lean --- two parties and one log.

  A conversation is a log of messages, each with the party that said it.  A party
  reads the log from its start and may add to it when it stands at its end; it
  does not know where the other stands.

      kept_of_run   between the two places there is only what the party ahead has
                    said, so nothing is ever said by both at once
      goes_on       when a script says who is to say each message, one of the two
                    can always go on
-/
import TcpHandler.Foundation.Run

set_option autoImplicit false

namespace TcpHandler.Foundation

namespace Conversation

variable {α : Type}

/-- What was said, and how many messages each party has said or heard. -/
structure State (α : Type) where
  log : List (Party × α)
  place : Party → Nat

inductive Act (α : Type) where
  | say (a : α)
  | hear (a : α)

/-- Nothing was said. -/
def start : State α := ⟨[], fun _ => 0⟩

/-- A party says something at the end of the log, or hears what comes next. -/
inductive Step : State α → Party × Act α → State α → Prop
  | say {s : State α} {p : Party} {a : α} (hend : s.place p = s.log.length) :
      Step s (p, .say a) ⟨s.log ++ [(p, a)], Function.update s.place p (s.place p + 1)⟩
  | hear {s : State α} {p : Party} {a : α} (hnext : s.log[s.place p]? = some (p.peer, a)) :
      Step s (p, .hear a) ⟨s.log, Function.update s.place p (s.place p + 1)⟩

/-- The messages of `p` in a log. -/
def owned (p : Party) (log : List (Party × α)) : List α :=
  log.filterMap fun (q, a) => if q = p then some a else none

/-- What `p` said. -/
def said (p : Party) (tr : List (Party × Act α)) : List α :=
  tr.filterMap fun
    | (q, .say a) => if q = p then some a else none
    | _ => none

/-- What `p` heard. -/
def heard (p : Party) (tr : List (Party × Act α)) : List α :=
  tr.filterMap fun
    | (q, .hear a) => if q = p then some a else none
    | _ => none

theorem owned_append (p : Party) (log rest : List (Party × α)) :
    owned p (log ++ rest) = owned p log ++ owned p rest :=
  List.filterMap_append

theorem said_append (p : Party) (tr post : List (Party × Act α)) :
    said p (tr ++ post) = said p tr ++ said p post :=
  List.filterMap_append

theorem heard_append (p : Party) (tr post : List (Party × Act α)) :
    heard p (tr ++ post) = heard p tr ++ heard p post :=
  List.filterMap_append

theorem owned_singleton (p q : Party) (a : α) : owned p [(q, a)] = if q = p then [a] else [] := by
  by_cases hq : q = p <;> simp [owned, hq]

/-- What holds after every run.

* `abreast`, `ahead`: one of the two stands at the end of the log, and what the
  other has before it was said by its peer.
* `said_eq`, `heard_eq`: the log is what was said, and a party has heard what its
  peer said up to its place. -/
structure Kept (tr : List (Party × Act α)) (s : State α) : Prop where
  within : ∀ p, s.place p ≤ s.log.length
  abreast : ∀ p, s.place p = s.log.length ∨ s.place p.peer = s.log.length
  ahead : ∀ p k q a, s.place p ≤ k → s.log[k]? = some (q, a) → q = p.peer
  said_eq : ∀ p, said p tr = owned p s.log
  heard_eq : ∀ p, heard p tr = owned p.peer (s.log.take (s.place p))

theorem kept_start : Kept (α := α) [] start where
  within _ := Nat.le_refl _
  abreast _ := .inl rfl
  ahead _ _ _ _ _ h := by simp [start] at h
  said_eq _ := rfl
  heard_eq _ := rfl

variable {tr : List (Party × Act α)} {s s' : State α} {p : Party} {a : α}

theorem Kept.say (h : Kept tr s) (hend : s.place p = s.log.length) :
    Kept (tr ++ [(p, .say a)])
      ⟨s.log ++ [(p, a)], Function.update s.place p (s.place p + 1)⟩ where
  within q := by
    have hq := h.within q
    cases Party.eq_or_eq_peer p q with
    | inl heq => subst heq; simp [hend]
    | inr heq => subst heq; simpa using Nat.le_succ_of_le hq
  abreast q := by
    cases Party.eq_or_eq_peer p q with
    | inl heq => subst heq; exact .inl (by simp [hend])
    | inr heq => subst heq; exact .inr (by simp [hend])
  ahead q k r b hle hk := by
    rw [List.getElem?_append] at hk
    cases Party.eq_or_eq_peer p q with
    | inl heq =>
      subst heq
      simp only [Function.update_self] at hle
      rw [if_neg (by omega), List.getElem?_eq_none (by simp; omega)] at hk
      cases hk
    | inr heq =>
      subst heq
      simp only [Party.update_peer] at hle
      split at hk
      · exact h.ahead _ k r b hle hk
      · obtain ⟨_, hsingle⟩ := List.getElem?_eq_some_iff.mp hk
        rw [List.getElem_singleton] at hsingle
        cases hsingle
        simp
  said_eq q := by
    rw [said_append, owned_append, h.said_eq, owned_singleton]
    by_cases hq : p = q <;> simp [said, hq]
  heard_eq q := by
    rw [heard_append, h.heard_eq]
    cases Party.eq_or_eq_peer p q with
    | inl heq =>
      subst heq
      simp only [Function.update_self]
      rw [hend, List.take_length, List.take_of_length_le (by simp), owned_append, owned_singleton]
      simp [heard]
    | inr heq =>
      subst heq
      simp only [Party.update_peer]
      rw [List.take_append_of_le_length (h.within _)]
      simp [heard]

theorem Kept.hear (h : Kept tr s) (hnext : s.log[s.place p]? = some (p.peer, a)) :
    Kept (tr ++ [(p, .hear a)]) ⟨s.log, Function.update s.place p (s.place p + 1)⟩ where
  within q := by
    have hlt := (List.getElem?_eq_some_iff.mp hnext).1
    cases Party.eq_or_eq_peer p q with
    | inl heq => subst heq; simpa using Nat.succ_le_of_lt hlt
    | inr heq => subst heq; simpa using h.within p.peer
  abreast q := by
    have hlt := (List.getElem?_eq_some_iff.mp hnext).1
    have hpeer : s.place p.peer = s.log.length := (h.abreast p).resolve_left (Nat.ne_of_lt hlt)
    cases Party.eq_or_eq_peer p q with
    | inl heq => subst heq; exact .inr (by simpa using hpeer)
    | inr heq => subst heq; exact .inl (by simpa using hpeer)
  ahead q k r b hle hk := by
    cases Party.eq_or_eq_peer p q with
    | inl heq =>
      subst heq
      simp only [Function.update_self] at hle
      exact h.ahead q k r b (by omega) hk
    | inr heq =>
      subst heq
      exact h.ahead _ k r b (by simpa using hle) hk
  said_eq q := by
    rw [said_append, h.said_eq]
    simp [said]
  heard_eq q := by
    rw [heard_append, h.heard_eq]
    cases Party.eq_or_eq_peer p q with
    | inl heq =>
      subst heq
      simp only [Function.update_self]
      rw [List.take_add_one, hnext, owned_append, Option.toList_some, owned_singleton]
      simp [heard]
    | inr heq =>
      subst heq
      simp [heard]

theorem kept_of_run (hrun : Run Step start tr s) : Kept tr s := by
  induction hrun with
  | nil => exact kept_start
  | snoc _ hstep ih =>
    cases hstep with
    | say hend => exact ih.say hend
    | hear hnext => exact ih.hear hnext

/-- What a party heard, its peer said first. -/
theorem Kept.heard_prefix (h : Kept tr s) (p : Party) : heard p.peer tr <+: said p tr := by
  rw [h.said_eq, h.heard_eq, Party.peer_peer]
  exact (List.take_prefix _ _).filterMap _

/-- A party at the end of the log has heard everything. -/
theorem Kept.heard_all (h : Kept tr s) (hend : s.place p.peer = s.log.length) :
    heard p.peer tr = said p tr := by
  rw [h.said_eq, h.heard_eq, Party.peer_peer, hend, List.take_length]

/-- A party that is not at the end of the log can hear what comes next. -/
theorem Kept.next (h : Kept tr s) (hlt : s.place p < s.log.length) :
    ∃ a, s.log[s.place p]? = some (p.peer, a) := by
  obtain ⟨⟨q, a⟩, hnext⟩ : ∃ entry, s.log[s.place p]? = some entry :=
    ⟨_, List.getElem?_eq_getElem hlt⟩
  obtain rfl := h.ahead p _ _ _ (Nat.le_refl _) hnext
  exact ⟨a, hnext⟩

/-- What comes next is what the peer said behind what was heard. -/
theorem Kept.said_of_next (h : Kept tr s) (hnext : s.log[s.place p]? = some (p.peer, a)) :
    ∃ rest, said p.peer tr = heard p tr ++ a :: rest := by
  obtain ⟨hlt, hentry⟩ := List.getElem?_eq_some_iff.mp hnext
  have hdrop : s.log.drop (s.place p) = (p.peer, a) :: s.log.drop (s.place p + 1) := by
    rw [List.drop_eq_getElem_cons hlt, hentry]
  refine ⟨owned p.peer (s.log.drop (s.place p + 1)), ?_⟩
  rw [h.said_eq, h.heard_eq]
  conv_lhs => rw [← List.take_append_drop (s.place p) s.log]
  rw [hdrop, owned_append, ← List.singleton_append, owned_append, owned_singleton, if_pos rfl]
  rfl

/-- When a script says who is to say each message, one of the two can go on. -/
theorem Kept.goes_on (h : Kept tr s) (script : Nat → Party) :
    ∃ p, script (s.place p) = p ∧ s.place p = s.log.length ∨ s.place p < s.log.length := by
  by_cases hend : ∀ p, s.place p = s.log.length
  · exact ⟨script s.log.length, .inl ⟨by rw [hend], hend _⟩⟩
  · obtain ⟨p, hp⟩ := not_forall.mp hend
    exact ⟨p, .inr (Nat.lt_of_le_of_ne (h.within p) hp)⟩

end Conversation

end TcpHandler.Foundation
