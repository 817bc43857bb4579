/-
  Foundation/Ratchet.lean --- two parties on one tree of links.

  Two parties share a current value, the node they stand on.  A party that
  extends the tree uses its node and moves on to a fresh one; the link between
  the two may carry a content.  A party that follows a link moves from the start
  of the link to its end, whoever made it and however often it was followed
  before.  A party may also lose its node for good.

  When fresh nodes are fresh, the links form a tree below the common root.  These
  facts follow for every run, in whatever order the parties act:

      followed_prefix   what a party follows is a prefix of what its peer made:
                        no link of its own, none twice, none left out
      followed_prefix_of_gap
                        nothing is followed that is made behind a link that
                        cannot be
      srcs_nodup_iff    no node is used twice exactly when the parties take
                        turns: who extends has followed all of its peer's links
      srcs_ownedBy_nodup, shared_unique
                        in no run does a party use a node twice, and at most one
                        node is used by both

  All rest on `Tracked`: every party stands at the end of a path from the root
  that holds all of its own links, and paths are unique.
-/
import Mathlib.Data.List.Infix
import TcpHandler.Foundation.Run

set_option autoImplicit false

namespace TcpHandler.Foundation

/-- A move from one node to a fresh one.  Without a content the move failed. -/
structure Link (ν M : Type) where
  owner : Party
  src : ν
  dst : ν
  content : Option M

namespace Ratchet

variable {ν M : Type}

/-- Where the parties stand, and every link made so far. -/
structure State (ν M : Type) where
  node : Party → Option ν
  log : List (Link ν M)

/-- Both parties at the root. -/
def start (root : ν) : State ν M := ⟨fun _ => some root, []⟩

/-- What a party does. -/
inductive Act (ν M : Type) where
  /-- use the node for a link of one's own -/
  | extend (link : Link ν M)
  /-- move along a link that carries `content` -/
  | follow (party : Party) (src dst : ν) (content : M)
  /-- lose the node -/
  | halt (party : Party)
  /-- have no node to move from -/
  | drop (party : Party)

/-- A step of the two parties.  A party whose link carries nothing is left
without a node, and so is a party that halts. -/
inductive Step : State ν M → Act ν M → State ν M → Prop
  | extend {s : State ν M} {link : Link ν M} (hnode : s.node link.owner = some link.src) :
      Step s (.extend link)
        ⟨Function.update s.node link.owner (link.content.map fun _ => link.dst),
          s.log ++ [link]⟩
  | follow {s : State ν M} {p owner : Party} {src dst : ν} {content : M}
      (hnode : s.node p = some src) (hlog : ⟨owner, src, dst, some content⟩ ∈ s.log) :
      Step s (.follow p src dst content) ⟨Function.update s.node p (some dst), s.log⟩
  | halt {s : State ν M} {p : Party} :
      Step s (.halt p) ⟨Function.update s.node p none, s.log⟩
  | drop {s : State ν M} {p : Party} (hnode : s.node p = none) : Step s (.drop p) s

theorem Step.unique {s s₁ s₂ : State ν M} {act : Act ν M} (h₁ : Step s act s₁)
    (h₂ : Step s act s₂) : s₁ = s₂ := by
  cases h₁ <;> cases h₂ <;> rfl

/-- The links made by `p`, in order. -/
def ownedBy (p : Party) (links : List (Link ν M)) : List (Link ν M) :=
  links.filter (·.owner = p)

@[simp] theorem ownedBy_nil (p : Party) : ownedBy p ([] : List (Link ν M)) = [] := rfl

theorem ownedBy_append (p : Party) (links links' : List (Link ν M)) :
    ownedBy p (links ++ links') = ownedBy p links ++ ownedBy p links' :=
  List.filter_append ..

@[simp] theorem ownedBy_singleton_self (link : Link ν M) :
    ownedBy link.owner [link] = [link] := by
  simp [ownedBy]

theorem ownedBy_singleton_of_ne {p : Party} {link : Link ν M} (h : link.owner ≠ p) :
    ownedBy p [link] = [] := by
  simp [ownedBy, h]

theorem mem_ownedBy {p : Party} {link : Link ν M} {links : List (Link ν M)} :
    link ∈ ownedBy p links ↔ link ∈ links ∧ link.owner = p := by
  simp [ownedBy]

/-- The link a step makes. -/
def Act.link : Act ν M → Option (Link ν M)
  | .extend link => some link
  | _ => none

/-- The link `p` follows in a step, read as one of its peer's. -/
def Act.followedBy (p : Party) : Act ν M → Option (Link ν M)
  | .follow q src dst content =>
      if q = p then some ⟨p.peer, src, dst, some content⟩ else none
  | _ => none

/-- The links made in a run. -/
def made (tr : List (Act ν M)) : List (Link ν M) := tr.filterMap Act.link

/-- The links `p` followed in a run. -/
def followed (p : Party) (tr : List (Act ν M)) : List (Link ν M) :=
  tr.filterMap (Act.followedBy p)

theorem made_append (tr post : List (Act ν M)) : made (tr ++ post) = made tr ++ made post :=
  List.filterMap_append

theorem followed_append (p : Party) (tr post : List (Act ν M)) :
    followed p (tr ++ post) = followed p tr ++ followed p post :=
  List.filterMap_append

/-- Every link that was followed carries something. -/
theorem map_content_followed (p : Party) (tr : List (Act ν M)) :
    (followed p tr).map Link.content =
      ((followed p tr).filterMap Link.content).map some := by
  induction tr with
  | nil => rfl
  | cons act rest ih =>
    cases hact : act.followedBy p with
    | none => simpa [followed, hact] using ih
    | some link =>
      obtain ⟨content, hcontent⟩ : ∃ content, link.content = some content := by
        cases act with
        | follow q src dst content =>
          simp only [Act.followedBy, Option.ite_none_right_eq_some, Option.some.injEq] at hact
          exact ⟨content, hact.2 ▸ rfl⟩
        | extend _ => simp [Act.followedBy] at hact
        | halt _ => simp [Act.followedBy] at hact
        | drop _ => simp [Act.followedBy] at hact
      simpa [followed, hact, hcontent] using ih

/-- Whoever makes a link has followed everything its peer has made before. -/
def InTurn (tr : List (Act ν M)) : Prop :=
  Throughout (fun pre act => ∀ link, act.link = some link →
    (followed link.owner pre).length = (ownedBy link.owner.peer (made pre)).length) tr

/-- The log is what was made. -/
theorem log_eq {root : ν} {tr : List (Act ν M)} {s : State ν M}
    (h : Run Step (start root) tr s) : s.log = made tr := by
  induction h with
  | nil => rfl
  | snoc _ hstep ih =>
    cases hstep <;> simp_all [made, Act.link]

/-! ## Tracked runs -/

/-- Every party and every link is tracked by a path from the root.

* `party`: the path of `p` ends where `p` stands.  It holds all links `p` made
  and, besides them, the links `p` followed.
* `prefix_made`: what `p` followed is a prefix of what its peer made.
* `link`: the path to the start of the `i`-th link of `o` holds the first `i`
  links of `o`. -/
structure Tracked (root : ν) (tr : List (Act ν M)) (s : State ν M) : Prop where
  party : ∀ p, ∃ path, path ⊆ s.log ∧
    (∀ n, s.node p = some n → Path Link.src Link.dst root path n) ∧
    ownedBy p path = ownedBy p s.log ∧ ownedBy p.peer path = followed p tr
  prefix_made : ∀ p, followed p tr <+: ownedBy p.peer s.log
  link : ∀ o i l, (ownedBy o s.log)[i]? = some l → ∃ path, path ⊆ s.log ∧
    Path Link.src Link.dst root path l.src ∧ ownedBy o path = (ownedBy o s.log).take i

section Tracked

variable {root : ν} {tr : List (Act ν M)} {s s' : State ν M}

theorem tracked_start : Tracked root [] (start root : State ν M) where
  party p := by
    refine ⟨[], by simp, ?_, rfl, rfl⟩
    intro n hn
    exact Path.nil_iff.mpr (Option.some.inj hn).symm
  prefix_made p := List.nil_prefix
  link o i l hl := by simp [start] at hl

/-- The path to the start of a logged link, at the position the link has among
the links of its owner. -/
theorem Tracked.link_of_mem (h : Tracked root tr s) {l : Link ν M} (hl : l ∈ s.log) :
    ∃ i path, (ownedBy l.owner s.log)[i]? = some l ∧ path ⊆ s.log ∧
      Path Link.src Link.dst root path l.src ∧
      ownedBy l.owner path = (ownedBy l.owner s.log).take i := by
  obtain ⟨i, hi⟩ := List.getElem?_of_mem (mem_ownedBy.mpr ⟨hl, rfl⟩)
  obtain ⟨path, hsub, hpath, htake⟩ := h.link _ i l hi
  exact ⟨i, path, hi, hsub, hpath, htake⟩

/-- A party never stands at the start of a link of its own, and a link of its
peer that starts where it stands is the next one after those it followed. -/
theorem Tracked.next_link (hfresh : (root :: s.log.map Link.dst).Nodup) (h : Tracked root tr s)
    {p : Party} {l : Link ν M} (hnode : s.node p = some l.src) (hl : l ∈ s.log) :
    l.owner = p.peer ∧ (ownedBy p.peer s.log)[(followed p tr).length]? = some l := by
  obtain ⟨path, hsub, hpath, hown, hpeer⟩ := h.party p
  obtain ⟨i, path', hi, hsub', hpath', htake⟩ := h.link_of_mem hl
  have hlt : i < (ownedBy l.owner s.log).length := (List.getElem?_eq_some_iff.mp hi).1
  -- the party and the link are at the end of the same path
  have hsame : path = path' := Path.unique hfresh (hpath _ hnode) hsub hpath' hsub'
  subst hsame
  have howner : l.owner ≠ p := by
    intro heq
    subst heq
    have hlen := congrArg List.length (hown.symm.trans htake)
    rw [List.length_take] at hlen
    omega
  have hpeerOwner := Party.eq_peer_of_ne howner
  rw [hpeerOwner] at hi htake hlt
  refine ⟨hpeerOwner, ?_⟩
  have hlen : (followed p tr).length = i := by
    rw [← hpeer, htake, List.length_take]
    omega
  rw [hlen]
  exact hi

theorem take_ownedBy_append {o : Party} {links : List (Link ν M)} {new : Link ν M} {i : Nat}
    (hi : i ≤ (ownedBy o links).length) :
    (ownedBy o (links ++ [new])).take i = (ownedBy o links).take i := by
  rw [ownedBy_append, List.take_append_of_le_length hi]

/-- Making a link keeps everything tracked. -/
theorem Tracked.extend (h : Tracked root tr s) {link : Link ν M}
    (hnode : s.node link.owner = some link.src) :
    Tracked root (tr ++ [.extend link])
      ⟨Function.update s.node link.owner (link.content.map fun _ => link.dst),
        s.log ++ [link]⟩ where
  party p := by
    obtain ⟨path, hsub, hpath, hown, hpeer⟩ := h.party p
    have hfollowed : followed p (tr ++ [.extend link]) = followed p tr := by
      simp [followed, Act.followedBy]
    rw [hfollowed]
    have hweak : s.log ⊆ s.log ++ [link] := List.subset_append_left _ _
    cases Party.eq_or_eq_peer link.owner p with
    | inl hp =>
      subst hp
      refine ⟨path ++ [link], ?_, ?_, ?_, ?_⟩
      · exact List.append_subset.mpr ⟨List.Subset.trans hsub hweak, List.subset_append_right _ _⟩
      · intro n hn
        simp only [Function.update_self, Option.map_eq_some_iff] at hn
        obtain ⟨_, _, rfl⟩ := hn
        exact Path.snoc_iff.mpr ⟨hpath _ hnode, rfl⟩
      · rw [ownedBy_append, ownedBy_append, hown]
      · rw [ownedBy_append, hpeer, ownedBy_singleton_of_ne (Party.ne_peer _), List.append_nil]
    | inr hp =>
      subst hp
      refine ⟨path, List.Subset.trans hsub hweak, ?_, ?_, hpeer⟩
      · intro n hn
        simp only [Party.update_peer] at hn
        exact hpath n hn
      · rw [ownedBy_append, hown, ownedBy_singleton_of_ne (Party.ne_peer _), List.append_nil]
  prefix_made p := by
    have hfollowed : followed p (tr ++ [.extend link]) = followed p tr := by
      simp [followed, Act.followedBy]
    rw [hfollowed, ownedBy_append]
    exact (h.prefix_made p).trans (List.prefix_append _ _)
  link o i l hl := by
    have hweak : s.log ⊆ s.log ++ [link] := List.subset_append_left _ _
    by_cases hi : i < (ownedBy o s.log).length
    · -- an old link
      rw [ownedBy_append, List.getElem?_append_left hi] at hl
      obtain ⟨path, hsub, hpath, htake⟩ := h.link o i l hl
      exact ⟨path, List.Subset.trans hsub hweak, hpath,
        htake.trans (take_ownedBy_append (Nat.le_of_lt hi)).symm⟩
    · -- the new one: its owner's path leads to its start
      rw [ownedBy_append, List.getElem?_append_right (Nat.le_of_not_lt hi)] at hl
      have howner : link.owner = o := by
        by_contra hne
        simp [ownedBy_singleton_of_ne hne] at hl
      subst howner
      rw [ownedBy_singleton_self] at hl
      have hidx : i - (ownedBy link.owner s.log).length = 0 := by
        have := (List.getElem?_eq_some_iff.mp hl).1
        simpa using this
      rw [hidx] at hl
      obtain rfl : link = l := by simpa using hl
      have hlast : i = (ownedBy link.owner s.log).length := by omega
      obtain ⟨path, hsub, hpath, hown, _⟩ := h.party link.owner
      refine ⟨path, List.Subset.trans hsub hweak, hpath _ hnode, ?_⟩
      rw [take_ownedBy_append (Nat.le_of_eq hlast), hown, hlast, List.take_length]

/-- Following a link keeps everything tracked. -/
theorem Tracked.follow (hfresh : (root :: s.log.map Link.dst).Nodup) (h : Tracked root tr s)
    {p owner : Party} {src dst : ν} {content : M} (hnode : s.node p = some src)
    (hlog : ⟨owner, src, dst, some content⟩ ∈ s.log) :
    Tracked root (tr ++ [.follow p src dst content])
      ⟨Function.update s.node p (some dst), s.log⟩ := by
  obtain ⟨howner, hnext⟩ := h.next_link hfresh (l := ⟨owner, src, dst, some content⟩) hnode hlog
  simp only at howner
  subst howner
  have hp : followed p (tr ++ [.follow p src dst content]) =
      followed p tr ++ [⟨p.peer, src, dst, some content⟩] := by
    simp [followed, Act.followedBy]
  have hother : followed p.peer (tr ++ [.follow p src dst content]) = followed p.peer tr := by
    simp [followed, Act.followedBy]
  refine ⟨fun q => ?_, fun q => ?_, h.link⟩
  · obtain ⟨path, hsub, hpath, hown, hpeer⟩ := h.party q
    cases Party.eq_or_eq_peer p q with
    | inl hq =>
      subst hq
      refine ⟨path ++ [⟨q.peer, src, dst, some content⟩], ?_, ?_, ?_, ?_⟩
      · exact List.append_subset.mpr ⟨hsub, by simpa using hlog⟩
      · intro n hn
        simp only [Function.update_self, Option.some.injEq] at hn
        exact Path.snoc_iff.mpr ⟨hpath _ hnode, hn⟩
      · rw [ownedBy_append, hown, ownedBy_singleton_of_ne (Party.peer_ne q), List.append_nil]
      · rw [ownedBy_append, hpeer, hp]
        exact congrArg _ (ownedBy_singleton_self _)
    | inr hq =>
      subst hq
      refine ⟨path, hsub, ?_, hown, hpeer.trans hother.symm⟩
      intro n hn
      simp only [Party.update_peer] at hn
      exact hpath n hn
  · cases Party.eq_or_eq_peer p q with
    | inl hq =>
      subst hq
      rw [hp]
      obtain ⟨hlt, hget⟩ := List.getElem?_eq_some_iff.mp hnext
      have hconcat := List.concat_get_prefix (h.prefix_made q) hlt
      rwa [List.get_eq_getElem, hget] at hconcat
    | inr hq =>
      subst hq
      rw [hother]
      exact h.prefix_made p.peer

/-- A party that halts keeps everything tracked. -/
theorem Tracked.halt (h : Tracked root tr s) (p : Party) :
    Tracked root (tr ++ [.halt p]) ⟨Function.update s.node p none, s.log⟩ := by
  have hfollowed : ∀ q, followed q (tr ++ [(.halt p : Act ν M)]) = followed q tr := by
    intro q
    simp [followed, Act.followedBy]
  refine ⟨fun q => ?_, fun q => ?_, h.link⟩
  · obtain ⟨path, hsub, hpath, hown, hpeer⟩ := h.party q
    refine ⟨path, hsub, ?_, hown, hpeer.trans (hfollowed q).symm⟩
    intro n hn
    apply hpath n
    by_cases hq : q = p
    · subst hq
      simp at hn
    · simpa [Function.update_of_ne hq] using hn
  · rw [hfollowed]
    exact h.prefix_made q

/-- A party without a node changes nothing. -/
theorem Tracked.drop (h : Tracked root tr s) (p : Party) :
    Tracked root (tr ++ [.drop p]) s := by
  have hfollowed : ∀ q, followed q (tr ++ [(.drop p : Act ν M)]) = followed q tr := by
    intro q
    simp [followed, Act.followedBy]
  exact ⟨fun q => by rw [hfollowed]; exact h.party q,
    fun q => by rw [hfollowed]; exact h.prefix_made q, h.link⟩

/-- The log of a step's start is a prefix of the log of its end. -/
theorem Step.log_prefix {act : Act ν M} (h : Step s act s') : s.log <+: s'.log := by
  cases h with
  | extend _ => exact List.prefix_append _ _
  | follow _ _ => exact List.prefix_refl _
  | halt => exact List.prefix_refl _
  | drop _ => exact List.prefix_refl _

/-- Fresh nodes stay fresh when the log is cut. -/
theorem fresh_of_prefix {log log' : List (Link ν M)} (hpre : log <+: log')
    (h : (root :: log'.map Link.dst).Nodup) : (root :: log.map Link.dst).Nodup :=
  h.sublist ((hpre.sublist.map _).cons_cons root)

/-- Every run with fresh nodes is tracked. -/
theorem tracked (hrun : Run Step (start root) tr s) (hfresh : (root :: s.log.map Link.dst).Nodup) :
    Tracked root tr s := by
  revert hfresh
  refine Run.invariant (I := fun tr s => (root :: s.log.map Link.dst).Nodup → Tracked root tr s)
    (fun _ => tracked_start) ?_ hrun
  intro tr s act s' _ ih hstep hfresh
  have hbefore := fresh_of_prefix hstep.log_prefix hfresh
  cases hstep with
  | extend hnode => exact (ih hbefore).extend hnode
  | follow hnode hlog => exact (ih hbefore).follow hbefore hnode hlog
  | halt => exact (ih hbefore).halt _
  | drop _ => exact (ih hbefore).drop _

/-- What a party followed is a prefix of what its peer made. -/
theorem followed_prefix (hrun : Run Step (start root) tr s)
    (hfresh : (root :: s.log.map Link.dst).Nodup) (p : Party) :
    followed p tr <+: ownedBy p.peer s.log :=
  (tracked hrun hfresh).prefix_made p

/-- A part of a list without repetitions that holds a prefix of the list starts with
it. -/
theorem prefix_of_sublist {α : Type} {before part whole : List α} (hnodup : whole.Nodup)
    (hbegins : before <+: whole) (hbefore : before.Sublist part) (hpart : part.Sublist whole) :
    before <+: part := by
  induction whole generalizing before part with
  | nil =>
    rw [List.prefix_nil.mp hbegins]
    exact List.nil_prefix
  | cons a rest ih =>
    obtain ⟨hnew, hrest⟩ := List.nodup_cons.mp hnodup
    cases before with
    | nil => exact List.nil_prefix
    | cons b before =>
      obtain ⟨rfl, hrest'⟩ := List.cons_prefix_cons.mp hbegins
      cases hpart with
      | cons _ hpart => exact absurd (hpart.subset (hbefore.subset List.mem_cons_self)) hnew
      | cons_cons _ hpart =>
        exact List.cons_prefix_cons.mpr
          ⟨rfl, ih hrest hrest' (List.cons_sublist_cons.mp hbefore) hpart⟩

/-- A prefix of two lists one after the other that does not reach the second. -/
theorem prefix_of_head {α : Type} {begins left right : List α} (h : begins <+: left ++ right)
    (hhead : ∀ a ∈ right.head?, a ∉ begins) : begins <+: left := by
  refine (List.prefix_or_prefix_of_prefix h (List.prefix_append _ _)).elim id ?_
  rintro ⟨rest, rfl⟩
  rw [List.prefix_append_right_inj] at h
  cases rest with
  | nil => simp
  | cons a rest =>
    obtain ⟨more, rfl⟩ := h
    exact absurd (by simp) (hhead a rfl)

/-- A prefix of a list without repetitions that leaves out one of its elements takes
nothing from behind it. -/
theorem prefix_of_gap {α : Type} {begins front back left right : List α} {gap : α}
    (hnodup : (left ++ gap :: right).Nodup) (hbegins : begins <+: left ++ gap :: right)
    (hpart : begins <+: front ++ back) (hfront : front.Sublist left)
    (hback : back.Sublist right) : begins <+: front := by
  obtain ⟨_, hright, hapart⟩ := List.nodup_append.mp hnodup
  have hgap : gap ∉ begins := by
    intro hmem
    rcases List.mem_append.mp (hpart.subset hmem) with hmem | hmem
    · exact hapart gap (hfront.subset hmem) gap List.mem_cons_self rfl
    · exact (List.nodup_cons.mp hright).1 (hback.subset hmem)
  have hleft : begins <+: left := prefix_of_head hbegins (by simpa using hgap)
  refine prefix_of_head hpart fun a ha hmem => ?_
  have haback : a ∈ back := List.mem_of_mem_head? ha
  exact hapart a (hleft.subset hmem) a (List.mem_cons_of_mem _ (hback.subset haback)) rfl

/-- When a party can only follow a part of what its peer made, it follows a prefix of
this part. -/
theorem followed_prefix_of_sublist (hrun : Run Step (start root) tr s)
    (hfresh : (root :: s.log.map Link.dst).Nodup) {p : Party} {part : List (Link ν M)}
    (hpart : part.Sublist (ownedBy p.peer s.log)) (hfollowed : (followed p tr).Sublist part) :
    followed p tr <+: part := by
  have hnodup : (ownedBy p.peer s.log).Nodup :=
    (List.Nodup.of_map _ (List.nodup_cons.mp hfresh).2).filter _
  have hbegins := followed_prefix hrun hfresh p
  exact prefix_of_sublist hnodup hbegins hfollowed hpart

/-- A party that has lost its node makes nothing. -/
theorem made_of_lost {p : Party} (hrun : Run Step s tr s') (hnode : s.node p = none) :
    s'.node p = none ∧ ownedBy p (made tr) = [] := by
  refine Run.invariant (I := fun tr s' => s'.node p = none ∧ ownedBy p (made tr) = [])
    ⟨hnode, rfl⟩ ?_ hrun
  rintro tr s act s' _ ⟨hnone, hmade⟩ hstep
  rw [made_append, ownedBy_append, hmade, List.nil_append]
  cases hstep with
  | @extend link hextend =>
    have hne : link.owner ≠ p := by
      rintro rfl
      rw [hnone] at hextend
      cases hextend
    exact ⟨(Function.update_of_ne hne.symm _ _).trans hnone, ownedBy_singleton_of_ne hne⟩
  | @follow q owner src dst content hfollow =>
    have hne : q ≠ p := by
      rintro rfl
      rw [hnone] at hfollow
      cases hfollow
    exact ⟨(Function.update_of_ne hne.symm _ _).trans hnone, rfl⟩
  | @halt q =>
    refine ⟨?_, rfl⟩
    by_cases hq : p = q
    · subst hq
      exact Function.update_self ..
    · exact (Function.update_of_ne hq _ _).trans hnone
  | drop _ => exact ⟨hnone, rfl⟩

/-- When a link of `p` cannot be followed, nothing that `p` makes behind it is. -/
theorem followed_prefix_of_gap {before after : List (Act ν M)} {link : Link ν M}
    (hrun : Run Step (start root) (before ++ .extend link :: after) s)
    (hfresh : (root :: s.log.map Link.dst).Nodup) {front back : List (Link ν M)}
    (hfront : front.Sublist (ownedBy link.owner (made before)))
    (hback : back.Sublist (ownedBy link.owner (made after)))
    (hfollowed : followed link.owner.peer (before ++ .extend link :: after) <+: front ++ back) :
    followed link.owner.peer (before ++ .extend link :: after) <+: front := by
  have hnodup : (ownedBy link.owner s.log).Nodup :=
    (List.Nodup.of_map _ (List.nodup_cons.mp hfresh).2).filter _
  have hbegins := followed_prefix hrun hfresh link.owner.peer
  have hmade : ownedBy link.owner s.log =
      ownedBy link.owner (made before) ++ link :: ownedBy link.owner (made after) := by
    rw [log_eq hrun, List.append_cons, made_append, made_append, ownedBy_append, ownedBy_append]
    simp [made, Act.link]
  rw [Party.peer_peer, hmade] at hbegins
  rw [hmade] at hnodup
  exact prefix_of_gap hnodup hbegins hfollowed hfront hback

end Tracked

/-! ## Nodes used twice -/

section Reuse

variable {root : ν} {tr : List (Act ν M)} {s : State ν M}

/-- Taking turns, a party stands on a node nobody has used. -/
theorem Tracked.src_not_mem (hfresh : (root :: s.log.map Link.dst).Nodup) (h : Tracked root tr s)
    {p : Party} {n : ν} (hnode : s.node p = some n)
    (hturn : (followed p tr).length = (ownedBy p.peer s.log).length) :
    n ∉ s.log.map Link.src := by
  intro hmem
  obtain ⟨l, hl, rfl⟩ := List.mem_map.mp hmem
  obtain ⟨_, hnext⟩ := h.next_link hfresh hnode hl
  have hlt := (List.getElem?_eq_some_iff.mp hnext).1
  omega

/-- A path is a prefix of another that holds the same links of the peer and all
links of `p` there are. -/
theorem prefix_of_sameLinks {log path path' : List (Link ν M)} {p : Party} {n m : ν}
    (hfresh : (root :: log.map Link.dst).Nodup) (hsub : path ⊆ log) (hsub' : path' ⊆ log)
    (hpath : Path Link.src Link.dst root path n) (hpath' : Path Link.src Link.dst root path' m)
    (hown : ownedBy p path = ownedBy p log)
    (hpeer : ownedBy p.peer path' = ownedBy p.peer path) : path' <+: path := by
  cases List.eq_nil_or_concat path' with
  | inl hnil =>
    subst hnil
    exact List.nil_prefix
  | inr hconcat =>
    obtain ⟨rest, last, rfl⟩ := hconcat
    rw [List.concat_eq_append] at hpath' hsub' hpeer ⊢
    have hlast : last ∈ path := by
      cases Party.eq_or_eq_peer p last.owner with
      | inl ho =>
        have hmem : last ∈ ownedBy p log := mem_ownedBy.mpr ⟨hsub' (by simp), ho⟩
        rw [← hown] at hmem
        exact (mem_ownedBy.mp hmem).1
      | inr ho =>
        have hmem : last ∈ ownedBy p.peer (rest ++ [last]) := mem_ownedBy.mpr ⟨by simp, ho⟩
        rw [hpeer] at hmem
        exact (mem_ownedBy.mp hmem).1
    obtain ⟨before, after, rfl⟩ := List.append_of_mem hlast
    have hsplit : before ++ last :: after = (before ++ [last]) ++ after := by simp
    rw [hsplit] at hpath hsub ⊢
    -- both paths end in `last`, and there is one path to where it leads
    obtain ⟨k, hbefore, _⟩ := Run.split hpath
    have hend : last.dst = k := (Path.snoc_iff.mp hbefore).2
    subst hend
    have hunique := Path.unique hfresh hbefore
      (fun y hy => hsub (List.mem_append_left _ hy))
      (Path.snoc_iff.mpr ⟨(Path.snoc_iff.mp hpath').1, rfl⟩) hsub'
    rw [hunique]
    exact List.prefix_append _ _

/-- A party that has not followed all of its peer's links stands on a node, or
has used a node, from which the next of these links starts. -/
theorem Tracked.src_twice (hfresh : (root :: s.log.map Link.dst).Nodup) (h : Tracked root tr s)
    {p : Party} {n : ν} (hnode : s.node p = some n)
    (hturn : (followed p tr).length ≠ (ownedBy p.peer s.log).length) :
    ∃ x ∈ ownedBy p.peer s.log, x.src = n ∨ ∃ l ∈ ownedBy p s.log, l.src = x.src := by
  have hle := (h.prefix_made p).length_le
  have hlt : (followed p tr).length < (ownedBy p.peer s.log).length := by omega
  obtain ⟨x, hx⟩ : ∃ x, (ownedBy p.peer s.log)[(followed p tr).length]? = some x :=
    ⟨_, List.getElem?_eq_getElem hlt⟩
  obtain ⟨path, hsub, hpath, hown, hpeer⟩ := h.party p
  obtain ⟨path', hsub', hpath', htake⟩ := h.link _ _ _ hx
  refine ⟨x, List.mem_of_getElem? hx, ?_⟩
  -- both paths hold the same links of the peer
  have hsame : ownedBy p.peer path' = ownedBy p.peer path := by
    rw [htake, hpeer]
    exact (List.prefix_iff_eq_take.mp (h.prefix_made p)).symm
  have hprefix : path' <+: path :=
    prefix_of_sameLinks hfresh hsub hsub' (hpath _ hnode) hpath' hown hsame
  obtain ⟨after, rfl⟩ := hprefix
  obtain ⟨m, hm, hafter⟩ := Run.split (hpath _ hnode)
  have hmx : m = x.src := Path.end_unique hm hpath'
  subst hmx
  cases after with
  | nil =>
    left
    exact (Path.nil_iff.mp hafter).symm
  | cons l rest =>
    right
    obtain ⟨hsrc, _⟩ := Path.cons_iff.mp hafter
    refine ⟨l, mem_ownedBy.mpr ⟨hsub (by simp), ?_⟩, hsrc⟩
    cases Party.eq_or_eq_peer p l.owner with
    | inl ho => exact ho
    | inr ho =>
      rw [ownedBy_append, List.self_eq_append_right] at hsame
      have hmem : l ∈ ownedBy p.peer (l :: rest) := mem_ownedBy.mpr ⟨by simp, ho⟩
      rw [hsame] at hmem
      simp at hmem

/-- No node is used twice exactly when the parties take turns. -/
theorem srcs_nodup_iff (hrun : Run Step (start root) tr s)
    (hfresh : (root :: s.log.map Link.dst).Nodup) :
    (s.log.map Link.src).Nodup ↔ InTurn tr := by
  revert hfresh
  refine Run.invariant (I := fun tr s => (root :: s.log.map Link.dst).Nodup →
    ((s.log.map Link.src).Nodup ↔ InTurn tr)) ?_ ?_ hrun
  · intro _
    simp [start, InTurn, throughout_nil]
  · intro tr s act s' hrun ih hstep hfresh
    have hbefore := fresh_of_prefix hstep.log_prefix hfresh
    have htracked := tracked hrun hbefore
    rw [InTurn, throughout_snoc, ← InTurn, ← ih hbefore]
    cases hstep with
    | follow _ _ => simp [Act.link]
    | halt => simp [Act.link]
    | drop _ => simp [Act.link]
    | @extend link hnode =>
      rw [← log_eq hrun]
      simp only [List.map_append, List.map_cons, List.map_nil, List.nodup_append,
        Act.link, Option.some.injEq, forall_eq']
      constructor
      · rintro ⟨hnodup, -, hnew⟩
        refine ⟨hnodup, ?_⟩
        by_contra hturn
        obtain ⟨x, hx, htwice⟩ := htracked.src_twice hbefore hnode hturn
        obtain ⟨hxlog, hxowner⟩ := mem_ownedBy.mp hx
        cases htwice with
        | inl hsrc => exact hnew x.src (List.mem_map_of_mem hxlog) link.src (by simp) hsrc
        | inr hown =>
          obtain ⟨l, hl, hsrc⟩ := hown
          obtain ⟨hllog, hlowner⟩ := mem_ownedBy.mp hl
          have hsame := List.inj_on_of_nodup_map hnodup hllog hxlog hsrc
          subst hsame
          exact Party.peer_ne _ (hxowner.symm.trans hlowner)
      · rintro ⟨hnodup, hturn⟩
        refine ⟨hnodup, by simp, ?_⟩
        intro n hn m hm heq
        rw [List.mem_singleton] at hm
        subst heq hm
        exact htracked.src_not_mem hbefore hnode hturn hn

/-- The path to a link passes through every earlier link of the same owner. -/
theorem Tracked.through_earlier (h : Tracked root tr s)
    (hfresh : (root :: s.log.map Link.dst).Nodup)
    {o : Party} {i j : Nat} {l x : Link ν M} (hi : (ownedBy o s.log)[i]? = some l)
    (hj : (ownedBy o s.log)[j]? = some x) (hlt : i < j) {path path' : List (Link ν M)}
    (hpath : Path Link.src Link.dst root path x.src) (hsub : path ⊆ s.log)
    (hpath' : Path Link.src Link.dst root path' l.src) (hsub' : path' ⊆ s.log) :
    path' ++ [l] <+: path := by
  obtain ⟨path'', hsub'', hpath'', htake⟩ := h.link o j x hj
  obtain rfl : path = path'' := Path.unique hfresh hpath hsub hpath'' hsub''
  have hmem : l ∈ ownedBy o path := by
    rw [htake]
    exact List.mem_of_getElem? (by rw [List.getElem?_take_of_lt hlt, hi])
  obtain ⟨before, after, rfl⟩ := List.append_of_mem (mem_ownedBy.mp hmem).1
  obtain ⟨_, hbefore, hrest⟩ := Run.split hpath
  obtain ⟨hsrc, _⟩ := Path.cons_iff.mp hrest
  rw [← hsrc] at hbefore
  obtain rfl : path' = before :=
    Path.unique hfresh hpath' hsub' hbefore fun y hy => hsub (List.mem_append_left _ hy)
  exact ⟨after, by simp⟩

/-- A party uses no node twice. -/
theorem srcs_ownedBy_nodup (hrun : Run Step (start root) tr s)
    (hfresh : (root :: s.log.map Link.dst).Nodup) (p : Party) :
    ((ownedBy p s.log).map Link.src).Nodup := by
  have h := tracked hrun hfresh
  rw [List.Nodup, List.pairwise_iff_getElem]
  intro i j hi hj hlt heq
  rw [List.length_map] at hi hj
  rw [List.getElem_map, List.getElem_map] at heq
  have hl := List.getElem?_eq_getElem hi
  have hx := List.getElem?_eq_getElem hj
  obtain ⟨path, hsub, hpath, _⟩ := h.link p j _ hx
  -- the later link starts below the earlier one
  have hlen := (h.through_earlier hfresh hl hx hlt hpath hsub (heq ▸ hpath) hsub).length_le
  rw [List.length_append, List.length_singleton] at hlen
  omega

/-- When both parties have used the node of `l`, no later link of its owner starts
at a node that both have used. -/
theorem Tracked.shared_not_before (h : Tracked root tr s)
    (hfresh : (root :: s.log.map Link.dst).Nodup) {p : Party} {i j : Nat} {l x l' x' : Link ν M}
    (hi : (ownedBy p s.log)[i]? = some l) (hj : (ownedBy p s.log)[j]? = some x)
    (hl' : l' ∈ ownedBy p.peer s.log) (hx' : x' ∈ ownedBy p.peer s.log) (hl : l'.src = l.src)
    (hx : x'.src = x.src) : ¬ i < j := by
  intro hlt
  obtain ⟨path, hsub, hpath, _⟩ := h.link p j x hj
  obtain ⟨path', hsub', hpath', _⟩ := h.link p i l hi
  have hthrough := h.through_earlier hfresh hi hj hlt hpath hsub hpath' hsub'
  have hlen := hthrough.length_le
  rw [List.length_append, List.length_singleton] at hlen
  obtain ⟨i', hi'⟩ := List.getElem?_of_mem hl'
  obtain ⟨j', hj'⟩ := List.getElem?_of_mem hx'
  rcases Nat.lt_trichotomy i' j' with hlt' | heq | hgt
  · -- one node of the path is left by two links
    have hthrough' := h.through_earlier hfresh hi' hj' hlt' (hx ▸ hpath) hsub (hl ▸ hpath') hsub'
    have hsame := List.prefix_of_prefix_length_le hthrough hthrough' (by simp)
    rw [List.prefix_append_right_inj] at hsame
    have hlink : l = l' := (List.cons_prefix_cons.mp hsame).1
    rw [← hlink] at hl'
    exact Party.peer_ne p ((mem_ownedBy.mp hl').2.symm.trans
      (mem_ownedBy.mp (List.mem_of_getElem? hi)).2)
  · subst heq
    rw [hi'] at hj'
    obtain rfl := Option.some.inj hj'
    obtain rfl : path = path' :=
      Path.unique hfresh hpath hsub (hl.symm.trans hx ▸ hpath') hsub'
    omega
  · have hback := (h.through_earlier hfresh hj' hi' hgt (hl ▸ hpath') hsub' (hx ▸ hpath)
      hsub).length_le
    rw [List.length_append, List.length_singleton] at hback
    omega

/-- The parties part at one node: at most one was used by both. -/
theorem shared_unique (hrun : Run Step (start root) tr s)
    (hfresh : (root :: s.log.map Link.dst).Nodup) {n m : ν}
    (hn : ∀ p, ∃ l ∈ ownedBy p s.log, l.src = n) (hm : ∀ p, ∃ l ∈ ownedBy p s.log, l.src = m) :
    n = m := by
  have h := tracked hrun hfresh
  obtain ⟨l, hl, rfl⟩ := hn .client
  obtain ⟨x, hx, rfl⟩ := hm .client
  obtain ⟨l', hl', hsrc⟩ := hn .server
  obtain ⟨x', hx', hsrc'⟩ := hm .server
  obtain ⟨i, hi⟩ := List.getElem?_of_mem hl
  obtain ⟨j, hj⟩ := List.getElem?_of_mem hx
  have hnot := h.shared_not_before hfresh hi hj hl' hx' hsrc hsrc'
  have hnot' := h.shared_not_before hfresh hj hi hx' hl' hsrc' hsrc
  obtain rfl : i = j := by omega
  rw [hi] at hj
  rw [Option.some.inj hj]

end Reuse

end Ratchet

end TcpHandler.Foundation
