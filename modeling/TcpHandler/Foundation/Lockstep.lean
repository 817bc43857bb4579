/-
  Foundation/Lockstep.lean --- the ratchet over two reliable queues.

  Each party puts the links it makes into a queue, and its peer takes them out
  in order.  A party that stands at the start of the link it takes out follows
  it.  A party that stands elsewhere loses its node, and one that has lost its
  node goes on taking links out to no avail.

  The nodes of the two parties keep meeting as long as the queues are used in one
  direction at a time:

      aligned          until links are outstanding in both directions, every link
                       that is taken out is followed, and the links under way
                       lead from the receiver's node to the sender's
      lost_run         from that moment on no link is ever followed again
      estranged_run    neither is one after a link was made and never put into
                       the queue
-/
import TcpHandler.Foundation.Ratchet

set_option autoImplicit false

namespace TcpHandler.Foundation

namespace Lockstep

open Ratchet (Act ownedBy followed made made_append)

variable {ν M : Type}

/-- Where the parties stand, and the links each has made that its peer has not
taken out. -/
structure State (ν M : Type) where
  node : Party → Option ν
  queue : Party → List (Link ν M)

/-- Both parties at the root, nothing under way. -/
def start (root : ν) : State ν M := ⟨fun _ => some root, fun _ => []⟩

/-- A step, under the labels of the ratchet. -/
inductive Step : State ν M → Act ν M → State ν M → Prop
  | extend {s : State ν M} {p : Party} {src dst : ν} {content : M} (hnode : s.node p = some src) :
      Step s (.extend ⟨p, src, dst, some content⟩)
        ⟨Function.update s.node p (some dst),
          Function.update s.queue p (s.queue p ++ [⟨p, src, dst, some content⟩])⟩
  | follow {s : State ν M} {p : Party} {src dst : ν} {content : M} {rest : List (Link ν M)}
      (hnode : s.node p = some src)
      (hqueue : s.queue p.peer = ⟨p.peer, src, dst, some content⟩ :: rest) :
      Step s (.follow p src dst content)
        ⟨Function.update s.node p (some dst), Function.update s.queue p.peer rest⟩
  | halt {s : State ν M} {p : Party} {n : ν} {link : Link ν M} {rest : List (Link ν M)}
      (hnode : s.node p = some n) (hqueue : s.queue p.peer = link :: rest) (hne : link.src ≠ n) :
      Step s (.halt p) ⟨Function.update s.node p none, Function.update s.queue p.peer rest⟩
  | drop {s : State ν M} {p : Party} {link : Link ν M} {rest : List (Link ν M)}
      (hnode : s.node p = none) (hqueue : s.queue p.peer = link :: rest) :
      Step s (.drop p) ⟨s.node, Function.update s.queue p.peer rest⟩

/-- `p` took a link out and had a node when it did. -/
def takes (p : Party) : Act ν M → Bool
  | .follow q _ _ _ => q = p
  | .halt q => q = p
  | _ => false

/-- How many links `p` took out while it had a node. -/
def taken (p : Party) (tr : List (Act ν M)) : Nat := tr.countP (takes p)

/-- A link of `p` waits for the peer to take it. -/
def Outstanding (p : Party) (tr : List (Act ν M)) : Prop :=
  taken p.peer tr < (ownedBy p (made tr)).length

/-- Links are outstanding in both directions. -/
def Crossed (tr : List (Act ν M)) : Prop := ∀ p, Outstanding p tr

/-- At no moment of the run links are outstanding in both directions. -/
def NeverCrossed (tr : List (Act ν M)) : Prop := ∀ pre, pre <+: tr → ¬ Crossed pre

/-- Over queues every link carries something. -/
theorem content_of_made {tr : List (Act ν M)} {s₀ s : State ν M} (hrun : Run Step s₀ tr s)
    {link : Link ν M} (hlink : link ∈ made tr) : ∃ content, link.content = some content := by
  induction hrun with
  | nil => simp [made] at hlink
  | @snoc tr s s' act _ hstep ih =>
    rw [made_append, List.mem_append] at hlink
    cases hlink with
    | inl hold => exact ih hold
    | inr hnew =>
      cases hstep with
      | extend _ =>
        obtain rfl : link = _ := List.mem_singleton.mp hnew
        exact ⟨_, rfl⟩
      | follow _ _ => simp [made, Act.link] at hnew
      | halt _ _ _ => simp [made, Act.link] at hnew
      | drop _ _ => simp [made, Act.link] at hnew

/-! ## In step -/

section Aligned

variable {root : ν} {tr : List (Act ν M)} {s s' : State ν M}

/-- All links so far form one path; `p` stands at its end, the peer where the
links under way begin. -/
def InStep (root : ν) (tr : List (Act ν M)) (s : State ν M) : Prop :=
  ∃ p before n m, s.queue p.peer = [] ∧ made tr = before ++ s.queue p ∧
    s.node p.peer = some n ∧ s.node p = some m ∧
    Path Link.src Link.dst root before n ∧ Path Link.src Link.dst n (s.queue p) m

/-- What holds as long as the directions never cross. -/
structure Aligned (root : ν) (tr : List (Act ν M)) (s : State ν M) : Prop where
  inStep : InStep root tr s
  account : ∀ p, ownedBy p (made tr) = followed p.peer tr ++ s.queue p
  taken_eq : ∀ p, taken p tr = (followed p tr).length
  clean : ∀ p, Act.halt p ∉ tr ∧ Act.drop p ∉ tr

theorem Aligned.outstanding_iff (h : Aligned root tr s) (p : Party) :
    Outstanding p tr ↔ s.queue p ≠ [] := by
  rw [Outstanding, h.taken_eq, h.account, List.length_append, ← List.length_pos_iff]
  omega

/-- With nothing under way the parties stand on the same node. -/
theorem Aligned.node_eq (h : Aligned root tr s) (hempty : ∀ p, ¬ Outstanding p tr) :
    ∃ n, ∀ p, s.node p = some n := by
  obtain ⟨p, _, n, m, _, _, hpeer, hp, _, hpath⟩ := h.inStep
  have hqueue : s.queue p = [] := by
    by_contra hne
    exact hempty p ((h.outstanding_iff p).mpr hne)
  rw [hqueue, Path.nil_iff] at hpath
  subst hpath
  refine ⟨m, fun q => ?_⟩
  cases Party.eq_or_eq_peer p q with
  | inl hq => rw [hq, hp]
  | inr hq => rw [hq, hpeer]

/-- In step, one of the directions is empty. -/
theorem Aligned.not_crossed (h : Aligned root tr s) : ¬ Crossed tr := by
  intro hcross
  obtain ⟨p, _, _, _, hempty, _⟩ := h.inStep
  exact (h.outstanding_iff p.peer).mp (hcross p.peer) hempty

theorem aligned_start : Aligned root [] (start root : State ν M) where
  inStep := ⟨.client, [], root, root, rfl, rfl, rfl, rfl, Path.nil_iff.mpr rfl,
    Path.nil_iff.mpr rfl⟩
  account p := rfl
  taken_eq p := rfl
  clean p := by simp

/-- The books after a party made a link. -/
theorem Aligned.account_extend (h : Aligned root tr s) {p : Party} {src dst : ν} {content : M}
    (q : Party) :
    ownedBy q (made (tr ++ [.extend ⟨p, src, dst, some content⟩])) =
      followed q.peer (tr ++ [.extend ⟨p, src, dst, some content⟩]) ++
        Function.update s.queue p (s.queue p ++ [⟨p, src, dst, some content⟩]) q := by
  have hmade : made (tr ++ [.extend ⟨p, src, dst, some content⟩]) =
      made tr ++ [⟨p, src, dst, some content⟩] := by
    simp [made, Act.link]
  have hfollowed : followed q.peer (tr ++ [.extend ⟨p, src, dst, some content⟩]) =
      followed q.peer tr := by
    simp [followed, Act.followedBy]
  rw [hmade, hfollowed, Ratchet.ownedBy_append, h.account]
  by_cases hq : q = p
  · subst hq
    have hself : ownedBy q [(⟨q, src, dst, some content⟩ : Link ν M)] =
        [⟨q, src, dst, some content⟩] :=
      Ratchet.ownedBy_singleton_self _
    rw [hself, Function.update_self, List.append_assoc]
  · rw [Ratchet.ownedBy_singleton_of_ne (fun heq => hq heq.symm), Function.update_of_ne hq,
      List.append_nil]

theorem Aligned.taken_extend (h : Aligned root tr s) {link : Link ν M} (q : Party) :
    taken q (tr ++ [.extend link]) = (followed q (tr ++ [.extend link])).length := by
  have hq := h.taken_eq q
  simp [taken, followed, takes, Act.followedBy, List.countP_append] at hq ⊢
  exact hq

/-- A link made while links of the peer are under way crosses the directions. -/
theorem Aligned.crossed_extend (h : Aligned root tr s) {p : Party} {src dst : ν} {content : M}
    (hne : s.queue p.peer ≠ []) : Crossed (tr ++ [.extend ⟨p, src, dst, some content⟩]) := by
  intro q
  rw [Outstanding, h.taken_extend, h.account_extend, List.length_append]
  have hq : 0 < (Function.update s.queue p
      (s.queue p ++ [⟨p, src, dst, some content⟩]) q).length := by
    cases Party.eq_or_eq_peer p q with
    | inl hq => simp [hq]
    | inr hq => simpa [hq] using List.length_pos_iff.mpr hne
  omega

/-- A party that has taken out everything keeps the parties in step when it makes
a link. -/
theorem Aligned.extend (h : Aligned root tr s) {p : Party} {src dst : ν} {content : M}
    (hnode : s.node p = some src) (hpeer : s.queue p.peer = []) :
    Aligned root (tr ++ [.extend ⟨p, src, dst, some content⟩])
      ⟨Function.update s.node p (some dst),
        Function.update s.queue p (s.queue p ++ [⟨p, src, dst, some content⟩])⟩ := by
  have hmade : made (tr ++ [.extend ⟨p, src, dst, some content⟩]) =
      made tr ++ [⟨p, src, dst, some content⟩] := by
    simp [made, Act.link]
  refine ⟨?_, fun q => h.account_extend q, fun q => h.taken_extend q, fun q => ?_⟩
  rotate_left
  · simpa using h.clean q
  obtain ⟨q, before, n, m, hempty, hbefore, hnpeer, hnq, hroot, hpath⟩ := h.inStep
  have hend : ∃ n before, made tr = before ++ s.queue p ∧ s.node p.peer = some n ∧
      Path Link.src Link.dst root before n ∧ Path Link.src Link.dst n (s.queue p) src := by
    cases Party.eq_or_eq_peer q p with
    | inl hq =>
      subst hq
      obtain rfl : m = src := Option.some.inj (hnq.symm.trans hnode)
      exact ⟨n, before, hbefore, hnpeer, hroot, hpath⟩
    | inr hq =>
      subst hq
      rw [Party.peer_peer] at hpeer
      rw [hpeer, Path.nil_iff] at hpath
      subst hpath
      obtain rfl : m = src := Option.some.inj (hnpeer.symm.trans hnode)
      rw [hempty, Party.peer_peer]
      exact ⟨m, before, by simpa [hpeer] using hbefore, hnq, hroot, Path.nil_iff.mpr rfl⟩
  obtain ⟨n, before, hbefore, hnpeer, hroot, hpath⟩ := hend
  refine ⟨p, before, n, dst, by simpa using hpeer, ?_, by simpa using hnpeer, by simp, hroot, ?_⟩
  · simp [hmade, hbefore]
  · simp only [Function.update_self]
    exact Path.snoc_iff.mpr ⟨hpath, rfl⟩

/-- In step, whatever is taken out is followed. -/
theorem Aligned.front (h : Aligned root tr s) {q : Party} {link : Link ν M}
    {rest : List (Link ν M)} (hqueue : s.queue q.peer = link :: rest) :
    s.node q = some link.src := by
  obtain ⟨p, _, n, _, hempty, _, hnpeer, _, _, hpath⟩ := h.inStep
  cases Party.eq_or_eq_peer p q with
  | inl hq =>
    subst hq
    rw [hempty] at hqueue
    simp at hqueue
  | inr hq =>
    subst hq
    rw [Party.peer_peer] at hqueue
    rw [hqueue, Path.cons_iff] at hpath
    rw [hnpeer, hpath.1]

/-- Following a link keeps the parties in step. -/
theorem Aligned.follow (h : Aligned root tr s) {p : Party} {src dst : ν} {content : M}
    {rest : List (Link ν M)} (hqueue : s.queue p.peer = ⟨p.peer, src, dst, some content⟩ :: rest) :
    Aligned root (tr ++ [.follow p src dst content])
      ⟨Function.update s.node p (some dst), Function.update s.queue p.peer rest⟩ where
  inStep := by
    have hmade : made (tr ++ [.follow p src dst content]) = made tr := by simp [made, Act.link]
    obtain ⟨q, before, n, m, hempty, hbefore, hnpeer, hnq, hroot, hpath⟩ := h.inStep
    have hq : q = p.peer := by
      by_contra hne
      have hpq : p.peer = q.peer := Party.eq_peer_of_ne (fun heq => hne heq.symm)
      rw [hpq, hempty] at hqueue
      simp at hqueue
    subst hq
    rw [Party.peer_peer] at hempty hnpeer
    rw [hqueue] at hbefore hpath
    obtain ⟨hsrc, hrest⟩ := Path.cons_iff.mp hpath
    simp only at hsrc hrest
    subst hsrc
    refine ⟨p.peer, before ++ [⟨p.peer, src, dst, some content⟩], dst, m, ?_, ?_, ?_, ?_, ?_, ?_⟩
    · simpa using hempty
    · simp [hmade, hbefore]
    · simp
    · simpa using hnq
    · exact Path.snoc_iff.mpr ⟨hroot, rfl⟩
    · simpa using hrest
  account q := by
    have hmade : made (tr ++ [.follow p src dst content]) = made tr := by simp [made, Act.link]
    have hq := h.account q
    rw [hmade, hq]
    by_cases hqp : q = p.peer
    · subst hqp
      simp [followed, Act.followedBy, hqueue]
    · have hpq : q.peer ≠ p := fun heq => hqp (by rw [← heq, Party.peer_peer])
      simp [followed, Act.followedBy, Function.update_of_ne hqp, Ne.symm hpq]
  taken_eq q := by
    have hq := h.taken_eq q
    by_cases hqp : p = q
    · simp [taken, followed, takes, Act.followedBy, List.countP_append, hqp] at hq ⊢
      exact hq
    · simp [taken, followed, takes, Act.followedBy, List.countP_append, hqp] at hq ⊢
      exact hq
  clean q := by simpa using h.clean q

/-- Every run in which the directions never cross is aligned. -/
theorem aligned (hrun : Run Step (start root) tr s) (hcross : NeverCrossed tr) :
    Aligned root tr s := by
  revert hcross
  refine Run.invariant (I := fun tr s => NeverCrossed tr → Aligned root tr s)
    (fun _ => aligned_start) ?_ hrun
  intro tr s act s' _ ih hstep hcross
  have hbefore : Aligned root tr s :=
    ih fun pre hpre => hcross pre (hpre.trans (List.prefix_append _ _))
  cases hstep with
  | extend hnode =>
    refine hbefore.extend hnode ?_
    by_contra hne
    exact hcross _ (List.prefix_refl _) (hbefore.crossed_extend hne)
  | follow _ hqueue => exact hbefore.follow hqueue
  | halt hnode hqueue hne =>
    have hfront := hbefore.front hqueue
    rw [hnode, Option.some.injEq] at hfront
    exact absurd hfront.symm hne
  | drop hnode hqueue =>
    have hfront := hbefore.front hqueue
    rw [hnode] at hfront
    simp at hfront

end Aligned

/-! ## Out of step -/

section Lost

variable {root : ν} {tr : List (Act ν M)} {s s' : State ν M}

/-- `q` has no node, or the next link it will take out starts elsewhere. -/
def Lost (root : ν) (q : Party) (tr : List (Act ν M)) (s : State ν M) : Prop :=
  s.node q = none ∨ ∃ n link rest, s.node q = some n ∧ s.queue q.peer = link :: rest ∧
    link.src ≠ n ∧ link.src ∈ root :: (made tr).map Link.dst

/-- `p` took a link out. -/
def receives (p : Party) : Act ν M → Bool
  | .follow q _ _ _ => q = p
  | .halt q => q = p
  | .drop q => q = p
  | .extend _ => false

/-- The step that crosses the directions leaves both parties lost, each still
with its node. -/
theorem Aligned.crossing (h : Aligned root tr s) {act : Act ν M} (hstep : Step s act s')
    (hcross : Crossed (tr ++ [act]))
    (hfresh : (root :: (made (tr ++ [act])).map Link.dst).Nodup) (q : Party) :
    s'.node q ≠ none ∧ Lost root q (tr ++ [act]) s' := by
  cases hstep with
  | follow _ hqueue => exact absurd hcross (h.follow hqueue).not_crossed
  | halt hnode hqueue hne =>
    have hfront := h.front hqueue
    rw [hnode, Option.some.injEq] at hfront
    exact absurd hfront.symm hne
  | drop hnode hqueue =>
    have hfront := h.front hqueue
    rw [hnode] at hfront
    simp at hfront
  | @extend p src dst content hnode =>
    have hmade : made (tr ++ [.extend ⟨p, src, dst, some content⟩]) =
        made tr ++ [⟨p, src, dst, some content⟩] := by
      simp [made, Act.link]
    have hne : s.queue p.peer ≠ [] := by
      intro hempty
      have hafter : Aligned root (tr ++ [.extend ⟨p, src, dst, some content⟩]) _ :=
        h.extend hnode hempty
      exact hafter.not_crossed hcross
    obtain ⟨first, rest, hqueue⟩ := List.exists_cons_of_ne_nil hne
    obtain ⟨o, before, n, m, hempty, hbefore, hno, hnode', hroot, hpath⟩ := h.inStep
    -- the links under way are the peer's
    have ho : o = p.peer := by
      by_contra hop
      have hpo : p.peer = o.peer := Party.eq_peer_of_ne (fun heq => hop heq.symm)
      exact hne (hpo ▸ hempty)
    subst ho
    rw [Party.peer_peer] at hempty hno
    obtain rfl : n = src := Option.some.inj (hno.symm.trans hnode)
    have hfirst : first.src = n := by
      rw [hqueue] at hpath
      exact (Path.cons_iff.mp hpath).1
    rw [hmade, hbefore] at hfresh
    have hn : n ∈ root :: before.map Link.dst := hroot.node_mem_cons
    have hm : m ∈ (s.queue p.peer).map Link.dst := hpath.node_mem hne
    simp only [List.map_append, List.map_cons, List.map_nil, List.append_assoc] at hfresh
    rw [← List.cons_append, List.nodup_append] at hfresh
    obtain ⟨_, _, hdisjoint⟩ := hfresh
    have hknown : n ∈ root :: (before ++ s.queue p.peer ++
        [(⟨p, n, dst, some content⟩ : Link ν M)]).map Link.dst := by
      simp only [List.map_append, List.mem_cons, List.mem_append] at hn ⊢
      tauto
    cases Party.eq_or_eq_peer p q with
    | inl hq =>
      subst hq
      refine ⟨by simp, .inr ⟨dst, first, rest, by simp, by simpa using hqueue, ?_, ?_⟩⟩
      · rw [hfirst]
        exact hdisjoint n hn dst (by simp)
      · rwa [hmade, hbefore, hfirst]
    | inr hq =>
      subst hq
      refine ⟨by simp [hnode'], .inr ⟨m, ⟨p, n, dst, some content⟩, [], by simpa using hnode',
        by simp [hempty], ?_, ?_⟩⟩
      · exact hdisjoint n hn m (List.mem_append_left _ hm)
      · rwa [hmade, hbefore]

/-- Nodes that were known stay known. -/
theorem known_snoc {n : ν} (act : Act ν M) (hn : n ∈ root :: (made tr).map Link.dst) :
    n ∈ root :: (made (tr ++ [act])).map Link.dst := by
  simp only [made_append, List.map_append, List.mem_cons, List.mem_append] at hn ⊢
  tauto

/-- A step that touches neither the node of a lost party nor its queue leaves it
lost. -/
theorem Lost.frame {q : Party} (h : Lost root q tr s) (act : Act ν M)
    (hnode : s'.node q = s.node q) (hqueue : s'.queue q.peer = s.queue q.peer) :
    Lost root q (tr ++ [act]) s' := by
  cases h with
  | inl hnone => exact .inl (hnode.trans hnone)
  | inr h =>
    obtain ⟨n, link, rest, hn, hfront, hne, hsrc⟩ := h
    exact .inr ⟨n, link, rest, hnode.trans hn, hqueue.trans hfront, hne, known_snoc act hsrc⟩

/-- A lost party stays lost, and it follows nothing. -/
theorem Lost.step {q : Party} (h : Lost root q tr s) {act : Act ν M} (hstep : Step s act s')
    (hfresh : (root :: (made (tr ++ [act])).map Link.dst).Nodup) :
    Lost root q (tr ++ [act]) s' ∧ ∀ src dst content, act ≠ .follow q src dst content := by
  cases hstep with
  | @extend p src dst content hnode =>
    refine ⟨?_, by simp⟩
    cases Party.eq_or_eq_peer p q with
    | inl hq =>
      -- its own new node is fresh, so it is not where the next link starts
      subst hq
      cases h with
      | inl hnone => simp [hnode] at hnone
      | inr h =>
        obtain ⟨_, link, rest, _, hqueue, _, hsrc⟩ := h
        refine .inr ⟨dst, link, rest, by simp, by simpa using hqueue, ?_, known_snoc _ hsrc⟩
        simp only [made, List.filterMap_append, List.filterMap_cons, Act.link,
          List.filterMap_nil, List.map_append] at hfresh
        rw [← List.cons_append, List.nodup_append] at hfresh
        exact hfresh.2.2 _ hsrc dst (by simp)
    | inr hq =>
      -- the peer's new link queues up behind
      subst hq
      cases h with
      | inl hnone => exact .inl (by simpa using hnone)
      | inr h =>
        obtain ⟨n, link, rest, hn, hqueue, hne, hsrc⟩ := h
        rw [Party.peer_peer] at hqueue
        exact .inr ⟨n, link, rest ++ [⟨p, src, dst, some content⟩], by simpa using hn,
          by simp [hqueue], hne, known_snoc _ hsrc⟩
  | @follow p src dst content rest hnode hqueue =>
    cases Party.eq_or_eq_peer p q with
    | inl hq =>
      subst hq
      cases h with
      | inl hnone => simp [hnode] at hnone
      | inr h =>
        obtain ⟨n, link, rest', hn, hqueue', hne, _⟩ := h
        rw [hqueue] at hqueue'
        obtain ⟨rfl, rfl⟩ := List.cons_eq_cons.mp hqueue'
        exact absurd (Option.some.inj (hnode.symm.trans hn)) hne
    | inr hq =>
      subst hq
      exact ⟨h.frame _ (by simp) (by simp), by simp⟩
  | @halt p m link rest hnode hqueue _ =>
    refine ⟨?_, by simp⟩
    cases Party.eq_or_eq_peer p q with
    | inl hq => exact .inl (by simp [hq])
    | inr hq =>
      subst hq
      exact h.frame _ (by simp) (by simp)
  | @drop p link rest hnode hqueue =>
    refine ⟨?_, by simp⟩
    cases Party.eq_or_eq_peer p q with
    | inl hq => exact .inl (by simpa [hq] using hnode)
    | inr hq =>
      subst hq
      exact h.frame _ rfl (by simp)

/-- From a state in which `q` is lost, no run follows a link for `q`. -/
theorem lost_run {q : Party} {post : List (Act ν M)} (h : Lost root q tr s)
    (hrun : Run Step s post s') (hfresh : (root :: (made (tr ++ post)).map Link.dst).Nodup) :
    Lost root q (tr ++ post) s' ∧ ∀ src dst content, .follow q src dst content ∉ post := by
  revert hfresh
  refine Run.invariant (I := fun post s' => (root :: (made (tr ++ post)).map Link.dst).Nodup →
    Lost root q (tr ++ post) s' ∧ ∀ src dst content, .follow q src dst content ∉ post) ?_ ?_ hrun
  · intro _
    simpa using h
  · intro post s act s' _ ih hstep hfresh
    rw [← List.append_assoc] at hfresh ⊢
    have hbefore : (root :: (made (tr ++ post)).map Link.dst).Nodup := by
      rw [made_append, List.map_append, ← List.cons_append] at hfresh
      exact (List.nodup_append.mp hfresh).1
    obtain ⟨hlost, hnone⟩ := ih hbefore
    obtain ⟨hlost', hact⟩ := hlost.step hstep hfresh
    refine ⟨hlost', fun src dst content => ?_⟩
    simp only [List.mem_append, List.mem_singleton, not_or]
    exact ⟨hnone src dst content, fun heq => hact src dst content heq.symm⟩

/-- A party that never follows keeps its node until it takes a link out, and is
without one ever after. -/
theorem node_eq_none_iff {q : Party} {post : List (Act ν M)} (hnode : s.node q ≠ none)
    (hrun : Run Step s post s') (hfollow : ∀ src dst content, .follow q src dst content ∉ post) :
    s'.node q = none ↔ ∃ act ∈ post, receives q act := by
  revert hfollow
  refine Run.invariant (I := fun post s' => (∀ src dst content, .follow q src dst content ∉ post) →
    (s'.node q = none ↔ ∃ act ∈ post, receives q act)) ?_ ?_ hrun
  · intro _
    simp [hnode]
  · intro post s act s' _ ih hstep hfollow
    simp only [List.mem_append, List.mem_singleton, not_or] at hfollow
    have ih := ih fun src dst content => (hfollow src dst content).1
    simp only [List.mem_append, List.mem_singleton, or_and_right, exists_or, exists_eq_left]
    rw [← ih]
    cases hstep with
    | @extend p src dst content hp =>
      cases Party.eq_or_eq_peer p q with
      | inl hq => simp [hq, hp, receives]
      | inr hq => simp [hq, receives]
    | @follow p src dst content rest hp _ =>
      cases Party.eq_or_eq_peer p q with
      | inl hq =>
        subst hq
        exact absurd rfl (hfollow src dst content).2
      | inr hq => simp [hq, receives]
    | @halt p m link rest hp _ _ =>
      cases Party.eq_or_eq_peer p q with
      | inl hq => simp [hq, receives]
      | inr hq => simp [hq, receives]
    | @drop p link rest hp _ =>
      cases Party.eq_or_eq_peer p q with
      | inl hq => simp [hq, hp, receives]
      | inr hq => simp [hq, receives]

end Lost

/-! ## One link lost -/

section Estranged

variable {s s' : State ν M}

/-- `q` stands on `n` or nowhere, and makes no links; its peer is past `n`. -/
structure Estranged (n : ν) (q : Party) (s : State ν M) : Prop where
  node : s.node q = none ∨ s.node q = some n
  silent : s.queue q = []
  peer : s.node q.peer ≠ some n
  queue : ∀ link ∈ s.queue q.peer, link.src ≠ n

/-- Links are taken out by `q` alone. -/
theorem Estranged.taker {n : ν} {q p : Party} (h : Estranged n q s) {link : Link ν M}
    {rest : List (Link ν M)} (hfront : s.queue p.peer = link :: rest) : p = q := by
  cases Party.eq_or_eq_peer p q with
  | inl hq => exact hq.symm
  | inr hq =>
    have hsilent := h.silent
    rw [hq, hfront] at hsilent
    cases hsilent

/-- When `q` takes a link out and is left without a node. -/
theorem Estranged.take {n : ν} {q : Party} (h : Estranged n q s) {link : Link ν M}
    {rest : List (Link ν M)} (hfront : s.queue q.peer = link :: rest) {node : Party → Option ν}
    (hnode : node q = none) (hpeer : node q.peer = s.node q.peer) :
    Estranged n q ⟨node, Function.update s.queue q.peer rest⟩ where
  node := .inl hnode
  silent := by simpa using h.silent
  peer := by
    show node q.peer ≠ some n
    rw [hpeer]
    exact h.peer
  queue l hl := by
    simp only [Function.update_self] at hl
    exact h.queue l (by rw [hfront]; exact List.mem_cons_of_mem _ hl)

/-- A step in which only the peer makes links leaves `q` estranged, and `q`
follows nothing. -/
theorem Estranged.step {n : ν} {q : Party} (h : Estranged n q s) {act : Act ν M}
    (hstep : Step s act s')
    (hmade : ∀ link, act.link = some link → link.owner = q.peer ∧ link.dst ≠ n) :
    Estranged n q s' ∧ ∀ p src dst content, act ≠ .follow p src dst content := by
  cases hstep with
  | @extend p src dst content hp =>
    refine ⟨?_, by simp⟩
    obtain ⟨rfl, hdst⟩ := hmade _ rfl
    obtain ⟨hnode, hsilent, hpeer, hqueue⟩ := h
    refine ⟨by simpa using hnode, by simpa using hsilent, by simpa using hdst, ?_⟩
    intro link hlink
    simp only [Function.update_self, List.mem_append, List.mem_singleton] at hlink
    cases hlink with
    | inl hold => exact hqueue link hold
    | inr hnew =>
      subst hnew
      intro heq
      exact hpeer (hp.trans (congrArg some heq))
  | @follow p src dst content rest hp hfront =>
    -- the link at the front does not start where `q` stands
    obtain rfl := h.taker hfront
    have hne := h.queue _ (by rw [hfront]; exact List.mem_cons_self)
    have hnode := h.node
    simp only [hp, Option.some.injEq, reduceCtorEq, false_or] at hnode
    exact absurd hnode hne
  | @halt p m link rest hp hfront _ =>
    refine ⟨?_, by simp⟩
    obtain rfl := h.taker hfront
    exact h.take hfront (by simp) (by simp)
  | @drop p link rest hp hfront =>
    refine ⟨?_, by simp⟩
    obtain rfl := h.taker hfront
    exact h.take hfront hp rfl

/-- No run in which only the peer makes links follows one of them. -/
theorem estranged_run {n : ν} {q : Party} {tr : List (Act ν M)} (h : Estranged n q s)
    (hrun : Run Step s tr s') (hmade : ∀ link ∈ made tr, link.owner = q.peer ∧ link.dst ≠ n) :
    Estranged n q s' ∧ ∀ p src dst content, .follow p src dst content ∉ tr := by
  revert hmade
  refine Run.invariant (I := fun tr s' => (∀ link ∈ made tr, link.owner = q.peer ∧ link.dst ≠ n) →
    Estranged n q s' ∧ ∀ p src dst content, .follow p src dst content ∉ tr) ?_ ?_ hrun
  · intro _
    exact ⟨h, by simp⟩
  · intro tr s act s' _ ih hstep hmade
    rw [made_append] at hmade
    obtain ⟨hestranged, hnone⟩ := ih fun link hlink => hmade link (List.mem_append_left _ hlink)
    obtain ⟨hafter, hact⟩ := hestranged.step hstep fun link hlink =>
      hmade link (List.mem_append_right _ (by simp [made, hlink]))
    refine ⟨hafter, fun p src dst content => ?_⟩
    simp only [List.mem_append, List.mem_singleton, not_or]
    exact ⟨hnone p src dst content, fun heq => hact p src dst content heq.symm⟩

end Estranged

end Lockstep

end TcpHandler.Foundation
