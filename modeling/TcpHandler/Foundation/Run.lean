/-
  Foundation/Run.lean --- runs of a labelled step relation, and paths of links.

  A system is a relation `Step : σ → ℓ → σ → Prop`.  A run from `s₀` is a list of
  labels, oldest first, and the state they lead to.  Runs grow at their end, so
  that an induction over a run adds the step that was taken last.

  Proved here, once for every system:

      Run.invariant     what the start has and every step keeps, every run keeps
      Run.split         a run can be cut at every label
      Run.length_le     a measure that its steps lower bounds its length
      Run.simulation    a system that simulates another has its runs, up to the
                        steps that are invisible to the other

  `Throughout` says of every label of a run what may depend on the labels before
  it.  `Party` names the two ends of a session.

  The last part reads a list of links `src → dst` as the runs of the relation
  they span.  When no two links of a log end in the same node and none ends in
  the root, the log is a forest below the root, and the path from the root to a
  node is unique (`Path.unique`).
-/
import Mathlib.Data.List.Induction
import Mathlib.Logic.Function.Basic
import Mathlib.Data.List.Nodup

set_option autoImplicit false

namespace TcpHandler.Foundation

variable {σ τ ℓ κ : Type}

/-- `P` holds of every label of `tr`, given the labels before it. -/
def Throughout (P : List ℓ → ℓ → Prop) (tr : List ℓ) : Prop :=
  ∀ pre e post, tr = pre ++ e :: post → P pre e

theorem throughout_nil {P : List ℓ → ℓ → Prop} : Throughout P [] := by
  intro pre e post h
  simp at h

theorem throughout_snoc {P : List ℓ → ℓ → Prop} {tr : List ℓ} {e : ℓ} :
    Throughout P (tr ++ [e]) ↔ Throughout P tr ∧ P tr e := by
  constructor
  · intro h
    exact ⟨fun pre x post heq => h pre x (post ++ [e]) (by simp [heq]), h tr e [] rfl⟩
  · rintro ⟨hbefore, he⟩ pre x post heq
    cases List.eq_nil_or_concat post with
    | inl hnil =>
      subst hnil
      obtain ⟨rfl, hx⟩ := List.append_inj' heq rfl
      cases hx
      exact he
    | inr hconcat =>
      obtain ⟨rest, last, rfl⟩ := hconcat
      rw [List.concat_eq_append, ← List.cons_append, ← List.append_assoc] at heq
      exact hbefore pre x rest (List.append_inj' heq rfl).1

theorem throughout_cons {P : List ℓ → ℓ → Prop} {e : ℓ} {tr : List ℓ} :
    Throughout P (e :: tr) ↔ P [] e ∧ Throughout (fun pre => P (e :: pre)) tr := by
  constructor
  · intro h
    exact ⟨h [] e tr rfl, fun pre x post heq => h (e :: pre) x post (by simp [heq])⟩
  · rintro ⟨he, hrest⟩ pre x post heq
    cases pre with
    | nil =>
      cases heq
      exact he
    | cons y pre =>
      cases heq
      exact hrest pre x post rfl

theorem Throughout.congr {P Q : List ℓ → ℓ → Prop} {tr : List ℓ}
    (hPQ : ∀ pre e post, tr = pre ++ e :: post → (P pre e ↔ Q pre e)) :
    Throughout P tr ↔ Throughout Q tr := by
  constructor
  · exact fun h pre e post heq => (hPQ pre e post heq).mp (h pre e post heq)
  · exact fun h pre e post heq => (hPQ pre e post heq).mpr (h pre e post heq)

theorem Throughout.of_append {P : List ℓ → ℓ → Prop} {tr post : List ℓ}
    (h : Throughout P (tr ++ post)) : Throughout P tr :=
  fun pre e rest heq => h pre e (rest ++ post) (by simp [heq])

/-- What holds throughout the visible part of a run. -/
theorem throughout_filterMap {P : List κ → κ → Prop} {visible : ℓ → Option κ} {tr : List ℓ} :
    Throughout P (tr.filterMap visible) ↔
      Throughout (fun pre e => ∀ v, visible e = some v → P (pre.filterMap visible) v) tr := by
  induction tr using List.reverseRecOn with
  | nil => simp [throughout_nil]
  | append_singleton tr e ih =>
    rw [List.filterMap_append, throughout_snoc, ← ih]
    cases hv : visible e with
    | none => simp [hv]
    | some v => simp [hv, throughout_snoc]

/-- The labels `tr`, in this order, lead from `s₀` to the indexed state. -/
inductive Run (Step : σ → ℓ → σ → Prop) (s₀ : σ) : List ℓ → σ → Prop
  | nil : Run Step s₀ [] s₀
  | snoc {tr : List ℓ} {s s' : σ} {e : ℓ} :
      Run Step s₀ tr s → Step s e s' → Run Step s₀ (tr ++ [e]) s'

namespace Run

variable {Step : σ → ℓ → σ → Prop} {s₀ s s' : σ} {tr tr' : List ℓ} {e : ℓ}

theorem nil_iff : Run Step s₀ [] s ↔ s = s₀ := by
  constructor
  · intro h
    generalize hnil : ([] : List ℓ) = l at h
    cases h with
    | nil => rfl
    | snoc _ _ => simp at hnil
  · rintro rfl
    exact .nil

theorem snoc_iff : Run Step s₀ (tr ++ [e]) s' ↔ ∃ s, Run Step s₀ tr s ∧ Step s e s' := by
  constructor
  · intro h
    generalize hl : tr ++ [e] = l at h
    cases h with
    | nil => simp at hl
    | snoc hrun hstep =>
      obtain ⟨rfl, he⟩ := List.append_inj' hl rfl
      cases he
      exact ⟨_, hrun, hstep⟩
  · rintro ⟨s, hrun, hstep⟩
    exact .snoc hrun hstep

/-- Two runs that meet compose. -/
theorem append (h : Run Step s₀ tr s) (h' : Run Step s tr' s') : Run Step s₀ (tr ++ tr') s' := by
  induction h' with
  | nil => simpa using h
  | snoc _ hstep ih =>
    rw [← List.append_assoc]
    exact .snoc ih hstep

/-- A run splits at every cut of its labels. -/
theorem split (h : Run Step s₀ (tr ++ tr') s') : ∃ s, Run Step s₀ tr s ∧ Run Step s tr' s' := by
  induction tr' using List.reverseRecOn generalizing s' with
  | nil => exact ⟨s', by simpa using h, .nil⟩
  | append_singleton rest e ih =>
    rw [← List.append_assoc, snoc_iff] at h
    obtain ⟨t, hrun, hstep⟩ := h
    obtain ⟨s, hfirst, hrest⟩ := ih hrun
    exact ⟨s, hfirst, .snoc hrest hstep⟩

theorem cons_iff : Run Step s₀ (e :: tr) s' ↔ ∃ s, Step s₀ e s ∧ Run Step s tr s' := by
  constructor
  · intro h
    obtain ⟨s, hfirst, hrest⟩ := split (show Run Step s₀ ([e] ++ tr) s' from h)
    obtain ⟨s₁, hnil, hstep⟩ := snoc_iff.mp (show Run Step s₀ ([] ++ [e]) s from hfirst)
    rw [nil_iff] at hnil
    subst hnil
    exact ⟨s, hstep, hrest⟩
  · rintro ⟨s, hstep, hrest⟩
    have hfirst : Run Step s₀ [e] s := .snoc .nil hstep
    exact append hfirst hrest

/-- When a label leaves no choice, neither do the labels of a run. -/
theorem unique (hunique : ∀ {s e s₁ s₂}, Step s e s₁ → Step s e s₂ → s₁ = s₂)
    (h : Run Step s₀ tr s) (h' : Run Step s₀ tr s') : s = s' := by
  induction h generalizing s' with
  | nil => exact (nil_iff.mp h').symm
  | snoc _ hstep ih =>
    obtain ⟨mid, hrun', hstep'⟩ := snoc_iff.mp h'
    obtain rfl := ih hrun'
    exact hunique hstep hstep'

/-- The run rule: what holds at the start and is kept by every step holds at the
end of every run.  The invariant may speak of the labels so far. -/
theorem invariant {I : List ℓ → σ → Prop} (hinit : I [] s₀)
    (hstep : ∀ {tr s e s'}, Run Step s₀ tr s → I tr s → Step s e s' → I (tr ++ [e]) s')
    (h : Run Step s₀ tr s) : I tr s := by
  induction h with
  | nil => exact hinit
  | snoc hrun hs ih => exact hstep hrun ih hs

/-- Steps that lower a measure are no more than it allows. -/
theorem length_le {I : σ → Prop} {P : ℓ → Prop} {measure : σ → Nat} (hinit : I s₀)
    (hstep : ∀ {s e s'}, I s → Step s e s' → I s' ∧ (P e → measure s' < measure s))
    (h : Run Step s₀ tr s) (hP : ∀ e ∈ tr, P e) : I s ∧ tr.length + measure s ≤ measure s₀ := by
  induction h with
  | nil => exact ⟨hinit, by simp⟩
  | @snoc tr s s' e _ hs ih =>
    obtain ⟨hI, hle⟩ := ih fun x hx => hP x (List.mem_append_left _ hx)
    obtain ⟨hI', hlt⟩ := hstep hI hs
    have := hlt (hP e (by simp))
    refine ⟨hI', ?_⟩
    rw [List.length_append, List.length_singleton]
    omega

/-- A system with more steps has more runs. -/
theorem mono {Step' : σ → ℓ → σ → Prop} (hsub : ∀ {s e s'}, Step s e s' → Step' s e s')
    (h : Run Step s₀ tr s) : Run Step' s₀ tr s := by
  induction h with
  | nil => exact .nil
  | snoc _ hs ih => exact .snoc ih (hsub hs)

/-- How a system answers a step of another from `a`: with a step under the
visible label, or with none when the label is invisible.  It ends where `R`
holds. -/
def Answers (Step' : τ → κ → τ → Prop) (R : τ → Prop) (a : τ) : Option κ → Prop
  | some v => ∃ a', Step' a v a' ∧ R a'
  | none => R a

/-- Forward simulation.  The relation may speak of the labels so far; `ok` is what
is required of a label after them. -/
theorem simulation {Step' : τ → κ → τ → Prop} {R : List ℓ → σ → τ → Prop}
    {visible : ℓ → Option κ} {ok : List ℓ → ℓ → Prop}
    (hsim : ∀ {tr s e s' a}, ok tr e → R tr s a → Step s e s' →
      Answers Step' (R (tr ++ [e]) s') a (visible e))
    (h : Run Step s₀ tr s) (hok : Throughout ok tr) {a₀ : τ} (hR : R [] s₀ a₀) :
    ∃ a, Run Step' a₀ (tr.filterMap visible) a ∧ R tr s a := by
  induction h with
  | nil => exact ⟨a₀, .nil, hR⟩
  | @snoc tr s s' e _ hs ih =>
    obtain ⟨hbefore, he⟩ := throughout_snoc.mp hok
    obtain ⟨a, hrun, hRa⟩ := ih hbefore
    have hanswer := hsim he hRa hs
    rw [List.filterMap_append]
    cases hv : visible e with
    | none =>
      rw [hv] at hanswer
      exact ⟨a, by simpa [hv] using hrun, hanswer⟩
    | some v =>
      rw [hv] at hanswer
      obtain ⟨a', hstep', hRa'⟩ := hanswer
      refine ⟨a', ?_, hRa'⟩
      simpa [hv] using Run.snoc hrun hstep'

end Run

/-! ## Two parties -/

/-- The two ends of a session. -/
inductive Party where
  | client
  | server
  deriving DecidableEq, Repr

namespace Party

/-- The other end. -/
def peer : Party → Party
  | client => server
  | server => client

@[simp] theorem peer_peer (p : Party) : p.peer.peer = p := by
  cases p <;> rfl

@[simp] theorem peer_ne (p : Party) : p.peer ≠ p := by
  cases p <;> decide

@[simp] theorem ne_peer (p : Party) : p ≠ p.peer := p.peer_ne.symm

theorem eq_peer_of_ne {p q : Party} (h : q ≠ p) : q = p.peer := by
  cases p <;> cases q <;> first | rfl | exact absurd rfl h

theorem eq_or_eq_peer (p q : Party) : q = p ∨ q = p.peer := by
  by_cases h : q = p
  · exact .inl h
  · exact .inr (eq_peer_of_ne h)

@[simp] theorem update_peer {α : Type} (f : Party → α) (p : Party) (a : α) :
    Function.update f p a p.peer = f p.peer :=
  Function.update_of_ne p.peer_ne a f

@[simp] theorem update_at_peer {α : Type} (f : Party → α) (p : Party) (a : α) :
    Function.update f p.peer a p = f p :=
  Function.update_of_ne p.ne_peer a f

end Party

/-! ## Paths of links -/

section Path

variable {ν L : Type} (src dst : L → ν)

/-- `links` are consecutive: they lead from `root` to the indexed node. -/
def Path (root : ν) (links : List L) (node : ν) : Prop :=
  Run (fun x (link : L) y => src link = x ∧ dst link = y) root links node

variable {src dst} {root node : ν} {link : L} {links links' log : List L}

theorem Path.nil_iff : Path src dst root [] node ↔ node = root := Run.nil_iff

theorem Path.snoc_iff :
    Path src dst root (links ++ [link]) node ↔
      Path src dst root links (src link) ∧ dst link = node := by
  unfold Path
  rw [Run.snoc_iff]
  constructor
  · rintro ⟨x, hlinks, rfl, hnode⟩
    exact ⟨hlinks, hnode⟩
  · rintro ⟨hlinks, hnode⟩
    exact ⟨_, hlinks, rfl, hnode⟩

theorem Path.cons_iff :
    Path src dst root (link :: links) node ↔
      src link = root ∧ Path src dst (dst link) links node := by
  unfold Path
  rw [Run.cons_iff]
  constructor
  · rintro ⟨x, ⟨hsrc, rfl⟩, hlinks⟩
    exact ⟨hsrc, hlinks⟩
  · rintro ⟨hsrc, hlinks⟩
    exact ⟨_, ⟨hsrc, rfl⟩, hlinks⟩

/-- A path ends in one node. -/
theorem Path.end_unique {node' : ν} (h : Path src dst root links node)
    (h' : Path src dst root links node') : node = node' := by
  cases List.eq_nil_or_concat links with
  | inl hnil =>
    subst hnil
    exact (Path.nil_iff.mp h).trans (Path.nil_iff.mp h').symm
  | inr hconcat =>
    obtain ⟨rest, link, rfl⟩ := hconcat
    rw [List.concat_eq_append, Path.snoc_iff] at h h'
    exact h.2.symm.trans h'.2

/-- A path that has links ends where one of them does. -/
theorem Path.node_mem (h : Path src dst root links node) (hne : links ≠ []) :
    node ∈ links.map dst := by
  cases List.eq_nil_or_concat links with
  | inl hnil => exact absurd hnil hne
  | inr hconcat =>
    obtain ⟨rest, link, rfl⟩ := hconcat
    rw [List.concat_eq_append, Path.snoc_iff] at h
    simp [h.2]

/-- A path ends in its root or where one of its links does. -/
theorem Path.node_mem_cons (h : Path src dst root links node) :
    node ∈ root :: links.map dst := by
  by_cases hne : links = []
  · subst hne
    simp [Path.nil_iff.mp h]
  · exact List.mem_cons_of_mem _ (h.node_mem hne)

/-- Links of a log whose ends are pairwise distinct are determined by their
ends. -/
theorem eq_of_dst_eq (hnodup : (log.map dst).Nodup) {l₁ l₂ : L} (h₁ : l₁ ∈ log) (h₂ : l₂ ∈ log)
    (h : dst l₁ = dst l₂) : l₁ = l₂ :=
  List.inj_on_of_nodup_map hnodup h₁ h₂ h

/-- In a forest below `root` there is at most one path from the root to a node. -/
theorem Path.unique (hnodup : (root :: log.map dst).Nodup)
    (h : Path src dst root links node) (hsub : links ⊆ log)
    (h' : Path src dst root links' node) (hsub' : links' ⊆ log) : links = links' := by
  obtain ⟨hroot, hends⟩ := List.nodup_cons.mp hnodup
  have hnotroot : ∀ l ∈ log, dst l ≠ root := fun l hl heq =>
    hroot (heq ▸ List.mem_map_of_mem hl)
  induction links using List.reverseRecOn generalizing links' node with
  | nil =>
    rw [Path.nil_iff] at h
    cases List.eq_nil_or_concat links' with
    | inl hnil => exact hnil.symm
    | inr hconcat =>
      obtain ⟨rest, l, rfl⟩ := hconcat
      rw [List.concat_eq_append] at h' hsub'
      have hl : l ∈ log := hsub' (by simp)
      exact absurd ((Path.snoc_iff.mp h').2.trans h) (hnotroot l hl)
  | append_singleton rest l ih =>
    obtain ⟨hrest, hnode⟩ := Path.snoc_iff.mp h
    have hl : l ∈ log := hsub (by simp)
    cases List.eq_nil_or_concat links' with
    | inl hnil =>
      subst hnil
      exact absurd (hnode.trans (Path.nil_iff.mp h')) (hnotroot l hl)
    | inr hconcat =>
      obtain ⟨rest', l', rfl⟩ := hconcat
      rw [List.concat_eq_append] at h' hsub' ⊢
      obtain ⟨hrest', hnode'⟩ := Path.snoc_iff.mp h'
      have hl' : l' ∈ log := hsub' (by simp)
      have heq : l = l' := eq_of_dst_eq hends hl hl' (hnode.trans hnode'.symm)
      subst heq
      have hsame : rest = rest' := ih hrest (fun x hx => hsub (by simp [hx]))
        hrest' (fun x hx => hsub' (by simp [hx]))
      rw [hsame]

end Path

end TcpHandler.Foundation
