import ChoiceGraph.Proofs.Invariant
import Mathlib.Logic.Function.Basic

/-! # Evolution of a machine

How a machine may change while it reduces a node. A node is fixed when it ranks above the node
that is reduced, or when no reduction rewrites nodes of its kind; free variables are never fixed.
A node is steady when fixed nodes connect it to the root set: it stays live, at its rank, and if
it is fixed itself, with its content. Evolutions compose, and a narrower scope evolves within a
wider one. -/
namespace ChoiceGraph

/-- What a reduction may rewrite: nodes up to a rank, and exempt nodes whatever their kind. -/
structure Scope where
  top : ℚ
  exempt : NodeId → Prop

namespace Scope

def below (top : ℚ) : Scope := ⟨top, fun _ => False⟩

def Fixed (s : Scope) (ρ : Rank) (i : NodeId) (c : Content) : Prop :=
  (s.top < ρ i ∧ c.tag ≠ .free) ∨ (c.Inert ∧ ¬ s.exempt i)

def Within (s s' : Scope) : Prop := s.top ≤ s'.top ∧ ∀ i, s.exempt i → s'.exempt i

theorem below_within {s : Scope} {q : ℚ} (h : q ≤ s.top) : (below q).Within s :=
  ⟨h, fun _ h => h.elim⟩

variable {s s' : Scope} {ρ : Rank} {i : NodeId} {c : Content}

theorem Within.fixed (h : s.Within s') (hf : s'.Fixed ρ i c) : s.Fixed ρ i c :=
  hf.imp (fun hf => ⟨lt_of_le_of_lt h.1 hf.1, hf.2⟩) fun hf => ⟨hf.1, fun he => hf.2 (h.2 i he)⟩

theorem fixed_above {q : ℚ} (h : q < ρ i) (tag : c.tag ≠ .free) : (below q).Fixed ρ i c :=
  .inl ⟨h, tag⟩

theorem fixed_inert {q : ℚ} (h : c.Inert) : (below q).Fixed ρ i c := .inr ⟨h, fun h => h⟩

end Scope

namespace Machine

variable {m m' m'' : Machine} {held held' : List NodeId} {ρ ρ' ρ'' : Rank} {i j : NodeId}
  {c : Content} {k : Nat} {g' : Graph} {s s' : Scope}

/-! ## Changes of one node -/

/-- A live node takes on a content whose links are live and rank below it. -/
theorem Inv.write (h : m.Inv held ρ) (sets : m.graph.Sets i c g') (live : m.Live held i)
    (fits : c.Fits m.signature) (links : ∀ j ∈ c.links, m.Live held j ∧ ρ j < ρ i)
    (spine : c.Spined m.graph.Misses)
    (misses : ∀ k, m.graph.Misses i k → c.MissesBy m.graph.Misses k) :
    (m.setGraph g').Inv held ρ := by
  have alive : ∀ j, (m.setGraph g').Live held j → m.Live held j := by
    intro j hj
    induction hj with
    | root hj => exact Graph.Reach.root hj
    | @step p q _ hpq ih =>
      by_cases hp : p = i
      · subst hp
        exact (links q ((Graph.edge_of_content sets.same).mp hpq)).1
      · obtain ⟨cp, hcp, -⟩ := h.fits p ih
        exact ih.link hcp ((Graph.edge_of_content ((sets.others p hp).trans hcp)).mp hpq)
  have below : ∀ j k, m.Live held j → ρ j < ρ i → m.graph.Misses j k → g'.Misses j k := by
    intro j k hj hρ hm
    refine hm.congr (S := fun p => m.Live held p ∧ ρ p < ρ i) ⟨hj, hρ⟩ ?_ ?_
    · exact fun p cp hp hcp q hq => ⟨hp.1.link hcp hq, (h.ranked p q cp hp.1 hcp hq).trans hp.2⟩
    · rintro p ⟨-, hp⟩
      exact sets.others p fun e => lt_irrefl _ (e ▸ hp)
  have still : ∀ j k, m.Live held j → m.graph.Misses j k → g'.Misses j k := by
    intro j k hj hm
    have here : ∀ k, m.graph.Misses i k → g'.Misses i k := fun k hm =>
      Graph.misses_iff.mpr ⟨c, sets.same, (misses k hm).mono fun q hq k hm =>
        below q k (links q hq).1 (links q hq).2 hm⟩
    induction hm with
    | @failure p k cp hp tag =>
      by_cases hpi : p = i
      · exact hpi ▸ here k (hpi ▸ .failure hp tag)
      · exact .failure ((sets.others p hpi).trans hp) tag
    | @function p k _ hp =>
      by_cases hpi : p = i
      · exact hpi ▸ here k (hpi ▸ .function hp)
      · exact .function ((sets.others p hpi).trans hp)
    | @argument p f x k missing hp hf ih =>
      by_cases hpi : p = i
      · exact hpi ▸ here k (hpi ▸ .argument hp hf)
      · exact .argument ((sets.others p hpi).trans hp) (ih (hj.link hp List.mem_cons_self))
    | @forward p q k _ _ hp hq ih =>
      by_cases hpi : p = i
      · exact hpi ▸ here k (hpi ▸ .forward hp hq)
      · exact .forward ((sets.others p hpi).trans hp) (ih (hj.link hp List.mem_cons_self))
    | @choice p l r k _ _ hp hl hr ihl ihr =>
      by_cases hpi : p = i
      · exact hpi ▸ here k (hpi ▸ .choice hp hl hr)
      · exact .choice ((sets.others p hpi).trans hp) (ihl (hj.link hp List.mem_cons_self))
          (ihr (hj.link hp (List.mem_cons_of_mem _ List.mem_cons_self)))
  refine ⟨sets.sound, h.signature, h.frames, h.counted, fun j hj => ?_, fun j hj => ?_,
    fun j cj hj hc => ?_, fun j q cj hj hc hq => ?_⟩
  · exact sets.free ▸ h.unfree j (alive j hj)
  · by_cases hji : j = i
    · exact ⟨c, hji ▸ sets.same, fits⟩
    · obtain ⟨cj, hc, hf⟩ := h.fits j (alive j hj)
      exact ⟨cj, (sets.others j hji).trans hc, hf⟩
  · rintro missing f x rfl
    by_cases hji : j = i
    · subst hji
      cases sets.same.symm.trans hc
      exact below f _ (links f List.mem_cons_self).1 (links f List.mem_cons_self).2
        (spine missing f x rfl)
    · have hc' := (sets.others j hji).symm.trans hc
      exact still f _ ((alive j hj).link hc' List.mem_cons_self)
        (h.spines j _ (alive j hj) hc' missing f x rfl)
  · by_cases hji : j = i
    · subst hji
      cases sets.same.symm.trans hc
      exact (links q hq).2
    · exact h.ranked j q cj (alive j hj) ((sets.others j hji).symm.trans hc) hq

/-- A node that was handed out, but is not live yet, takes on a content whose links are live. From
then on it counts as live, at any rank above its links. -/
theorem Inv.draft (h : m.Inv held ρ) (sets : m.graph.Sets i c g') (dead : ¬ m.Live held i)
    (unfree : i ∉ m.graph.free) (fits : c.Fits m.signature) (q : ℚ)
    (links : ∀ j ∈ c.links, m.Live held j ∧ ρ j < q)
    (spine : c.Spined m.graph.Misses) :
    (m.setGraph g').Inv (i :: held) (Function.update ρ i q) := by
  have other : ∀ {j}, m.Live held j → j ≠ i := fun hj e => dead (e ▸ hj)
  have alive : ∀ j, (m.setGraph g').Live (i :: held) j → j = i ∨ m.Live held j := by
    intro j hj
    induction hj with
    | root hj =>
      rcases List.mem_append.mp hj with hj | hj
      · exact .inr (live_root hj)
      · rw [List.map_cons] at hj
        rcases List.mem_cons.mp hj with hj | hj
        · exact .inl (Option.some.inj hj)
        · exact .inr (Graph.Reach.root (List.mem_append_right _ hj))
    | @step p q _ hpq ih =>
      rcases ih with rfl | ih
      · exact .inr (links q ((Graph.edge_of_content sets.same).mp hpq)).1
      · obtain ⟨cp, hcp, -⟩ := h.fits p ih
        exact .inr (ih.link hcp
          ((Graph.edge_of_content ((sets.others p (other ih)).trans hcp)).mp hpq))
  have still : ∀ j k, m.Live held j → m.graph.Misses j k → g'.Misses j k := by
    intro j k hj hm
    exact hm.congr (S := m.Live held) hj (fun p cp hp hcp q hq => hp.link hcp hq)
      fun p hp => sets.others p (other hp)
  have rank : ∀ {j}, m.Live held j → Function.update ρ i q j = ρ j :=
    fun hj => Function.update_of_ne (other hj) _ _
  refine ⟨sets.sound, h.signature, h.frames, h.counted, fun j hj => ?_, fun j hj => ?_,
    fun j cj hj hc => ?_, fun j p cj hj hc hp => ?_⟩
  · rcases alive j hj with rfl | hj
    · exact sets.free ▸ unfree
    · exact sets.free ▸ h.unfree j hj
  · rcases alive j hj with rfl | hj
    · exact ⟨c, sets.same, fits⟩
    · obtain ⟨cj, hc, hf⟩ := h.fits j hj
      exact ⟨cj, (sets.others j (other hj)).trans hc, hf⟩
  · rintro missing f x rfl
    rcases alive j hj with rfl | hj
    · cases sets.same.symm.trans hc
      exact still f _ (links f List.mem_cons_self).1 (spine missing f x rfl)
    · have hc' := (sets.others j (other hj)).symm.trans hc
      exact still f _ (hj.link hc' List.mem_cons_self) (h.spines j _ hj hc' missing f x rfl)
  · rcases alive j hj with rfl | hj
    · cases sets.same.symm.trans hc
      rw [rank (links p hp).1, Function.update_self]
      exact (links p hp).2
    · have hc' := (sets.others j (other hj)).symm.trans hc
      rw [rank hj, rank (hj.link hc' hp)]
      exact h.ranked j p cj hj hc' hp

/-! ## Steady nodes -/

inductive Steady (m : Machine) (s : Scope) (ρ : Rank) : NodeId → Prop where
  | root {i : NodeId} (hi : some i ∈ m.rootSet) : Steady m s ρ i
  | link {i j : NodeId} {c : Content} (hi : Steady m s ρ i) (hc : m.graph.content? i = some c)
    (fixed : s.Fixed ρ i c) (hj : j ∈ c.links) : Steady m s ρ j

theorem Steady.live (h : m.Steady s ρ i) : m.Live held i := by
  induction h with
  | root hi => exact live_root hi
  | link _ hc _ hj ih => exact ih.link hc hj

theorem Steady.within (h : m.Steady s' ρ i) (hs : s.Within s') : m.Steady s ρ i := by
  induction h with
  | root hi => exact .root hi
  | link _ hc fixed hj ih => exact .link ih hc (hs.fixed fixed) hj

/-- A live node is steady as long as only nodes that do not rank above it are reduced. -/
theorem Inv.steady (h : m.Inv [] ρ) (hi : m.Live [] i) (le : s.top ≤ ρ i) : m.Steady s ρ i := by
  induction hi with
  | root hi => exact .root (by simpa using hi)
  | @step p q hp hpq ih =>
    obtain ⟨c, hc, fits⟩ := h.fits p hp
    have hq : q ∈ c.links := (Graph.edge_of_content hc).mp hpq
    have lt := h.ranked p q c hp hc hq
    refine .link (ih (le.trans lt.le)) hc (.inl ⟨lt_of_le_of_lt le lt, fun ht => ?_⟩) hq
    rw [fits.links_of_free ht] at hq
    exact List.not_mem_nil hq

/-- The innermost search goes on, the outer ones wait. -/
inductive SearchExtends : List Computation → List Computation → Prop where
  | idle : SearchExtends [] []
  | inner {c c' : Computation} {rest : List Computation} (h : c.Extends c') :
    SearchExtends (c :: rest) (c' :: rest)

theorem SearchExtends.refl : ∀ cs : List Computation, SearchExtends cs cs
  | [] => .idle
  | c :: _ => .inner (.refl c)

theorem SearchExtends.trans {cs ds es : List Computation} (h : SearchExtends cs ds)
    (k : SearchExtends ds es) : SearchExtends cs es := by
  cases h with
  | idle => exact k
  | inner h => cases k with
    | inner k => exact .inner (h.trans k)

theorem SearchExtends.roots {cs ds : List Computation} (h : SearchExtends cs ds)
    (hi : some i ∈ cs.flatMap Computation.roots) : some i ∈ ds.flatMap Computation.roots := by
  cases h with
  | idle => exact hi
  | inner h =>
    rw [List.flatMap_cons] at *
    rcases List.mem_append.mp hi with hi | hi
    · exact List.mem_append_left _ (h.roots hi)
    · exact List.mem_append_right _ hi

structure Evolves (s : Scope) (m : Machine) (ρ : Rank) (m' : Machine) (held : List NodeId)
    (ρ' : Rank) : Prop where
  inv : m'.Inv held ρ'
  signature : m'.signature = m.signature
  config : m'.config = m.config
  roots : m'.roots = m.roots
  search : SearchExtends m.computations m'.computations
  rank : ∀ i, m.Steady s ρ i → ρ' i = ρ i
  fixed : ∀ i c, m.Steady s ρ i → m.graph.content? i = some c → s.Fixed ρ i c →
    m'.graph.content? i = some c

theorem Evolves.refl (h : m.Inv held ρ) : Evolves s m ρ m held ρ :=
  ⟨h, rfl, rfl, rfl, .refl _, fun _ _ => rfl, fun _ _ _ hc _ => hc⟩

theorem Evolves.rootSet (e : Evolves s m ρ m' held ρ') (hi : some i ∈ m.rootSet) :
    some i ∈ m'.rootSet := by
  unfold Machine.rootSet at *
  rw [e.roots]
  exact (List.mem_append.mp hi).elim (List.mem_append_left _)
    fun hi => List.mem_append_right _ (e.search.roots hi)

theorem Evolves.fixed_after (e : Evolves s m ρ m' held ρ') (h : m.Steady s ρ i)
    (hf : s.Fixed ρ i c) : s.Fixed ρ' i c := by
  unfold Scope.Fixed at *
  rw [e.rank i h]
  exact hf

theorem Evolves.steady (e : Evolves s m ρ m' held ρ') (h : m.Steady s ρ i) :
    m'.Steady s ρ' i := by
  induction h with
  | root hi => exact .root (e.rootSet hi)
  | link hi hc fixed hj ih =>
    exact .link ih (e.fixed _ _ hi hc fixed) (e.fixed_after hi fixed) hj

theorem Evolves.live (e : Evolves s m ρ m' held ρ') (h : m.Steady s ρ i) : m'.Live held' i :=
  (e.steady h).live

theorem Evolves.trans (e : Evolves s m ρ m' [] ρ') (e' : Evolves s m' ρ' m'' held ρ'') :
    Evolves s m ρ m'' held ρ'' where
  inv := e'.inv
  signature := e'.signature.trans e.signature
  config := e'.config.trans e.config
  roots := e'.roots.trans e.roots
  search := e.search.trans e'.search
  rank i hi := (e'.rank i (e.steady hi)).trans (e.rank i hi)
  fixed i c hi hc hf := e'.fixed i c (e.steady hi) (e.fixed i c hi hc hf) (e.fixed_after hi hf)

theorem Evolves.within (e : Evolves s m ρ m' held ρ') (hs : s.Within s') :
    Evolves s' m ρ m' held ρ' :=
  { e with
    rank := fun i hi => e.rank i (hi.within hs)
    fixed := fun i c hi hc hf => e.fixed i c (hi.within hs) hc (hs.fixed hf) }

theorem Evolves.drop (e : Evolves s m ρ m' held ρ') : Evolves s m ρ m' [] ρ' :=
  { e with
    inv := e.inv.shrink rfl rfl e.inv.frames e.inv.counted fun _ hi => hi.weaken }

/-- The node may be rewritten: it is not fixed in what the machine evolved from. -/
theorem Evolves.write (e : Evolves s m ρ m' held ρ') (sets : m'.graph.Sets i c g')
    (live : m'.Live held i) (fits : c.Fits m'.signature)
    (links : ∀ j ∈ c.links, m'.Live held j ∧ ρ' j < ρ' i)
    (spine : c.Spined m'.graph.Misses)
    (misses : ∀ k, m'.graph.Misses i k → c.MissesBy m'.graph.Misses k)
    (loose : ∀ c, m.Steady s ρ i → m.graph.content? i = some c → ¬ s.Fixed ρ i c) :
    Evolves s m ρ (m'.setGraph g') held ρ' :=
  { e with
    inv := e.inv.write sets live fits links spine misses
    fixed := fun j cj hj hc hf => by
      by_cases hji : j = i
      · subst hji
        exact absurd hf (loose cj hj hc)
      · exact (sets.others j hji).trans (e.fixed j cj hj hc hf) }

theorem Evolves.draft (e : Evolves s m ρ m' held ρ') (sets : m'.graph.Sets i c g')
    (dead : ¬ m'.Live held i) (unfree : i ∉ m'.graph.free) (fits : c.Fits m'.signature) (q : ℚ)
    (links : ∀ j ∈ c.links, m'.Live held j ∧ ρ' j < q)
    (spine : c.Spined m'.graph.Misses) :
    Evolves s m ρ (m'.setGraph g') (i :: held) (Function.update ρ' i q) := by
  have other : ∀ {j}, m.Steady s ρ j → j ≠ i := fun hj h => dead (h ▸ e.live hj)
  exact { e with
    inv := e.inv.draft sets dead unfree fits q links spine
    rank := fun j hj => (Function.update_of_ne (other hj) _ _).trans (e.rank j hj)
    fixed := fun j cj hj hc hf =>
      (sets.others j (other hj)).trans (e.fixed j cj hj hc hf) }

end Machine

end ChoiceGraph
