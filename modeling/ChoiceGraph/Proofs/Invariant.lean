import ChoiceGraph.Machine.Heap
import ChoiceGraph.Proofs.Contents
import ChoiceGraph.Proofs.Frames
import Mathlib.Algebra.Order.Field.Basic
import Mathlib.Algebra.Order.Field.Rat
import Mathlib.Data.Finset.Card

/-! # The invariant of a machine

A node is live when the root set reaches it. The invariant says of the live nodes that they are
not free, that their contents fit the signature, that partial applications miss as many arguments
as they say, and that there is no circle: some rank falls along every link. Ranks are rational, so
that a new node finds a place between two others. Nodes under construction, which no root reaches
yet, count as roots of their own. -/
namespace ChoiceGraph

abbrev Rank := NodeId → ℚ

/-- Node `i` is a function that misses `k` arguments, whichever way choices are decided. -/
inductive Graph.Misses (g : Graph) : NodeId → Nat → Prop where
  | failure {i : NodeId} {k : Nat} {c : Content} (h : g.content? i = some c)
    (tag : c.tag = .failure) : Misses g i k
  | function {i : NodeId} {k : Nat} {cargo : Cargo}
    (h : g.content? i = some ⟨.operation, Builtin.function, k, cargo⟩) : Misses g i k
  | argument {i f x : NodeId} {k missing : Nat}
    (h : g.content? i = some ⟨.operation, Builtin.partialApplication, missing, .links [f, x]⟩)
    (hf : Misses g f (k + 1)) : Misses g i k
  | forward {i j : NodeId} {k symbol aux : Nat}
    (h : g.content? i = some ⟨.forward, symbol, aux, .links [j]⟩) (hj : Misses g j k) :
    Misses g i k
  | choice {i left right : NodeId} {k symbol aux : Nat}
    (h : g.content? i = some ⟨.choice, symbol, aux, .links [left, right]⟩)
    (hl : Misses g left k) (hr : Misses g right k) : Misses g i k

/-- The same for a content, given which nodes below miss how many arguments. -/
inductive Content.MissesBy (P : NodeId → Nat → Prop) : Content → Nat → Prop where
  | failure {c : Content} {k : Nat} (tag : c.tag = .failure) : MissesBy P c k
  | function {k : Nat} {cargo : Cargo} : MissesBy P ⟨.operation, Builtin.function, k, cargo⟩ k
  | argument {f x : NodeId} {k missing : Nat} (hf : P f (k + 1)) :
    MissesBy P ⟨.operation, Builtin.partialApplication, missing, .links [f, x]⟩ k
  | forward {j : NodeId} {k symbol aux : Nat} (hj : P j k) :
    MissesBy P ⟨.forward, symbol, aux, .links [j]⟩ k
  | choice {left right : NodeId} {k symbol aux : Nat} (hl : P left k) (hr : P right k) :
    MissesBy P ⟨.choice, symbol, aux, .links [left, right]⟩ k

namespace Content

variable {c : Content} {k : Nat}

/-- A partial application misses as many arguments as it says. -/
def Spined (c : Content) (P : NodeId → Nat → Prop) : Prop :=
  ∀ missing f x, c = ⟨.operation, Builtin.partialApplication, missing, .links [f, x]⟩ →
    P f (missing + 1)

theorem spined_of_ne {P : NodeId → Nat → Prop} (h : c.symbol ≠ Builtin.partialApplication) :
    c.Spined P := by
  rintro missing f x rfl
  exact absurd rfl h

theorem spined_of_tag {P : NodeId → Nat → Prop} (h : c.tag ≠ .operation) : c.Spined P := by
  rintro missing f x rfl
  exact absurd rfl h

/-- Replacing a link by a node that misses as much misses as much. -/
theorem MissesBy.setLink {P : NodeId → Nat → Prop} {n : Nat} {j l : NodeId}
    (h : c.MissesBy P n) (hk : c.links[k]? = some j) (hj : ∀ n, P j n → P l n) :
    (c.setLink k l).MissesBy P n := by
  cases h with
  | failure tag => exact .failure tag
  | function => exact .function
  | argument hf =>
    rcases k with _ | _ | k
    · cases hk
      exact .argument (hj _ hf)
    · exact .argument hf
    · cases hk
  | forward ht =>
    rcases k with _ | k
    · cases hk
      exact .forward (hj _ ht)
    · cases hk
  | choice hl hr =>
    rcases k with _ | _ | k
    · cases hk
      exact .choice (hj _ hl) hr
    · cases hk
      exact .choice hl (hj _ hr)
    · cases hk

theorem Spined.setLink {P : NodeId → Nat → Prop} {s : Signature} {j l : NodeId} (h : c.Spined P)
    (fits : c.Fits s) (hk : c.links[k]? = some j) (hj : ∀ n, P j n → P l n) :
    (c.setLink k l).Spined P := by
  by_cases hs : c.symbol = Builtin.partialApplication
  · obtain ⟨missing, f, x, rfl⟩ := fits.of_partialApplication hs
    have here : MissesBy P ⟨.operation, Builtin.partialApplication, missing, .links [f, x]⟩
      missing := .argument (h missing f x rfl)
    have misses := here.setLink hk hj
    intro missing' f' x' same
    obtain rfl : missing = missing' := congrArg Content.aux same
    rw [same] at misses
    cases misses with
    | failure tag => cases tag
    | argument hf => exact hf
  · exact spined_of_ne hs

theorem MissesBy.mono {P Q : NodeId → Nat → Prop}
    (h : c.MissesBy P k) (sub : ∀ j ∈ c.links, ∀ k, P j k → Q j k) : c.MissesBy Q k := by
  cases h with
  | failure tag => exact .failure tag
  | function => exact .function
  | argument hf => exact .argument (sub _ List.mem_cons_self _ hf)
  | forward hj => exact .forward (sub _ List.mem_cons_self _ hj)
  | choice hl hr =>
    exact .choice (sub _ List.mem_cons_self _ hl)
      (sub _ (List.mem_cons_of_mem _ List.mem_cons_self) _ hr)

theorem MissesBy.inert {P : NodeId → Nat → Prop}
    (h : c.MissesBy P k) : c.Inert := by
  cases h with
  | failure tag => exact .inr (.inr (.inl tag))
  | function => exact .inr (.inr (.inr (.inr rfl)))
  | argument => exact .inr (.inr (.inr (.inl rfl)))
  | forward => exact .inl rfl
  | choice => exact .inr (.inl rfl)

end Content

namespace Graph

variable {g g' : Graph} {i j : NodeId} {c : Content} {k : Nat}

theorem misses_iff : g.Misses i k ↔ ∃ c, g.content? i = some c ∧ c.MissesBy g.Misses k := by
  constructor
  · intro h
    cases h with
    | failure h tag => exact ⟨_, h, .failure tag⟩
    | function h => exact ⟨_, h, .function⟩
    | argument h hf => exact ⟨_, h, .argument hf⟩
    | forward h hj => exact ⟨_, h, .forward hj⟩
    | choice h hl hr => exact ⟨_, h, .choice hl hr⟩
  · rintro ⟨c, h, hm⟩
    cases hm with
    | failure tag => exact .failure h tag
    | function => exact .function h
    | argument hf => exact .argument h hf
    | forward hj => exact .forward h hj
    | choice hl hr => exact .choice h hl hr

theorem Misses.by (h : g.Misses i k) (hc : g.content? i = some c) : c.MissesBy g.Misses k := by
  obtain ⟨c', hc', hm⟩ := misses_iff.mp h
  cases hc.symm.trans hc'
  exact hm

/-- Nothing changes for a node if nothing changes at it and below it. -/
theorem Misses.congr {S : NodeId → Prop} (h : g.Misses i k) (hi : S i)
    (closed : ∀ p c, S p → g.content? p = some c → ∀ q ∈ c.links, S q)
    (same : ∀ p, S p → g'.content? p = g.content? p) : g'.Misses i k := by
  induction h with
  | failure h tag => exact .failure ((same _ hi).trans h) tag
  | function h => exact .function ((same _ hi).trans h)
  | argument h hf ih =>
    exact .argument ((same _ hi).trans h) (ih (closed _ _ hi h _ List.mem_cons_self))
  | forward h hj ih =>
    exact .forward ((same _ hi).trans h) (ih (closed _ _ hi h _ List.mem_cons_self))
  | choice h hl hr ihl ihr =>
    exact .choice ((same _ hi).trans h) (ihl (closed _ _ hi h _ List.mem_cons_self))
      (ihr (closed _ _ hi h _ (List.mem_cons_of_mem _ List.mem_cons_self)))

/-- Indirections lead from one node to another. -/
inductive Leads (g : Graph) : NodeId → NodeId → Prop where
  | refl (i : NodeId) : Leads g i i
  | step {i j k : NodeId} {symbol aux : Nat}
    (h : g.content? i = some ⟨.forward, symbol, aux, .links [j]⟩) (hj : Leads g j k) : Leads g i k

theorem Leads.misses (h : g.Leads i j) (hm : g.Misses i k) : g.Misses j k := by
  induction h with
  | refl => exact hm
  | step h _ ih =>
    cases hm.by h with
    | failure tag => cases tag
    | forward hj => exact ih hj

theorem Leads.trans {l : NodeId} (h : g.Leads i j) (h' : g.Leads j l) : g.Leads i l := by
  induction h with
  | refl => exact h'
  | step h _ ih => exact .step h (ih h')

theorem Leads.congr {S : NodeId → Prop} (h : g.Leads i j) (hi : S i)
    (closed : ∀ p c, S p → g.content? p = some c → c.tag = .forward → ∀ q ∈ c.links, S q)
    (same : ∀ p c, S p → g.content? p = some c → c.tag = .forward → g'.content? p = some c) :
    g'.Leads i j ∧ S j := by
  induction h with
  | refl => exact ⟨.refl _, hi⟩
  | step h _ ih =>
    obtain ⟨leads, hj⟩ := ih (closed _ _ hi h rfl _ List.mem_cons_self)
    exact ⟨.step (same _ _ hi h rfl) leads, hj⟩

/-- How many slots rank below a node: a bound on the length of any path that starts there. -/
def depth (g : Graph) (ρ : Rank) (i : NodeId) : Nat :=
  ((Finset.range g.capacity).filter fun j => ρ j < ρ i).card

theorem depth_lt {ρ : Rank} (lt : j < g.capacity) (hρ : ρ j < ρ i) :
    g.depth ρ j < g.depth ρ i := by
  apply Finset.card_lt_card
  constructor
  · intro p hp
    simp only [Finset.mem_filter] at *
    exact ⟨hp.1, hp.2.trans hρ⟩
  · intro sub
    have := sub (Finset.mem_filter.mpr ⟨Finset.mem_range.mpr lt, hρ⟩)
    exact lt_irrefl _ (Finset.mem_filter.mp this).2

theorem depth_le {ρ : Rank} : g.depth ρ i ≤ g.capacity :=
  (Finset.card_filter_le _ _).trans (Finset.card_range _).le

end Graph

namespace Machine

variable {m m' : Machine} {held : List NodeId} {ρ : Rank} {i j : NodeId} {c : Content} {k : Nat}

def Live (m : Machine) (held : List NodeId) (i : NodeId) : Prop :=
  m.graph.Reach (m.rootSet ++ held.map some) i

structure Inv (m : Machine) (held : List NodeId) (ρ : Rank) : Prop where
  storage : m.graph.Sound
  signature : m.signature.Sound
  frames : ∀ c ∈ m.computations, ∀ f ∈ c.queue, f.node ≠ none
  counted : ∀ c ∈ m.computations, c.Counted
  unfree : ∀ i, m.Live held i → i ∉ m.graph.free
  fits : ∀ i, m.Live held i → ∃ c, m.graph.content? i = some c ∧ c.Fits m.signature
  spines : ∀ i c, m.Live held i → m.graph.content? i = some c → c.Spined m.graph.Misses
  ranked : ∀ i j c, m.Live held i → m.graph.content? i = some c → j ∈ c.links → ρ j < ρ i

theorem live_root (hi : some i ∈ m.rootSet) : m.Live held i :=
  Graph.Reach.root (List.mem_append_left _ hi)

theorem live_held (hi : i ∈ held) : m.Live held i :=
  Graph.Reach.root (List.mem_append_right _ (List.mem_map_of_mem hi))

theorem Live.link (h : m.Live held i) (hc : m.graph.content? i = some c) (hj : j ∈ c.links) :
    m.Live held j := Graph.Reach.step h ((Graph.edge_of_content hc).mpr hj)

theorem Live.weaken (h : m.Live [] i) : m.Live held i :=
  Graph.Reach.mono h (by simp)

theorem Inv.closed (h : m.Inv held ρ) : m.graph.Closed (m.rootSet ++ held.map some) := by
  intro i hi
  obtain ⟨c, hc, -⟩ := h.fits i hi
  exact ⟨c.links, Graph.storedSuccessors_of_content hc⟩

theorem Inv.lt (h : m.Inv held ρ) (hi : m.Live held i) : i < m.graph.capacity := by
  obtain ⟨c, hc, -⟩ := h.fits i hi
  exact Graph.content_lt hc

theorem Inv.fitsAt (h : m.Inv held ρ) (hi : m.Live held i) (hc : m.graph.content? i = some c) :
    c.Fits m.signature := by
  obtain ⟨c', hc', hf⟩ := h.fits i hi
  cases hc.symm.trans hc'
  exact hf

theorem Live.leads (h : m.Live held i) (hl : m.graph.Leads i j) : m.Live held j := by
  induction hl with
  | refl => exact h
  | step hc _ ih => exact ih (h.link hc List.mem_cons_self)

theorem Inv.rank_leads (h : m.Inv held ρ) (hi : m.Live held i) (hl : m.graph.Leads i j) :
    ρ j ≤ ρ i := by
  induction hl with
  | refl => exact le_rfl
  | step hc _ ih =>
    exact (ih (hi.link hc List.mem_cons_self)).trans (h.ranked _ _ _ hi hc List.mem_cons_self).le

/-- What is live stays live, and nothing else becomes live, when the contents of live nodes stay. -/
theorem live_congr {held' : List NodeId} (roots : m'.rootSet ++ held'.map some =
      m.rootSet ++ held.map some) (full : ∀ i, m.Live held i → ∃ c, m.graph.content? i = some c)
    (kept : ∀ i, m.Live held i → m'.graph.content? i = m.graph.content? i) :
    m'.Live held' i ↔ m.Live held i := by
  constructor
  · intro hi
    induction hi with
    | root hi => exact Graph.Reach.root (roots ▸ hi)
    | step _ hij ih =>
      obtain ⟨c, hc⟩ := full _ ih
      exact ih.link hc ((Graph.edge_of_content ((kept _ ih).trans hc)).mp hij)
  · intro hi
    induction hi with
    | root hi => exact Graph.Reach.root (roots ▸ hi)
    | step hi hij ih =>
      obtain ⟨c, hc⟩ := full _ hi
      exact Live.link ih ((kept _ hi).trans hc) ((Graph.edge_of_content hc).mp hij)

/-- Fewer roots need less. -/
theorem Inv.shrink {held' : List NodeId} (h : m.Inv held ρ) (graph : m'.graph = m.graph)
    (signature : m'.signature = m.signature)
    (frames : ∀ c ∈ m'.computations, ∀ f ∈ c.queue, f.node ≠ none)
    (counted : ∀ c ∈ m'.computations, c.Counted)
    (live : ∀ i, m'.Live held' i → m.Live held i) : m'.Inv held' ρ where
  storage := graph ▸ h.storage
  signature := signature ▸ h.signature
  frames := frames
  counted := counted
  unfree i hi := graph ▸ h.unfree i (live i hi)
  fits i hi := by
    rw [graph, signature]
    exact h.fits i (live i hi)
  spines i c hi hc := by
    rw [graph] at hc ⊢
    exact h.spines i c (live i hi) hc
  ranked i j c hi hc hj := by
    rw [graph] at hc
    exact h.ranked i j c (live i hi) hc hj

end Machine

end ChoiceGraph
