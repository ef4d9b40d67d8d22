import ChoiceGraph.Proofs.Drafting
import ChoiceGraph.Proofs.Reading
import ChoiceGraph.Reduction.PullTab

/-! # Pulling a choice keeps the machine

The two copies are drafted beside the node, and the node becomes the choice between them. Each
copy has the links of the node but for the one that led to the choice. -/
namespace ChoiceGraph

namespace Machine

variable {m m' : Machine} {held held' : List NodeId} {ρ ρ' : Rank} {i j : NodeId} {c : Content}
  {k : Nat}

theorem Quiet.leads (q : m.Quiet m') (hi : m.Live [] i) (leads : m.graph.Leads i j) :
    m'.graph.Leads i j :=
  (leads.congr (S := m.Live []) hi (fun _ _ hp hc _ _ hq => hp.link hc hq)
    fun p _ hp hc _ => (q.kept p hp).trans hc).1

theorem Adds.misses (a : m.Adds held ρ m' held' ρ') (hi : m.Live held i) :
    m'.graph.Misses i k ↔ m.graph.Misses i k :=
  ⟨fun hm => hm.congr (S := m.Live held) hi
      (fun p _ hp hc _ hq => hp.link ((a.kept p hp).symm.trans hc) hq) fun p hp => (a.kept p hp).symm,
    fun hm => hm.congr (S := m.Live held) hi (fun _ _ hp hc _ hq => hp.link hc hq) a.kept⟩

theorem mem_setLink {l : NodeId} (hj : j ∈ (c.setLink k l).links) : j ∈ c.links ∨ j = l :=
  List.mem_or_eq_of_mem_set hj

/-- A choice found below a node: where it is, and what it chooses between. -/
structure ChoiceBelow (m : Machine) (root : NodeId) (c : Content) (k : Nat) (p : NodeId)
    (symbol : SymbolId) (id : ChoiceId) (left right : NodeId) : Prop where
  link : ∃ j, c.links[k]? = some j ∧ m.graph.Leads j p
  content : m.graph.content? p = some ⟨.choice, symbol, id, .links [left, right]⟩
  symbol : symbol = Builtin.choice ∨ symbol = Builtin.narrowed

end Machine

namespace Reduction

open Eff Machine

variable {m : Machine} {ρ : Rank} {root p left right : NodeId} {c : Content} {k : Nat} {s : Scope}
  {symbol : SymbolId} {id : ChoiceId}

theorem pullTab_keeps (h : m.Inv [] ρ) (live : m.Live [] root)
    (hc : m.graph.content? root = some c) (below : m.ChoiceBelow root c k p symbol id left right)
    (loose : m.Loose s ρ root) :
    (pullTab root k).Keeps s m ρ fun _ m' _ => ∃ a b,
      m'.graph.content? root = some ⟨.choice, symbol, id, .links [a, b]⟩ := by
  unfold pullTab
  refine Meets.bind (Q := fun ids m' => m.Quiet m' ∧ ids.length = 2 ∧ m'.Blank [] ids)
    (R := Stopped s m ρ) ((allocate_rooted_meets h live.rooted 2).mono (fun _ _ h => h)
      fun _ q => ⟨ρ, q.evolves h⟩) ?_
  rintro ids m₁ ⟨quiet, length, blank⟩
  rcases ids with _ | ⟨a, _ | ⟨b, _ | ⟨_, _⟩⟩⟩ <;> cases length
  -- the request changed nothing that is read from here on
  have h₁ := quiet.inv h
  have live₁ := (quiet.live h).mpr live
  have hc₁ := (quiet.kept root live).trans hc
  obtain ⟨j, hk, leads⟩ := below.link
  have hj : j ∈ c.links := List.mem_of_getElem? hk
  have lead₁ := quiet.leads (live.link hc hj) leads
  have hp₁ := (quiet.kept p ((live.link hc hj).leads leads)).trans below.content
  have livep := (h₁.below live₁ hc₁ hj lead₁)
  have skip : m₁.successorSkip root k = .ok p := by
    simp only [TermGraph.successorSkip, h₁.read_successor live₁ hc₁ hk, bind, Except.bind,
      Link.target]
    exact h₁.skip_eq (live₁.link hc₁ hj) lead₁ hp₁ (fun ht => by cases ht)
  obtain ⟨s₁, nodep, -⟩ := TermGraph.node_content (t := m₁.toTermGraph) hp₁
  obtain ⟨s₂, node, -⟩ := TermGraph.node_content (t := m₁.toTermGraph) hc₁
  have fits := h₁.fitsAt live₁ hc₁
  have lt : k < c.links.length := (List.getElem?_eq_some_iff.mp hk).1
  have alt : ∀ l ∈ [left, right], m₁.Live [] l ∧ ρ l < ρ root := fun l hl =>
    ⟨livep.1.link hp₁ hl, (h₁.ranked p l _ livep.1 hp₁ hl).trans livep.2⟩
  have misses : ∀ l ∈ [left, right], ∀ n, m₁.graph.Misses j n → m₁.graph.Misses l n := by
    intro l hl n hn
    cases (lead₁.misses hn).by hp₁ with
    | failure tag => cases tag
    | choice hleft hright =>
      rcases List.mem_cons.mp hl with rfl | hl
      · exact hleft
      · rw [List.mem_singleton] at hl
        exact hl ▸ hright
  have set : ∀ l : NodeId, (c.links.map some).set k (some l) = (c.links.set k l).map some :=
    fun l => by rw [List.map_set]
  refine meets_look_bind skip (meets_look_bind nodep (meets_look_bind
    (h₁.read_successor (k := 0) livep.1 hp₁ rfl) (meets_look_bind
    (h₁.read_successor (k := 1) livep.1 hp₁ rfl) (meets_look_bind node
    (meets_look_bind (h₁.read_successors live₁ hc₁) ?_)))))
  simp only [set]
  -- the two copies
  have ev₁ := quiet.evolves (s := s) h
  refine ((rewrite_writes h₁.storage (blank.lt a List.mem_cons_self) _ _ _ _).draft (c := c.setLink k left)
    (b := ρ root) ev₁ blank (fits.setLink lt left) ?_
    ((h₁.spines root c live₁ hc₁).setLink fits hk (misses left List.mem_cons_self))).bind ?_
  · intro x hx
    rcases mem_setLink hx with hx | rfl
    · exact ⟨live₁.link hc₁ hx, h₁.ranked root x c live₁ hc₁ hx⟩
    · exact alt x List.mem_cons_self
  rintro _ m₂ ⟨ρ₂, d₂, lt₂, ha₂⟩
  have h₂ := d₂.evolves.inv
  have live₂ := d₂.adds.live h₁ live₁
  have hc₂ := d₂.adds.content live₁ hc₁
  have fits₂ := h₂.fitsAt live₂ hc₂
  have hr : right ∈ [left, right] := List.mem_cons_of_mem _ List.mem_cons_self
  refine ((rewrite_writes h₂.storage (d₂.blank.lt b List.mem_cons_self) _ _ _ _).draft
    (c := c.setLink k right) (b := ρ root) d₂.evolves d₂.blank (fits₂.setLink lt right) ?_
    ((h₂.spines root c live₂ hc₂).setLink fits₂ hk fun n hn => ?_)).bind ?_
  · intro x hx
    rcases mem_setLink hx with hx | rfl
    · have old := live₁.link hc₁ hx
      exact ⟨d₂.adds.live h₁ old, (d₂.adds.rank x old).trans_lt (h₁.ranked root x c live₁ hc₁ hx)⟩
    · exact ⟨d₂.adds.live h₁ (alt x hr).1, (d₂.adds.rank x (alt x hr).1).trans_lt (alt x hr).2⟩
  · exact (d₂.adds.misses (alt right hr).1).mpr
      (misses right hr n ((d₂.adds.misses (live₁.link hc₁ hj)).mp hn))
  rintro _ m₃ ⟨ρ₃, d₃, lt₃, hb₃⟩
  -- the node itself
  have d := d₂.trans h₁ d₃
  have h₃ := d₃.evolves.inv
  have live₃ := d.adds.live h₁ live₁
  have heldA : m₂.Live [a] a := live_held List.mem_cons_self
  have ha₃ := d₃.adds.content heldA ha₂
  have rank₃ : ρ₃ root = ρ root := d.adds.rank root live₁
  have copies : ∀ {l : NodeId} {x : NodeId}, l ∈ [left, right] →
      m₃.graph.content? x = some (c.setLink k l) → ∀ n, m₃.graph.Misses root n →
      m₃.graph.Misses x n := by
    intro l x hl hx n hn
    have by₁ := (((d.adds.misses live₁).mp hn).by hc₁).setLink hk (misses l hl)
    refine Graph.misses_iff.mpr ⟨_, hx, by₁.mono fun q hq n hq' => (d.adds.misses ?_).mpr hq'⟩
    rcases mem_setLink hq with hq | rfl
    · exact live₁.link hc₁ hq
    · exact (alt q hl).1
  refine ((rewrite_writes h₃.storage (h₃.lt live₃) .choice symbol id [a, b]).revise d₃.evolves live₃
    ?_ ?_ (Content.spined_of_tag fun e => by cases e) (fun n hn => .choice (copies List.mem_cons_self ha₃ n hn)
      (copies hr hb₃ n hn)) loose).mono ?_ fun _ h => h
  · rcases below.symbol with rfl | rfl
    · exact .choice _ _ _
    · exact .narrowed _ _ _
  · intro x hx
    rw [rank₃]
    rcases List.mem_cons.mp hx with rfl | hx
    · exact ⟨d₃.adds.live h₂ heldA, (d₃.adds.rank x heldA).trans_lt lt₂⟩
    · rw [List.mem_singleton] at hx
      subst hx
      exact ⟨live_held List.mem_cons_self, lt₃⟩
  · rintro _ m₄ ⟨g', rfl, sets, ev⟩
    exact ⟨ρ₃, ev, a, b, sets.same⟩

end Reduction

end ChoiceGraph
