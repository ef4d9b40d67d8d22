import ChoiceGraph.Proofs.Operations
import ChoiceGraph.Proofs.Rewriting
import ChoiceGraph.Reduction.PullTab

/-! # Copies of a context

When a choice is pulled above a node, two new nodes take the place of the node, each with one of the
alternatives where the choice was. Every other link is shared, and every block stays with one owner:
a copy with a block has a new one, and the block of the node is given back. -/
namespace ChoiceGraph

namespace Graph

variable {g g' : Graph} {roots : List Link} {i j : NodeId} {b : BlockId} {c : Content}

theorem Intact.content (s : g.Intact roots g') (hi : g.Reach roots i) :
    g'.content? i = g.content? i :=
  content_congr (s.node i hi) fun b owned => s.block i b hi owned

/-- Where an indirection leads is stored in it. -/
theorem edge_of_forward {n : Node} (node : g.nodes[i]? = some n) (next : n.forward? = some (some j)) :
    g.Edge i j := by
  unfold Node.forward? at next
  split at next
  · next x y _ slots =>
    cases next
    refine ⟨[some j, y].filter Option.isSome, ?_, by simp⟩
    simp [storedSuccessors, Graph.node, node, storedLinks, slots, bind, Except.bind]
  · cases next

/-- A way along indirections is the same wherever what it passes is, however many steps are allowed. -/
theorem skipWithin_intact (s : g.Intact roots g') : ∀ {n n' : Nat} {i : NodeId}, g.Reach roots i →
    g.skipWithin n i = .ok j → n ≤ n' → g'.skipWithin n' i = .ok j ∧ g.Reach roots j
  | 0, _, _, _, run, _ => nomatch run
  | n + 1, 0, _, _, _, le => absurd le (Nat.not_succ_le_zero n)
  | n + 1, n' + 1, i, hi, run, le => by
    have same : g'.node i = g.node i := by
      unfold Graph.node
      rw [s.node i hi]
    unfold skipWithin at run ⊢
    rw [same]
    cases node : g.node i with
    | error e =>
      rw [node] at run
      cases run
    | ok found =>
      simp only [node, bind, Except.bind] at run ⊢
      have slot : g.nodes[i]? = some found := by
        unfold Graph.node at node
        split at node
        · next there =>
          cases node
          exact there
        · cases node
      cases next : found.forward? with
      | none =>
        simp only [next] at run ⊢
        cases run
        exact ⟨rfl, hi⟩
      | some link =>
        cases link with
        | none =>
          simp only [next] at run
          cases run
        | some k =>
          simp only [next] at run ⊢
          exact skipWithin_intact s (hi.step (edge_of_forward slot next)) run (Nat.le_of_succ_le_succ le)

/-- The block is in use, and the node is its only owner. -/
structure OwnBlock (g : Graph) (i : NodeId) (b : BlockId) : Prop where
  owned : g.Owns i b
  used : g.InUse b
  alone : ∀ j, g.Owns j b → j = i

theorem Sound.own_block (h : g.Sound) (hc : g.content? i = some c)
    (many : inlineBound ≤ c.links.length) : ∃ b, g.OwnBlock i b ∧ b.arity = c.links.length := by
  obtain ⟨b, owned, arity, -⟩ := owns_of_content hc many
  exact ⟨b, ⟨owned, h.in_use i b owned, fun j other => h.alone j i b other owned⟩, arity⟩

/-- The links of a node fit where they are. -/
theorem Sound.fitting (h : g.Sound) (hc : g.content? i = some c) :
    c.links.length < inlineBound ∨ c.links.length < g.pools.size := by
  by_cases few : c.links.length < inlineBound
  · exact .inl few
  · obtain ⟨b, own, arity⟩ := h.own_block hc (Nat.le_of_not_lt few)
    obtain ⟨pool, found, -⟩ := own.used
    rw [← arity]
    exact .inr (Array.getElem?_eq_some_iff.mp found).1

end Graph

namespace Machine

variable {m m' : Machine} {roots : List Link} {root i j p : NodeId} {c : Content} {k : Nat}

/-- A node that is stored as the signature demands has as many links as its symbol has arguments. -/
theorem WellFormedAt.arity (wf : m.WellFormedAt i) (hc : m.graph.content? i = some c) :
    ∃ sym, m.signature.symbol? c.symbol = some sym ∧ c.links.length = sym.arity := by
  obtain ⟨n, sym, ls, node, found, -, stores, length, -⟩ := wf.stored
  obtain ⟨slots, node', cargo⟩ := Graph.content_eq_some.mp hc
  cases node.symm.trans node'
  refine ⟨sym, found, ?_⟩
  rw [← length, Content.links]
  cases stores with
  | none h =>
    cases h
    rw [← Option.some.inj cargo]
    rfl
  | one a h =>
    cases h
    rw [← Option.some.inj cargo]
    rfl
  | two a b h =>
    cases h
    rw [← Option.some.inj cargo]
    rfl
  | literal l h held =>
    cases h
    rw [← Option.some.inj cargo]
    rfl
  | block b ls h bound arity block used alone =>
    cases h
    obtain ⟨ls', same, block', -⟩ := Graph.cargo_pooled.mp cargo
    have counted := congrArg List.length (Option.some.inj (block'.symm.trans block))
    rw [same]
    simpa [Cargo.successors] using counted

/-- One more root that is reached anyway. -/
theorem WellFormed.push (wf : m.WellFormed) (hi : m.Reachable i) : (m.push [some i]).WellFormed := by
  intro j hj
  have reached : m.Reachable j := by
    induction hj with
    | root member =>
      rcases List.mem_cons.mp member with same | member
      · cases same
        exact hi
      · exact .root member
    | step _ edge ih => exact ih.step edge
  exact ⟨(wf j reached).unfree, (wf j reached).stored⟩

theorem Spared.content (s : m.Spared roots m') (hi : m.graph.Reach roots i) :
    m'.graph.content? i = m.graph.content? i :=
  s.intact.content hi

theorem Spared.skip (s : m.Spared roots m') (hi : m.graph.Reach roots i) (run : m.skip i = .ok j) :
    m'.skip i = .ok j ∧ m.graph.Reach roots j :=
  Graph.skipWithin_intact s.intact hi run (Nat.succ_le_succ s.grown)

/-- What is reached reads as before. -/
theorem Spared.successorSkip (s : m.Spared roots m') (wf : m.WellFormedAt i)
    (hi : m.graph.Reach roots i) (hc : m.graph.content? i = some c)
    (run : m.successorSkip i k = .ok p) :
    m'.successorSkip i k = .ok p ∧ m.graph.Reach roots p := by
  obtain ⟨sym, found, length⟩ := wf.arity hc
  have lt : k < c.links.length := by
    by_contra beyond
    have refused : m.successor i k = .error .dangling := by
      simp only [TermGraph.successor, TermGraph.arity_content hc found, bind, Except.bind]
      rw [if_pos (length ▸ Nat.le_of_not_lt beyond)]
      rfl
    simp only [TermGraph.successorSkip, refused, bind, Except.bind] at run
    cases run
  have link : c.links[k]? = some c.links[k] := List.getElem?_eq_getElem lt
  have hc' : m'.graph.content? i = some c := (s.content hi).trans hc
  have found' : m'.signature.symbol? c.symbol = some sym := s.signature.symm ▸ found
  have below := hi.step ((Graph.edge_of_content hc).mpr (List.getElem_mem lt))
  simp only [TermGraph.successorSkip, TermGraph.successor_content hc found length link,
    TermGraph.successor_content hc' found' length link, bind, Except.bind, Link.target] at run ⊢
  exact s.skip below run

end Machine

namespace Reduction

open Eff Machine

variable {m m' : Machine} {root p l r a b : NodeId} {c : Content} {symbol : SymbolId} {id : ChoiceId}
  {k : Nat}

/-- The node has become a choice between two new nodes, its copies. They have its links but for link
`k`, which is an alternative of the choice that was found there. -/
structure Copied (m : Machine) (root : NodeId) (c : Content) (k : Nat) (symbol : SymbolId)
    (id : ChoiceId) (l r : NodeId) (m' : Machine) (a b : NodeId) : Prop where
  apart : a ≠ b
  fresh : ∀ x ∈ [a, b], ¬ m.graph.Reach (some root :: m.rootSet) x ∧ x ∉ m'.graph.free
  choice : m'.graph.content? root = some ⟨.choice, symbol, id, .links [a, b]⟩
  left : m'.graph.content? a = some (c.setLink k l)
  right : m'.graph.content? b = some (c.setLink k r)
  blocks : ∀ x ∈ [a, b], inlineBound ≤ c.links.length →
    ∃ block, m'.graph.OwnBlock x block ∧ block.arity = c.links.length
  released : ∀ block, m.graph.Owns root block → ¬ m'.graph.InUse block
  others : m.Untouched (fun i => m.graph.Reach (some root :: m.rootSet) i ∧ i ≠ root) m'

/-- What is done once there are two nodes for the copies. -/
theorem copies_written {m₁ : Machine} (s : m.Spared (some root :: m.rootSet) m₁)
    (grants : m.graph.Grants (some root :: m.rootSet) 2 [a, b] m₁.graph) (sound : m.graph.Sound)
    (hc : m.graph.content? root = some c) (symbol : SymbolId) (id : ChoiceId) :
    ∃ g, (do
        rewrite a c.tag c.symbol c.aux ((c.links.map some).set k (some l))
        rewrite b c.tag c.symbol c.aux ((c.links.map some).set k (some r))
        rewrite root .choice symbol id [some a, some b] : Eff Unit) m₁ = .ok () (m₁.setGraph g) ∧
      Copied m root c k symbol id l r (m₁.setGraph g) a b := by
  have set : ∀ x : NodeId, (c.links.map some).set k (some x) = (c.links.set k x).map some :=
    fun x => List.map_set.symm
  have here : m.graph.Reach (some root :: m.rootSet) root := .root List.mem_cons_self
  have unreached := grants.serves.unreached
  have apart : a ≠ b := by simpa using grants.serves.nodup
  have a_ne : a ≠ root := fun same => unreached a List.mem_cons_self (same ▸ here)
  have b_ne : b ≠ root := fun same => unreached b (by simp) (same ▸ here)
  have fits : ∀ x : NodeId, Fitting m₁ (c.links.set k x).length := fun x => by
    rw [List.length_set, Fitting, grants.pools]
    exact sound.fitting hc
  -- the copies, then the node
  obtain ⟨g₂, first, w₂⟩ := rewrite_wrote s.sound (grants.lt a List.mem_cons_self) c.tag c.symbol
    c.aux (c.links.set k l) (fits l)
  have fits₂ : Fitting (m₁.setGraph g₂) (c.links.set k r).length := by
    simpa only [Fitting, setGraph, w₂.pools] using fits r
  have lt₂ : b < g₂.capacity := w₂.capacity.symm ▸ grants.lt b (by simp)
  obtain ⟨g₃, second, w₃⟩ := rewrite_wrote (m := m₁.setGraph g₂) w₂.sound lt₂ c.tag c.symbol c.aux
    (c.links.set k r) fits₂
  have content₃ : g₃.content? root = some c :=
    ((w₃.others root b_ne.symm).trans (w₂.others root a_ne.symm)).trans ((s.content here).trans hc)
  obtain ⟨g₄, third, w₄⟩ := rewrite_wrote (m := m₁.setGraph g₃) w₃.sound
    (Graph.content_lt content₃) .choice symbol id [a, b] (.inl (by simp [inlineBound]))
  have leaves : m₁.graph.Leaves (fun x => x = a ∨ x = b ∨ x = root) g₄ :=
    ((w₂.leaves.mono fun _ h => .inl h).trans (w₃.leaves.mono fun _ h => .inr (.inl h))).trans
      (w₄.leaves.mono fun _ h => .inr (.inr h))
  have out : ∀ i, m.graph.Reach (some root :: m.rootSet) i ∧ i ≠ root →
      m.graph.Reach (some root :: m.rootSet) i ∧ ¬ (i = a ∨ i = b ∨ i = root) := by
    rintro i ⟨hi, hne⟩
    refine ⟨hi, ?_⟩
    rintro (rfl | rfl | rfl)
    · exact unreached i List.mem_cons_self hi
    · exact unreached i (by simp) hi
    · exact hne rfl
  have left : g₄.content? a = some (c.setLink k l) :=
    ((w₄.others a a_ne).trans (w₃.others a apart)).trans w₂.same
  have right : g₄.content? b = some (c.setLink k r) := (w₄.others b b_ne).trans w₃.same
  refine ⟨g₄, ?_, ?_⟩
  · rw [set, set]
    exact (bind_ok first).trans ((bind_ok second).trans third)
  · refine ⟨apart, fun x hx => ⟨unreached x hx, ?_⟩, w₄.same, left, right, fun x hx many => ?_,
      fun block owned => ?_, s.leaves leaves out rfl rfl⟩
    · rw [show (m₁.setGraph g₄).graph.free = m₁.graph.free from leaves.free]
      exact grants.unfree x hx
    · have length : ∀ y, (c.setLink k y).links.length = c.links.length := fun y => by simp
      rcases List.mem_cons.mp hx with rfl | hx
      · exact length l ▸ leaves.sound.own_block left (by simpa using many)
      · obtain rfl := List.mem_singleton.mp hx
        exact length r ▸ leaves.sound.own_block right (by simpa using many)
    · apply w₄.released block
      have owned₂ := (w₂.leaves.owns a_ne.symm).mpr (s.owns here owned)
      exact (w₃.leaves.owns b_ne.symm).mpr owned₂

/-- Pulling a choice above a node copies the node and nothing else. When there is no room for the
copies, nothing that is reached has changed. -/
theorem pullTab_copies (sound : m.graph.Sound) (wf : (m.push [some root]).WellFormed)
    (hc : m.graph.content? root = some c) (skip : m.successorSkip root k = .ok p)
    (hd : m.graph.content? p = some ⟨.choice, symbol, id, .links [l, r]⟩) :
    (∃ m' a b, pullTab root k m = .ok () m' ∧ Copied m root c k symbol id l r m' a b) ∨
    ∃ live capacity m', pullTab root k m = .error (.fatal (.exhausted 2 live capacity)) m' ∧
      m.Untouched (m.graph.Reach (some root :: m.rootSet)) m' := by
  have here : m.graph.Reach (some root :: m.rootSet) root := .root List.mem_cons_self
  have wellFormed : ∀ i, m.graph.Reach (some root :: m.rootSet) i → m.WellFormedAt i :=
    fun i hi => ⟨(wf i hi).unfree, (wf i hi).stored⟩
  have requested := allocateBeside_requested wf sound 2
  unfold pullTab
  generalize run : allocateBeside root 2 m = result at requested
  cases requested with
  | refused spared => exact .inr ⟨_, _, _, bind_error run, spared.untouched⟩
  | granted spared grants =>
    next ids m₁ =>
    obtain ⟨a, b, rfl⟩ := List.length_eq_two.mp grants.serves.length
    obtain ⟨skip₁, reached⟩ := spared.successorSkip (wellFormed root here) here hc skip
    have hc₁ := (spared.content here).trans hc
    have hd₁ := (spared.content reached).trans hd
    obtain ⟨sym, found, length⟩ := (wellFormed root here).arity hc
    obtain ⟨sym', found', length'⟩ := (wellFormed p reached).arity hd
    rw [← spared.signature] at found found'
    obtain ⟨slots, node, -⟩ := TermGraph.node_content (t := m₁.toTermGraph) hd₁
    obtain ⟨slots', node', -⟩ := TermGraph.node_content (t := m₁.toTermGraph) hc₁
    have successors := TermGraph.successors_content (t := m₁.toTermGraph) hc₁ found length
    have left : m₁.successor p 0 = .ok (some l) :=
      TermGraph.successor_content hd₁ found' length' rfl
    have right : m₁.successor p 1 = .ok (some r) :=
      TermGraph.successor_content hd₁ found' length' rfl
    obtain ⟨g, written, copied⟩ := copies_written (l := l) (r := r) spared grants sound hc symbol id
    refine .inl ⟨_, a, b, ?_, copied⟩
    refine (bind_ok run).trans ?_
    dsimp only
    refine (bind_ok (look_ok skip₁)).trans ((bind_ok (look_ok node)).trans ?_)
    refine (bind_ok (look_ok left)).trans ((bind_ok (look_ok right)).trans ?_)
    exact (bind_ok (look_ok node')).trans ((bind_ok (look_ok successors)).trans written)

/-- A choice in the middle of a triple: each of the two new triples has a block of its own. -/
theorem pullTab_copies_triple : ∃ m m' a b, Operation.Run (.ofConfig (.fixedPool 8)) m ∧
    m.graph.Sound ∧ (m.push [some 3]).WellFormed ∧ m.successorSkip 3 1 = .ok 2 ∧
    pullTab 3 1 m = .ok () m' ∧
    Copied m 3 ⟨.constructor 0, Prelude.standard.triple, 0, .links [0, 2, 1]⟩ 1 Builtin.choice 0 0 1
      m' a b := by
  let ops : List Operation :=
    [.int 1, .int 2, .choice 0 1, .make Prelude.standard.triple [0, 2, 1]]
  have result : (Operation.script (.ofConfig (.fixedPool 8)) ops).map (fun m =>
      (m.roots.contains (some 3), m.graph.content? 3, m.graph.content? 2,
        (m.successorSkip 3 1).toOption, (returned? (pullTab 3 1 m)).isSome)) =
      some (true, some ⟨.constructor 0, Prelude.standard.triple, 0, .links [0, 2, 1]⟩,
        some ⟨.choice, Builtin.choice, 0, .links [0, 1]⟩, some 2, true) := by
    decide +kernel
  obtain ⟨m, ran, facts⟩ := Option.map_eq_some_iff.mp result
  simp only [Prod.mk.injEq] at facts
  obtain ⟨rooted, triple, choice, skip, done⟩ := facts
  have run : Operation.Run (.ofConfig (.fixedPool 8)) m := Operation.Run.start.script ran
  have new : Machine.new (.fixedPool 8) = .ok (.ofConfig (.fixedPool 8)) := rfl
  obtain ⟨ρ, inv⟩ := run.sound new
  have wf := inv.wellFormed.push (i := 3) (Operation.reachable_of_contains rooted)
  have found : m.successorSkip 3 1 = .ok 2 := by
    cases read : m.successorSkip 3 1 with
    | ok p => simpa [read, Except.toOption] using skip
    | error e => simp [read, Except.toOption] at skip
  rcases pullTab_copies inv.storage wf triple found choice with
    ⟨m', a, b, ran', copied⟩ | ⟨_, _, _, refused, -⟩
  · exact ⟨m, m', a, b, run, inv.storage, wf, found, ran', copied⟩
  · simp [refused, returned?] at done

end Reduction

end ChoiceGraph
