import ChoiceGraph.Proofs.Invariant
import ChoiceGraph.TermGraph.Order

/-! # Reading a machine that is sound

On live nodes every access succeeds: links are there, indirections end, and the comparisons of
terms terminate. What an access finds is live again and ranks no higher. -/
namespace ChoiceGraph.Machine

variable {m : Machine} {held : List NodeId} {ρ : Rank} {i j : NodeId} {c d : Content} {k : Nat}

theorem Inv.symbolAt (h : m.Inv held ρ) (hi : m.Live held i) (hc : m.graph.content? i = some c) :
    ∃ sym, m.signature.symbol? c.symbol = some sym ∧ m.signature.tagFor c.symbol = .ok c.tag ∧
      c.links.length = sym.arity :=
  (h.fitsAt hi hc).symbol h.signature

theorem Inv.read_successors (h : m.Inv held ρ) (hi : m.Live held i)
    (hc : m.graph.content? i = some c) : m.successors i = .ok (c.links.map some) := by
  obtain ⟨sym, found, -, length⟩ := h.symbolAt hi hc
  exact TermGraph.successors_content hc found length

theorem Inv.read_successor (h : m.Inv held ρ) (hi : m.Live held i)
    (hc : m.graph.content? i = some c) (hk : c.links[k]? = some j) :
    m.successor i k = .ok (some j) := by
  obtain ⟨sym, found, -, length⟩ := h.symbolAt hi hc
  exact TermGraph.successor_content hc found length hk

theorem Inv.read_symbol (h : m.Inv held ρ) (hi : m.Live held i)
    (hc : m.graph.content? i = some c) :
    ∃ sym, m.signature.symbol? c.symbol = some sym ∧ m.symbol i = .ok sym := by
  obtain ⟨sym, found, -, -⟩ := h.symbolAt hi hc
  exact ⟨sym, found, TermGraph.symbol_content hc found⟩

/-! ## Indirections -/

theorem forward_none {n : Node} (ht : n.tag ≠ .forward) : n.forward? = none := by
  unfold Node.forward?
  split
  · next h _ => exact absurd h ht
  · rfl

theorem forward_some {g : Graph} {symbol aux : Nat} {s : Slots}
    (hs : g.cargo? s = some (.links [j])) :
    Node.forward? ⟨.forward, symbol, aux, s⟩ = some (some j) := by
  cases s with
  | inline a b =>
    rcases a with _ | a <;> rcases b with _ | b <;> simp only [Graph.cargo?] at hs <;> cases hs
    rfl
  | data l => cases hs
  | pooled b =>
    obtain ⟨ls, hl, -, bound, -⟩ := Graph.cargo_pooled.mp hs
    cases hl
    simp [inlineBound] at bound

private theorem skipWithin_leads (h : m.Inv held ρ) : ∀ (bound : Nat) (i : NodeId), m.Live held i →
    m.graph.depth ρ i < bound → ∃ j c, m.graph.skipWithin bound i = .ok j ∧ m.graph.Leads i j ∧
      m.graph.content? j = some c ∧ c.tag ≠ .forward := by
  intro bound
  induction bound with
  | zero => exact fun _ _ lt => absurd lt (Nat.not_lt_zero _)
  | succ bound ih =>
    intro i hi lt
    obtain ⟨c, hc, fits⟩ := h.fits i hi
    obtain ⟨s, node, cargo⟩ := Graph.node_of_content hc
    unfold Graph.skipWithin
    by_cases ht : c.tag = .forward
    · obtain ⟨aux, next, rfl⟩ := fits.of_forward ht
      have live := hi.link hc List.mem_cons_self
      have deeper := Graph.depth_lt (h.lt live) (h.ranked i next _ hi hc List.mem_cons_self)
      obtain ⟨j, cj, run, leads, hj⟩ := ih next live (Nat.lt_of_lt_of_le deeper (Nat.le_of_lt_succ lt))
      refine ⟨j, cj, ?_, .step hc leads, hj⟩
      simp only [node, bind, Except.bind, forward_some cargo]
      exact run
    · refine ⟨i, c, ?_, .refl i, hc, ht⟩
      simp only [node, bind, Except.bind]
      rw [forward_none ht]
      rfl

/-- Indirections lead to a node that is none. -/
theorem Inv.read_skip (h : m.Inv held ρ) (hi : m.Live held i) :
    ∃ j c, m.skip i = .ok j ∧ m.graph.Leads i j ∧ m.graph.content? j = some c ∧ c.tag ≠ .forward :=
  skipWithin_leads h _ i hi (Nat.lt_succ_of_le Graph.depth_le)

/-- Where indirections lead is determined. -/
theorem leads_unique {g : Graph} {j' : NodeId} (h : g.Leads i j) (h' : g.Leads i j')
    (hc : g.content? j = some c) (ht : c.tag ≠ .forward) (hd : g.content? j' = some d)
    (ht' : d.tag ≠ .forward) : j = j' := by
  induction h with
  | refl =>
    cases h' with
    | refl => rfl
    | step hs _ =>
      cases hc.symm.trans hs
      exact absurd rfl ht
  | step hs _ ih =>
    cases h' with
    | refl =>
      cases hd.symm.trans hs
      exact absurd rfl ht'
    | step hs' hl =>
      cases hs.symm.trans hs'
      exact ih hl hc

/-- No indirection on the way to a node that is none leads back to where it is met. -/
theorem leads_not_back {g : Graph} {i next : NodeId} {symbol aux : Nat} (h : g.Leads i j)
    (hc : g.content? j = some c) (ht : c.tag ≠ .forward)
    (first : g.content? i = some ⟨.forward, symbol, aux, .links [next]⟩) : ¬ g.Leads next i := by
  induction h generalizing next symbol aux with
  | refl =>
    cases hc.symm.trans first
    exact absurd rfl ht
  | @step i next' j _ _ here _ ih =>
    cases here.symm.trans first
    intro back
    cases back with
    | refl => exact ih hc here (.refl _)
    | step first' back => exact ih hc first' (back.trans (.step here (.refl _)))

/-- Indirections that lead to a node that is none are followed to it. -/
theorem skip_of_leads {g : Graph} (h : g.Leads i j) (hc : g.content? j = some c) (ht : c.tag ≠ .forward) :
    g.skip i = .ok j := by
  classical
  -- every node on the way has fewer nodes still to come
  let ahead (i : NodeId) : Finset NodeId := (Finset.range g.capacity).filter fun k => g.Leads i k
  suffices follow : ∀ bound, (ahead i).card ≤ bound → g.skipWithin (bound + 1) i = .ok j from
    follow _ ((Finset.card_filter_le _ _).trans (Finset.card_range _).le)
  induction h with
  | refl =>
    intro bound _
    obtain ⟨_, node, -⟩ := Graph.node_of_content hc
    unfold Graph.skipWithin
    simp only [node, bind, Except.bind]
    rw [forward_none ht]
    rfl
  | @step i next j _ _ first leads ih =>
    intro bound le
    obtain ⟨_, node, cargo⟩ := Graph.node_of_content first
    have fewer : ahead next ⊂ ahead i := by
      refine Finset.ssubset_iff_of_subset (fun k hk => ?_) |>.mpr ⟨i, ?_, fun hk => ?_⟩
      · obtain ⟨lt, leads'⟩ := Finset.mem_filter.mp hk
        exact Finset.mem_filter.mpr ⟨lt, .step first leads'⟩
      · exact Finset.mem_filter.mpr ⟨Finset.mem_range.mpr (Graph.content_lt first), .refl i⟩
      · exact leads_not_back (.step first leads) hc ht first (Finset.mem_filter.mp hk).2
    obtain ⟨bound, rfl⟩ := Nat.exists_eq_add_of_lt ((Finset.card_lt_card fewer).trans_le le)
    unfold Graph.skipWithin
    simp only [node, bind, Except.bind, forward_some cargo]
    exact ih hc _ (Nat.le_add_right _ _)

theorem Inv.skip_eq (h : m.Inv held ρ) (hi : m.Live held i) (leads : m.graph.Leads i j)
    (hc : m.graph.content? j = some c) (ht : c.tag ≠ .forward) : m.skip i = .ok j := by
  obtain ⟨j', c', run, leads', hc', ht'⟩ := h.read_skip hi
  rw [run, leads_unique leads' leads hc' ht' hc ht]

theorem Inv.read_successorSkip (h : m.Inv held ρ) (hi : m.Live held i)
    (hc : m.graph.content? i = some c) (hk : c.links[k]? = some j) :
    ∃ p d, m.successorSkip i k = .ok p ∧ m.graph.Leads j p ∧ m.graph.content? p = some d ∧
      d.tag ≠ .forward := by
  obtain ⟨p, d, run, found⟩ := h.read_skip (hi.link hc (List.mem_of_getElem? hk))
  refine ⟨p, d, ?_, found⟩
  simp only [TermGraph.successorSkip, h.read_successor hi hc hk, bind, Except.bind, Link.target]
  exact run

/-- The node below a link ranks below the node itself. -/
theorem Inv.below (h : m.Inv held ρ) (hi : m.Live held i) (hc : m.graph.content? i = some c)
    (hj : j ∈ c.links) {p : NodeId} (leads : m.graph.Leads j p) :
    m.Live held p ∧ ρ p < ρ i :=
  ⟨(hi.link hc hj).leads leads,
    (h.rank_leads (hi.link hc hj) leads).trans_lt (h.ranked i j c hi hc hj)⟩

theorem Inv.read_variableOf (h : m.Inv held ρ) (hi : m.Live held i) :
    ∃ id?, m.variableOf i = .ok id? := by
  obtain ⟨j, c, run, -, hc, -⟩ := h.read_skip hi
  obtain ⟨s, node, -⟩ := TermGraph.node_content (t := m.toTermGraph) hc
  exact ⟨_, by simp only [TermGraph.variableOf, run, node, bind, Except.bind]; rfl⟩

/-! ## Comparing terms -/

private theorem allEqual_ok {sub : Link → Link → Except Fault Bool} : ∀ xs ys : List Link,
    (∀ x ∈ xs, ∀ y ∈ ys, ∃ r, sub x y = .ok r) → ∃ r, TermGraph.allEqual sub xs ys = .ok r
  | [], _, _ => ⟨true, by unfold TermGraph.allEqual; rfl⟩
  | _ :: _, [], _ => ⟨true, rfl⟩
  | x :: xs, y :: ys, h => by
    obtain ⟨r, run⟩ := h x List.mem_cons_self y List.mem_cons_self
    obtain ⟨r', run'⟩ := allEqual_ok xs ys fun x hx y hy =>
      h x (List.mem_cons_of_mem _ hx) y (List.mem_cons_of_mem _ hy)
    simp only [TermGraph.allEqual, run, bind, Except.bind]
    cases r
    · exact ⟨_, rfl⟩
    · exact ⟨r', run'⟩

private theorem firstDifference_ok {sub : Link → Link → Except Fault Ordering} :
    ∀ xs ys : List Link, (∀ x ∈ xs, ∀ y ∈ ys, ∃ r, sub x y = .ok r) →
      ∃ r, TermGraph.firstDifference sub xs ys = .ok r
  | [], _, _ => ⟨.eq, by unfold TermGraph.firstDifference; rfl⟩
  | _ :: _, [], _ => ⟨.eq, rfl⟩
  | x :: xs, y :: ys, h => by
    obtain ⟨r, run⟩ := h x List.mem_cons_self y List.mem_cons_self
    obtain ⟨r', run'⟩ := firstDifference_ok xs ys fun x hx y hy =>
      h x (List.mem_cons_of_mem _ hx) y (List.mem_cons_of_mem _ hy)
    simp only [TermGraph.firstDifference, run, bind, Except.bind]
    cases r
    · exact ⟨_, rfl⟩
    · exact ⟨r', run'⟩
    · exact ⟨_, rfl⟩

private theorem comparesAux_ok (h : m.Inv held ρ) (hi : m.Live held i)
    (hc : m.graph.content? i = some c) : ∃ r, TermGraph.comparesAux c.tag = .ok r := by
  cases ht : c.tag with
  | unassigned below => exact absurd ht ((h.fitsAt hi hc).tag_ne_unassigned below)
  | _ => exact ⟨_, rfl⟩

private theorem equalsWithin_ok (h : m.Inv held ρ) : ∀ (bound : Nat) (i j : NodeId),
    m.Live held i → m.Live held j → m.graph.depth ρ i < bound →
    ∃ r, m.toTermGraph.equalsWithin bound (some i) (some j) = .ok r := by
  intro bound
  induction bound with
  | zero => exact fun _ _ _ _ lt => absurd lt (Nat.not_lt_zero _)
  | succ bound ih =>
    intro i j hi hj lt
    obtain ⟨c₀, hc₀, -⟩ := h.fits i hi
    obtain ⟨sym, -, symbol⟩ := h.read_symbol hi hc₀
    obtain ⟨p, c, skip, leads, hc, -⟩ := h.read_skip hi
    obtain ⟨q, d, skip', leads', hd, -⟩ := h.read_skip hj
    have hp := hi.leads leads
    have hq := hj.leads leads'
    obtain ⟨s, node, -⟩ := TermGraph.node_content (t := m.toTermGraph) hc
    obtain ⟨s', node', -⟩ := TermGraph.node_content (t := m.toTermGraph) hd
    obtain ⟨r, aux⟩ := comparesAux_ok h hp hc
    have children : ∀ x ∈ c.links.map some, ∀ y ∈ d.links.map some,
        ∃ r, m.toTermGraph.equalsWithin bound x y = .ok r := by
      intro x hx y hy
      obtain ⟨x, hxc, rfl⟩ := List.mem_map.mp hx
      obtain ⟨y, hyd, rfl⟩ := List.mem_map.mp hy
      have live := hp.link hc hxc
      have rank := (h.ranked p x c hp hc hxc).trans_le (h.rank_leads hi leads)
      have deeper := Graph.depth_lt (h.lt live) rank
      exact ih x y live (hq.link hd hyd) (Nat.lt_of_lt_of_le deeper (Nat.le_of_lt_succ lt))
    obtain ⟨r', all⟩ := allEqual_ok _ _ children
    unfold TermGraph.equalsWithin
    simp only [Link.target, symbol, skip, skip', bind, Except.bind]
    unfold TermGraph.equalsNodes
    simp only [node, node', aux, h.read_successors hp hc, h.read_successors hq hd, all, bind,
      Except.bind, pure, Except.pure]
    split
    · exact ⟨_, rfl⟩
    · split
      · exact ⟨_, rfl⟩
      · split
        · exact ⟨_, rfl⟩
        · split <;> exact ⟨_, rfl⟩

theorem Inv.read_equals (h : m.Inv held ρ) (hi : m.Live held i) (hj : m.Live held j) :
    ∃ r, m.equals i j = .ok r :=
  equalsWithin_ok h _ i j hi hj (Nat.lt_succ_of_le Graph.depth_le)

private theorem orderWithin_ok (h : m.Inv held ρ) : ∀ (bound : Nat) (i j : NodeId),
    m.Live held i → m.Live held j → m.graph.depth ρ i < bound →
    ∃ r, m.toTermGraph.orderWithin bound (some i) (some j) = .ok r := by
  intro bound
  induction bound with
  | zero => exact fun _ _ _ _ lt => absurd lt (Nat.not_lt_zero _)
  | succ bound ih =>
    intro i j hi hj lt
    obtain ⟨c₀, hc₀, -⟩ := h.fits i hi
    obtain ⟨sym, -, symbol⟩ := h.read_symbol hi hc₀
    obtain ⟨p, c, skip, leads, hc, -⟩ := h.read_skip hi
    obtain ⟨q, d, skip', leads', hd, -⟩ := h.read_skip hj
    have hp := hi.leads leads
    have hq := hj.leads leads'
    obtain ⟨s, node, -⟩ := TermGraph.node_content (t := m.toTermGraph) hc
    obtain ⟨s', node', -⟩ := TermGraph.node_content (t := m.toTermGraph) hd
    have children : ∀ x ∈ c.links.map some, ∀ y ∈ d.links.map some,
        ∃ r, m.toTermGraph.orderWithin bound x y = .ok r := by
      intro x hx y hy
      obtain ⟨x, hxc, rfl⟩ := List.mem_map.mp hx
      obtain ⟨y, hyd, rfl⟩ := List.mem_map.mp hy
      have live := hp.link hc hxc
      have rank := (h.ranked p x c hp hc hxc).trans_le (h.rank_leads hi leads)
      have deeper := Graph.depth_lt (h.lt live) rank
      exact ih x y live (hq.link hd hyd) (Nat.lt_of_lt_of_le deeper (Nat.le_of_lt_succ lt))
    obtain ⟨r', all⟩ := firstDifference_ok _ _ children
    unfold TermGraph.orderWithin
    simp only [Link.target, symbol, skip, skip', bind, Except.bind]
    unfold TermGraph.orderNodes
    simp only [node, node', h.read_successors hp hc, h.read_successors hq hd, all, bind,
      Except.bind, pure, Except.pure]
    split
    · exact ⟨_, rfl⟩
    · split
      · exact ⟨_, rfl⟩
      · split <;> exact ⟨_, rfl⟩

theorem Inv.read_order (h : m.Inv held ρ) (hi : m.Live held i) (hj : m.Live held j) :
    ∃ r, m.order i j = .ok r :=
  orderWithin_ok h _ i j hi hj (Nat.lt_succ_of_le Graph.depth_le)

/-! ## Partial applications -/

/-- What a partial application is found to consist of: a function or constructor that has, with
the arguments that are there and those that are missing, as many as its arity says. -/
structure Spine (m : Machine) (held : List NodeId) (ρ : Rank) (i : NodeId) (missing : Nat)
    (target : SymbolId) (args : List NodeId) : Prop where
  proper : 10 ≤ target
  symbol : ∃ sym, m.signature.symbol? target = some sym ∧ args.length + missing = sym.arity
  args : ∀ a ∈ args, m.Live held a ∧ ρ a < ρ i

private theorem spineWithin_ok (h : m.Inv held ρ) : ∀ (bound : Nat) (i : NodeId) (rest : List Link)
    (k : Nat), m.Live held i → m.graph.depth ρ i < bound → m.graph.Misses i k →
    m.toTermGraph.spineWithin bound i rest = .ok none ∨
      ∃ target args, m.toTermGraph.spineWithin bound i rest =
        .ok (some (target, args.map some ++ rest)) ∧ m.Spine held ρ i k target args := by
  intro bound
  induction bound with
  | zero => exact fun _ _ _ _ lt => absurd lt (Nat.not_lt_zero _)
  | succ bound ih =>
    intro i rest k hi lt hm
    obtain ⟨c, hc, fits⟩ := h.fits i hi
    obtain ⟨s, node, cargo⟩ := TermGraph.node_content (t := m.toTermGraph) hc
    unfold TermGraph.spineWithin
    simp only [node, bind, Except.bind]
    by_cases hp : c.symbol = Builtin.partialApplication
    · rw [if_pos hp]
      obtain ⟨missing, f, x, rfl⟩ := fits.of_partialApplication hp
      have hf : m.graph.Misses f (k + 1) := by
        cases hm.by hc with
        | failure tag => cases tag
        | argument hf => exact hf
      obtain ⟨p, d, skip, leads, hd, -⟩ := h.read_successorSkip (k := 0) hi hc rfl
      have below := h.below hi hc List.mem_cons_self leads
      have deeper := Graph.depth_lt (h.lt below.1) below.2
      rw [h.read_successor (k := 1) hi hc rfl]
      simp only [skip]
      rcases ih p (some x :: rest) (k + 1) below.1
        (Nat.lt_of_lt_of_le deeper (Nat.le_of_lt_succ lt)) (leads.misses hf) with run | found
      · exact .inl run
      · obtain ⟨target, args, run, spine⟩ := found
        obtain ⟨sym, hsym, count⟩ := spine.symbol
        refine .inr ⟨target, args ++ [x], ?_, spine.proper, ⟨sym, hsym, ?_⟩, fun a ha => ?_⟩
        · rw [run, List.map_append, List.append_assoc]
          rfl
        · rw [List.length_append, List.length_singleton]
          omega
        · rcases List.mem_append.mp ha with ha | ha
          · exact ⟨(spine.args a ha).1, (spine.args a ha).2.trans below.2⟩
          · rw [List.mem_singleton] at ha
            subst ha
            have mem : a ∈ [f, a] := List.mem_cons_of_mem _ List.mem_cons_self
            exact ⟨hi.link hc mem, h.ranked i a _ hi hc mem⟩
    · rw [if_neg hp]
      by_cases hf : c.symbol = Builtin.function
      · rw [if_pos hf]
        obtain ⟨f, sym, le, hs, rfl⟩ := fits.of_function hf
        have hk : sym.arity = k := by
          cases hm.by hc with
          | failure tag => cases tag
          | function => rfl
        have data : s = .data (.symbol f) := by
          cases s with
          | inline a b =>
            rcases a with _ | a <;> rcases b with _ | b <;> simp only [Graph.cargo?] at cargo <;>
              cases cargo
          | pooled b =>
            obtain ⟨ls, hl, -⟩ := Graph.cargo_pooled.mp cargo
            cases hl
          | data l =>
            cases cargo
            rfl
        refine .inr ⟨f, [], ?_, le, ⟨sym, hs, ?_⟩, fun a ha => absurd ha List.not_mem_nil⟩
        · simp only [data]
          rfl
        · rw [List.length_nil, Nat.zero_add, hk]
      · rw [if_neg hf]
        exact .inl rfl

theorem Inv.read_spine (h : m.Inv held ρ) (hi : m.Live held i) (hm : m.graph.Misses i k) :
    m.partialSpine i = .ok none ∨ ∃ target args,
      m.partialSpine i = .ok (some (target, args.map some)) ∧ m.Spine held ρ i k target args := by
  obtain ⟨j, c, skip, leads, -, -⟩ := h.read_skip hi
  have le := h.rank_leads hi leads
  simp only [TermGraph.partialSpine, skip, bind, Except.bind]
  rcases spineWithin_ok h m.depthBound j [] k (hi.leads leads)
    (Nat.lt_succ_of_le Graph.depth_le) (leads.misses hm) with run | ⟨target, args, run, spine⟩
  · exact .inl run
  · refine .inr ⟨target, args, by simpa using run, spine.proper, spine.symbol, fun a ha => ?_⟩
    exact ⟨(spine.args a ha).1, (spine.args a ha).2.trans_le le⟩

end ChoiceGraph.Machine

namespace ChoiceGraph.TermGraph

variable {t : TermGraph} {i j : NodeId} {c d : Content} {sym : Symbol} {k : Nat}

/-! ## Short ways -/

theorem skip_self (hc : t.graph.content? i = some c) (tag : c.tag ≠ .forward) :
    t.skip i = .ok i := by
  obtain ⟨s, node, -⟩ := Graph.node_of_content hc
  unfold skip Graph.skip Graph.skipWithin
  simp only [node, bind, Except.bind]
  rw [Machine.forward_none tag]
  rfl

theorem skip_forward {symbol aux : Nat}
    (h : t.graph.content? i = some ⟨.forward, symbol, aux, .links [j]⟩)
    (hc : t.graph.content? j = some c) (tag : c.tag ≠ .forward) : t.skip i = .ok j := by
  obtain ⟨s, node, cargo⟩ := Graph.node_of_content h
  obtain ⟨s', node', -⟩ := Graph.node_of_content hc
  have room : t.graph.capacity = (t.graph.capacity - 1) + 1 :=
    (Nat.sub_add_cancel (Nat.one_le_of_lt (Graph.content_lt hc))).symm
  unfold skip Graph.skip
  rw [room]
  unfold Graph.skipWithin
  simp only [node, bind, Except.bind, Machine.forward_some cargo]
  unfold Graph.skipWithin
  simp only [node', bind, Except.bind]
  rw [Machine.forward_none tag]
  rfl

theorem successorSkip_content (h : t.graph.content? i = some c)
    (hs : t.signature.symbol? c.symbol = some sym) (length : c.links.length = sym.arity)
    (hk : c.links[k]? = some j) (hd : t.graph.content? j = some d) (tag : d.tag ≠ .forward) :
    t.successorSkip i k = .ok j := by
  simp only [successorSkip, successor_content h hs length hk, bind, Except.bind, Link.target]
  exact skip_self hd tag

end ChoiceGraph.TermGraph
