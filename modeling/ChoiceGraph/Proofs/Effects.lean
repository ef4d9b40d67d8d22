import ChoiceGraph.Proofs.Evolution

/-! # Outcomes of effects

An effect meets its conditions when it raises no fault, ends in one of them if it returns and in
the other if it stops early. It keeps a machine when the machine evolves within a scope either
way. A write gives one node a content, or stops before it has changed anything. -/
namespace ChoiceGraph

namespace Eff

variable {α β : Type} {e : Eff α} {f : α → Eff β} {m : Machine} {a : α}
  {Q Q' : α → Machine → Prop} {P : β → Machine → Prop} {R R' : Machine → Prop}

theorem bind_ok {m' : Machine} (run : e m = .ok a m') : (e >>= f) m = f a m' := by
  show EStateM.bind e f m = f a m'
  unfold EStateM.bind
  rw [run]

theorem bind_error {m' : Machine} {stop : Stop} (run : e m = .error stop m') :
    (e >>= f) m = .error stop m' := by
  show EStateM.bind e f m = .error stop m'
  unfold EStateM.bind
  rw [run]

theorem look_ok {r : Machine → Except Fault α} (run : r m = .ok a) : look r m = .ok a m := by
  simp only [look, run]

/-- What a run returns, and the machine it leaves. -/
def returned? : EStateM.Result Stop Machine α → Option (α × Machine)
  | .ok a m => some (a, m)
  | .error _ _ => none

/-- Why a run stops, and the machine it leaves. -/
def stopped? : EStateM.Result Stop Machine α → Option (Stop × Machine)
  | .ok _ _ => none
  | .error stop m => some (stop, m)

theorem of_returned {r : EStateM.Result Stop Machine α} (h : returned? r = some (a, m)) :
    r = .ok a m := by
  cases r with
  | ok => simpa [returned?] using h
  | error => simp [returned?] at h

theorem of_stopped {r : EStateM.Result Stop Machine α} {stop : Stop}
    (h : stopped? r = some (stop, m)) : r = .error stop m := by
  cases r with
  | ok => simp [stopped?] at h
  | error => simpa [stopped?] using h

def Meets (e : Eff α) (m : Machine) (Q : α → Machine → Prop) (R : Machine → Prop) : Prop :=
  match e m with
  | .ok a m' => Q a m'
  | .error (.fault _) _ => False
  | .error _ m' => R m'

theorem meets_of_ok {m' : Machine} (run : e m = .ok a m') (h : Q a m') : e.Meets m Q R := by
  unfold Meets
  rw [run]
  exact h

theorem meets_of_fatal {m' : Machine} {err : Error} (run : e m = .error (.fatal err) m')
    (h : R m') : e.Meets m Q R := by
  unfold Meets
  rw [run]
  exact h

theorem Meets.mono (h : e.Meets m Q R) (hQ : ∀ a m', Q a m' → Q' a m')
    (hR : ∀ m', R m' → R' m') : e.Meets m Q' R' := by
  unfold Meets at *
  split at h
  · exact hQ _ _ h
  · exact h.elim
  · exact hR _ h

theorem Meets.bind (h : e.Meets m Q R) (hf : ∀ a m', Q a m' → (f a).Meets m' P R) :
    (e >>= f).Meets m P R := by
  unfold Meets at h ⊢
  cases he : e m with
  | ok a m' =>
    rw [he] at h
    rw [bind_ok he]
    exact hf a m' h
  | error stop m' =>
    rw [he] at h
    rw [bind_error he]
    cases stop <;> exact h

theorem meets_pure (h : Q a m) : (pure a : Eff α).Meets m Q R := h

theorem meets_throw {stop : Stop} (hs : ∀ fault, stop ≠ .fault fault) (h : R m) :
    (throw stop : Eff α).Meets m Q R := by
  show match (EStateM.Result.error stop m : EStateM.Result Stop Machine α) with
    | .ok a m' => Q a m'
    | .error (.fault _) _ => False
    | .error _ m' => R m'
  cases stop with
  | fault f => exact absurd rfl (hs f)
  | preempted => exact h
  | suspended => exact h
  | fatal => exact h
  | refused => exact h
  | outOfFuel => exact h

theorem meets_look {r : Machine → Except Fault α} (run : r m = .ok a) (h : Q a m) :
    (look r).Meets m Q R :=
  meets_of_ok (look_ok run) h

theorem meets_look_bind {r : Machine → Except Fault α} (run : r m = .ok a)
    (h : (f a).Meets m P R) : (look r >>= f).Meets m P R :=
  (meets_look (Q := fun a' m' => a' = a ∧ m' = m) run ⟨rfl, rfl⟩).bind (by
    rintro _ _ ⟨rfl, rfl⟩
    exact h)

theorem meets_get {Q : Machine → Machine → Prop} (h : Q m m) : (get : Eff Machine).Meets m Q R := h

/-! ## Writes -/

/-- The effect gives node `i` the content `c`, or stops before it has changed anything. -/
def Writes (e : Eff Unit) (i : NodeId) (c : Content) (m : Machine) : Prop :=
  (∃ g', e m = .ok () (m.setGraph g') ∧ m.graph.Sets i c g') ∨ ∃ err, e m = .error (.fatal err) m

variable {i : NodeId} {c : Content} {n : Node} {cargo : Cargo}

theorem Writes.meets {e : Eff Unit} {Q : Unit → Machine → Prop} (h : e.Writes i c m)
    (hQ : ∀ g', m.graph.Sets i c g' → Q () (m.setGraph g')) (hR : R m) : e.Meets m Q R := by
  rcases h with ⟨g', run, sets⟩ | ⟨err, run⟩
  · exact meets_of_ok run (hQ g' sets)
  · exact meets_of_fatal run hR

/-- The node that was there may own a block, which is given back. -/
theorem put_spares (h : m.graph.Sound) (lt : i < m.graph.capacity)
    (block : ∀ b, n.slots = .pooled b → m.graph.InUse b ∧ ∀ j, ¬ m.graph.Owns j b) :
    ∃ g', put i n m = .ok () (m.setGraph g') ∧ m.graph.Spares i g' ∧ g'.nodes[i]? = some n ∧
      g'.cargo? n.slots = m.graph.cargo? n.slots := by
  have node : m.graph.node i = .ok m.graph.nodes[i] := Graph.node_of_lt lt
  have plain : m.graph.Spares i (m.graph.setNode i n) :=
    (Graph.Recycles.refl h fun _ => True).setNode_spares h lt (fun _ _ _ _ => trivial)
      (fun b hb => ⟨(block b hb).1, fun j _ => (block b hb).2 j⟩)
  have here : (m.graph.setNode i n).nodes[i]? = some n := Array.getElem?_setIfInBounds_self_of_lt lt
  unfold put
  rw [node]
  cases hs : m.graph.nodes[i].slots with
  | inline a b => exact ⟨_, by simp only [hs]; rfl, plain, here, rfl⟩
  | data l => exact ⟨_, by simp only [hs]; rfl, plain, here, rfl⟩
  | pooled b =>
    have owned : m.graph.Owns i b := ⟨_, Array.getElem?_eq_getElem lt, hs⟩
    obtain ⟨g', hr, r⟩ := Graph.releaseBlock_recycles h.pools (h.in_use i b owned)
    have lt' : i < g'.nodes.size := by rw [r.nodes]; exact lt
    have differs : ∀ b', n.slots = .pooled b' → b' ≠ b :=
      fun b' hb' e => (block b' hb').2 i (e ▸ owned)
    refine ⟨g'.setNode i n, by simp only [hs, hr]; rfl, r.setNode_spares h lt
      (fun j b' hj ob e => hj (h.alone j i b (e ▸ ob) owned)) (fun b' hb' => ?_),
      Array.getElem?_setIfInBounds_self_of_lt lt', ?_⟩
    · exact ⟨(r.kept b' (differs b' hb') (block b' hb').1).1, fun j _ => (block b' hb').2 j⟩
    · cases hn : n.slots with
      | inline a b => rcases a with _ | a <;> rcases b with _ | b <;> rfl
      | data l => rfl
      | pooled b' =>
        have kept := (r.kept b' (differs b' hn) (block b' hn).1).2
        have same : (g'.setNode i n).block? b' = g'.block? b' := rfl
        simp only [Graph.cargo?, Graph.blockLinks?, same, kept]

theorem put_sets (h : m.graph.Sound) (lt : i < m.graph.capacity)
    (block : ∀ b, n.slots = .pooled b → m.graph.InUse b ∧ ∀ j, ¬ m.graph.Owns j b)
    (stored : m.graph.cargo? n.slots = some cargo) :
    ∃ g', put i n m = .ok () (m.setGraph g') ∧
      m.graph.Sets i ⟨n.tag, n.symbol, n.aux, cargo⟩ g' := by
  obtain ⟨g', run, spares, here, same⟩ := put_spares h lt block
  exact ⟨g', run, spares.sets (Graph.content_eq_some.mpr ⟨n.slots, here, same.trans stored⟩)⟩

/-- A node without a block of its own. -/
theorem put_writes (h : m.graph.Sound) (lt : i < m.graph.capacity)
    (unpooled : ∀ b, n.slots ≠ .pooled b) (stored : m.graph.cargo? n.slots = some cargo) :
    (put i n).Writes i ⟨n.tag, n.symbol, n.aux, cargo⟩ m :=
  .inl (put_sets h lt (fun b hb => absurd hb (unpooled b)) stored)

/-- Storing links changes no node; a block that it takes is nobody's yet. -/
theorem storeLinks_recycles (h : m.graph.Sound) (links : List Link) :
    (∃ slots g', storeLinks links m = .ok slots (m.setGraph g') ∧
      m.graph.Recycles g' (fun _ => True) ∧
      (∀ b, slots = .pooled b → g'.InUse b ∧ ∀ j, ¬ g'.Owns j b) ∧ slots.literal? = none ∧
      ∀ ls, links = ls.map some → g'.cargo? slots = some (.links ls)) ∨
    ∃ err, storeLinks links m = .error (.fatal err) m := by
  rcases links with _ | ⟨a, _ | ⟨b, _ | ⟨c, links⟩⟩⟩
  · refine .inl ⟨_, m.graph, rfl, .refl h _, fun _ hb => (by cases hb), rfl, fun ls hl => ?_⟩
    rw [List.map_eq_nil_iff.mp hl.symm]
    rfl
  · refine .inl ⟨_, m.graph, rfl, .refl h _, fun _ hb => (by cases hb), rfl, fun ls hl => ?_⟩
    obtain ⟨x, rfl, rfl⟩ := List.map_eq_singleton_iff.mp hl.symm
    rfl
  · refine .inl ⟨_, m.graph, rfl, .refl h _, fun _ hb => (by cases hb), rfl, fun ls hl => ?_⟩
    rcases ls with _ | ⟨x, _ | ⟨y, _ | ⟨z, ls⟩⟩⟩ <;> cases hl
    rfl
  · have stored : ∀ {k : BlockId} {g g' : Graph},
        m.graph.allocBlock (a :: b :: c :: links).length = .ok (k, g) →
        g.writeBlock? k (a :: b :: c :: links) = some g' →
        storeLinks (a :: b :: c :: links) m = .ok (.pooled k) (m.setGraph g') := by
      intro k g g' allocated written
      simp only [storeLinks, List.length_cons] at *
      simp only [allocated, written]
    have bound : inlineBound ≤ (a :: b :: c :: links).length := by
      simp only [List.length_cons, inlineBound]
      omega
    by_cases lt : (a :: b :: c :: links).length < m.graph.pools.size
    · obtain ⟨k, g, hg, r, unused, used⟩ := Graph.allocBlock_recycles h.pools bound lt
      obtain ⟨g', hw, r', used', block⟩ :=
        Graph.writeBlock_recycles r.pools used (a :: b :: c :: links)
      have unowned : ∀ j, ¬ m.graph.Owns j ⟨(a :: b :: c :: links).length, k⟩ :=
        fun j oj => unused (h.in_use j _ oj)
      refine .inl ⟨.pooled ⟨(a :: b :: c :: links).length, k⟩, g', stored hg hw, ?_, ?_, rfl, ?_⟩
      · refine ⟨r'.nodes.trans r.nodes, r'.free.trans r.free, r'.grow.trans r.grow,
          r'.max.trans r.max, r'.size.trans r.size, r'.pools, fun b' _ hb' => ?_⟩
        have kept := r.kept b' trivial hb'
        have kept' := r'.kept b' (fun e => unused (e ▸ hb')) kept.1
        exact ⟨kept'.1, kept'.2.trans kept.2⟩
      · intro b' hb'
        cases hb'
        refine ⟨used', fun j oj => unowned j ?_⟩
        exact r.owns.mp (r'.owns.mp oj)
      · intro ls hl
        have length : (a :: b :: c :: links).length = ls.length := by rw [hl, List.length_map]
        rw [length] at bound block ⊢
        rw [hl] at block
        exact Graph.cargo_pooled.mpr ⟨ls, rfl, block, bound, rfl⟩
    · refine .inr ⟨.arityOutOfRange (a :: b :: c :: links).length m.graph.pools.size, ?_⟩
      have refused : m.graph.allocBlock (a :: b :: c :: links).length =
          .error (.arityOutOfRange (a :: b :: c :: links).length m.graph.pools.size) := by
        unfold Graph.allocBlock
        rw [if_neg (by omega), Array.getElem?_eq_none (Nat.le_of_not_lt lt)]
      simp only [storeLinks, List.length_cons] at *
      simp only [refused]

/-- A node that is rewritten to links, whatever they are. -/
theorem rewrite_spares (h : m.graph.Sound) (lt : i < m.graph.capacity) (tag : Tag)
    (symbol : SymbolId) (aux : Nat) (links : List Link) :
    (∃ slots g', rewrite i tag symbol aux links m = .ok () (m.setGraph g') ∧
      m.graph.Spares i g' ∧ g'.nodes[i]? = some ⟨tag, symbol, aux, slots⟩ ∧
      slots.literal? = none ∧ ∀ ls, links = ls.map some → g'.cargo? slots = some (.links ls)) ∨
    ∃ err, rewrite i tag symbol aux links m = .error (.fatal err) m := by
  unfold rewrite
  rcases storeLinks_recycles h links with ⟨slots, g, stored, r, block, linked, cargo⟩ | ⟨err, failed⟩
  · have sound := r.sound h
    have size : g.capacity = m.graph.capacity := congrArg Array.size r.nodes
    obtain ⟨g', put, s, here, same⟩ := put_spares (m := m.setGraph g)
      (n := { tag := tag, symbol := symbol, aux := aux, slots := slots }) sound
      (size.symm ▸ lt) block
    refine .inl ⟨slots, g', by rw [bind_ok stored]; exact put, ⟨s.sound, s.free.trans r.free,
      s.capacity.trans size, s.grow.trans r.grow, s.max.trans r.max, s.pools.trans r.size,
      fun j hj => (s.others j hj).trans ?_⟩, here, linked, fun ls hl => same.trans (cargo ls hl)⟩
    exact r.content h fun _ _ => trivial
  · exact .inr ⟨err, bind_error failed⟩

theorem rewrite_writes (h : m.graph.Sound) (lt : i < m.graph.capacity) (tag : Tag)
    (symbol : SymbolId) (aux : Nat) (ls : List NodeId) :
    (rewrite i tag symbol aux (ls.map some)).Writes i ⟨tag, symbol, aux, .links ls⟩ m := by
  rcases rewrite_spares h lt tag symbol aux (ls.map some) with
    ⟨slots, g', run, spares, here, -, cargo⟩ | ⟨err, failed⟩
  · exact .inl ⟨g', run, spares.sets (Graph.content_eq_some.mpr ⟨slots, here, cargo ls rfl⟩)⟩
  · exact .inr ⟨err, failed⟩

theorem rewriteFail_writes (h : m.graph.Sound) (lt : i < m.graph.capacity) :
    (rewriteFail i).Writes i .blank m :=
  put_writes (n := .placeholder) h lt (fun _ hb => by cases hb) rfl

theorem rewriteForward_writes (h : m.graph.Sound) (lt : i < m.graph.capacity) (j : NodeId) :
    (rewriteForward i (some j)).Writes i ⟨.forward, Builtin.forward, 0, .links [j]⟩ m :=
  put_writes h lt (fun _ hb => by cases hb) rfl

theorem rewriteTo_writes (h : m.graph.Sound) (lt : i < m.graph.capacity) {tag : Tag}
    {symbol : SymbolId} (ht : m.signature.tagFor symbol = .ok tag) (ls : List NodeId) :
    (rewriteTo i symbol (ls.map some)).Writes i ⟨tag, symbol, 0, .links ls⟩ m := by
  have run : rewriteTo i symbol (ls.map some) m = rewrite i tag symbol 0 (ls.map some) m :=
    bind_ok (look_ok ht)
  unfold Writes
  rw [run]
  exact rewrite_writes h lt tag symbol 0 ls

theorem rewriteData_writes (h : m.graph.Sound) (lt : i < m.graph.capacity) {tag : Tag}
    {symbol : SymbolId} (ht : m.signature.tagFor symbol = .ok tag) (aux : Nat) (l : Literal) :
    (rewriteData i symbol aux l).Writes i ⟨tag, symbol, aux, .literal l⟩ m := by
  have run : rewriteData i symbol aux l m =
      put i { tag := tag, symbol := symbol, aux := aux, slots := .data l } m :=
    bind_ok (look_ok ht)
  unfold Writes
  rw [run]
  exact put_writes (n := ⟨tag, symbol, aux, .data l⟩) h lt (fun _ hb => by cases hb) rfl

/-- What a free variable of a type, or of none, holds. -/
def freeContent (id : Nat) (type : Option TypeId) : Content :=
  ⟨.free, Builtin.free, id, type.elim (.links []) fun t => .literal (.type t)⟩

theorem rewriteFree_writes (h : m.graph.Sound) (lt : i < m.graph.capacity) (id : Nat)
    (type : Option TypeId) : (rewriteFree i id type).Writes i (freeContent id type) m := by
  cases type with
  | none => exact put_writes h lt (fun _ hb => by cases hb) rfl
  | some t => exact put_writes h lt (fun _ hb => by cases hb) rfl

theorem setSuccessor_linked (h : m.graph.Sound) (hc : m.graph.content? i = some c)
    (linked : c.Linked m.signature) {k : Nat} (lt : k < c.links.length) (j : NodeId) :
    (setSuccessor i k (some j)).Writes i (c.setLink k j) m := by
  obtain ⟨sym, found, length⟩ := linked.symbol
  obtain ⟨slots, node, cargo⟩ := Graph.node_of_content hc
  have in_range := Graph.content_lt hc
  have old : m.toTermGraph.successor i k = .ok (some c.links[k]) :=
    TermGraph.successor_content hc found length (List.getElem?_eq_getElem lt)
  unfold Writes setSuccessor
  rw [old, node]
  have inline : ∀ slots' : Slots, (∀ b, slots' ≠ .pooled b) →
      m.graph.cargo? slots' = some (.links (c.links.set k j)) →
      m.graph.Sets i (c.setLink k j)
        (m.graph.setNode i { tag := c.tag, symbol := c.symbol, aux := c.aux, slots := slots' }) :=
    fun slots' unpooled stored =>
      (Graph.Recycles.refl h fun _ => True).setNode
        (n := { tag := c.tag, symbol := c.symbol, aux := c.aux, slots := slots' }) h in_range
        (fun _ _ _ _ => trivial) (fun b hb => absurd hb (unpooled b)) stored
  cases slots with
  | data l =>
    simp only [Content.links, ← Option.some.inj cargo, Cargo.successors] at lt
    exact absurd lt (Nat.not_lt_zero k)
  | inline a b =>
    rcases a with _ | a <;> rcases b with _ | b <;> simp only [Graph.cargo?] at cargo
    · simp only [Content.links, ← Option.some.inj cargo, Cargo.successors] at lt
      exact absurd lt (Nat.not_lt_zero k)
    · cases cargo
    · have links : c.links = [a] := by
        simp only [Content.links, ← Option.some.inj cargo, Cargo.successors]
      rw [links] at lt
      have hk : k = 0 := by simpa using lt
      subst hk
      exact .inl ⟨_, rfl, inline _ (fun _ hb => by cases hb) (by rw [links]; rfl)⟩
    · have links : c.links = [a, b] := by
        simp only [Content.links, ← Option.some.inj cargo, Cargo.successors]
      rw [links] at lt
      rcases k with _ | _ | k
      · exact .inl ⟨_, rfl, inline _ (fun _ hb => by cases hb) (by rw [links]; rfl)⟩
      · exact .inl ⟨_, rfl, inline _ (fun _ hb => by cases hb) (by rw [links]; rfl)⟩
      · simp only [List.length_cons, List.length_nil] at lt
        omega
  | pooled b =>
    obtain ⟨ls, hl, block, bound, size⟩ := Graph.cargo_pooled.mp cargo
    have links : c.links = ls := by simp only [Content.links, hl, Cargo.successors]
    have owned : m.graph.Owns i b := by
      obtain ⟨s', hn, -⟩ := Graph.content_eq_some.mp hc
      have same : (⟨c.tag, c.symbol, c.aux, s'⟩ : Node) = ⟨c.tag, c.symbol, c.aux, .pooled b⟩ := by
        unfold Graph.node at node
        rw [hn] at node
        exact Except.ok.inj node
      exact ⟨_, hn, congrArg Node.slots same⟩
    obtain ⟨g', write, r, used, written⟩ := Graph.writeBlock_recycles h.pools (h.in_use i b owned)
      ((ls.map some).set k (some j))
    refine .inl ⟨g', by simp only [block, write], ⟨r.free ▸ h.free_nodup, ?_, r.pools, ?_, ?_⟩,
      r.free, congrArg Array.size r.nodes, r.grow, r.max, r.size, ?_, ?_⟩
    · intro p hp
      have size : g'.capacity = m.graph.capacity := congrArg Array.size r.nodes
      rw [size]
      exact h.free_lt p (r.free ▸ hp)
    · intro p b' ob
      have ob := r.owns.mp ob
      by_cases hb : b' = b
      · exact hb ▸ used
      · exact (r.kept b' hb (h.in_use p b' ob)).1
    · exact fun p q b' op oq => h.alone p q b' (r.owns.mp op) (r.owns.mp oq)
    · obtain ⟨s', hn, hs'⟩ := Graph.content_eq_some.mp hc
      have pooled : s' = .pooled b := by
        obtain ⟨n, hn', hs⟩ := owned
        cases hn.symm.trans hn'
        exact hs
      apply Graph.content_eq_some.mpr
      refine ⟨.pooled b, by rw [r.nodes, hn, pooled]; rfl, ?_⟩
      apply Graph.cargo_pooled.mpr
      refine ⟨c.links.set k j, rfl, ?_, ?_, ?_⟩
      · rw [written, links, List.map_set]
      · rw [List.length_set, links]
        exact bound
      · rw [List.length_set, links]
        exact size
    · intro p hp
      exact r.content h fun b' ob e => hp (h.alone p i b (e ▸ ob) owned)

theorem setSuccessor_writes (h : m.graph.Sound) (hs : m.signature.Sound)
    (hc : m.graph.content? i = some c) (fits : c.Fits m.signature) {k : Nat}
    (lt : k < c.links.length) (j : NodeId) :
    (setSuccessor i k (some j)).Writes i (c.setLink k j) m :=
  setSuccessor_linked h hc (fits.linked hs lt) lt j

end Eff

end ChoiceGraph
