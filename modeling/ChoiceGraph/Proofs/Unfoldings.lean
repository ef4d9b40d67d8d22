import ChoiceGraph.Proofs.Comparisons
import ChoiceGraph.Proofs.Operations

/-! # Unfoldings

Sharing and indirections are a matter of storage. What is left of a node when they are gone is a finite
tree, as long as the graph has no circle: the unfolding of the node. Equality of terms decides whether
two unfoldings match. -/
namespace ChoiceGraph

namespace Content

variable {σ : Signature} {c d : Content}

/-- The content has the tag of its symbol, as many links as the symbol has arguments, and a literal only
where the symbol may have one. -/
structure Shaped (σ : Signature) (c : Content) : Prop where
  symbol : ∃ sym, σ.symbol? c.symbol = some sym ∧ σ.tagFor c.symbol = .ok c.tag ∧ c.links.length = sym.arity
  literal : ∀ v, c.cargo = .literal v → v.HeldBy c.symbol

theorem Fits.shaped (fits : c.Fits σ) (signature : σ.Sound) : c.Shaped σ :=
  ⟨fits.symbol signature, fun _ => fits.heldBy⟩

theorem Shaped.of_forward (h : c.Shaped σ) (signature : σ.Sound) (tag : c.tag = .forward) :
    ∃ j, c.cargo = .links [j] := by
  obtain ⟨sym, found, named, length⟩ := h.symbol
  rw [tag] at named
  have one : c.symbol = Builtin.forward := by
    by_cases builtin : c.symbol < 10
    · rw [Signature.tagFor_builtin signature builtin] at named
      generalize c.symbol = id at builtin named
      interval_cases id <;> first | rfl | exact nomatch named
    · rcases signature.proper _ sym (Nat.le_of_not_lt builtin) found with ⟨type, index, kind⟩ | call
      · cases (Signature.Symbol.IsConstructor.tagFor found kind).symm.trans named
      · cases (Signature.Symbol.IsCall.tagFor found call).symm.trans named
  rw [one, signature.prelude _ (by decide)] at found
  cases found
  obtain ⟨_, _, _, _ | v⟩ := c
  · obtain ⟨j, same⟩ := List.length_eq_one_iff.mp length
    exact ⟨j, congrArg _ same⟩
  · cases length

theorem Shaped.tag_ne_unassigned (h : c.Shaped σ) (signature : σ.Sound) (below : Nat) :
    c.tag ≠ .unassigned below := by
  intro tag
  obtain ⟨sym, found, named, -⟩ := h.symbol
  rw [tag] at named
  by_cases builtin : c.symbol < 10
  · rw [Signature.tagFor_builtin signature builtin] at named
    generalize c.symbol = id at builtin named
    interval_cases id <;> exact nomatch named
  · rcases signature.proper _ sym (Nat.le_of_not_lt builtin) found with ⟨type, index, kind⟩ | call
    · cases (Signature.Symbol.IsConstructor.tagFor found kind).symm.trans named
    · cases (Signature.Symbol.IsCall.tagFor found call).symm.trans named

/-- Contents with one symbol have as many links as each other. -/
theorem Shaped.same_length (h : c.Shaped σ) (h' : d.Shaped σ) (symbol : c.symbol = d.symbol) :
    c.links.length = d.links.length := by
  obtain ⟨sym, found, -, length⟩ := h.symbol
  obtain ⟨sym', found', -, length'⟩ := h'.symbol
  rw [symbol] at found
  cases found.symm.trans found'
  rw [length, length']

end Content

namespace TermGraph

variable {t : TermGraph} {S : NodeId → Prop} {ρ : Rank} {i j : NodeId} {c : Content}

/-! ## Graphs that can be read -/

/-- These nodes are stored as the signature demands, all that hangs from them is among them, and ranks
fall along links. -/
structure Readable (t : TermGraph) (S : NodeId → Prop) (ρ : Rank) : Prop where
  signature : t.signature.Sound
  shaped : ∀ i, S i → ∃ c, t.graph.content? i = some c ∧ c.Shaped t.signature
  closed : ∀ i c j, S i → t.graph.content? i = some c → j ∈ c.links → S j
  ranked : ∀ i c j, S i → t.graph.content? i = some c → j ∈ c.links → ρ j < ρ i

namespace Readable

theorem shapedAt (h : t.Readable S ρ) (hi : S i) (hc : t.graph.content? i = some c) :
    c.Shaped t.signature := by
  obtain ⟨d, hd, shaped⟩ := h.shaped i hi
  cases hc.symm.trans hd
  exact shaped

theorem lt (h : t.Readable S ρ) (hi : S i) : i < t.graph.capacity := by
  obtain ⟨c, hc, -⟩ := h.shaped i hi
  exact Graph.content_lt hc

theorem symbol (h : t.Readable S ρ) (hi : S i) : ∃ sym, t.symbol i = .ok sym := by
  obtain ⟨c, hc, shaped⟩ := h.shaped i hi
  obtain ⟨sym, found, -⟩ := shaped.symbol
  exact ⟨sym, symbol_content hc found⟩

theorem successors (h : t.Readable S ρ) (hi : S i) (hc : t.graph.content? i = some c) :
    t.successors i = .ok (c.links.map some) := by
  obtain ⟨sym, found, -, length⟩ := (h.shapedAt hi hc).symbol
  exact successors_content hc found length

theorem leads (h : t.Readable S ρ) (hi : S i) (leads : t.graph.Leads i j) : S j ∧ ρ j ≤ ρ i := by
  induction leads with
  | refl => exact ⟨hi, le_rfl⟩
  | step hc _ ih =>
    obtain ⟨hj, le⟩ := ih (h.closed _ _ _ hi hc List.mem_cons_self)
    exact ⟨hj, le.trans (h.ranked _ _ _ hi hc List.mem_cons_self).le⟩

/-- The depth of what hangs from a node is less than that of all nodes that lead there. -/
theorem depth_below (h : t.Readable S ρ) (hi : S i) (leads : t.graph.Leads i j)
    (hc : t.graph.content? j = some c) {l : NodeId} (hl : l ∈ c.links) :
    S l ∧ t.graph.depth ρ l < t.graph.depth ρ i := by
  obtain ⟨hj, le⟩ := h.leads hi leads
  have below := h.closed _ _ _ hj hc hl
  exact ⟨below, Graph.depth_lt (h.lt below) ((h.ranked _ _ _ hj hc hl).trans_le le)⟩

private theorem skipWithin_lands (h : t.Readable S ρ) : ∀ (bound : Nat) (i : NodeId), S i →
    t.graph.depth ρ i < bound → ∃ j c, t.graph.skipWithin bound i = .ok j ∧ t.graph.Leads i j ∧
      t.graph.content? j = some c ∧ c.tag ≠ .forward := by
  intro bound
  induction bound with
  | zero => exact fun _ _ lt => absurd lt (Nat.not_lt_zero _)
  | succ bound ih =>
    intro i hi lt
    obtain ⟨c, hc, shaped⟩ := h.shaped i hi
    obtain ⟨s, node, cargo⟩ := Graph.node_of_content hc
    unfold Graph.skipWithin
    by_cases tag : c.tag = .forward
    · obtain ⟨next, links⟩ := shaped.of_forward h.signature tag
      obtain ⟨_, symbol, aux, _⟩ := c
      cases tag
      cases links
      obtain ⟨hn, deeper⟩ := h.depth_below hi (.refl i) hc List.mem_cons_self
      obtain ⟨j, d, run, leads, hd⟩ := ih next hn (Nat.lt_of_lt_of_le deeper (Nat.le_of_lt_succ lt))
      refine ⟨j, d, ?_, .step hc leads, hd⟩
      simp only [node, bind, Except.bind, Machine.forward_some cargo]
      exact run
    · refine ⟨i, c, ?_, .refl i, hc, tag⟩
      simp only [node, bind, Except.bind]
      rw [Machine.forward_none tag]
      rfl

/-- Indirections lead to a node that is none. -/
theorem skip (h : t.Readable S ρ) (hi : S i) : ∃ j c, t.skip i = .ok j ∧ t.graph.Leads i j ∧
    t.graph.content? j = some c ∧ c.tag ≠ .forward :=
  skipWithin_lands h _ i hi (Nat.lt_succ_of_le Graph.depth_le)

end Readable

end TermGraph

namespace Machine

variable {m : Machine} {i : NodeId} {c : Content}

theorem WellFormedAt.shaped (h : m.WellFormedAt i) :
    ∃ c, m.graph.content? i = some c ∧ c.Shaped m.signature := by
  obtain ⟨n, sym, ls, node, found, tag, stored, length, -⟩ := h.stored
  have content : ∀ {cargo : Cargo}, m.graph.cargo? n.slots = some cargo →
      m.graph.content? i = some ⟨n.tag, n.symbol, n.aux, cargo⟩ := fun cargo =>
    Graph.content_eq_some.mpr ⟨n.slots, node, cargo⟩
  cases stored with
  | none same => exact ⟨_, content (congrArg _ same), ⟨sym, found, tag, length⟩, nofun⟩
  | one a same => exact ⟨_, content (congrArg _ same), ⟨sym, found, tag, length⟩, nofun⟩
  | two a b same => exact ⟨_, content (congrArg _ same), ⟨sym, found, tag, length⟩, nofun⟩
  | block b ls same bound arity block =>
    have cargo : m.graph.cargo? n.slots = some (.links ls) := by
      rw [same]
      exact Graph.cargo_pooled.mpr ⟨ls, rfl, block, bound, arity.symm⟩
    exact ⟨_, content cargo, ⟨sym, found, tag, length⟩, nofun⟩
  | literal v same held =>
    refine ⟨_, content (congrArg _ same), ⟨sym, found, tag, length⟩, fun w hw => ?_⟩
    cases hw
    exact held

/-- In a graph without circles the nodes are ranked by how many lie below them. -/
theorem Acyclic.ranked (h : m.Acyclic) (full : ∀ i, m.Reachable i → ∃ c, m.graph.content? i = some c) :
    ∃ ρ : Rank, ∀ i j, m.Reachable i → m.graph.Edge i j → ρ j < ρ i := by
  classical
  let below (i : NodeId) : Finset NodeId :=
    (Finset.range m.graph.capacity).filter fun j => Relation.TransGen m.graph.Edge i j
  refine ⟨fun i => (below i).card, fun i j hi edge => ?_⟩
  have hj : m.Reachable j := .step hi edge
  obtain ⟨c, hc⟩ := full j hj
  have fewer : below j ⊂ below i := by
    refine Finset.ssubset_iff_of_subset (fun k hk => ?_) |>.mpr ⟨j, ?_, ?_⟩
    · obtain ⟨lt, path⟩ := Finset.mem_filter.mp hk
      exact Finset.mem_filter.mpr ⟨lt, .head edge path⟩
    · exact Finset.mem_filter.mpr ⟨Finset.mem_range.mpr (Graph.content_lt hc), .single edge⟩
    · exact fun hk => h j hj (Finset.mem_filter.mp hk).2
  exact Nat.cast_lt.mpr (Finset.card_lt_card fewer)

/-- A machine that is well formed and has no circle can be read. -/
theorem WellFormed.readable (h : m.WellFormed) (acyclic : m.Acyclic) (signature : m.signature.Sound) :
    ∃ ρ, m.toTermGraph.Readable m.Reachable ρ := by
  have shaped := fun i hi => (h i hi).shaped
  obtain ⟨ρ, ranked⟩ := acyclic.ranked fun i hi => (shaped i hi).imp fun _ => And.left
  exact ⟨ρ, signature, shaped, fun i c j hi hc hj => .step hi ((Graph.edge_of_content hc).mpr hj),
    fun i c j hi hc hj => ranked i j hi ((Graph.edge_of_content hc).mpr hj)⟩

end Machine

/-! ## Trees -/

/-- What is left of a node without its links. -/
structure Head where
  tag : Tag
  symbol : SymbolId
  aux : Nat
  literal? : Option Literal
  deriving DecidableEq, Inhabited

/-- A term without sharing and without indirections. -/
inductive Unfolding where
  | node (head : Head) (below : List Unfolding)
  deriving Inhabited

def Content.head (c : Content) : Head := ⟨c.tag, c.symbol, c.aux, c.cargo.literal?⟩

namespace Graph

variable {g : Graph} {i j : NodeId} {s s' : Unfolding} {c : Content} {ss : List Unfolding}

/-- The node unfolds to this tree. -/
inductive UnfoldsTo (g : Graph) : NodeId → Unfolding → Prop where
  | node {i j : NodeId} {c : Content} {ss : List Unfolding} (leads : g.Leads i j)
    (hc : g.content? j = some c) (plain : c.tag ≠ .forward) (length : c.links.length = ss.length)
    (each : ∀ (k : Nat) (l : NodeId) (s : Unfolding), c.links[k]? = some l → ss[k]? = some s →
      UnfoldsTo g l s) : UnfoldsTo g i (.node c.head ss)

/-- The links of a node unfold from left to right. -/
theorem UnfoldsTo.of_below (leads : g.Leads i j) (hc : g.content? j = some c) (plain : c.tag ≠ .forward)
    (below : List.Forall₂ g.UnfoldsTo c.links ss) : g.UnfoldsTo i (.node c.head ss) :=
  .node leads hc plain below.length_eq fun k l s hl hs => by
    obtain ⟨lt, rfl⟩ := List.getElem?_eq_some_iff.mp hl
    obtain ⟨lt', rfl⟩ := List.getElem?_eq_some_iff.mp hs
    exact below.get lt lt'

/-- The unfolding is that of the node that indirections lead to. -/
theorem UnfoldsTo.landed (h : g.UnfoldsTo i s) (leads : g.Leads i j) (hc : g.content? j = some c)
    (plain : c.tag ≠ .forward) : ∃ ss, s = .node c.head ss ∧ List.Forall₂ g.UnfoldsTo c.links ss := by
  obtain ⟨leads', hd, plain', length, each⟩ := h
  obtain rfl := Machine.leads_unique leads leads' hc plain hd plain'
  cases hc.symm.trans hd
  exact ⟨_, rfl, List.forall₂_iff_get.mpr ⟨length, fun k lt lt' =>
    each k _ _ (List.getElem?_eq_getElem lt) (List.getElem?_eq_getElem lt')⟩⟩

/-- A node unfolds to one tree only. -/
theorem UnfoldsTo.unique (h : g.UnfoldsTo i s) (h' : g.UnfoldsTo i s') : s = s' := by
  induction h generalizing s' with
  | @node i j c ss leads hc plain length _ ih =>
    cases h' with
    | @node _ j' c' ss' leads' hc' plain' length' each' =>
      obtain rfl := Machine.leads_unique leads leads' hc plain hc' plain'
      cases hc.symm.trans hc'
      congr 1
      refine List.ext_getElem? fun k => ?_
      rcases Nat.lt_or_ge k c.links.length with lt | le
      · have hs := List.getElem?_eq_getElem (length ▸ lt)
        have hs' := List.getElem?_eq_getElem (length' ▸ lt)
        have hl := List.getElem?_eq_getElem lt
        rw [hs, hs', ih k _ _ hl hs (each' k _ _ hl hs')]
      · rw [List.getElem?_eq_none (length ▸ le), List.getElem?_eq_none (length' ▸ le)]

end Graph

namespace TermGraph

variable {t : TermGraph} {S : NodeId → Prop} {ρ : Rank} {i : NodeId}

/-- Each node unfolds. -/
theorem Readable.unfolds (h : t.Readable S ρ) (hi : S i) : ∃ s, t.graph.UnfoldsTo i s := by
  induction depth : t.graph.depth ρ i using Nat.strong_induction_on generalizing i with
  | _ n ih =>
    subst depth
    obtain ⟨j, c, -, leads, hc, plain⟩ := h.skip hi
    have each : ∀ l ∈ c.links, ∃ s, t.graph.UnfoldsTo l s := fun l hl =>
      have below := h.depth_below hi leads hc hl
      ih _ below.2 below.1 rfl
    obtain ⟨ss, below⟩ : ∃ ss, List.Forall₂ t.graph.UnfoldsTo c.links ss := by
      choose! unfold_ unfolds using each
      exact ⟨c.links.map unfold_, List.forall₂_map_right_iff.mpr (List.forall₂_same.mpr unfolds)⟩
    exact ⟨_, .of_below leads hc plain below⟩

end TermGraph

/-! ## Matching -/

theorem Double.same_comm (x y : Double) : x.same y = y.same x := by
  simp only [Double.same, Bool.beq_comm (a := x.bits), Bool.and_comm]

theorem Double.same_trans {x y z : Double} (first : x.same y = true) (second : y.same z = true) :
    x.same z = true := by
  simp only [Double.same, Bool.and_eq_true, Bool.or_eq_true, beq_iff_eq] at *
  obtain ⟨⟨hx, -⟩, alike⟩ := first
  obtain ⟨⟨-, hz⟩, alike'⟩ := second
  refine ⟨⟨hx, hz⟩, ?_⟩
  have zeros : ∀ v w : Double, v.bits = w.bits → v.isZero = true → w.isZero = true := by
    rintro ⟨v⟩ ⟨w⟩ (rfl : v = w)
    exact id
  rcases alike with bits | ⟨zx, zy⟩ <;> rcases alike' with bits' | ⟨zy', zz⟩
  · exact .inl (bits.trans bits')
  · exact .inr ⟨zeros y x bits.symm zy', zz⟩
  · exact .inr ⟨zx, zeros y z bits' zy⟩
  · exact .inr ⟨zx, zz⟩

namespace Literal

variable {u v w : Literal}

theorem same_comm (v w : Literal) : v.same w = w.same v := by
  cases v <;> cases w <;> first | exact Double.same_comm _ _ | exact Bool.beq_comm

theorem same_trans (first : u.same v = true) (second : v.same w = true) : u.same w = true := by
  cases u <;> cases v
  case float.float x y =>
    cases w with
    | float z => exact Double.same_trans first second
    | _ => cases beq_iff_eq.mp second
  all_goals cases beq_iff_eq.mp first <;> exact second

end Literal

namespace Head

variable {h h' h'' : Head}

/-- The same tag and symbol, the same identifier of a variable or a choice, and the same literal. -/
structure Matches (h h' : Head) : Prop where
  tag : h.tag = h'.tag
  symbol : h.symbol = h'.symbol
  identifier : h.tag = .free ∨ h.tag = .choice → h.aux = h'.aux
  literal : Option.Rel (fun v w => v.same w = true) h.literal? h'.literal?

theorem Matches.symm (m : h.Matches h') : h'.Matches h where
  tag := m.tag.symm
  symbol := m.symbol.symm
  identifier numbered := (m.identifier (m.tag ▸ numbered)).symm
  literal := by
    have literal := m.literal
    generalize h.literal? = v, h'.literal? = w at literal
    cases literal with
    | some same => exact .some ((Literal.same_comm _ _).trans same)
    | none => exact .none

theorem Matches.trans (m : h.Matches h') (m' : h'.Matches h'') : h.Matches h'' where
  tag := m.tag.trans m'.tag
  symbol := m.symbol.trans m'.symbol
  identifier numbered := (m.identifier numbered).trans (m'.identifier (m.tag ▸ numbered))
  literal := by
    have literal := m.literal
    have literal' := m'.literal
    generalize h.literal? = u, h'.literal? = v, h''.literal? = w at literal literal'
    cases literal with
    | some same =>
      cases literal' with
      | some same' => exact .some (Literal.same_trans same same')
    | none =>
      cases literal' with
      | none => exact .none

end Head

namespace Unfolding

variable {s s' s'' : Unfolding} {h h' : Head} {ss ss' : List Unfolding}

/-- The two trees match node for node. -/
inductive Matches : Unfolding → Unfolding → Prop where
  | node {h h' : Head} {ss ss' : List Unfolding} (head : h.Matches h') (length : ss.length = ss'.length)
    (each : ∀ (k : Nat) (s s' : Unfolding), ss[k]? = some s → ss'[k]? = some s' → Matches s s') :
    Matches (.node h ss) (.node h' ss')

theorem matches_node : (node h ss).Matches (node h' ss') ↔ h.Matches h' ∧ List.Forall₂ Matches ss ss' := by
  constructor
  · rintro ⟨head, length, each⟩
    exact ⟨head, List.forall₂_iff_get.mpr ⟨length, fun k lt lt' =>
      each k _ _ (List.getElem?_eq_getElem lt) (List.getElem?_eq_getElem lt')⟩⟩
  · rintro ⟨head, below⟩
    refine .node head below.length_eq fun k s s' hs hs' => ?_
    obtain ⟨lt, rfl⟩ := List.getElem?_eq_some_iff.mp hs
    obtain ⟨lt', rfl⟩ := List.getElem?_eq_some_iff.mp hs'
    exact below.get lt lt'

theorem Matches.symm (m : s.Matches s') : s'.Matches s := by
  induction m with
  | node head length _ ih => exact .node head.symm length.symm fun k s s' hs hs' => ih k s' s hs' hs

theorem Matches.trans (m : s.Matches s') (m' : s'.Matches s'') : s.Matches s'' := by
  induction m generalizing s'' with
  | node head length _ ih =>
    obtain ⟨head', length', each'⟩ := m'
    refine .node (head.trans head') (length.trans length') fun k s s'' hs hs'' => ?_
    have lt : k < _ := length ▸ (List.getElem?_eq_some_iff.mp hs).1
    have hs' := List.getElem?_eq_getElem lt
    exact ih k s _ hs hs' (each' k _ s'' hs' hs'')

end Unfolding

/-! ## Equality of terms -/

namespace TermGraph

variable {t : TermGraph} {S : NodeId → Prop} {ρ : Rank} {i j : NodeId} {c d : Content} {s s' : Unfolding}
  {sub : Link → Link → Except Fault Bool}

/-- Of two nodes of one kind, both hold a literal or none does. -/
def LiteralsAgree (t : TermGraph) (S : NodeId → Prop) : Prop :=
  ∀ i j c d, S i → S j → t.graph.content? i = some c → t.graph.content? j = some d → c.tag = d.tag →
    c.symbol = d.symbol → (c.tag = .free → c.aux = d.aux) →
    c.cargo.literal?.isSome = d.cargo.literal?.isSome

/-- None of these nodes holds a NaN. -/
def NaNFree (t : TermGraph) (S : NodeId → Prop) : Prop :=
  ∀ i c x, S i → t.graph.content? i = some c → c.cargo = .literal (.float x) → x.isNaN = false

/-- Nothing but two literals can be compared as such. -/
theorem match_slots {α : Sort*} {g : Graph} {u v : Slots} (hu : g.cargo? u = some c.cargo)
    (hv : g.cargo? v = some d.cargo) (f : Literal → Literal → α) (a : α) :
    (match u, v with
      | .data x, .data y => f x y
      | _, _ => a) =
      match c.cargo.literal?, d.cargo.literal? with
      | some x, some y => f x y
      | _, _ => a := by
  rw [← literal_cargo hu, ← literal_cargo hv]
  cases u <;> cases v <;> rfl

/-- Equality of two nodes, by what they hold. -/
theorem equalsNodes_content (apart : i ≠ j) (hc : t.graph.content? i = some c)
    (hd : t.graph.content? j = some d) (left : t.successors i = .ok (c.links.map some))
    (right : t.successors j = .ok (d.links.map some)) (assigned : ∀ below, c.tag ≠ .unassigned below) :
    t.equalsNodes sub i j =
      if c.tag = d.tag ∧ c.symbol = d.symbol ∧ (c.tag = .free ∨ c.tag = .choice → c.aux = d.aux) then
        match c.cargo.literal?, d.cargo.literal? with
        | some v, some w => .ok (v.same w)
        | _, _ => allEqual sub (c.links.map some) (d.links.map some)
      else .ok false := by
  obtain ⟨u, node, cargo⟩ := node_content hc
  obtain ⟨v, node', cargo'⟩ := node_content hd
  have numbered : comparesAux c.tag = .ok (decide (c.tag = .free ∨ c.tag = .choice)) := by
    generalize c.tag = tag at assigned
    cases tag with
    | unassigned below => exact absurd rfl (assigned below)
    | _ => rfl
  unfold equalsNodes
  simp only [if_neg apart, node, node', numbered, left, right, bind, Except.bind, pure, Except.pure]
  by_cases same : c.tag = d.tag ∧ c.symbol = d.symbol
  · obtain ⟨tag, symbol⟩ := same
    rw [if_neg (by rw [tag, symbol]; simp)]
    by_cases aux : c.tag = .free ∨ c.tag = .choice → c.aux = d.aux
    · rw [if_neg (by simpa using aux), if_pos ⟨tag, symbol, aux⟩]
      exact match_slots cargo cargo' _ _
    · rw [if_pos (by simpa using aux), if_neg fun all => aux all.2.2]
  · rw [if_pos (by rwa [← not_and_or]), if_neg fun all => same ⟨all.1, all.2.1⟩]

/-- Lists of nodes are equal in all places exactly if their unfoldings match in all places. -/
theorem allEqual_decides {ls ls' : List NodeId} {ss ss' : List Unfolding}
    (below : List.Forall₂ t.graph.UnfoldsTo ls ss) (below' : List.Forall₂ t.graph.UnfoldsTo ls' ss')
    (length : ls.length = ls'.length)
    (decides : ∀ l ∈ ls, ∀ l' ∈ ls', ∀ s s', t.graph.UnfoldsTo l s → t.graph.UnfoldsTo l' s' →
      ∃ e, sub (some l) (some l') = .ok e ∧ (e = true ↔ s.Matches s')) :
    ∃ e, allEqual sub (ls.map some) (ls'.map some) = .ok e ∧
      (e = true ↔ List.Forall₂ Unfolding.Matches ss ss') := by
  induction below generalizing ls' ss' with
  | nil =>
    cases below' with
    | nil => exact ⟨true, rfl, iff_of_true rfl .nil⟩
    | cons => cases length
  | @cons l s ls ss unfolds _ ih =>
    cases below' with
    | nil => cases length
    | @cons l' s' ls' ss' unfolds' below' =>
      obtain ⟨e, run, here⟩ := decides l List.mem_cons_self l' List.mem_cons_self s s' unfolds unfolds'
      obtain ⟨e', run', rest⟩ := ih below' (Nat.succ.inj length) fun k hk k' hk' =>
        decides k (List.mem_cons_of_mem _ hk) k' (List.mem_cons_of_mem _ hk')
      simp only [List.map_cons, allEqual, run, run', bind, Except.bind, List.forall₂_cons, ← here, ← rest]
      cases e with
      | true => exact ⟨e', rfl, by simp⟩
      | false => exact ⟨false, rfl, by simp⟩

variable (h : t.Readable S ρ)
include h

/-- Where there is no NaN, an unfolding matches itself. -/
theorem Readable.matches_self (numbers : t.NaNFree S) (unfolds : t.graph.UnfoldsTo i s) (hi : S i) :
    s.Matches s := by
  induction unfolds with
  | @node i j c ss leads hc plain length _ ih =>
    refine .node ⟨rfl, rfl, fun _ => rfl, ?_⟩ rfl fun k s s' hs hs' => ?_
    · show Option.Rel _ c.cargo.literal? c.cargo.literal?
      cases cargo : c.cargo with
      | links => exact .none
      | literal v =>
        exact .some (Literal.same_self fun x hx => numbers j c x (h.leads hi leads).1 hc (by rw [cargo, hx]))
    · cases hs.symm.trans hs'
      have lt : k < c.links.length := length ▸ (List.getElem?_eq_some_iff.mp hs).1
      have hl := List.getElem?_eq_getElem lt
      exact ih k _ s hl hs (h.depth_below hi leads hc (List.mem_of_getElem? hl)).1

/-- Equality decides whether unfoldings match. -/
theorem Readable.equals_decides (agree : t.LiteralsAgree S) (numbers : t.NaNFree S) :
    ∀ (bound : Nat) (i j : NodeId) (s s' : Unfolding), S i → S j → t.graph.depth ρ i < bound →
      t.graph.UnfoldsTo i s → t.graph.UnfoldsTo j s' →
      ∃ e, t.equalsWithin bound (some i) (some j) = .ok e ∧ (e = true ↔ s.Matches s') := by
  intro bound
  induction bound with
  | zero => exact fun _ _ _ _ _ _ lt => absurd lt (Nat.not_lt_zero _)
  | succ bound ih =>
    intro i j s s' hi hj lt unfolds unfolds'
    obtain ⟨sym, symbol⟩ := h.symbol hi
    obtain ⟨p, c, skip, leads, hc, plain⟩ := h.skip hi
    obtain ⟨q, d, skip', leads', hd, plain'⟩ := h.skip hj
    have reads : t.equalsWithin (bound + 1) (some i) (some j) = t.equalsNodes (t.equalsWithin bound) p q := by
      simp only [equalsWithin, Link.target, symbol, skip, skip', bind, Except.bind]
    have self := h.matches_self numbers unfolds hi
    obtain ⟨ss, rfl, below⟩ := unfolds.landed leads hc plain
    obtain ⟨ss', rfl, below'⟩ := unfolds'.landed leads' hd plain'
    by_cases apart : p = q
    · -- the two share the node, and what it unfolds to matches itself
      subst apart
      cases hc.symm.trans hd
      have same := (Graph.UnfoldsTo.of_below (.refl p) hc plain below).unique
        (.of_below (.refl p) hc plain below')
      refine ⟨true, reads.trans ?_, iff_of_true rfl (same ▸ self)⟩
      unfold equalsNodes
      rw [if_pos rfl]
      rfl
    obtain ⟨hp, -⟩ := h.leads hi leads
    obtain ⟨hq, -⟩ := h.leads hj leads'
    have shaped := h.shapedAt hp hc
    rw [reads, equalsNodes_content apart hc hd (h.successors hp hc) (h.successors hq hd)
      (shaped.tag_ne_unassigned h.signature), Unfolding.matches_node]
    split_ifs with same
    · obtain ⟨tag, named, identifier⟩ := same
      have either := agree p q c d hp hq hc hd tag named fun free => identifier (.inl free)
      have length := shaped.same_length (h.shapedAt hq hd) named
      obtain ⟨e, run, alike⟩ := allEqual_decides below below' length fun l hl l' hl' s s' unfolds unfolds' =>
        have lower := h.depth_below hi leads hc hl
        ih l l' s s' lower.1 (h.closed q d l' hq hd hl') (Nat.lt_of_lt_of_le lower.2 (Nat.le_of_lt_succ lt))
          unfolds unfolds'
      have head : Option.Rel (fun v w => v.same w = true) c.cargo.literal? d.cargo.literal? ↔
          c.head.Matches d.head := ⟨fun literal => ⟨tag, named, identifier, literal⟩, Head.Matches.literal⟩
      cases held : c.cargo with
      | links =>
        cases held' : d.cargo with
        | links =>
          rw [held, held'] at head
          exact ⟨e, run, alike.trans (iff_and_self.mpr fun _ => head.mp .none)⟩
        | literal w =>
          rw [held, held'] at either
          cases either
      | literal v =>
        cases held' : d.cargo with
        | links =>
          rw [held, held'] at either
          cases either
        | literal w =>
          rw [held, held'] at head
          have none : ss = [] ∧ ss' = [] := by
            rw [Content.links, held] at below
            rw [Content.links, held'] at below'
            exact ⟨List.forall₂_nil_left_iff.mp below, List.forall₂_nil_left_iff.mp below'⟩
          refine ⟨_, rfl, ?_⟩
          rw [none.1, none.2, ← head]
          refine ⟨fun alike => ⟨.some alike, .nil⟩, ?_⟩
          rintro ⟨⟨alike⟩, -⟩
          exact alike
    · exact ⟨false, rfl, iff_of_false Bool.false_ne_true fun both =>
        same ⟨both.1.tag, both.1.symbol, both.1.identifier⟩⟩

end TermGraph

namespace Machine

open Eff

variable {m m' : Machine} {i : NodeId} {c d : Content}

/-- A machine that can be compared throughout: its nodes are stored as the signature demands and have no
circle, nodes of one kind hold a literal or not, as one, and no literal is a NaN. -/
structure Comparable (m : Machine) : Prop where
  wellFormed : m.WellFormed
  acyclic : m.Acyclic
  signature : m.signature.Sound
  literals : m.LiteralsAgree m.Reachable
  numbers : m.NaNFree m.Reachable

/-- A variable or constructor that is rewritten, with links that it has had, leaves a sound machine. -/
theorem Sound.rewritten {e : Eff Unit} (sound : m.Sound) (reachable : m.Reachable i)
    (hc : m.graph.content? i = some c) (tag : c.tag = .free ∨ ∃ index, c.tag = .constructor index)
    (writes : m.graph.Sound → m.signature.Sound → i < m.graph.capacity → e.Writes i d m)
    (fits : d.Fits m.signature) (links : ∀ j ∈ d.links, j ∈ c.links)
    (spine : d.symbol ≠ Builtin.partialApplication) (run : e m = .ok () m') : m'.Sound := by
  obtain ⟨ρ, inv⟩ := sound
  have live := live_iff.mpr reachable
  rcases writes inv.storage inv.signature (inv.lt live) with ⟨g, run', sets⟩ | ⟨_, failed⟩
  · cases run.symm.trans run'
    refine ⟨ρ, inv.write sets live fits (fun j hj => ?_) (Content.spined_of_ne spine) fun k missing => ?_⟩
    · exact ⟨live.link hc (links j hj), inv.ranked i j c live hc (links j hj)⟩
    · cases missing.by hc with
      | failure failed => rcases tag with tag | ⟨_, tag⟩ <;> cases failed.symm.trans tag
      | _ => rcases tag with tag | ⟨_, tag⟩ <;> cases tag
  · cases run.symm.trans failed

/-! ## Machines that are known node by node -/

/-- The first nodes hold these contents, and nothing else is in reach. -/
def tabled (m : Machine) (table : List Content) : Bool :=
  decide ((List.range table.length).map m.graph.content? = table.map some) &&
    m.rootSet.all (fun l => l.all (· < table.length)) &&
    table.all fun c => c.links.all (· < table.length)

variable {table : List Content}

theorem content_of_tabled (h : m.tabled table = true) {k : Nat} (hk : table[k]? = some c) :
    m.graph.content? k = some c := by
  obtain ⟨h, -⟩ := Bool.and_eq_true_iff.mp h
  obtain ⟨h, -⟩ := Bool.and_eq_true_iff.mp h
  obtain ⟨lt, rfl⟩ := List.getElem?_eq_some_iff.mp hk
  have at_ := congrArg (·[k]?) (of_decide_eq_true h)
  simpa [lt] using at_

theorem within_of_tabled (h : m.tabled table = true) (reachable : m.Reachable i) : i < table.length := by
  have contents : ∀ k c, table[k]? = some c → m.graph.content? k = some c := fun _ _ => content_of_tabled h
  obtain ⟨h, closed⟩ := Bool.and_eq_true_iff.mp h
  obtain ⟨-, roots⟩ := Bool.and_eq_true_iff.mp h
  induction reachable with
  | root hi => exact of_decide_eq_true (List.all_eq_true.mp roots _ hi)
  | step _ edge ih =>
    have links := List.all_eq_true.mp closed _ (List.getElem_mem ih)
    have linked := (Graph.edge_of_content (contents _ _ (List.getElem?_eq_getElem ih))).mp edge
    exact of_decide_eq_true (List.all_eq_true.mp links _ linked)

theorem reachable_tabled (h : m.tabled table = true) (reachable : m.Reachable i) :
    ∃ c ∈ table, m.graph.content? i = some c := by
  have within := within_of_tabled h reachable
  exact ⟨_, List.getElem_mem within, content_of_tabled h (List.getElem?_eq_getElem within)⟩

/-- What is required of literals is required of the table. -/
theorem comparable_of_tabled (sound : m.Sound) (h : m.tabled table = true)
    (literals : ∀ c ∈ table, ∀ d ∈ table, c.tag = d.tag → c.symbol = d.symbol →
      (c.tag = .free → c.aux = d.aux) → c.cargo.literal?.isSome = d.cargo.literal?.isSome)
    (numbers : ∀ c ∈ table, ∀ v ∈ c.cargo.literal?, v.same v = true) : m.Comparable := by
  obtain ⟨ρ, inv⟩ := sound
  refine ⟨inv.wellFormed, inv.acyclic, inv.signature, fun i j c d hi hj hc hd => ?_, fun i c x hi hc held => ?_⟩
  · obtain ⟨c', mem, hc'⟩ := reachable_tabled h hi
    obtain ⟨d', mem', hd'⟩ := reachable_tabled h hj
    cases hc.symm.trans hc'
    cases hd.symm.trans hd'
    exact literals c mem d mem'
  · obtain ⟨c', mem, hc'⟩ := reachable_tabled h hi
    cases hc.symm.trans hc'
    have same : x.same x = true := numbers c mem (.float x) (by rw [held]; rfl)
    cases nan : x.isNaN with
    | false => rfl
    | true =>
      rw [Double.same, nan] at same
      cases same

/-- Three variables with one identifier: one without a type, and one of each of two types. -/
theorem variables_clash : ∃ m : Machine, m.Sound ∧ (∀ i < 3, m.Reachable i) ∧
    m.tabled [freeContent 0 none, freeContent 0 (some 0), freeContent 0 (some 1)] = true := by
  let start : Machine := .ofConfig (.fixedPool 64)
  let typed (i : NodeId) (t : TypeId) : Eff Unit := rewriteData i Builtin.free 0 (.type t)
  let stored (m : Machine) (i : NodeId) : Bool := m.roots.contains (some i) &&
    (m.graph.content? i).any (fun c => decide (c.tag = .free)) && decide (2 ≤ m.signature.types.size)
  let ends (m : Machine) : Bool := (List.range 3).all (fun i => m.roots.contains (some i)) &&
    m.tabled [freeContent 0 none, freeContent 0 (some 0), freeContent 0 (some 1)]
  let facts (m₀ : Machine) : Bool := stored m₀ 1 && (returned? (typed 1 0 m₀)).any fun r =>
    stored r.2 2 && (returned? (typed 2 1 r.2)).any fun r => ends r.2
  have result : (Operation.script start [.free none, .free (some 0), .free (some 1)]).map facts = some true := by
    decide +kernel
  obtain ⟨m₀, ran, facts⟩ := Option.map_eq_some_iff.mp result
  obtain ⟨stored₁, facts⟩ := Bool.and_eq_true_iff.mp facts
  obtain ⟨⟨_, m₁⟩, first, facts⟩ := (Option.any_eq_true _ _).mp facts
  obtain ⟨stored₂, facts⟩ := Bool.and_eq_true_iff.mp facts
  obtain ⟨⟨_, m₂⟩, second, facts⟩ := (Option.any_eq_true _ _).mp facts
  obtain ⟨rooted, tabled⟩ := Bool.and_eq_true_iff.mp facts
  have step : ∀ {m m' : Machine} {i : NodeId} {t : TypeId}, m.Sound → t < 2 → stored m i = true →
      typed i t m = .ok () m' → m'.Sound := by
    intro m m' i t sound lt stored run
    obtain ⟨stored, types⟩ := Bool.and_eq_true_iff.mp stored
    obtain ⟨rooted, variable_⟩ := Bool.and_eq_true_iff.mp stored
    obtain ⟨c, hc, tag⟩ := (Option.any_eq_true _ _).mp variable_
    have types := of_decide_eq_true types
    exact sound.rewritten (d := freeContent 0 (some t)) (Operation.reachable_of_contains rooted) hc
      (.inl (of_decide_eq_true tag))
      (fun storage signature within => rewriteData_writes storage within
        (Signature.tagFor_builtin signature (by decide)) 0 (.type t))
      (.typed 0 t _ (Array.getElem?_eq_getElem (Nat.lt_of_lt_of_le lt types)))
      (fun _ none => absurd none List.not_mem_nil)
      (show Builtin.free ≠ Builtin.partialApplication by decide) run
  have new : Machine.new (.fixedPool 64) = .ok start := rfl
  have run : Operation.Run start m₀ := Operation.Run.start.script ran
  refine ⟨m₂, step (step (run.sound new) (by decide) stored₁ (of_returned first)) (by decide) stored₂
    (of_returned second), fun i lt => ?_, tabled⟩
  exact Operation.reachable_of_contains (List.all_eq_true.mp rooted i (List.mem_range.mpr lt))

/-! ## Equality and unfoldings -/

/-- Equality of terms is equality of unfoldings. Every node has one unfolding, equality returns, and says
yes exactly if the unfoldings match; so it says the same of terms with these unfoldings in every machine,
however much they share and wherever indirections sit, and is an equivalence. -/
theorem equality_of_unfoldings (h : m.Comparable) :
    (∀ a, m.Reachable a → ∃! s, m.graph.UnfoldsTo a s) ∧
    (∀ a b s s', m.Reachable a → m.Reachable b → m.graph.UnfoldsTo a s → m.graph.UnfoldsTo b s' →
      (∃ e, m.equals a b = .ok e ∧ (e = true ↔ s.Matches s')) ∧
      ∀ m' a' b', Comparable m' → m'.Reachable a' → m'.Reachable b' → m'.graph.UnfoldsTo a' s →
        m'.graph.UnfoldsTo b' s' → m'.equals a' b' = m.equals a b) ∧
    Equivalence fun a b : { i // m.Reachable i } => m.equals a b = .ok true := by
  have decides : ∀ {m : Machine} {a b s s'}, m.Comparable → m.Reachable a → m.Reachable b →
      m.graph.UnfoldsTo a s → m.graph.UnfoldsTo b s' →
      ∃ e, m.equals a b = .ok e ∧ (e = true ↔ s.Matches s') := fun h ha hb unfolds unfolds' => by
    obtain ⟨ρ, readable⟩ := h.wellFormed.readable h.acyclic h.signature
    exact readable.equals_decides h.literals h.numbers _ _ _ _ _ ha hb
      (Nat.lt_succ_of_le Graph.depth_le) unfolds unfolds'
  obtain ⟨ρ, readable⟩ := h.wellFormed.readable h.acyclic h.signature
  have unfolding : ∀ a : { i // m.Reachable i }, ∃ s, m.graph.UnfoldsTo a s := fun a => readable.unfolds a.2
  have iff_matches : ∀ {a b : { i // m.Reachable i }} {s s'}, m.graph.UnfoldsTo a s →
      m.graph.UnfoldsTo b s' → (m.equals a b = .ok true ↔ s.Matches s') := by
    intro a b s s' unfolds unfolds'
    obtain ⟨e, run, same⟩ := decides h a.2 b.2 unfolds unfolds'
    rw [run, ← same, Except.ok.injEq]
  refine ⟨fun a ha => ?_, fun a b s s' ha hb unfolds unfolds' => ⟨decides h ha hb unfolds unfolds', ?_⟩,
    ⟨fun a => ?_, fun {a b} ab => ?_, fun {a b c} ab bc => ?_⟩⟩
  · obtain ⟨s, unfolds⟩ := unfolding ⟨a, ha⟩
    exact ⟨s, unfolds, fun _ unfolds' => unfolds'.unique unfolds⟩
  · intro m' a' b' h' ha' hb' unfolds₁ unfolds₁'
    obtain ⟨e, run, same⟩ := decides h ha hb unfolds unfolds'
    obtain ⟨e', run', same'⟩ := decides h' ha' hb' unfolds₁ unfolds₁'
    rw [run, run', Bool.eq_iff_iff.mpr (same'.trans same.symm)]
  · obtain ⟨s, unfolds⟩ := unfolding a
    exact (iff_matches unfolds unfolds).mpr (readable.matches_self h.numbers unfolds a.2)
  · obtain ⟨s, unfolds⟩ := unfolding a
    obtain ⟨s', unfolds'⟩ := unfolding b
    exact (iff_matches unfolds' unfolds).mpr ((iff_matches unfolds unfolds').mp ab).symm
  · obtain ⟨s, unfolds⟩ := unfolding a
    obtain ⟨s', unfolds'⟩ := unfolding b
    obtain ⟨s'', unfolds''⟩ := unfolding c
    exact (iff_matches unfolds unfolds'').mpr
      (((iff_matches unfolds unfolds').mp ab).trans ((iff_matches unfolds' unfolds'').mp bc))

/-- `(1, 1)` twice: both components of the one pair are one node; the other has a copy of it, behind an
indirection, for its second component. -/
theorem equality_of_unfoldings_shared : ∃ (m : Machine) (s s' : Unfolding),
    m.graph.content? 2 = some ⟨.forward, Builtin.forward, 0, .links [1]⟩ ∧
    m.graph.content? 3 = some ⟨.constructor 0, Prelude.standard.pair, 0, .links [0, 0]⟩ ∧
    m.graph.content? 4 = some ⟨.constructor 0, Prelude.standard.pair, 0, .links [0, 2]⟩ ∧
    m.graph.UnfoldsTo 3 s ∧ m.graph.UnfoldsTo 4 s' ∧ s.Matches s' ∧ m.equals 3 4 = .ok true := by
  let p := Prelude.standard
  let one : Content := ⟨.constructor 0, Builtin.int, 0, .literal (.int 1)⟩
  let table : List Content := [one, one, ⟨.forward, Builtin.forward, 0, .links [1]⟩,
    ⟨.constructor 0, p.pair, 0, .links [0, 0]⟩, ⟨.constructor 0, p.pair, 0, .links [0, 2]⟩]
  let start : Machine := .ofConfig (.fixedPool 64)
  have result : (Operation.script start [.int 1, .int 1, .forward 1, .make p.pair [0, 0],
      .make p.pair [0, 2]]).map (fun m => (m.tabled table, m.roots.contains (some 3),
        m.roots.contains (some 4), (m.equals 3 4).toOption)) = some (true, true, true, some true) := by
    decide +kernel
  obtain ⟨m, ran, facts⟩ := Option.map_eq_some_iff.mp result
  simp only [Prod.mk.injEq] at facts
  obtain ⟨tabled, left, right, equal⟩ := facts
  have new : Machine.new (.fixedPool 64) = .ok start := rfl
  have run : Operation.Run start m := Operation.Run.start.script ran
  have comparable : m.Comparable := comparable_of_tabled (run.sound new) tabled (by decide) (by decide)
  obtain ⟨unfolds, decides, -⟩ := equality_of_unfoldings comparable
  have left := Operation.reachable_of_contains left
  have right := Operation.reachable_of_contains right
  obtain ⟨s, unfolds₃, -⟩ := unfolds 3 left
  obtain ⟨s', unfolds₄, -⟩ := unfolds 4 right
  obtain ⟨⟨e, same, agree⟩, -⟩ := decides 3 4 s s' left right unfolds₃ unfolds₄
  rw [same] at equal
  cases equal
  exact ⟨m, s, s', content_of_tabled tabled rfl, content_of_tabled tabled rfl, content_of_tabled tabled rfl,
    unfolds₃, unfolds₄, agree.mp rfl, same⟩

/-- A variable with a type is equal to a variable without one that has its identifier. -/
theorem equality_misses_types : ¬ ∀ m : Machine, m.WellFormed → m.Acyclic → m.signature.Sound →
    m.NaNFree m.Reachable → ∀ a b s s', m.Reachable a → m.Reachable b → m.graph.UnfoldsTo a s →
      m.graph.UnfoldsTo b s' → ∃ e, m.equals a b = .ok e ∧ (e = true ↔ s.Matches s') := by
  intro decides
  obtain ⟨m, ⟨ρ, inv⟩, reachable, tabled⟩ := variables_clash
  have left : m.graph.content? 0 = some (freeContent 0 none) := content_of_tabled tabled rfl
  have right : m.graph.content? 1 = some (freeContent 0 (some 0)) := content_of_tabled tabled rfl
  have numbers : m.NaNFree m.Reachable := by
    intro i c x hi hc held
    obtain ⟨d, mem, hd⟩ := reachable_tabled tabled hi
    cases hc.symm.trans hd
    simp only [List.mem_cons, List.not_mem_nil, or_false] at mem
    rcases mem with rfl | rfl | rfl <;> cases held
  have unfolds : m.graph.UnfoldsTo 0 (.node (freeContent 0 none).head []) :=
    .of_below (.refl 0) left nofun .nil
  have unfolds' : m.graph.UnfoldsTo 1 (.node (freeContent 0 (some 0)).head []) :=
    .of_below (.refl 1) right nofun .nil
  obtain ⟨e, run, agree⟩ := decides m inv.wellFormed inv.acyclic inv.signature numbers 0 1 _ _
    (reachable 0 (by decide)) (reachable 1 (by decide)) unfolds unfolds'
  have heads := inv.within_eq m.graph.capacity (live_iff.mpr (reachable 0 (by decide)))
    (TermGraph.skip_self (t := m.toTermGraph) left nofun) (TermGraph.skip_self (t := m.toTermGraph) right nofun)
  have equal : m.equals 0 1 = .ok true := by
    refine heads.1.trans ?_
    rw [TermGraph.equalsNodes_content (by decide) left right
      (inv.read_successors (live_iff.mpr (reachable 0 (by decide))) left)
      (inv.read_successors (live_iff.mpr (reachable 1 (by decide))) right) nofun]
    rfl
  cases run.symm.trans equal
  nomatch (Unfolding.matches_node.mp (agree.mp rfl)).1.literal

end Machine

end ChoiceGraph
