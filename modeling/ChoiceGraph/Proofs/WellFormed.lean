import ChoiceGraph.Machine.Run
import ChoiceGraph.Proofs.Searches
import Mathlib.Logic.Relation

/-! # Well-formed machines

A machine is well formed when every node that the root set reaches is in use, carries a symbol of
the signature with the tag that belongs to it, and stores as many successors as the symbol has
arguments, in the place that their number demands. Whatever is done with a new machine through its
operations, and however each of them ends, the machine is well formed and has no circle. -/
namespace ChoiceGraph

/-- The nodes that may hold a literal, each a literal of its own kind. -/
inductive Literal.HeldBy : Literal → SymbolId → Prop where
  | int (v : Int64) : HeldBy (.int v) Builtin.int
  | float (v : Double) : HeldBy (.float v) Builtin.float
  | char (v : Char) : HeldBy (.char v) Builtin.char
  | function (f : SymbolId) : HeldBy (.symbol f) Builtin.function
  | variable_ (t : TypeId) : HeldBy (.type t) Builtin.free

namespace Graph

/-- Node `i` stores these successors: up to two in the node itself, none of them empty, and more
of them in a block of exactly their number, which is in use and is owned by no other node. -/
inductive Stores (g : Graph) (i : NodeId) (n : Node) : List NodeId → Prop where
  | none (h : n.slots = .inline none none) : Stores g i n []
  | one (a : NodeId) (h : n.slots = .inline (some a) none) : Stores g i n [a]
  | two (a b : NodeId) (h : n.slots = .inline (some a) (some b)) : Stores g i n [a, b]
  | block (b : BlockId) (ls : List NodeId) (h : n.slots = .pooled b)
    (bound : inlineBound ≤ ls.length) (length : b.arity = ls.length)
    (block : g.block? b = some (ls.map some)) (used : g.InUse b)
    (alone : ∀ j, g.Owns j b → j = i) : Stores g i n ls
  | literal (l : Literal) (h : n.slots = .data l) (held : l.HeldBy n.symbol) : Stores g i n []

end Graph

namespace Machine

variable {m m' : Machine} {ρ : Rank} {i : NodeId}

/-- A node that is stored as the signature demands. -/
structure WellFormedAt (m : Machine) (i : NodeId) : Prop where
  unfree : i ∉ m.graph.free
  stored : ∃ n sym ls, m.graph.nodes[i]? = some n ∧ m.signature.symbol? n.symbol = some sym ∧
    m.signature.tagFor n.symbol = .ok n.tag ∧ m.graph.Stores i n ls ∧ ls.length = sym.arity ∧
    ∀ j ∈ ls, j < m.graph.capacity

/-- The root set reaches the node. -/
def Reachable (m : Machine) (i : NodeId) : Prop := m.graph.Reach m.rootSet i

def WellFormed (m : Machine) : Prop := ∀ i, m.Reachable i → m.WellFormedAt i

/-- No node that the root set reaches lies below itself. -/
def Acyclic (m : Machine) : Prop := ∀ i, m.Reachable i → ¬ Relation.TransGen m.graph.Edge i i

theorem live_iff : m.Live [] i ↔ m.Reachable i := by
  unfold Live Reachable
  rw [List.map_nil, List.append_nil]

theorem Inv.wellFormed (h : m.Inv [] ρ) : m.WellFormed := by
  intro i hi
  have live := live_iff.mpr hi
  obtain ⟨c, hc, fits⟩ := h.fits i live
  obtain ⟨sym, found, tag, length⟩ := h.symbolAt live hc
  obtain ⟨s, node, cargo⟩ := Graph.content_eq_some.mp hc
  refine ⟨h.unfree i live, _, sym, c.links, node, found, tag, ?_, length,
    fun j hj => h.lt (live.link hc hj)⟩
  cases s with
  | inline a b =>
    rcases a with _ | a <;> rcases b with _ | b <;> simp only [Graph.cargo?] at cargo
    · rw [Content.links, ← Option.some.inj cargo]
      exact .none rfl
    · cases cargo
    · rw [Content.links, ← Option.some.inj cargo]
      exact .one a rfl
    · rw [Content.links, ← Option.some.inj cargo]
      exact .two a b rfl
  | pooled b =>
    obtain ⟨ls, hl, block, bound, arity⟩ := Graph.cargo_pooled.mp cargo
    have owned : m.graph.Owns i b := ⟨_, node, rfl⟩
    rw [Content.links, hl]
    exact .block b ls rfl bound arity.symm block (h.storage.in_use i b owned)
      fun j oj => h.storage.alone j i b oj owned
  | data l =>
    have held : l.HeldBy c.symbol := by
      have cargo : Cargo.literal l = c.cargo := Option.some.inj cargo
      cases fits <;> cases cargo
      · exact .variable_ _
      · exact .int _
      · exact .float _
      · exact .char _
      · exact .function _
    rw [Content.links, ← Option.some.inj cargo]
    exact .literal l rfl held

/-- Ranks fall along links, so that no path leads back. -/
theorem Inv.acyclic (h : m.Inv [] ρ) : m.Acyclic := by
  intro i hi circle
  have falls : ∀ j, Relation.TransGen m.graph.Edge i j → m.Live [] j ∧ ρ j < ρ i := by
    intro j path
    induction path with
    | single edge =>
      obtain ⟨c, hc, -⟩ := h.fits i (live_iff.mpr hi)
      have link := (Graph.edge_of_content hc).mp edge
      exact ⟨(live_iff.mpr hi).link hc link, h.ranked i _ c (live_iff.mpr hi) hc link⟩
    | tail _ edge ih =>
      obtain ⟨c, hc, -⟩ := h.fits _ ih.1
      have link := (Graph.edge_of_content hc).mp edge
      exact ⟨ih.1.link hc link, (h.ranked _ _ c ih.1 hc link).trans ih.2⟩
  exact lt_irrefl _ (falls i circle).2

/-! ## New machines, and machines with more symbols -/

/-- The slots of a new machine, spelled out. Evaluation would push them one by one onto an empty array, in
time that is quadratic in their number. -/
theorem ofConfig_eq (c : Config) : ofConfig c =
    { ofConfig c with
      graph := { Graph.ofConfig c with nodes := Array.replicate c.initialNodes .placeholder } } := by
  simp [ofConfig, Graph.ofConfig, Graph.extend]

theorem ofConfig_sound (config : Config) : (ofConfig config).Sound := by
  have bare : Graph.Sound
      { nodes := #[], free := [], pools := (Array.range config.arityBound).map .empty
        growNodes := config.growNodes, maxNodes := config.maxNodes } := by
    refine ⟨List.nodup_nil, fun i hi => absurd hi List.not_mem_nil, fun p hp => ?_, ?_, ?_⟩
    · obtain ⟨n, -, rfl⟩ := Array.mem_map.mp hp
      exact ⟨List.nodup_nil, fun k hk => absurd hk List.not_mem_nil⟩
    · rintro i b ⟨n, hn, -⟩
      cases hn
    · rintro i j b ⟨n, hn, -⟩
      cases hn
  have none : ∀ i, ¬ (ofConfig config).Live [] i := by
    intro i hi
    induction hi with
    | root hi => exact absurd hi List.not_mem_nil
    | step _ _ ih => exact ih
  exact ⟨0, (Graph.extend_grown bare).sound, Signature.standard_sound,
    fun c hc => absurd hc List.not_mem_nil, fun c hc => absurd hc List.not_mem_nil,
    fun i hi => (none i hi).elim, fun i hi => (none i hi).elim, fun i c hi => (none i hi).elim,
    fun i j c hi => (none i hi).elim⟩

theorem ofConfig_of_new {config : Config} (h : new config = .ok m) : m = ofConfig config := by
  unfold new at h
  split at h
  · cases h
  · exact (Except.ok.inj h).symm

theorem new_sound {config : Config} (h : new config = .ok m) : m.Sound :=
  ofConfig_of_new h ▸ ofConfig_sound config

theorem Inv.resign (h : m.Inv [] ρ) {s : Signature} (sound : s.Sound)
    (ext : m.signature.Extends s)
    (types : ∀ (t : TypeId) (d : DataType), m.signature.types[t]? = some d →
      s.types[t]? = some d) :
    Inv { m with signature := s } [] ρ where
  storage := h.storage
  signature := sound
  frames := h.frames
  counted := h.counted
  unfree := h.unfree
  fits i hi := (h.fits i hi).imp fun _ hc => ⟨hc.1, hc.2.mono ext types⟩
  spines := h.spines
  ranked := h.ranked

end Machine

end ChoiceGraph
