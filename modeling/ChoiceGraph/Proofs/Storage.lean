import ChoiceGraph.Graph.Basic
import Mathlib.Tactic.Common

/-! # Storage of contents

The content of a node does not say where its links are stored: in the node, or in a block of a
pool. A graph is sound when its pools keep the blocks of different nodes apart. Then a change of
one node is a change of one content, whichever blocks it releases or takes on the way. -/
namespace ChoiceGraph

inductive Cargo
  | links (successors : List NodeId)
  | literal (value : Literal)
  deriving DecidableEq

def Cargo.successors : Cargo → List NodeId
  | links successors => successors
  | literal _ => []

def Cargo.literal? : Cargo → Option Literal
  | links _ => none
  | literal value => some value

structure Content where
  tag : Tag
  symbol : SymbolId
  aux : Nat
  cargo : Cargo
  deriving DecidableEq

namespace Content

def links (c : Content) : List NodeId := c.cargo.successors

/-- A failure, and what a slot holds that was just handed out. -/
def blank : Content := ⟨.failure, 0, 0, .links []⟩

end Content

namespace Graph

variable {g g' : Graph} {i j : NodeId} {b : BlockId} {c : Content}

/-- The links in a block of the right length, none of them empty. -/
def blockLinks? (g : Graph) (b : BlockId) : Option (List NodeId) :=
  match g.block? b with
  | none => none
  | some ls =>
    if inlineBound ≤ b.arity ∧ ls = (ls.filterMap id).map some ∧ ls.length = b.arity then
      some (ls.filterMap id)
    else none

/-- What slots hold. One or two links stand in front in the node, more of them in a block of
their number. -/
def cargo? (g : Graph) : Slots → Option Cargo
  | .inline none none => some (.links [])
  | .inline (some a) none => some (.links [a])
  | .inline (some a) (some b) => some (.links [a, b])
  | .inline none (some _) => none
  | .pooled b => (g.blockLinks? b).map .links
  | .data l => some (.literal l)

def content? (g : Graph) (i : NodeId) : Option Content :=
  match g.nodes[i]? with
  | none => none
  | some n => (g.cargo? n.slots).map fun cargo => ⟨n.tag, n.symbol, n.aux, cargo⟩

def Owns (g : Graph) (i : NodeId) (b : BlockId) : Prop :=
  ∃ n, g.nodes[i]? = some n ∧ n.slots = .pooled b

/-- The block is handed out. -/
def InUse (g : Graph) (b : BlockId) : Prop :=
  ∃ p, g.pools[b.arity]? = some p ∧ b.index < p.blocks.size ∧ b.index ∉ p.free

end Graph

structure BlockPool.Sound (p : BlockPool) : Prop where
  free_nodup : p.free.Nodup
  free_lt : ∀ k ∈ p.free, k < p.blocks.size

structure Graph.Sound (g : Graph) : Prop where
  free_nodup : g.free.Nodup
  free_lt : ∀ i ∈ g.free, i < g.capacity
  pools : ∀ p ∈ g.pools, p.Sound
  in_use : ∀ i b, g.Owns i b → g.InUse b
  alone : ∀ i j b, g.Owns i b → g.Owns j b → i = j

/-! ## Reading a content -/

namespace Graph

variable {g g' : Graph} {i j : NodeId} {b : BlockId} {c : Content}

theorem blockLinks_eq_some {ls : List NodeId} : g.blockLinks? b = some ls ↔
    g.block? b = some (ls.map some) ∧ inlineBound ≤ ls.length ∧ ls.length = b.arity := by
  unfold blockLinks?
  constructor
  · intro h
    split at h
    · cases h
    · next block hb =>
      split at h
      · next hc =>
        obtain ⟨bound, full, length⟩ := hc
        cases h
        have same : block.length = (block.filterMap id).length := by
          conv_lhs => rw [full]
          rw [List.length_map]
        exact ⟨hb.trans (congrArg some full), by omega, by omega⟩
      · cases h
  · rintro ⟨hb, bound, length⟩
    have full : (ls.map some).filterMap id = ls := by simp
    simp only [hb, full, List.length_map]
    rw [if_pos ⟨by omega, trivial, length⟩]

theorem cargo_pooled {cargo : Cargo} : g.cargo? (.pooled b) = some cargo ↔
    ∃ ls, cargo = .links ls ∧ g.block? b = some (ls.map some) ∧ inlineBound ≤ ls.length ∧
      ls.length = b.arity := by
  change (g.blockLinks? b).map .links = some cargo ↔ _
  constructor
  · intro h
    obtain ⟨ls, hl, rfl⟩ := Option.map_eq_some_iff.mp h
    exact ⟨ls, rfl, blockLinks_eq_some.mp hl⟩
  · rintro ⟨ls, rfl, hl⟩
    rw [blockLinks_eq_some.mpr hl]
    rfl

theorem content_eq_some : g.content? i = some c ↔
    ∃ s, g.nodes[i]? = some ⟨c.tag, c.symbol, c.aux, s⟩ ∧ g.cargo? s = some c.cargo := by
  unfold content?
  constructor
  · intro h
    split at h
    · cases h
    · next n hn =>
      obtain ⟨cargo, hc, rfl⟩ := Option.map_eq_some_iff.mp h
      exact ⟨n.slots, hn, hc⟩
  · rintro ⟨s, hn, hc⟩
    rw [hn]
    simp only [hc, Option.map_some]

theorem content_lt (h : g.content? i = some c) : i < g.capacity := by
  obtain ⟨s, hn, _⟩ := content_eq_some.mp h
  exact (Array.getElem?_eq_some_iff.mp hn).1

theorem node_of_content (h : g.content? i = some c) :
    ∃ s, g.node i = .ok ⟨c.tag, c.symbol, c.aux, s⟩ ∧ g.cargo? s = some c.cargo := by
  obtain ⟨s, hn, hc⟩ := content_eq_some.mp h
  refine ⟨s, ?_, hc⟩
  unfold node
  rw [hn]

theorem node_of_lt (h : i < g.capacity) : g.node i = .ok g.nodes[i] := by
  unfold node
  rw [Array.getElem?_eq_getElem h]

theorem storedLinks_of_cargo {n : Node} {cargo : Cargo} (h : g.cargo? n.slots = some cargo) :
    g.storedLinks n = .ok (cargo.successors.map some) := by
  unfold storedLinks
  cases hs : n.slots with
  | inline a b =>
    rw [hs] at h
    rcases a with _ | a <;> rcases b with _ | b <;> cases h <;> rfl
  | pooled b =>
    rw [hs] at h
    obtain ⟨ls, rfl, hb, -⟩ := cargo_pooled.mp h
    simp only [block, hb, Cargo.successors]
  | data l =>
    rw [hs] at h
    cases h
    rfl

theorem storedSuccessors_of_content (h : g.content? i = some c) :
    g.storedSuccessors i = .ok (c.links.map some) := by
  obtain ⟨s, hn, hc⟩ := node_of_content h
  unfold storedSuccessors
  rw [hn]
  exact storedLinks_of_cargo hc

/-- A content depends on the node and on the block that the node owns. -/
theorem content_congr (node : g'.nodes[i]? = g.nodes[i]?)
    (block : ∀ b, g.Owns i b → g'.block? b = g.block? b) : g'.content? i = g.content? i := by
  unfold content?
  rw [node]
  cases hn : g.nodes[i]? with
  | none => rfl
  | some n =>
    have same : g'.cargo? n.slots = g.cargo? n.slots := by
      cases hs : n.slots with
      | inline a b => rcases a with _ | a <;> rcases b with _ | b <;> rfl
      | data l => rfl
      | pooled b => simp only [cargo?, blockLinks?, block b ⟨n, hn, hs⟩]
    simp only [same]

end Graph

/-! ## Blocks -/

namespace BlockPool

variable {p : BlockPool} {k n : Nat}

theorem Sound.alloc (h : p.Sound) : p.alloc.2.Sound := by
  unfold BlockPool.alloc
  cases hf : p.free with
  | nil => exact ⟨List.nodup_nil, fun k hk => absurd hk List.not_mem_nil⟩
  | cons block rest =>
    have nodup := hf ▸ h.free_nodup
    exact ⟨(List.nodup_cons.mp nodup).2, fun k hk => h.free_lt k (hf ▸ List.mem_cons_of_mem _ hk)⟩

theorem alloc_fresh (p : BlockPool) : p.alloc.1 ∈ p.free ∨ p.alloc.1 = p.blocks.size := by
  unfold BlockPool.alloc
  cases hf : p.free with
  | nil => exact .inr rfl
  | cons block rest => exact .inl List.mem_cons_self

theorem alloc_inUse (h : p.Sound) :
    p.alloc.1 < p.alloc.2.blocks.size ∧ p.alloc.1 ∉ p.alloc.2.free := by
  unfold BlockPool.alloc
  cases hf : p.free with
  | nil => exact ⟨by simp, by simp⟩
  | cons block rest =>
    have nodup := hf ▸ h.free_nodup
    exact ⟨h.free_lt block (hf ▸ List.mem_cons_self), (List.nodup_cons.mp nodup).1⟩

theorem alloc_keeps (lt : k < p.blocks.size) (used : k ∉ p.free) :
    k < p.alloc.2.blocks.size ∧ k ∉ p.alloc.2.free ∧ p.alloc.2.blocks[k]? = p.blocks[k]? := by
  unfold BlockPool.alloc
  cases hf : p.free with
  | nil =>
    refine ⟨by simp only [Array.size_push]; omega, List.not_mem_nil, ?_⟩
    rw [Array.getElem?_push_lt lt, Array.getElem?_eq_getElem lt]
  | cons block rest =>
    exact ⟨lt, fun hk => used (hf ▸ List.mem_cons_of_mem _ hk), rfl⟩

theorem Sound.release {p' : BlockPool} (h : p.Sound) (used : n ∉ p.free)
    (hr : p.release? n = some p') : p'.Sound := by
  unfold BlockPool.release? at hr
  split at hr
  · next lt =>
    cases hr
    refine ⟨List.nodup_cons.mpr ⟨used, h.free_nodup⟩, fun k hk => ?_⟩
    rcases List.mem_cons.mp hk with rfl | hk
    · simpa using lt
    · simpa using h.free_lt k hk
  · cases hr

theorem release_keeps {p' : BlockPool} (hr : p.release? n = some p') (hne : k ≠ n)
    (lt : k < p.blocks.size) (used : k ∉ p.free) :
    k < p'.blocks.size ∧ k ∉ p'.free ∧ p'.blocks[k]? = p.blocks[k]? := by
  unfold BlockPool.release? at hr
  split at hr
  · cases hr
    refine ⟨by simpa using lt, fun hk => ?_, Array.getElem?_setIfInBounds_ne (Ne.symm hne)⟩
    rcases List.mem_cons.mp hk with rfl | hk
    · exact hne rfl
    · exact used hk
  · cases hr

theorem write_eq {links : List Link} (lt : n < p.blocks.size) :
    p.write? n links = some { p with blocks := p.blocks.setIfInBounds n links } := if_pos lt

theorem Sound.write (h : p.Sound) (links : List Link) :
    ({ p with blocks := p.blocks.setIfInBounds n links } : BlockPool).Sound :=
  ⟨h.free_nodup, fun k hk => by simpa using h.free_lt k hk⟩

end BlockPool

namespace Graph

variable {g g' : Graph} {i j : NodeId} {b : BlockId} {c : Content}

/-- The graphs differ in their pools only, and there not in the blocks that are kept. -/
structure Recycles (g g' : Graph) (kept : BlockId → Prop) : Prop where
  nodes : g'.nodes = g.nodes
  free : g'.free = g.free
  grow : g'.growNodes = g.growNodes
  max : g'.maxNodes = g.maxNodes
  size : g'.pools.size = g.pools.size
  pools : ∀ p ∈ g'.pools, p.Sound
  kept : ∀ b, kept b → g.InUse b → g'.InUse b ∧ g'.block? b = g.block? b

theorem Recycles.refl (h : g.Sound) (kept : BlockId → Prop) : g.Recycles g kept :=
  ⟨rfl, rfl, rfl, rfl, rfl, h.pools, fun _ _ used => ⟨used, rfl⟩⟩

theorem modifyPool_get {a : Nat} {p p' : BlockPool} (hp : g.pools[a]? = some p) :
    (g.modifyPool a p').pools[a]? = some p' := by
  have lt := (Array.getElem?_eq_some_iff.mp hp).1
  simp only [modifyPool, Array.getElem?_setIfInBounds_self_of_lt lt]

theorem modifyPool_get_ne {a a' : Nat} {p' : BlockPool} (hne : a' ≠ a) :
    (g.modifyPool a p').pools[a']? = g.pools[a']? := by
  simp only [modifyPool, Array.getElem?_setIfInBounds_ne (Ne.symm hne)]

theorem modifyPool_recycles {a : Nat} {p p' : BlockPool} {kept : BlockId → Prop}
    (pools : ∀ p ∈ g.pools, p.Sound) (hp : g.pools[a]? = some p) (sound : p'.Sound)
    (same : ∀ k, kept ⟨a, k⟩ → k < p.blocks.size → k ∉ p.free →
      k < p'.blocks.size ∧ k ∉ p'.free ∧ p'.blocks[k]? = p.blocks[k]?) :
    g.Recycles (g.modifyPool a p') kept := by
  refine ⟨rfl, rfl, rfl, rfl, by simp [modifyPool], fun q hq => ?_, ?_⟩
  · rcases Array.mem_or_eq_of_mem_setIfInBounds hq with hq | rfl
    · exact pools q hq
    · exact sound
  · rintro ⟨a', k⟩ hk ⟨q, hq, lt, used⟩
    by_cases ha : a' = a
    · subst ha
      cases hp.symm.trans hq
      obtain ⟨lt', used', blocks⟩ := same k hk lt used
      refine ⟨⟨p', modifyPool_get hp, lt', used'⟩, ?_⟩
      simp only [block?, modifyPool_get hp, hp, Option.bind_eq_bind, Option.bind_some, blocks]
    · have pool : (g.modifyPool a p').pools[a']? = g.pools[a']? := modifyPool_get_ne ha
      exact ⟨⟨q, pool.trans hq, lt, used⟩, by simp only [block?, pool]⟩

theorem releaseBlock_recycles (pools : ∀ p ∈ g.pools, p.Sound) (used : g.InUse b) :
    ∃ g', g.releaseBlock? b = some g' ∧ g.Recycles g' (· ≠ b) := by
  obtain ⟨p, hp, lt, unfree⟩ := used
  have hr : p.release? b.index = some
      { p with
        blocks := p.blocks.setIfInBounds b.index (List.replicate p.arity none)
        free := b.index :: p.free } := if_pos lt
  refine ⟨g.modifyPool b.arity _, ?_, modifyPool_recycles pools hp
    ((pools p (Array.mem_of_getElem? hp)).release unfree hr) fun k hne klt kused => ?_⟩
  · simp only [releaseBlock?, hp, hr, Option.bind_eq_bind, Option.bind_some]
    rfl
  · exact BlockPool.release_keeps hr (fun hk => hne (by cases b; simp_all)) klt kused

/-- A block that is handed out can be overwritten. -/
theorem writeBlock_recycles (pools : ∀ p ∈ g.pools, p.Sound) (used : g.InUse b)
    (links : List Link) :
    ∃ g', g.writeBlock? b links = some g' ∧ g.Recycles g' (· ≠ b) ∧ g'.InUse b ∧
      g'.block? b = some links := by
  obtain ⟨p, hp, lt, unfree⟩ := used
  have sound := (pools p (Array.mem_of_getElem? hp)).write (n := b.index) links
  refine ⟨g.modifyPool b.arity _, ?_, modifyPool_recycles pools hp sound
    fun k hne klt kused => ?_, ⟨_, modifyPool_get hp, by simpa using lt, unfree⟩, ?_⟩
  · simp only [writeBlock?, hp, BlockPool.write_eq lt, Option.bind_eq_bind, Option.bind_some]
    rfl
  · have hk : b.index ≠ k := fun hk => hne (by cases b; simp_all)
    exact ⟨by simpa using klt, kused, Array.getElem?_setIfInBounds_ne hk⟩
  · simp only [block?, modifyPool_get hp, Option.bind_eq_bind, Option.bind_some,
      Array.getElem?_setIfInBounds_self_of_lt lt]

theorem allocBlock_recycles {n : Nat} (pools : ∀ p ∈ g.pools, p.Sound) (bound : inlineBound ≤ n)
    (lt : n < g.pools.size) :
    ∃ k g', g.allocBlock n = .ok (⟨n, k⟩, g') ∧ g.Recycles g' (fun _ => True) ∧
      ¬ g.InUse ⟨n, k⟩ ∧ g'.InUse ⟨n, k⟩ := by
  have hp : g.pools[n]? = some g.pools[n] := Array.getElem?_eq_getElem lt
  have sound := pools _ (Array.getElem_mem lt)
  refine ⟨g.pools[n].alloc.1, g.modifyPool n g.pools[n].alloc.2, ?_,
    modifyPool_recycles pools hp sound.alloc fun k _ klt kused =>
      BlockPool.alloc_keeps klt kused, ?_, ?_⟩
  · unfold allocBlock
    rw [if_neg (by omega), hp]
  · rintro ⟨p, hp', blt, used⟩
    cases hp.symm.trans hp'
    rcases BlockPool.alloc_fresh g.pools[n] with hf | hf
    · exact used hf
    · exact absurd hf (Nat.ne_of_lt blt)
  · exact ⟨_, modifyPool_get hp, (BlockPool.alloc_inUse sound).1, (BlockPool.alloc_inUse sound).2⟩

/-! ## One change at a time -/

/-- Nothing has changed outside node `i`. -/
structure Spares (g : Graph) (i : NodeId) (g' : Graph) : Prop where
  sound : g'.Sound
  free : g'.free = g.free
  capacity : g'.capacity = g.capacity
  grow : g'.growNodes = g.growNodes
  max : g'.maxNodes = g.maxNodes
  pools : g'.pools.size = g.pools.size
  others : ∀ j, j ≠ i → g'.content? j = g.content? j

/-- Node `i` has taken on a content, and nothing else has changed. -/
structure Sets (g : Graph) (i : NodeId) (c : Content) (g' : Graph) : Prop where
  sound : g'.Sound
  free : g'.free = g.free
  capacity : g'.capacity = g.capacity
  grow : g'.growNodes = g.growNodes
  max : g'.maxNodes = g.maxNodes
  pools : g'.pools.size = g.pools.size
  same : g'.content? i = some c
  others : ∀ j, j ≠ i → g'.content? j = g.content? j

theorem Spares.sets (h : g.Spares i g') (same : g'.content? i = some c) : g.Sets i c g' :=
  ⟨h.sound, h.free, h.capacity, h.grow, h.max, h.pools, same, h.others⟩

theorem Recycles.content {kept : BlockId → Prop} (h : g.Sound) (r : g.Recycles g' kept)
    (owned : ∀ b, g.Owns i b → kept b) : g'.content? i = g.content? i :=
  content_congr (by rw [r.nodes]) fun b ob => (r.kept b (owned b ob) (h.in_use i b ob)).2

theorem Recycles.owns {kept : BlockId → Prop} (r : g.Recycles g' kept) :
    g'.Owns i b ↔ g.Owns i b := by
  unfold Owns
  rw [r.nodes]

theorem Recycles.sound (h : g.Sound) (r : g.Recycles g' (fun _ => True)) : g'.Sound where
  free_nodup := r.free ▸ h.free_nodup
  free_lt := by
    unfold capacity
    rw [r.free, r.nodes]
    exact h.free_lt
  pools := r.pools
  in_use i b ob := (r.kept b trivial (h.in_use i b (r.owns.mp ob))).1
  alone i j b oi oj := h.alone i j b (r.owns.mp oi) (r.owns.mp oj)

theorem owns_setNode {n : Node} (lt : i < g.capacity) :
    (g.setNode i n).Owns j b ↔ (j = i ∧ n.slots = .pooled b) ∨ (j ≠ i ∧ g.Owns j b) := by
  unfold Owns setNode
  by_cases hj : j = i
  · subst hj
    simp only [Array.getElem?_setIfInBounds_self_of_lt lt]
    constructor
    · rintro ⟨_, hn, hs⟩
      cases hn
      exact .inl ⟨trivial, hs⟩
    · rintro (⟨-, hs⟩ | ⟨hne, -⟩)
      · exact ⟨n, rfl, hs⟩
      · exact absurd rfl hne
  · simp only [Array.getElem?_setIfInBounds_ne (Ne.symm hj), hj, false_and, not_false_eq_true,
      true_and, false_or, ne_eq]

/-- Overwriting a slot, after the block it owned was given back. A block in the new node must be
handed out and be nobody's. -/
theorem Recycles.setNode_spares {kept : BlockId → Prop} {n : Node} (h : g.Sound)
    (r : g.Recycles g' kept) (lt : i < g.capacity) (others : ∀ j b, j ≠ i → g.Owns j b → kept b)
    (block : ∀ b, n.slots = .pooled b → g'.InUse b ∧ ∀ j, j ≠ i → ¬ g.Owns j b) :
    g.Spares i (g'.setNode i n) := by
  have lt' : i < g'.capacity := by unfold capacity; rw [r.nodes]; exact lt
  have size : (g'.setNode i n).capacity = g.capacity := by
    simp only [capacity, Graph.setNode, Array.size_setIfInBounds, r.nodes]
  have owned : ∀ j b, j ≠ i → g.Owns j b → g'.InUse b :=
    fun j b hj ob => (r.kept b (others j b hj ob) (h.in_use j b ob)).1
  refine ⟨⟨r.free ▸ h.free_nodup, ?_, r.pools, ?_, ?_⟩, r.free, size, r.grow, r.max, r.size, ?_⟩
  · intro k hk
    rw [size]
    exact h.free_lt k (r.free ▸ hk)
  · intro j b ob
    rcases (owns_setNode lt').mp ob with ⟨-, hs⟩ | ⟨hj, ob⟩
    · exact (block b hs).1
    · exact owned j b hj (r.owns.mp ob)
  · intro j k b wj wk
    rcases (owns_setNode lt').mp wj with ⟨rfl, hs⟩ | ⟨hj, oj⟩ <;>
      rcases (owns_setNode lt').mp wk with ⟨rfl, hs'⟩ | ⟨hk, ok⟩
    · rfl
    · exact absurd (r.owns.mp ok) ((block b hs).2 k hk)
    · exact absurd (r.owns.mp oj) ((block b hs').2 j hj)
    · exact h.alone j k b (r.owns.mp oj) (r.owns.mp ok)
  · intro j hj
    have keep : (g'.setNode i n).content? j = g'.content? j :=
      content_congr (Array.getElem?_setIfInBounds_ne (Ne.symm hj)) fun _ _ => rfl
    exact keep.trans (r.content h fun b ob => others j b hj ob)

theorem Recycles.setNode {kept : BlockId → Prop} {n : Node} {cargo : Cargo} (h : g.Sound)
    (r : g.Recycles g' kept) (lt : i < g.capacity) (others : ∀ j b, j ≠ i → g.Owns j b → kept b)
    (block : ∀ b, n.slots = .pooled b → g'.InUse b ∧ ∀ j, j ≠ i → ¬ g.Owns j b)
    (stored : g'.cargo? n.slots = some cargo) :
    g.Sets i ⟨n.tag, n.symbol, n.aux, cargo⟩ (g'.setNode i n) := by
  have spares := r.setNode_spares h lt others block
  have lt' : i < g'.capacity := by unfold capacity; rw [r.nodes]; exact lt
  exact spares.sets (content_eq_some.mpr
    ⟨n.slots, Array.getElem?_setIfInBounds_self_of_lt lt', stored⟩)

end Graph

end ChoiceGraph
