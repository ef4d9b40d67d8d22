import ChoiceGraph.Proofs.Collection

/-! # Accounts

An account of a graph says which slots and which blocks are in use, from what was done to the graph alone:
a slot from when it is handed out until a collection frees it, a block until it is released or a node that
owns it is freed. Nodes may be overwritten with anything, so that it is up to whoever does so that two of
them do not claim one block. A collection that finds no such claim among the nodes it frees keeps the free
lists and the account in agreement; then nothing that is in use is handed out again. -/
namespace ChoiceGraph

/-- What is done to a graph from outside. -/
inductive GraphAct
  | take (n : Nat)
  | grow (needed : Nat)
  | set (i : NodeId) (n : Node)
  | alloc (arity : Nat)
  | write (b : BlockId) (links : List Link)
  | release (b : BlockId)
  | collect (roots : List Link)

structure Account where
  /-- Slots that were handed out and not freed since. -/
  taken : List NodeId := []
  /-- Blocks that were handed out and not given back since, with what they were last written. -/
  blocks : List (BlockId × List Link) := []
  deriving DecidableEq

deriving instance DecidableEq for BlockPool, Graph

namespace Account

def InUse (a : Account) (b : BlockId) : Prop := b ∈ a.blocks.map Prod.fst

instance (a : Account) (b : BlockId) : Decidable (a.InUse b) := inferInstanceAs (Decidable (_ ∈ _))

def write (a : Account) (b : BlockId) (links : List Link) : Account :=
  { a with blocks := a.blocks.map fun e => if e.1 = b then (b, links) else e }

def release (a : Account) (b : BlockId) : Account :=
  { a with blocks := a.blocks.filter fun e => e.1 ≠ b }

/-- These slots were freed, and the blocks they owned were given back. -/
def free (a : Account) (slots : List NodeId) (owned : List BlockId) : Account :=
  { taken := a.taken.filter (· ∉ slots), blocks := a.blocks.filter fun e => e.1 ∉ owned }

end Account

namespace Graph

variable {g g' : Graph} {i j : NodeId} {b : BlockId} {k n : Nat} {roots : List Link}

def blockOf? (g : Graph) (i : NodeId) : Option BlockId :=
  match g.nodes[i]? with
  | some ⟨_, _, _, .pooled b⟩ => some b
  | _ => none

theorem blockOf_eq_some : g.blockOf? i = some b ↔ g.Owns i b := by
  unfold blockOf? Owns
  constructor
  · intro h
    split at h
    · next tag symbol aux b' found =>
      cases h
      exact ⟨_, found, rfl⟩
    · cases h
  · rintro ⟨⟨tag, symbol, aux, slots⟩, found, rfl⟩
    rw [found]

end Graph

/-- An act on a graph, entered into its account. Slots that do not exist are not overwritten, and blocks
that are not in use neither written nor released; what is refused changes nothing. -/
def GraphAct.perform? (g : Graph) (a : Account) : GraphAct → Option (Graph × Account)
  | take n =>
    match g.take? n with
    | some (ids, g') => some (g', { a with taken := ids ++ a.taken })
    | none => some (g, a)
  | grow needed =>
    match g.grow? needed with
    | some g' => some (g', a)
    | none => some (g, a)
  | set i n => if i < g.capacity then some (g.setNode i n, a) else none
  | alloc arity =>
    match g.allocBlock arity with
    | .ok (b, g') => some (g', { a with blocks := (b, List.replicate arity none) :: a.blocks })
    | .error _ => some (g, a)
  | write b links =>
    if a.InUse b ∧ links.length = b.arity then
      (g.writeBlock? b links).map fun g' => (g', a.write b links)
    else none
  | release b =>
    if a.InUse b then (g.releaseBlock? b).map fun g' => (g', a.release b) else none
  | collect roots =>
    match g.collect roots with
    | .ok (_, g') => some (g', a.free g'.free (g'.free.filterMap g.blockOf?))
    | .error _ => none

/-- Acts one after the other, if each of them is possible. -/
def GraphAct.run? (acts : List GraphAct) (start : Graph × Account) : Option (Graph × Account) :=
  acts.foldlM (fun s x => x.perform? s.1 s.2) start

/-- The nodes that a collection frees own blocks that are handed out, each of them to one of these nodes. -/
def GraphAct.Fair (g : Graph) : GraphAct → Prop
  | collect roots => g.TenancyOf fun i => ¬ g.Reach roots i
  | _ => True

/-- A graph that was made for a configuration, after fair acts, with its account. -/
inductive Graph.Kept (c : Config) : Graph → Account → Prop where
  | new : Kept c (.ofConfig c) {}
  | act {g g' : Graph} {a a' : Account} {x : GraphAct} : Kept c g a → x.Fair g →
      x.perform? g a = some (g', a') → Kept c g' a'

/-! ## Blank blocks -/

namespace BlockPool

variable {p p' : BlockPool} {k n : Nat}

/-- The pool has blocks of `k` links, and those that are free are empty. -/
structure Blank (p : BlockPool) (k : Nat) : Prop where
  arity : p.arity = k
  free : ∀ j ∈ p.free, p.blocks[j]? = some (List.replicate k none)

theorem Blank.alloc (h : p.Blank k) :
    p.alloc.2.Blank k ∧ p.alloc.2.blocks[p.alloc.1]? = some (List.replicate k none) := by
  unfold BlockPool.alloc
  cases hf : p.free with
  | nil =>
    refine ⟨⟨h.arity, fun j hj => absurd hj List.not_mem_nil⟩, ?_⟩
    rw [Array.getElem?_push_size, h.arity]
  | cons block rest =>
    have first := h.free block (hf ▸ List.mem_cons_self)
    exact ⟨⟨h.arity, fun j hj => h.free j (hf ▸ List.mem_cons_of_mem _ hj)⟩, first⟩

theorem Blank.write (h : p.Blank k) (used : n ∉ p.free) (links : List Link) :
    ({ p with blocks := p.blocks.setIfInBounds n links } : BlockPool).Blank k := by
  refine ⟨h.arity, fun j hj => ?_⟩
  have apart : n ≠ j := fun same => used (same ▸ hj)
  exact (Array.getElem?_setIfInBounds_ne apart).trans (h.free j hj)

theorem Blank.release (h : p.Blank k) (run : p.release? n = some p') : p'.Blank k := by
  unfold release? at run
  split at run
  · next lt =>
    cases run
    refine ⟨h.arity, fun j hj => ?_⟩
    by_cases here : j = n
    · subst here
      rw [Array.getElem?_setIfInBounds_self_of_lt lt, h.arity]
    · rw [Array.getElem?_setIfInBounds_ne (Ne.symm here)]
      exact h.free j ((List.mem_cons.mp hj).resolve_left here)
  · cases run

end BlockPool

namespace Graph

variable {g g' : Graph} {i j : NodeId} {b : BlockId} {k n : Nat} {roots : List Link}

def Blank (g : Graph) : Prop := ∀ (k : Nat) (p : BlockPool), g.pools[k]? = some p → p.Blank k

theorem Blank.modify {p : BlockPool} (h : g.Blank) (blank : p.Blank k) : (g.modifyPool k p).Blank := by
  intro k' q hq
  by_cases here : k' = k
  · subst here
    rw [modifyPool, Array.getElem?_setIfInBounds_self] at hq
    split at hq
    · cases hq
      exact blank
    · cases hq
  · exact h k' q ((modifyPool_get_ne here).symm.trans hq)

theorem Blank.release (h : g.Blank) (run : g.releaseBlock? b = some g') : g'.Blank := by
  obtain ⟨p, hp, run⟩ := Option.bind_eq_some_iff.mp run
  obtain ⟨p', hr, run⟩ := Option.bind_eq_some_iff.mp run
  cases run
  exact h.modify ((h b.arity p hp).release hr)

theorem Blank.write {links : List Link} (h : g.Blank) (used : g.InUse b)
    (run : g.writeBlock? b links = some g') : g'.Blank := by
  obtain ⟨p, hp, lt, unfree⟩ := used
  have written : g.writeBlock? b links = some (g.modifyPool b.arity
      { p with blocks := p.blocks.setIfInBounds b.index links }) := by
    simp only [writeBlock?, hp, BlockPool.write_eq lt, Option.bind_eq_bind, Option.bind_some]
    rfl
  cases run.symm.trans written
  exact h.modify ((h b.arity p hp).write unfree links)

/-- A block that is handed out is empty. -/
theorem Blank.allocate (h : g.Blank) (run : g.allocBlock k = .ok (b, g')) :
    g'.Blank ∧ b.arity = k ∧ g'.block? b = some (List.replicate k none) := by
  unfold allocBlock at run
  split at run
  · cases run
  split at run
  · cases run
  next p hp =>
  cases run
  obtain ⟨blank, first⟩ := (h k p hp).alloc
  refine ⟨h.modify blank, rfl, ?_⟩
  simp only [block?, modifyPool_get hp, Option.bind_eq_bind, Option.bind_some]
  exact first

theorem Blank.reclaim (h : g.Blank) (run : g.reclaim i = .ok g') : g'.Blank := by
  unfold Graph.reclaim at run
  cases hn : g.node i with
  | error e =>
    simp only [hn, bind, Except.bind] at run
    cases run
  | ok n =>
    cases hs : n.slots with
    | inline first second =>
      simp only [hn, hs, bind, Except.bind, pure, Except.pure] at run
      cases run
      exact h
    | data literal =>
      simp only [hn, hs, bind, Except.bind, pure, Except.pure] at run
      cases run
      exact h
    | pooled b =>
      cases hr : g.releaseBlock? b with
      | none =>
        simp only [hn, hs, hr, bind, Except.bind] at run
        cases run
      | some released =>
        simp only [hn, hs, hr, bind, Except.bind, pure, Except.pure] at run
        cases run
        exact fun k p hp => h.release hr k p hp

theorem Blank.sweep (marks : Array Bool) : ∀ (n : Nat) (g g' : Graph), g.Blank →
    sweepBelow marks n g = .ok g' → g'.Blank := by
  intro n
  induction n with
  | zero =>
    intro g g' h run
    cases run
    exact h
  | succ n ih =>
    intro g g' h run
    unfold sweepBelow at run
    split at run
    · exact ih g g' h run
    · cases reclaimed : g.reclaim n with
      | error e =>
        simp only [reclaimed, bind, Except.bind] at run
        cases run
      | ok g₁ =>
        simp only [reclaimed, bind, Except.bind] at run
        exact ih g₁ g' (h.reclaim reclaimed) run

/-! ## Agreement -/

/-- The free lists agree with the account. -/
structure Agrees (c : Config) (g : Graph) (a : Account) : Prop where
  free_nodup : g.free.Nodup
  free_lt : ∀ i ∈ g.free, i < g.capacity
  taken_nodup : a.taken.Nodup
  taken_lt : ∀ i ∈ a.taken, i < g.capacity
  unfree : ∀ i ∈ a.taken, i ∉ g.free
  max : g.maxNodes = c.maxNodes
  bounded : g.capacity ≤ Max.max c.initialNodes c.maxNodes
  pools : ∀ k, g.PoolSound k
  blank : g.Blank
  distinct : (a.blocks.map Prod.fst).Nodup
  held : ∀ e ∈ a.blocks, g.InUse e.1 ∧ g.block? e.1 = some e.2

variable {c : Config} {a a' : Account} {ids : List NodeId} {links : List Link}

theorem Agrees.sound (h : g.Agrees c a) : ∀ p ∈ g.pools, p.Sound := fun p hp => by
  obtain ⟨k, lt, rfl⟩ := Array.getElem_of_mem hp
  exact h.pools k _ (Array.getElem?_eq_getElem lt)

theorem Agrees.inUse (h : g.Agrees c a) (used : a.InUse b) : g.InUse b := by
  obtain ⟨e, he, rfl⟩ := List.mem_map.mp used
  exact (h.held e he).1

theorem poolSound_of_sound (pools : ∀ p ∈ g.pools, p.Sound) (k : Nat) : g.PoolSound k :=
  fun _ hp => pools _ (Array.mem_of_getElem? hp)

theorem extend_capacity (g : Graph) (n : Nat) : (g.extend n).capacity = g.capacity + n := by
  simp only [capacity, extend, Array.size_append, Array.size_replicate]

/-- Slots are added and nothing else happens. -/
theorem Agrees.extend (h : g.Agrees c a) (bounded : g.capacity + n ≤ Max.max c.initialNodes c.maxNodes) :
    (g.extend n).Agrees c a := by
  have size := g.extend_capacity n
  have added : ∀ i, i ∈ (g.extend n).free ↔ (g.capacity ≤ i ∧ i < g.capacity + n) ∨ i ∈ g.free :=
    fun i => List.mem_append.trans (or_congr_left List.mem_range'_1)
  refine ⟨?_, fun i hi => ?_, h.taken_nodup, fun i hi => ?_, fun i hi free => ?_, h.max, size ▸ bounded,
    h.pools, h.blank, h.distinct, h.held⟩
  · refine List.nodup_append.mpr ⟨List.nodup_range', h.free_nodup, fun i hi j hj same => ?_⟩
    have old := h.free_lt j hj
    exact absurd (same ▸ (List.mem_range'_1.mp hi).1) (Nat.not_le.mpr old)
  · rw [size]
    rcases (added i).mp hi with ⟨-, lt⟩ | old
    · exact lt
    · exact Nat.lt_add_right n (h.free_lt i old)
  · rw [size]
    exact Nat.lt_add_right n (h.taken_lt i hi)
  · rcases (added i).mp free with ⟨ge, -⟩ | old
    · exact absurd (h.taken_lt i hi) (Nat.not_lt.mpr ge)
    · exact h.unfree i hi old

theorem ofConfig_agrees (c : Config) : (ofConfig c).Agrees c {} := by
  have pool : ∀ k p, ((Array.range c.arityBound).map BlockPool.empty)[k]? = some p →
      p = BlockPool.empty k := by
    intro k p hp
    rw [Array.getElem?_map, Option.map_eq_some_iff] at hp
    obtain ⟨k', hk, rfl⟩ := hp
    rw [Array.getElem?_range] at hk
    split at hk
    · cases hk
      rfl
    · cases hk
  let none_yet : Graph :=
    { nodes := #[], free := [], pools := (Array.range c.arityBound).map BlockPool.empty
      growNodes := c.growNodes, maxNodes := c.maxNodes }
  have start : none_yet.Agrees c {} :=
    { free_nodup := List.nodup_nil
      free_lt := fun _ hi => absurd hi List.not_mem_nil
      taken_nodup := List.nodup_nil
      taken_lt := fun _ hi => absurd hi List.not_mem_nil
      unfree := fun _ hi => absurd hi List.not_mem_nil
      max := rfl
      bounded := Nat.zero_le _
      pools := fun k p hp => pool k p hp ▸ ⟨List.nodup_nil, fun _ hj => absurd hj List.not_mem_nil⟩
      blank := fun k p hp => pool k p hp ▸ ⟨rfl, fun _ hj => absurd hj List.not_mem_nil⟩
      distinct := List.nodup_nil
      held := fun _ he => absurd he List.not_mem_nil }
  refine start.extend (n := c.initialNodes) ?_
  show 0 + c.initialNodes ≤ _
  omega

/-! ## One act -/

theorem take?_eq_some : g.take? n = some (ids, g') ↔
    n ≤ g.free.length ∧ ids = g.free.take n ∧ g' = g.afterTake n := by
  unfold take?
  split
  · next enough =>
    rw [Option.some.injEq, Prod.mk.injEq]
    exact ⟨fun ⟨same, same'⟩ => ⟨hasFree_iff.mp enough, same.symm, same'.symm⟩,
      fun ⟨_, same, same'⟩ => ⟨same.symm, same'.symm⟩⟩
  · next few => exact ⟨nofun, fun ⟨enough, _⟩ => absurd (hasFree_iff.mpr enough) few⟩

theorem Agrees.take (h : g.Agrees c a) (run : g.take? n = some (ids, g')) :
    ids.length = n ∧ ids.Nodup ∧ (∀ i ∈ ids, i ∉ a.taken) ∧ g'.capacity = g.capacity ∧
      g'.Agrees c { a with taken := ids ++ a.taken } := by
  obtain ⟨enough, rfl, rfl⟩ := take?_eq_some.mp run
  have size := g.afterTake_capacity n
  have free : ∀ i ∈ g.free.take n, i ∈ g.free := fun i hi => List.mem_of_mem_take hi
  have apart : ∀ i ∈ g.free.take n, i ∉ a.taken := fun i hi old => h.unfree i old (free i hi)
  have split : (g.free.take n ++ g.free.drop n).Nodup := (List.take_append_drop n g.free).symm ▸ h.free_nodup
  obtain ⟨nodup, rest, separate⟩ := List.nodup_append.mp split
  refine ⟨by rw [List.length_take]; omega, nodup, apart, size, rest, fun i hi => ?_, ?_, fun i hi => ?_,
    fun i hi hf => ?_, h.max, size ▸ h.bounded, h.pools, h.blank, h.distinct, h.held⟩
  · rw [size]
    exact h.free_lt i (List.mem_of_mem_drop hi)
  · exact List.nodup_append.mpr ⟨nodup, h.taken_nodup, fun i hi j hj same => apart i hi (same ▸ hj)⟩
  · rw [size]
    exact (List.mem_append.mp hi).elim (fun hi => h.free_lt i (free i hi)) (h.taken_lt i)
  · rcases List.mem_append.mp hi with hi | hi
    · exact separate i hi i hf rfl
    · exact h.unfree i hi (List.mem_of_mem_drop hf)

theorem grow?_eq_some (run : g.grow? n = some g') : ∃ added, 0 < added ∧
    added ≤ g.maxNodes - g.capacity ∧ n ≤ g.free.length + added ∧ g' = g.extend added := by
  unfold grow? at run
  dsimp only at run
  split at run
  · cases run
  · next enough =>
    cases run
    refine ⟨_, ?_, Nat.min_le_right _ _, ?_, rfl⟩
    · omega
    · omega

/-- A growth that succeeds serves the request it was made for. -/
theorem Agrees.grow (h : g.Agrees c a) (run : g.grow? n = some g') :
    g.capacity < g'.capacity ∧ (g'.take? n).isSome ∧ g'.Agrees c a := by
  obtain ⟨added, positive, room, enough, rfl⟩ := grow?_eq_some run
  have size := g.extend_capacity added
  have most : g.capacity + added ≤ Max.max c.initialNodes c.maxNodes := by
    have := h.max
    omega
  refine ⟨by omega, ?_, h.extend most⟩
  have served : (g.extend added).take? n =
      some ((g.extend added).free.take n, (g.extend added).afterTake n) := by
    refine take?_eq_some.mpr ⟨?_, rfl, rfl⟩
    rw [Graph.extend, List.length_append, List.length_range']
    omega
  rw [served]
  rfl

theorem setNode_capacity (g : Graph) (i : NodeId) (n : Node) : (g.setNode i n).capacity = g.capacity := by
  simp only [capacity, setNode, Array.size_setIfInBounds]

theorem Agrees.set (h : g.Agrees c a) (i : NodeId) (n : Node) : (g.setNode i n).Agrees c a := by
  have size := g.setNode_capacity i n
  refine { h with free_lt := fun j hj => ?_, taken_lt := fun j hj => ?_, bounded := ?_ }
  · rw [size]
    exact h.free_lt j hj
  · rw [size]
    exact h.taken_lt j hj
  · rw [size]
    exact h.bounded

/-- Changes of blocks leave slots alone. -/
theorem Agrees.recycle {kept : BlockId → Prop} (h : g.Agrees c a) (r : g.Recycles g' kept)
    (blank : g'.Blank) (distinct : (a'.blocks.map Prod.fst).Nodup) (taken : a'.taken = a.taken)
    (held : ∀ e ∈ a'.blocks, g'.InUse e.1 ∧ g'.block? e.1 = some e.2) : g'.Agrees c a' := by
  have size : g'.capacity = g.capacity := by unfold capacity; rw [r.nodes]
  refine ⟨r.free ▸ h.free_nodup, fun i hi => ?_, taken ▸ h.taken_nodup, fun i hi => ?_, fun i hi => ?_,
    r.max.trans h.max, size ▸ h.bounded, poolSound_of_sound r.pools, blank, distinct, held⟩
  · rw [size]
    exact h.free_lt i (r.free ▸ hi)
  · rw [size]
    exact h.taken_lt i (taken ▸ hi)
  · rw [r.free]
    exact h.unfree i (taken ▸ hi)

/-- A block that is handed out was not in use, and it is empty. -/
theorem Agrees.alloc (h : g.Agrees c a) (run : g.allocBlock k = .ok (b, g')) :
    ¬ a.InUse b ∧ g'.capacity = g.capacity ∧ g'.block? b = some (List.replicate k none) ∧
      g'.Agrees c { a with blocks := (b, List.replicate k none) :: a.blocks } := by
  obtain ⟨arity, index⟩ := b
  obtain ⟨blank, rfl, first⟩ := h.blank.allocate run
  have bound : inlineBound ≤ arity ∧ arity < g.pools.size := by
    unfold allocBlock at run
    split at run
    · cases run
    next many =>
    split at run
    · cases run
    next p hp => exact ⟨Nat.le_of_not_lt many, (Array.getElem?_eq_some_iff.mp hp).1⟩
  obtain ⟨index', g₁, run', r, unused, used⟩ := allocBlock_recycles h.sound bound.1 bound.2
  cases run.symm.trans run'
  have new : ¬ a.InUse ⟨arity, index⟩ := fun old => unused (h.inUse old)
  refine ⟨new, by unfold capacity; rw [r.nodes], first, h.recycle r blank ?_ rfl fun e he => ?_⟩
  · exact List.nodup_cons.mpr ⟨new, h.distinct⟩
  · rcases List.mem_cons.mp he with rfl | he
    · exact ⟨used, first⟩
    · obtain ⟨used', links⟩ := h.held e he
      have kept := r.kept e.1 trivial used'
      exact ⟨kept.1, kept.2.trans links⟩

theorem Agrees.write (h : g.Agrees c a) (used : a.InUse b) (run : g.writeBlock? b links = some g') :
    g'.capacity = g.capacity ∧ g'.Agrees c (a.write b links) := by
  obtain ⟨g₁, run', r, used', written⟩ := writeBlock_recycles h.sound (h.inUse used) links
  cases run.symm.trans run'
  have keys : (a.write b links).blocks.map Prod.fst = a.blocks.map Prod.fst := by
    unfold Account.write
    rw [List.map_map]
    refine List.map_congr_left fun e _ => ?_
    by_cases here : e.1 = b
    · simp [here]
    · simp [here]
  refine ⟨by unfold capacity; rw [r.nodes], h.recycle r (h.blank.write (h.inUse used) run) (keys ▸ h.distinct)
    rfl fun e he => ?_⟩
  obtain ⟨e, old, rfl⟩ := List.mem_map.mp he
  split
  · exact ⟨used', written⟩
  · next apart =>
    obtain ⟨used, links⟩ := h.held e old
    have kept := r.kept e.1 apart used
    exact ⟨kept.1, kept.2.trans links⟩

theorem Agrees.release (h : g.Agrees c a) (used : a.InUse b) (run : g.releaseBlock? b = some g') :
    g'.capacity = g.capacity ∧ g'.Agrees c (a.release b) := by
  obtain ⟨g₁, run', r⟩ := releaseBlock_recycles h.sound (h.inUse used)
  cases run.symm.trans run'
  have fewer : (a.release b).blocks.Sublist a.blocks := List.filter_sublist
  refine ⟨by unfold capacity; rw [r.nodes], h.recycle r (h.blank.release run)
    (h.distinct.sublist (fewer.map Prod.fst)) rfl fun e he => ?_⟩
  obtain ⟨old, apart⟩ := List.mem_filter.mp he
  obtain ⟨used, links⟩ := h.held e old
  have kept := r.kept e.1 (of_decide_eq_true apart) used
  exact ⟨kept.1, kept.2.trans links⟩

/-- A fair collection that goes through sweeps what is not reached. -/
theorem collect_swept (run : g.collect roots = .ok (n, g')) (fair : g.TenancyOf fun i => ¬ g.Reach roots i) :
    ∃ marks, (∀ i : NodeId, marks[i]? = some true ↔ g.Reach roots i) ∧
      sweepBelow marks g.capacity { g with free := [] } = .ok g' ∧
      Swept { g with free := [] } marks g.capacity g' := by
  unfold collect at run
  cases hm : g.marked roots with
  | error e =>
    simp only [hm, bind, Except.bind] at run
    cases run
  | ok marks =>
    obtain ⟨marks', hm', -, reach⟩ := marked_exact (closed_of_marked hm)
    cases hm.symm.trans hm'
    have unmarked : ∀ i : NodeId, marks[i]? ≠ some true ↔ ¬ g.Reach roots i := fun i => not_congr (reach i)
    obtain ⟨g₁, swept, s⟩ := sweepBelow_swept marks g.capacity { g with free := [] }
      ⟨fun i b hi => fair.in_use i b ((unmarked i).mp hi),
        fun i j b hi hj => fair.alone i j b ((unmarked i).mp hi) ((unmarked j).mp hj)⟩ (Nat.le_refl _)
    simp only [hm, swept, bind, Except.bind] at run
    cases run
    exact ⟨marks, reach, swept, s⟩

/-- A collection enters what it frees: the slots that are not reached and the blocks they own. -/
theorem Agrees.collect (h : g.Agrees c a) (run : g.collect roots = .ok (n, g'))
    (fair : g.TenancyOf fun i => ¬ g.Reach roots i) :
    g'.capacity = g.capacity ∧
      (∀ i ∈ a.taken, i ∉ g'.free ↔ g.Reach roots i) ∧
      (∀ b, b ∉ g'.free.filterMap g.blockOf? ↔ ∀ i, g.Owns i b → g.Reach roots i) ∧
      g'.Agrees c (a.free g'.free (g'.free.filterMap g.blockOf?)) := by
  obtain ⟨marks, reach, swept, s⟩ := collect_swept run fair
  have size : g'.capacity = g.capacity := s.capacity
  have free : g'.free = (List.range g.capacity).filter fun i => marks[i]? != some true :=
    s.free.trans (List.append_nil _)
  have mem : ∀ i : NodeId, i ∈ g'.free ↔ i < g.capacity ∧ marks[i]? ≠ some true := fun i => by
    rw [free, List.mem_filter, List.mem_range, bne_iff_ne]
  have slots : ∀ i < g.capacity, i ∉ g'.free ↔ g.Reach roots i := fun i lt => by
    rw [mem, ← reach i]
    simp [lt]
  have blocks : ∀ b, b ∉ g'.free.filterMap g.blockOf? ↔ ∀ i, g.Owns i b → g.Reach roots i := fun b => by
    rw [List.mem_filterMap, not_exists]
    refine forall_congr' fun i => ⟨fun apart owned => ?_, fun reached ⟨freed, owned⟩ => ?_⟩
    · have lt : i < g.capacity := by
        obtain ⟨_, found, -⟩ := owned
        exact (Array.getElem?_eq_some_iff.mp found).1
      exact (slots i lt).mp fun freed => apart ⟨freed, blockOf_eq_some.mpr owned⟩
    · exact (slots i ((mem i).mp freed).1).mpr (reached (blockOf_eq_some.mp owned)) freed
  have fewer : (a.blocks.filter fun e => e.1 ∉ g'.free.filterMap g.blockOf?).Sublist a.blocks :=
    List.filter_sublist
  refine ⟨size, fun i hi => slots i (h.taken_lt i hi), blocks, ?_, fun i hi => ?_,
    h.taken_nodup.filter _, fun i hi => ?_, fun i hi => ?_, s.max.trans h.max, size ▸ h.bounded,
    fun k => s.sound k (h.pools k), ?_, h.distinct.sublist (fewer.map Prod.fst), fun e he => ?_⟩
  · rw [free]
    exact List.nodup_range.filter _
  · rw [size]
    exact ((mem i).mp hi).1
  · rw [size]
    exact h.taken_lt i ((List.mem_filter.mp hi).1)
  · exact of_decide_eq_true (List.mem_filter.mp hi).2
  · exact Blank.sweep marks _ { g with free := [] } _ (fun k p hp => h.blank k p hp) swept
  · obtain ⟨old, apart⟩ := List.mem_filter.mp he
    have foreign : ∀ i : NodeId, i < g.capacity → marks[i]? ≠ some true → ¬ g.Owns i e.1 :=
      fun i _ unmarked owned =>
        unmarked ((reach i).mpr ((blocks e.1).mp (of_decide_eq_true apart) i owned))
    obtain ⟨used, links⟩ := h.held e old
    have kept := s.blocks e.1 foreign
    exact ⟨kept.1.mpr used, kept.2.trans links⟩

/-- What one act does, whichever it is. -/
structure Does (g : Graph) (a : Account) (x : GraphAct) (g' : Graph) (a' : Account) : Prop where
  /-- Slots are handed out all together or not at all, and none that is in use. -/
  take : ∀ n, x = .take n → (g' = g ∧ a' = a ∧ g.free.length < n) ∨
    ∃ ids : List NodeId, ids.length = n ∧ ids.Nodup ∧ (∀ i ∈ ids, i ∉ a.taken) ∧
      g.take? n = some (ids, g') ∧ a' = { a with taken := ids ++ a.taken }
  capacity_le : g.capacity ≤ g'.capacity
  /-- The pool grows by a growth that succeeds and by nothing else. -/
  grows : g.capacity < g'.capacity ↔ ∃ n, x = .grow n ∧ g.grow? n = some g'
  /-- After that the request it was made for is served. -/
  served : ∀ n, x = .grow n → g.grow? n = some g' → (g'.take? n).isSome
  /-- A fresh block is not in use, and it is empty. -/
  fresh : ∀ k b, x = .alloc k → g.allocBlock k = .ok (b, g') →
    ¬ a.InUse b ∧ g'.block? b = some (List.replicate k none)
  /-- A collection frees the slots that are not reached and the blocks that these own. -/
  freed : ∀ roots, x = .collect roots → (∀ i ∈ a.taken, i ∈ a'.taken ↔ g.Reach roots i) ∧
    ∀ e ∈ a.blocks, e ∈ a'.blocks ↔ ∀ i, g.Owns i e.1 → g.Reach roots i

theorem does_of_capacity {x : GraphAct} (same : g'.capacity = g.capacity) (take : ∀ n, x ≠ .take n)
    (grow : ∀ n, x ≠ .grow n) (alloc : ∀ k, x ≠ .alloc k) (collect : ∀ roots, x ≠ .collect roots) :
    g.Does a x g' a' where
  take n is := absurd is (take n)
  capacity_le := Nat.le_of_eq same.symm
  grows := ⟨fun lt => absurd same.symm (Nat.ne_of_lt lt), fun ⟨n, is, _⟩ => absurd is (grow n)⟩
  served n is := absurd is (grow n)
  fresh k _ is := absurd is (alloc k)
  freed roots is := absurd is (collect roots)

theorem Agrees.apply {x : GraphAct} (h : g.Agrees c a) (fair : x.Fair g)
    (run : x.perform? g a = some (g', a')) : g'.Agrees c a' ∧ g.Does a x g' a' := by
  cases x with
  | take n =>
    cases taken : g.take? n with
    | none =>
      simp only [GraphAct.perform?, taken] at run
      cases run
      have few : g.free.length < n := by
        by_contra enough
        cases taken.symm.trans (take?_eq_some.mpr ⟨Nat.not_lt.mp enough, rfl, rfl⟩)
      exact ⟨h, fun _ is => by cases is; exact .inl ⟨rfl, rfl, few⟩, Nat.le_refl _,
        ⟨fun lt => absurd lt (Nat.lt_irrefl _), nofun⟩, nofun, nofun, nofun⟩
    | some handed =>
      obtain ⟨ids, g₁⟩ := handed
      simp only [GraphAct.perform?, taken] at run
      cases run
      obtain ⟨length, nodup, apart, size, agrees⟩ := h.take taken
      exact ⟨agrees, fun _ is => by cases is; exact .inr ⟨ids, length, nodup, apart, taken, rfl⟩,
        Nat.le_of_eq size.symm, ⟨fun lt => absurd size.symm (Nat.ne_of_lt lt), nofun⟩, nofun, nofun,
        nofun⟩
  | grow n =>
    cases grown : g.grow? n with
    | none =>
      simp only [GraphAct.perform?, grown] at run
      cases run
      refine ⟨h, nofun, Nat.le_refl _, ⟨fun lt => absurd lt (Nat.lt_irrefl _), ?_⟩, ?_, nofun, nofun⟩
      · rintro ⟨_, is, grown'⟩
        cases is
        cases grown.symm.trans grown'
      · intro _ is grown'
        cases is
        cases grown.symm.trans grown'
    | some g₁ =>
      simp only [GraphAct.perform?, grown] at run
      cases run
      obtain ⟨lt, served, agrees⟩ := h.grow grown
      exact ⟨agrees, nofun, Nat.le_of_lt lt, ⟨fun _ => ⟨n, rfl, grown⟩, fun _ => lt⟩,
        fun _ is _ => by cases is; exact served, nofun, nofun⟩
  | set i n =>
    obtain ⟨-, run⟩ := Option.ite_none_right_eq_some.mp run
    cases run
    exact ⟨h.set i n, does_of_capacity (g.setNode_capacity i n) nofun nofun nofun nofun⟩
  | alloc k =>
    cases allocated : g.allocBlock k with
    | error e =>
      simp only [GraphAct.perform?, allocated] at run
      cases run
      refine ⟨h, nofun, Nat.le_refl _, ⟨fun lt => absurd lt (Nat.lt_irrefl _), nofun⟩, nofun, ?_, nofun⟩
      intro _ b is allocated'
      cases is
      cases allocated.symm.trans allocated'
    | ok handed =>
      obtain ⟨b, g₁⟩ := handed
      simp only [GraphAct.perform?, allocated] at run
      cases run
      obtain ⟨new, size, empty, agrees⟩ := h.alloc allocated
      refine ⟨agrees, nofun, Nat.le_of_eq size.symm,
        ⟨fun lt => absurd size.symm (Nat.ne_of_lt lt), nofun⟩, nofun, ?_, nofun⟩
      intro _ b' is allocated'
      cases is
      cases allocated.symm.trans allocated'
      exact ⟨new, empty⟩
  | write b links =>
    obtain ⟨⟨used, -⟩, run⟩ := Option.ite_none_right_eq_some.mp run
    obtain ⟨g₁, written, same⟩ := Option.map_eq_some_iff.mp run
    cases same
    obtain ⟨size, agrees⟩ := h.write used written
    exact ⟨agrees, does_of_capacity size nofun nofun nofun nofun⟩
  | release b =>
    obtain ⟨used, run⟩ := Option.ite_none_right_eq_some.mp run
    obtain ⟨g₁, released, same⟩ := Option.map_eq_some_iff.mp run
    cases same
    obtain ⟨size, agrees⟩ := h.release used released
    exact ⟨agrees, does_of_capacity size nofun nofun nofun nofun⟩
  | collect roots =>
    cases collected : g.collect roots with
    | error e =>
      simp only [GraphAct.perform?, collected] at run
      cases run
    | ok result =>
      obtain ⟨n, g₁⟩ := result
      simp only [GraphAct.perform?, collected] at run
      cases run
      obtain ⟨size, slots, blocks, agrees⟩ := h.collect collected fair
      refine ⟨agrees, nofun, Nat.le_of_eq size.symm, ⟨fun lt => absurd size.symm (Nat.ne_of_lt lt), nofun⟩,
        nofun, nofun, fun _ is => ?_⟩
      cases is
      refine ⟨fun i hi => ?_, fun e he => ?_⟩
      · rw [← slots i hi, Account.free, List.mem_filter, and_iff_right hi, decide_eq_true_eq]
      · rw [← blocks e.1, Account.free, List.mem_filter, and_iff_right he, decide_eq_true_eq]

/-! ## All acts -/

theorem Kept.agrees (kept : Kept c g a) : g.Agrees c a := by
  induction kept with
  | new => exact ofConfig_agrees c
  | act _ fair run ih => exact (ih.apply fair run).1

theorem Kept.run {acts : List GraphAct} (kept : Kept c g a) (fair : ∀ x ∈ acts, ∀ g, x.Fair g)
    (run : GraphAct.run? acts (g, a) = some (g', a')) : Kept c g' a' := by
  induction acts generalizing g a with
  | nil =>
    cases run
    exact kept
  | cons x acts ih =>
    obtain ⟨⟨g₁, a₁⟩, first, rest⟩ := Option.bind_eq_some_iff.mp run
    exact ih (kept.act (fair x List.mem_cons_self g) first)
      (fun y hy => fair y (List.mem_cons_of_mem x hy)) rest

end Graph

end ChoiceGraph
