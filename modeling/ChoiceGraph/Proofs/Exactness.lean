import ChoiceGraph.Proofs.Collection
import ChoiceGraph.Symbol.Signature
import Mathlib.Data.Set.Card

/-! # The collector is exact

Nothing is asked of the free lists nor of the shape of the graph, which may have circles: only that
what is reached exists, and that the blocks of nodes are handed out, each to one node. Then a
collection frees what is not reached and gives back its blocks, and no more. It leaves the free list
in order and finds nothing to do when it is repeated. -/
namespace ChoiceGraph

theorem BlockPool.Sound.inUse_eq {p : BlockPool} (h : p.Sound) :
    p.inUse = ((Finset.range p.blocks.size).filter (· ∉ p.free)).card := by
  have free : p.free.toFinset ⊆ Finset.range p.blocks.size := fun k hk =>
    Finset.mem_range.mpr (h.free_lt k (List.mem_toFinset.mp hk))
  have used : (Finset.range p.blocks.size).filter (· ∉ p.free) =
      Finset.range p.blocks.size \ p.free.toFinset := by
    ext k
    simp only [Finset.mem_filter, Finset.mem_sdiff, List.mem_toFinset]
  rw [used, Finset.card_sdiff_of_subset free, Finset.card_range,
    List.toFinset_card_of_nodup h.free_nodup]
  rfl

namespace Graph

variable {g g' g'' : Graph} {i j : NodeId} {b : BlockId} {k n : Nat} {roots : List Link}

/-- The nodes that the roots reach and whose links are in a block of `k`. -/
def reachedOwners (g : Graph) (roots : List Link) (k : Nat) : Set NodeId :=
  {i | g.Reach roots i ∧ ∃ b, b.arity = k ∧ g.Owns i b}

theorem owns_functional {b b' : BlockId} (h : g.Owns i b) (h' : g.Owns i b') : b = b' := by
  obtain ⟨n, hn, hs⟩ := h
  obtain ⟨n', hn', hs'⟩ := h'
  cases hn.symm.trans hn'
  cases hs.symm.trans hs'
  rfl

/-- The blocks in use are those of the reached nodes, when each block belonged to a node before. -/
theorem Collected.blocksInUse (c : g.Collected roots g') (h : g.Tenancy)
    (long : ∀ i b, g.Owns i b → inlineBound ≤ b.arity) (sound : g.PoolSound k)
    (held : ∀ b, b.arity = k → g.InUse b → ∃ i, g.Owns i b) :
    g'.blocksInUse k = (g.reachedOwners roots k).ncard := by
  -- the block of a reached owner is in use, and no block is in use but these
  have used : ∀ j, g'.InUse ⟨k, j⟩ ↔ ∃ i, g.Reach roots i ∧ g.Owns i ⟨k, j⟩ := by
    intro j
    rw [c.in_use]
    constructor
    · rintro ⟨used, reached⟩
      obtain ⟨i, owned⟩ := held ⟨k, j⟩ rfl used
      exact ⟨i, reached i owned, owned⟩
    · rintro ⟨i, hi, owned⟩
      exact ⟨h.in_use i _ owned, fun j' owned' => h.alone i j' _ owned owned' ▸ hi⟩
  unfold Graph.blocksInUse
  cases hp : g'.pools[k]? with
  | none =>
    have none : g.reachedOwners roots k = ∅ := by
      apply Set.eq_empty_of_forall_notMem
      rintro i ⟨hi, ⟨_, j⟩, rfl, owned⟩
      obtain ⟨p, hp', -⟩ := (used j).mpr ⟨i, hi, owned⟩
      cases hp.symm.trans hp'
    rw [none, Set.ncard_empty]
  | some p =>
    dsimp only
    split
    · next zero =>
      have none : g.reachedOwners roots k = ∅ := by
        apply Set.eq_empty_of_forall_notMem
        rintro i ⟨-, b, rfl, owned⟩
        have bound : 3 ≤ b.arity := long i b owned
        omega
      rw [none, Set.ncard_empty]
    · rw [(c.sound k sound p hp).inUse_eq, ← Set.ncard_coe_finset]
      have inside : ∀ j, j ∈ (Finset.range p.blocks.size).filter (· ∉ p.free) ↔
          g'.InUse ⟨k, j⟩ := by
        intro j
        rw [Finset.mem_filter, Finset.mem_range]
        constructor
        · exact fun ⟨lt, unfree⟩ => ⟨p, hp, lt, unfree⟩
        · rintro ⟨p', hp', lt, unfree⟩
          cases hp.symm.trans hp'
          exact ⟨lt, unfree⟩
      -- each block in use goes to its owner
      have owner : ∀ j ∈ ((Finset.range p.blocks.size).filter (· ∉ p.free) : Set Nat),
          ∃ i, g.Reach roots i ∧ g.Owns i ⟨k, j⟩ := fun j hj => (used j).mp ((inside j).mp hj)
      refine Set.ncard_congr (fun j hj => (owner j hj).choose) (fun j hj => ?_)
        (fun j j' hj hj' same => ?_) fun i hi => ?_
      · obtain ⟨reached, owned⟩ := (owner j hj).choose_spec
        exact ⟨reached, _, rfl, owned⟩
      · have here := (owner j hj).choose_spec.2
        rw [same] at here
        exact congrArg BlockId.index (owns_functional here (owner j' hj').choose_spec.2)
      · obtain ⟨reached, ⟨_, j⟩, rfl, owned⟩ := hi
        have hj := (inside j).mpr ((used j).mpr ⟨i, reached, owned⟩)
        exact ⟨j, hj, h.alone _ i _ (owner j hj).choose_spec.2 owned⟩

/-! ## A collection after another -/

/-- Sweeping slots that are blank already only frees them. -/
theorem sweepBelow_blank (marks : Array Bool) : ∀ (n : Nat) (g : Graph),
    (∀ i : NodeId, i < n → marks[i]? ≠ some true → g.nodes[i]? = some .placeholder) →
    sweepBelow marks n g =
      .ok { g with free := (List.range n).filter (fun i => marks[i]? != some true) ++ g.free } := by
  intro n
  induction n with
  | zero => exact fun g _ => rfl
  | succ n ih =>
    intro g blank
    unfold sweepBelow
    by_cases hm : marks[n]? = some true
    · rw [if_pos hm, ih g fun i hi => blank i (Nat.lt_succ_of_lt hi), List.range_succ,
        List.filter_append]
      simp [hm]
    · have slot := blank n (Nat.lt_succ_self n) hm
      have lt : n < g.nodes.size := (Array.getElem?_eq_some_iff.mp slot).1
      have same : g.nodes.setIfInBounds n .placeholder = g.nodes := by
        apply Array.ext_getElem?
        intro i
        by_cases hi : n = i
        · rw [← hi, Array.getElem?_setIfInBounds_self_of_lt lt, slot]
        · exact Array.getElem?_setIfInBounds_ne hi
      have reclaimed : g.reclaim n = .ok { g with free := n :: g.free } := by
        unfold reclaim node
        rw [slot]
        simp only [bind, Except.bind, Node.placeholder, pure, Except.pure]
        simp only [setNode]
        exact congrArg (fun nodes => Except.ok { g with nodes := nodes, free := n :: g.free }) same
      rw [if_neg hm, reclaimed]
      refine (ih { g with free := n :: g.free } fun i hi => blank i (Nat.lt_succ_of_lt hi)).trans ?_
      rw [List.range_succ, List.filter_append]
      simp [hm]

theorem Collected.again (c : g.Collected roots g') (closed : g.Closed roots) :
    g'.collect roots = .ok (0, g') := by
  obtain ⟨marks, hm, -, reach⟩ := marked_exact (c.intact.closed closed)
  have unmarked : ∀ i : NodeId, marks[i]? ≠ some true ↔ ¬ g.Reach roots i :=
    fun i => not_congr ((reach i).trans c.intact.reach_iff)
  have swept := sweepBelow_blank marks g'.capacity { g' with free := [] } fun i hi hu =>
    c.swept i (c.capacity ▸ hi) ((unmarked i).mp hu)
  -- both lists have the same members in the same order
  have free : (List.range g'.capacity).filter (fun i => marks[i]? != some true) = g'.free := by
    refine List.Perm.eq_of_pairwise' (List.pairwise_lt_range.filter _) c.sorted ?_
    refine (List.perm_ext_iff_of_nodup (List.nodup_range.filter _)
      (c.sorted.imp Nat.ne_of_lt)).mpr fun i => ?_
    rw [List.mem_filter, List.mem_range, c.free, c.capacity, ← unmarked]
    simp
  rw [List.append_nil, free] at swept
  simp only [collect, hm, swept, bind, Except.bind, pure, Except.pure, Nat.sub_self]

/-- Slots 0 and 1 lead to each other. Slot 2 leads to them and has a block too; slot 3 is free. -/
def circle : Graph where
  nodes := #[⟨.forward, Builtin.forward, 0, .inline (some 1) none⟩, ⟨.operation, 20, 0, .pooled ⟨3, 1⟩⟩,
    ⟨.operation, 20, 0, .pooled ⟨3, 0⟩⟩, .placeholder]
  free := [3]
  pools := #[.empty 0, .empty 1, .empty 2,
    ⟨3, #[[some 2, some 1, some 0], [some 0, some 1, some 0]], []⟩]
  growNodes := 0
  maxNodes := 4

end Graph

end ChoiceGraph
