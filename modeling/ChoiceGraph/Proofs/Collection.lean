import ChoiceGraph.Graph.Collector
import ChoiceGraph.Proofs.Storage

/-! # What a collection keeps

A slot is reached when a chain of stored links leads to it from a root. If every reached slot
stores links to slots that exist, a collection frees the slots that are not reached and no other,
and what the reached ones hold stays the same. The graph may have circles. -/
namespace ChoiceGraph.Graph

variable {g g' : Graph} {i j : NodeId} {b : BlockId} {roots : List Link} {c : Content}

def Edge (g : Graph) (i j : NodeId) : Prop :=
  ∃ ls, g.storedSuccessors i = .ok ls ∧ some j ∈ ls

inductive Reach (g : Graph) (roots : List Link) : NodeId → Prop where
  | root {i : NodeId} : some i ∈ roots → Reach g roots i
  | step {i j : NodeId} : Reach g roots i → g.Edge i j → Reach g roots j

/-- Every reached slot exists and stores no empty link. -/
def Closed (g : Graph) (roots : List Link) : Prop :=
  ∀ i, g.Reach roots i → ∃ ls : List NodeId, g.storedSuccessors i = .ok (ls.map some)

theorem edge_of_content (h : g.content? i = some c) : g.Edge i j ↔ j ∈ c.links := by
  have stored := storedSuccessors_of_content h
  constructor
  · rintro ⟨ls, hl, hj⟩
    cases stored.symm.trans hl
    obtain ⟨k, hk, same⟩ := List.mem_map.mp hj
    cases same
    exact hk
  · exact fun hj => ⟨_, stored, List.mem_map_of_mem hj⟩

theorem lt_of_stored {ls : List Link} (h : g.storedSuccessors i = .ok ls) : i < g.capacity := by
  unfold storedSuccessors node at h
  cases hn : g.nodes[i]? with
  | none => rw [hn] at h; cases h
  | some n => exact (Array.getElem?_eq_some_iff.mp hn).1

theorem Reach.mono {roots' : List Link} (h : g.Reach roots i) (sub : roots ⊆ roots') :
    g.Reach roots' i := by
  induction h with
  | root hi => exact .root (sub hi)
  | step _ hj ih => exact .step ih hj

/-! ## Marking -/

/-- The marks set so far, with what is still pending, on the way to marking what is reached. -/
structure Marking (g : Graph) (roots : List Link) (marks : Array Bool) (pending : List NodeId) :
    Prop where
  size : marks.size = g.capacity
  marked : ∀ i : NodeId, marks[i]? = some true → g.Reach roots i
  found : ∀ i ∈ pending, g.Reach roots i
  rooted : ∀ i, some i ∈ roots → marks[i]? = some true ∨ i ∈ pending
  edges : ∀ i j : NodeId, marks[i]? = some true → g.Edge i j → marks[j]? = some true ∨ j ∈ pending

private theorem mem_dropWhile_or {α : Type} {p : α → Bool} {x : α} {l : List α} (h : x ∈ l) :
    p x = true ∨ x ∈ l.dropWhile p := by
  induction l with
  | nil => exact absurd h List.not_mem_nil
  | cons a l ih =>
    by_cases ha : p a = true
    · rw [List.dropWhile_cons_of_pos ha]
      rcases List.mem_cons.mp h with rfl | h
      · exact .inl ha
      · exact ih h
    · rw [List.dropWhile_cons_of_neg ha]
      exact .inr h

theorem Marking.skip {marks : Array Bool} {pending : List NodeId}
    (h : g.Marking roots marks pending) :
    g.Marking roots marks (pending.dropWhile fun i => marks[i]? == some true) where
  size := h.size
  marked := h.marked
  found i hi := h.found i (List.dropWhile_subset _ hi)
  rooted i hi := by
    rcases h.rooted i hi with hm | hp
    · exact .inl hm
    · rcases mem_dropWhile_or (p := fun i => marks[i]? == some true) hp with hm | hp
      · exact .inl (by simpa using hm)
      · exact .inr hp
  edges i j hi hij := by
    rcases h.edges i j hi hij with hm | hp
    · exact .inl hm
    · rcases mem_dropWhile_or (p := fun i => marks[i]? == some true) hp with hm | hp
      · exact .inl (by simpa using hm)
      · exact .inr hp

theorem Marking.mark {marks : Array Bool} {rest ls : List NodeId}
    (h : g.Marking roots marks (i :: rest)) (stored : g.storedSuccessors i = .ok (ls.map some)) :
    g.Marking roots (marks.setIfInBounds i true) (ls ++ rest) := by
  have lt : i < marks.size := h.size ▸ lt_of_stored stored
  have here : (marks.setIfInBounds i true)[i]? = some true :=
    Array.getElem?_setIfInBounds_self_of_lt lt
  have there : ∀ j : NodeId, j ≠ i → (marks.setIfInBounds i true)[j]? = marks[j]? :=
    fun j hj => Array.getElem?_setIfInBounds_ne (Ne.symm hj)
  have grown : ∀ j : NodeId, (marks[j]? = some true ∨ j ∈ i :: rest) →
      (marks.setIfInBounds i true)[j]? = some true ∨ j ∈ ls ++ rest := by
    intro j hj
    by_cases hji : j = i
    · exact .inl (hji ▸ here)
    · rcases hj with hj | hj
      · exact .inl ((there j hji).trans hj)
      · rcases List.mem_cons.mp hj with rfl | hj
        · exact absurd rfl hji
        · exact .inr (List.mem_append_right _ hj)
  have reached : g.Reach roots i := h.found i List.mem_cons_self
  refine ⟨by simpa using h.size, fun j hj => ?_, fun j hj => ?_, fun j hj => grown j (h.rooted j hj),
    fun j k hj hjk => ?_⟩
  · by_cases hji : j = i
    · exact hji ▸ reached
    · exact h.marked j ((there j hji).symm.trans hj)
  · rcases List.mem_append.mp hj with hj | hj
    · exact reached.step ⟨_, stored, List.mem_map_of_mem hj⟩
    · exact h.found j (List.mem_cons_of_mem _ hj)
  · by_cases hji : j = i
    · subst hji
      obtain ⟨ls', hl, hk⟩ := hjk
      cases stored.symm.trans hl
      obtain ⟨k', hk', same⟩ := List.mem_map.mp hk
      cases same
      exact .inr (List.mem_append_left _ hk')
    · exact grown k (h.edges j k ((there j hji).symm.trans hj) hjk)

theorem Marking.done {marks : Array Bool} (h : g.Marking roots marks []) :
    marks[i]? = some true ↔ g.Reach roots i := by
  refine ⟨h.marked i, fun hi => ?_⟩
  induction hi with
  | root hi => exact (h.rooted _ hi).resolve_right List.not_mem_nil
  | step _ hij ih => exact (h.edges _ _ ih hij).resolve_right List.not_mem_nil

private theorem count_mark {marks : Array Bool} (lt : i < marks.size) (h : marks[i]? ≠ some true) :
    (marks.setIfInBounds i true).count false + 1 = marks.count false := by
  have unmarked : marks[i] = false := by
    rw [Array.getElem?_eq_getElem lt] at h
    simpa using h
  have positive : 0 < marks.count false :=
    Array.count_pos_iff.mpr (unmarked ▸ Array.getElem_mem lt)
  rw [Array.setIfInBounds, dif_pos lt, Array.count_set lt, unmarked]
  simp
  omega

/-- More rounds than there are unmarked slots suffice. -/
theorem markFrom_exact (closed : g.Closed roots) : ∀ (rounds : Nat) (marks : Array Bool)
    (pending : List NodeId), g.Marking roots marks pending → marks.count false < rounds →
    ∃ marks', g.markFrom rounds marks pending = .ok marks' ∧ marks'.size = g.capacity ∧
      ∀ i : NodeId, marks'[i]? = some true ↔ g.Reach roots i := by
  intro rounds
  induction rounds with
  | zero => exact fun _ _ _ few => absurd few (Nat.not_lt_zero _)
  | succ rounds ih =>
    intro marks pending h few
    unfold markFrom
    have h' := h.skip
    cases hp : pending.dropWhile (fun i => marks[i]? == some true) with
    | nil =>
      rw [hp] at h'
      exact ⟨marks, rfl, h.size, fun i => h'.done⟩
    | cons i rest =>
      rw [hp] at h'
      obtain ⟨ls, stored⟩ := closed i (h'.found i List.mem_cons_self)
      have unmarked : marks[i]? ≠ some true := by
        have := List.head?_dropWhile_not (fun i => marks[i]? == some true) pending
        rw [hp] at this
        simpa using this
      have fewer := count_mark (h.size ▸ lt_of_stored stored) unmarked
      obtain ⟨marks', run, exact_⟩ := ih _ _ (h'.mark stored) (by omega)
      refine ⟨marks', ?_, exact_⟩
      have full : (ls.map some).any Option.isNone = false := by simp
      have same : (ls.map some).filterMap id = ls := by simp
      simp only [stored, bind, Except.bind, full, same]
      exact run

theorem marking_begins (g : Graph) (roots : List Link) :
    g.Marking roots (Array.replicate g.capacity false) (roots.filterMap id) := by
  have unmarked : ∀ i : NodeId, (Array.replicate g.capacity false)[i]? ≠ some true := by
    intro i
    rw [Array.getElem?_replicate]
    split <;> simp
  refine ⟨Array.size_replicate, fun i hi => absurd hi (unmarked i), fun i hi => ?_,
    fun i hi => .inr ?_, fun i _ hi => absurd hi (unmarked i)⟩
  · obtain ⟨l, hl, rfl⟩ := List.mem_filterMap.mp hi
    exact .root hl
  · exact List.mem_filterMap.mpr ⟨some i, hi, rfl⟩

private theorem marking_few (g : Graph) : (Array.replicate g.capacity false).count false < g.capacity + 1 := by
  have : (Array.replicate g.capacity false).count false ≤ _ := Array.count_le_size
  simp only [Array.size_replicate] at this
  omega

theorem marked_exact (closed : g.Closed roots) :
    ∃ marks, g.marked roots = .ok marks ∧ marks.size = g.capacity ∧
      ∀ i : NodeId, marks[i]? = some true ↔ g.Reach roots i :=
  markFrom_exact closed _ _ _ (marking_begins g roots) (marking_few g)

private theorem some_of_full {links : List Link} (full : ¬ links.any Option.isNone = true) :
    (links.filterMap id).map some = links := by
  induction links with
  | nil => rfl
  | cons l links ih =>
    cases l with
    | none => exact absurd rfl full
    | some i => exact congrArg (some i :: ·) (ih full)

/-- A marking that goes through has found every reached slot, and no empty link in any of them. -/
private theorem closed_of_markFrom : ∀ (rounds : Nat) (marks marks' : Array Bool) (pending : List NodeId),
    g.Marking roots marks pending →
    (∀ i : NodeId, marks[i]? = some true → ∃ ls : List NodeId, g.storedSuccessors i = .ok (ls.map some)) →
    marks.count false < rounds → g.markFrom rounds marks pending = .ok marks' → g.Closed roots := by
  intro rounds
  induction rounds with
  | zero => exact fun _ _ _ _ _ few => absurd few (Nat.not_lt_zero _)
  | succ rounds ih =>
    intro marks marks' pending h stored few run
    unfold markFrom at run
    have h' := h.skip
    cases hp : pending.dropWhile (fun i => marks[i]? == some true) with
    | nil =>
      rw [hp] at h'
      exact fun i hi => stored i (h'.done.mpr hi)
    | cons i rest =>
      rw [hp] at h' run
      have unmarked : marks[i]? ≠ some true := by
        have := List.head?_dropWhile_not (fun i => marks[i]? == some true) pending
        rw [hp] at this
        simpa using this
      cases read : g.storedSuccessors i with
      | error e =>
        simp only [read, bind, Except.bind] at run
        cases run
      | ok links =>
        simp only [read, bind, Except.bind] at run
        split at run
        · cases run
        next full =>
        have same := some_of_full full
        have fewer := count_mark (h.size ▸ lt_of_stored read) unmarked
        refine ih _ marks' _ (h'.mark (same.symm ▸ read)) (fun j hj => ?_) (by omega) run
        by_cases here : j = i
        · exact here ▸ ⟨_, same.symm ▸ read⟩
        · exact stored j ((Array.getElem?_setIfInBounds_ne (Ne.symm here)).symm.trans hj)

theorem closed_of_marked {marks : Array Bool} (run : g.marked roots = .ok marks) : g.Closed roots := by
  have begun := marking_begins g roots
  refine closed_of_markFrom _ _ marks _ begun (fun i hi => ?_) (marking_few g) run
  rw [Array.getElem?_replicate] at hi
  split at hi
  · cases hi
  · cases hi

/-! ## Sweeping -/

/-- Whatever pool there is for this arity keeps its free blocks apart. -/
def PoolSound (g : Graph) (k : Nat) : Prop := ∀ p, g.pools[k]? = some p → p.Sound

/-- A block that a node owns is handed out, and to no other node. -/
structure Tenancy (g : Graph) : Prop where
  in_use : ∀ i b, g.Owns i b → g.InUse b
  alone : ∀ i j b, g.Owns i b → g.Owns j b → i = j

/-- The same of the nodes of one kind only. -/
structure TenancyOf (g : Graph) (P : NodeId → Prop) : Prop where
  in_use : ∀ i b, P i → g.Owns i b → g.InUse b
  alone : ∀ i j b, P i → P j → g.Owns i b → g.Owns j b → i = j

theorem Sound.tenancy (h : g.Sound) : g.Tenancy := ⟨h.in_use, h.alone⟩

/-- A block was given back. -/
structure Releases (g : Graph) (b : BlockId) (g' : Graph) : Prop where
  nodes : g'.nodes = g.nodes
  free : g'.free = g.free
  grow : g'.growNodes = g.growNodes
  max : g'.maxNodes = g.maxNodes
  pools : g'.pools.size = g.pools.size
  sound : ∀ k, g.PoolSound k → g'.PoolSound k
  freed : ¬ g'.InUse b
  others : ∀ b', b' ≠ b → (g'.InUse b' ↔ g.InUse b') ∧ g'.block? b' = g.block? b'

theorem releaseBlock_releases (used : g.InUse b) :
    ∃ g', g.releaseBlock? b = some g' ∧ g.Releases b g' := by
  obtain ⟨p, hp, lt, unfree⟩ := used
  let p' : BlockPool := { p with
    blocks := p.blocks.setIfInBounds b.index (List.replicate p.arity none)
    free := b.index :: p.free }
  have released : p.release? b.index = some p' := if_pos lt
  have here : (g.modifyPool b.arity p').pools[b.arity]? = some p' := modifyPool_get hp
  refine ⟨g.modifyPool b.arity p', ?_, rfl, rfl, rfl, rfl, by simp [modifyPool],
    fun k sound q hq => ?_, ?_, fun b' hne => ?_⟩
  · simp only [releaseBlock?, hp, released, Option.bind_eq_bind, Option.bind_some]
    rfl
  · by_cases hk : k = b.arity
    · subst hk
      cases here.symm.trans hq
      exact (sound p hp).release unfree released
    · exact sound q ((modifyPool_get_ne hk).symm.trans hq)
  · rintro ⟨q, hq, -, used⟩
    cases here.symm.trans hq
    exact used List.mem_cons_self
  · by_cases ha : b'.arity = b.arity
    · have hi : b.index ≠ b'.index := fun hi => hne (by cases b; cases b'; simp_all)
      constructor
      · constructor
        · rintro ⟨q, hq, lt', used⟩
          rw [ha] at hq
          cases here.symm.trans hq
          exact ⟨p, ha ▸ hp, by simpa [p'] using lt', fun hf => used (List.mem_cons_of_mem _ hf)⟩
        · rintro ⟨q, hq, lt', used⟩
          rw [ha, hp] at hq
          cases hq
          refine ⟨p', ha ▸ here, by simpa [p'] using lt', fun hf => ?_⟩
          rcases List.mem_cons.mp hf with hf | hf
          · exact hi hf.symm
          · exact used hf
      · simp only [block?, ha, here, hp, Option.bind_eq_bind, Option.bind_some]
        exact Array.getElem?_setIfInBounds_ne hi
    · have pool : (g.modifyPool b.arity p').pools[b'.arity]? = g.pools[b'.arity]? :=
        modifyPool_get_ne ha
      exact ⟨by simp only [InUse, pool], by simp only [block?, pool]⟩

/-- A slot gave back its block and is blank and free. -/
structure Reclaims (g : Graph) (i : NodeId) (g' : Graph) : Prop where
  free : g'.free = i :: g.free
  capacity : g'.capacity = g.capacity
  grow : g'.growNodes = g.growNodes
  max : g'.maxNodes = g.maxNodes
  pools : g'.pools.size = g.pools.size
  blank : g'.nodes[i]? = some .placeholder
  others : ∀ j, j ≠ i → g'.nodes[j]? = g.nodes[j]?
  sound : ∀ k, g.PoolSound k → g'.PoolSound k
  freed : ∀ b, g.Owns i b → ¬ g'.InUse b
  blocks : ∀ b, ¬ g.Owns i b → (g'.InUse b ↔ g.InUse b) ∧ g'.block? b = g.block? b

theorem reclaim_reclaims (lt : i < g.capacity) (held : ∀ b, g.Owns i b → g.InUse b) :
    ∃ g', g.reclaim i = .ok g' ∧ g.Reclaims i g' := by
  have there : ∀ j, j ≠ i → (g.nodes.setIfInBounds i .placeholder)[j]? = g.nodes[j]? :=
    fun j hj => Array.getElem?_setIfInBounds_ne (Ne.symm hj)
  have slot : g.nodes[i]? = some g.nodes[i] := Array.getElem?_eq_getElem lt
  -- a slot without a block
  have plain : (∀ b, ¬ g.Owns i b) → g.Reclaims i
      { g.setNode i .placeholder with free := i :: g.free } := fun none =>
    ⟨rfl, by simp [capacity, setNode], rfl, rfl, rfl, Array.getElem?_setIfInBounds_self_of_lt lt,
      there, fun _ sound => sound, fun b owned => absurd owned (none b), fun _ _ => ⟨.rfl, rfl⟩⟩
  have owns : ∀ b, g.Owns i b → g.nodes[i].slots = .pooled b := by
    rintro b ⟨n, hn, hs⟩
    cases slot.symm.trans hn
    exact hs
  unfold reclaim
  rw [node_of_lt lt]
  cases hs : g.nodes[i].slots with
  | inline a b =>
    refine ⟨_, by simp only [bind, Except.bind, hs]; rfl, plain fun b owned => ?_⟩
    cases hs.symm.trans (owns b owned)
  | data l =>
    refine ⟨_, by simp only [bind, Except.bind, hs]; rfl, plain fun b owned => ?_⟩
    cases hs.symm.trans (owns b owned)
  | pooled b =>
    have owned : g.Owns i b := ⟨_, slot, hs⟩
    have only : ∀ b', g.Owns i b' → b' = b := by
      intro b' owned'
      cases hs.symm.trans (owns b' owned')
      rfl
    obtain ⟨g', run, r⟩ := releaseBlock_releases (held b owned)
    refine ⟨{ g'.setNode i .placeholder with free := i :: g'.free },
      by simp only [bind, Except.bind, hs, run]; rfl, ?_⟩
    refine ⟨by rw [r.free], by simp [capacity, setNode, r.nodes], r.grow, r.max, r.pools, ?_, ?_,
      r.sound, fun b' owned' => ?_, fun b' foreign => ?_⟩
    · simp only [setNode, r.nodes]
      exact Array.getElem?_setIfInBounds_self_of_lt lt
    · simpa only [setNode, r.nodes] using there
    · exact only b' owned' ▸ r.freed
    · exact r.others b' fun same => foreign (same ▸ owned)

theorem Reclaims.owns (r : g.Reclaims i g') (owned : g'.Owns j b) : j ≠ i ∧ g.Owns j b := by
  obtain ⟨n, hn, hs⟩ := owned
  have hj : j ≠ i := by
    rintro rfl
    cases r.blank.symm.trans hn
    cases hs
  exact ⟨hj, n, (r.others j hj).symm.trans hn, hs⟩

theorem Reclaims.tenancyOf {P : NodeId → Prop} (r : g.Reclaims i g') (h : g.TenancyOf P) (hi : P i) :
    g'.TenancyOf P where
  in_use j b hj owned := by
    obtain ⟨apart, owned⟩ := r.owns owned
    have foreign : ¬ g.Owns i b := fun owned' => apart (h.alone j i b hj hi owned owned')
    exact (r.blocks b foreign).1.mpr (h.in_use j b hj owned)
  alone j k b hj hk oj ok := h.alone j k b hj hk (r.owns oj).2 (r.owns ok).2

/-- The slots below `n` that are not marked were reclaimed. -/
structure Swept (g : Graph) (marks : Array Bool) (n : Nat) (g' : Graph) : Prop where
  capacity : g'.capacity = g.capacity
  grow : g'.growNodes = g.growNodes
  max : g'.maxNodes = g.maxNodes
  pools : g'.pools.size = g.pools.size
  free : g'.free = (List.range n).filter (fun i => marks[i]? != some true) ++ g.free
  kept : ∀ i : NodeId, n ≤ i ∨ marks[i]? = some true → g'.nodes[i]? = g.nodes[i]?
  swept : ∀ i : NodeId, i < n → marks[i]? ≠ some true → g'.nodes[i]? = some .placeholder
  sound : ∀ k, g.PoolSound k → g'.PoolSound k
  freed : ∀ (i : NodeId) b, i < n → marks[i]? ≠ some true → g.Owns i b → ¬ g'.InUse b
  blocks : ∀ b, (∀ i : NodeId, i < n → marks[i]? ≠ some true → ¬ g.Owns i b) →
    (g'.InUse b ↔ g.InUse b) ∧ g'.block? b = g.block? b

theorem sweepBelow_swept (marks : Array Bool) : ∀ (n : Nat) (g : Graph),
    g.TenancyOf (fun i => marks[i]? ≠ some true) → n ≤ g.capacity → ∃ g', sweepBelow marks n g = .ok g' ∧ g.Swept marks n g' := by
  intro n
  induction n with
  | zero =>
    intro g _ _
    exact ⟨g, rfl, rfl, rfl, rfl, rfl, rfl, fun _ _ => rfl, fun i hi => absurd hi (Nat.not_lt_zero i),
      fun _ sound => sound, fun i _ hi => absurd hi (Nat.not_lt_zero i), fun _ _ => ⟨.rfl, rfl⟩⟩
  | succ n ih =>
    intro g h le
    unfold sweepBelow
    by_cases hm : marks[n]? = some true
    · obtain ⟨g', run, s⟩ := ih g h (by omega)
      have below : ∀ i : NodeId, i < n + 1 → marks[i]? ≠ some true → i < n := by
        intro i hi hu
        rcases Nat.lt_succ_iff_lt_or_eq.mp hi with hi | rfl
        · exact hi
        · exact absurd hm hu
      refine ⟨g', by rw [if_pos hm]; exact run,
        { s with free := ?_, kept := fun i hi => ?_, swept := fun i hi hu => ?_,
                 freed := fun i b hi hu => ?_, blocks := fun b foreign => ?_ }⟩
      · rw [s.free, List.range_succ, List.filter_append]
        simp [hm]
      · exact s.kept i (hi.imp_left (by omega))
      · exact s.swept i (below i hi hu) hu
      · exact s.freed i b (below i hi hu) hu
      · exact s.blocks b fun i hi => foreign i (Nat.lt_succ_of_lt hi)
    · obtain ⟨g₁, reclaimed, r⟩ := reclaim_reclaims le fun b => h.in_use n b hm
      have le' : n ≤ g₁.capacity := by
        rw [r.capacity]
        exact Nat.le_of_succ_le le
      obtain ⟨g', run, s⟩ := ih g₁ (r.tenancyOf h hm) le'
      refine ⟨g', by rw [if_neg hm, reclaimed]; exact run, s.capacity.trans r.capacity,
        s.grow.trans r.grow, s.max.trans r.max, s.pools.trans r.pools, ?_, fun i hi => ?_,
        fun i hi hu => ?_, fun k sound => s.sound k (r.sound k sound), fun i b hi hu owned => ?_,
        fun b foreign => ?_⟩
      · rw [s.free, r.free, List.range_succ, List.filter_append]
        simp [hm]
      · have hin : i ≠ n := by
          rintro rfl
          exact absurd (hi.resolve_left (by omega)) hm
        rw [s.kept i (hi.imp_left (by omega)), r.others i hin]
      · rcases Nat.lt_succ_iff_lt_or_eq.mp hi with hi | rfl
        · exact s.swept i hi hu
        · rw [s.kept i (.inl (Nat.le_refl i)), r.blank]
      · rcases Nat.lt_succ_iff_lt_or_eq.mp hi with hi | rfl
        · have kept : g₁.Owns i b := by
            obtain ⟨m, hn, hs⟩ := owned
            exact ⟨m, (r.others i (Nat.ne_of_lt hi)).trans hn, hs⟩
          exact s.freed i b hi hu kept
        · -- the block stays free, since no other slot owned it
          have gone : ∀ j : NodeId, j < i → marks[j]? ≠ some true → ¬ g₁.Owns j b := by
            intro j hj free owned'
            exact absurd (h.alone j i b free hu (r.owns owned').2 owned) (r.owns owned').1
          rw [(s.blocks b gone).1]
          exact r.freed b owned
      · have later := s.blocks b fun i hi hu owned => foreign i (Nat.lt_succ_of_lt hi) hu (r.owns owned).2
        have first := r.blocks b (foreign n (Nat.lt_succ_self n) hm)
        exact ⟨later.1.trans first.1, later.2.trans first.2⟩

/-- What is reached stays, and every other slot is free and blank and has given back its block. -/
structure Collected (g : Graph) (roots : List Link) (g' : Graph) : Prop where
  capacity : g'.capacity = g.capacity
  grow : g'.growNodes = g.growNodes
  max : g'.maxNodes = g.maxNodes
  pools : g'.pools.size = g.pools.size
  free : ∀ i, i ∈ g'.free ↔ i < g.capacity ∧ ¬ g.Reach roots i
  sorted : g'.free.Pairwise (· < ·)
  node : ∀ i, g.Reach roots i → g'.nodes[i]? = g.nodes[i]?
  swept : ∀ i < g.capacity, ¬ g.Reach roots i → g'.nodes[i]? = some .placeholder
  sound : ∀ k, g.PoolSound k → g'.PoolSound k
  block : ∀ i b, g.Reach roots i → g.Owns i b → g'.block? b = g.block? b
  in_use : ∀ b, g'.InUse b ↔ g.InUse b ∧ ∀ i, g.Owns i b → g.Reach roots i

theorem collect_exact (h : g.Tenancy) (closed : g.Closed roots) : ∃ g',
    g.collect roots = .ok (g'.free.length - g.free.length, g') ∧ g.Collected roots g' := by
  obtain ⟨marks, hm, -, reach⟩ := marked_exact closed
  obtain ⟨g', run, s⟩ := sweepBelow_swept marks g.capacity { g with free := [] }
    ⟨fun i b _ => h.in_use i b, fun i j b _ _ => h.alone i j b⟩ (Nat.le_refl _)
  have unmarked : ∀ i : NodeId, marks[i]? ≠ some true ↔ ¬ g.Reach roots i :=
    fun i => not_congr (reach i)
  have lt : ∀ {i b}, g.Owns i b → i < g.capacity :=
    fun ⟨_, hn, _⟩ => (Array.getElem?_eq_some_iff.mp hn).1
  -- a block is left alone unless a slot that is not reached owns it
  have keeps : ∀ b, (∀ i, g.Owns i b → g.Reach roots i) →
      (g'.InUse b ↔ g.InUse b) ∧ g'.block? b = g.block? b := fun b reached =>
    s.blocks b fun i _ hu owned => (unmarked i).mp hu (reached i owned)
  refine ⟨g', ?_, s.capacity, s.grow, s.max, s.pools, fun i => ?_, ?_, fun i hi => ?_,
    fun i hi hu => ?_, s.sound, fun i b hi owned => ?_, fun b => ⟨fun used => ⟨?_, fun i owned => ?_⟩,
      fun ⟨used, reached⟩ => (keeps b reached).1.mpr used⟩⟩
  · simp only [collect, hm, run, bind, Except.bind]
    rfl
  · rw [s.free, List.append_nil, List.mem_filter, List.mem_range, ← reach i]
    simp
  · rw [s.free, List.append_nil]
    exact List.pairwise_lt_range.filter _
  · exact s.kept i (.inr ((reach i).mpr hi))
  · exact s.swept i hi ((unmarked i).mpr hu)
  · exact (keeps b fun j owned' => h.alone i j b owned owned' ▸ hi).2
  · by_contra unused
    refine absurd used ((not_congr (keeps b fun i owned => ?_).1).mpr unused)
    exact absurd (h.in_use i b owned) unused
  · by_contra hu
    exact s.freed i b (lt owned) ((unmarked i).mpr hu) owned used

namespace Collected

theorem owns (c : g.Collected roots g') (owned : g'.Owns i b) : g.Reach roots i ∧ g.Owns i b := by
  obtain ⟨n, hn, hs⟩ := owned
  have lt : i < g.capacity := c.capacity ▸ (Array.getElem?_eq_some_iff.mp hn).1
  by_cases hi : g.Reach roots i
  · exact ⟨hi, n, (c.node i hi).symm.trans hn, hs⟩
  · cases (c.swept i lt hi).symm.trans hn
    cases hs

theorem tenancy (c : g.Collected roots g') (h : g.Tenancy) : g'.Tenancy where
  in_use i b owned := by
    obtain ⟨hi, owned⟩ := c.owns owned
    exact (c.in_use b).mpr ⟨h.in_use i b owned, fun j owned' => h.alone i j b owned owned' ▸ hi⟩
  alone i j b oi oj := h.alone i j b (c.owns oi).2 (c.owns oj).2

theorem storage (c : g.Collected roots g') (h : g.Sound) : g'.Sound where
  free_nodup := c.sorted.imp Nat.ne_of_lt
  free_lt i hi := c.capacity ▸ ((c.free i).mp hi).1
  pools p hp := by
    obtain ⟨k, lt, rfl⟩ := Array.getElem_of_mem hp
    exact c.sound k (fun q hq => h.pools q (Array.mem_of_getElem? hq)) _ (Array.getElem?_eq_getElem lt)
  in_use := (c.tenancy h.tenancy).in_use
  alone := (c.tenancy h.tenancy).alone

theorem content (c : g.Collected roots g') (hi : g.Reach roots i) : g'.content? i = g.content? i :=
  content_congr (c.node i hi) fun b owned => c.block i b hi owned

end Collected

/-- What is reached is the same, down to the cells of its blocks. -/
structure Intact (g : Graph) (roots : List Link) (g' : Graph) : Prop where
  node : ∀ i, g.Reach roots i → g'.nodes[i]? = g.nodes[i]?
  block : ∀ i b, g.Reach roots i → g.Owns i b → g'.block? b = g.block? b

theorem Collected.intact (c : g.Collected roots g') : g.Intact roots g' := ⟨c.node, c.block⟩

namespace Intact

theorem stored (c : g.Intact roots g') (hi : g.Reach roots i) :
    g'.storedSuccessors i = g.storedSuccessors i := by
  unfold storedSuccessors Graph.node
  rw [c.node i hi]
  cases hn : g.nodes[i]? with
  | none => rfl
  | some n =>
    show g'.storedLinks n = g.storedLinks n
    unfold storedLinks
    cases hs : n.slots with
    | inline a b => rfl
    | data l => rfl
    | pooled b => simp only [Graph.block, c.block i b hi ⟨n, hn, hs⟩]

theorem reach_iff (c : g.Intact roots g') : g'.Reach roots i ↔ g.Reach roots i := by
  have edge : ∀ {i j}, g.Reach roots i → (g'.Edge i j ↔ g.Edge i j) := fun hi => by
    unfold Edge
    rw [c.stored hi]
  constructor
  · intro h
    induction h with
    | root hi => exact .root hi
    | step _ hij ih => exact .step ih ((edge ih).mp hij)
  · intro h
    induction h with
    | root hi => exact .root hi
    | step hi hij ih => exact .step ih ((edge hi).mpr hij)

theorem closed (c : g.Intact roots g') (closed : g.Closed roots) : g'.Closed roots := by
  intro i hi
  have hi := c.reach_iff.mp hi
  rw [c.stored hi]
  exact closed i hi

theorem trans {g'' : Graph} (c : g.Intact roots g') (c' : g'.Intact roots g'') :
    g.Intact roots g'' where
  node i hi := (c'.node i (c.reach_iff.mpr hi)).trans (c.node i hi)
  block i b hi owned := by
    have owned' : g'.Owns i b := by
      obtain ⟨n, hn, hs⟩ := owned
      exact ⟨n, (c.node i hi).trans hn, hs⟩
    exact (c'.block i b (c.reach_iff.mpr hi) owned').trans (c.block i b hi owned)

end Intact

/-! ## Handing out slots -/

theorem hasFree_iff {n : Nat} : g.hasFree n = true ↔ n ≤ g.free.length := by
  simp only [hasFree, beq_iff_eq, List.length_take]
  omega

private theorem blank_all (nodes : Array Node) : ∀ (ids : List NodeId) (i : NodeId),
    (∀ j ∈ ids, j < nodes.size) →
    (ids.foldl (fun nodes i => nodes.setIfInBounds i .placeholder) nodes)[i]? =
      if i ∈ ids then some .placeholder else nodes[i]? := by
  intro ids
  induction ids generalizing nodes with
  | nil => intro i _; simp
  | cons k ids ih =>
    intro i lt
    have step := ih (nodes.setIfInBounds k .placeholder) i
      (fun j hj => by simpa using lt j (List.mem_cons_of_mem _ hj))
    rw [List.foldl_cons, step]
    by_cases hk : i = k
    · subst hk
      have here := Array.getElem?_setIfInBounds_self_of_lt (a := Node.placeholder)
        (lt i List.mem_cons_self)
      simp [here]
    · rw [Array.getElem?_setIfInBounds_ne (Ne.symm hk)]
      simp [hk]

private theorem blank_size (nodes : Array Node) (ids : List NodeId) :
    (ids.foldl (fun nodes i => nodes.setIfInBounds i .placeholder) nodes).size = nodes.size := by
  induction ids generalizing nodes with
  | nil => rfl
  | cons k ids ih => rw [List.foldl_cons, ih, Array.size_setIfInBounds]

theorem afterTake_capacity (g : Graph) (n : Nat) : (g.afterTake n).capacity = g.capacity :=
  blank_size g.nodes (g.free.take n)

/-- Free slots were handed out, all of them blank. -/
structure Taken (g : Graph) (ids : List NodeId) (g' : Graph) : Prop where
  sound : g'.Sound
  capacity : g'.capacity = g.capacity
  grow : g'.growNodes = g.growNodes
  max : g'.maxNodes = g.maxNodes
  pools : g'.pools.size = g.pools.size
  split : g.free = ids ++ g'.free
  nodup : ids.Nodup
  blank : ∀ i ∈ ids, g'.content? i = some .blank
  kept : ∀ i, i ∉ ids → g'.content? i = g.content? i

theorem afterTake_node {n : Nat} (lt : ∀ j ∈ g.free, j < g.capacity) (i : NodeId) :
    (g.afterTake n).nodes[i]? = if i ∈ g.free.take n then some .placeholder else g.nodes[i]? :=
  blank_all g.nodes (g.free.take n) i fun j hj => lt j (List.mem_of_mem_take hj)

theorem afterTake_taken {n : Nat} (h : g.Sound) : g.Taken (g.free.take n) (g.afterTake n) := by
  have node := afterTake_node (n := n) h.free_lt
  have size := g.afterTake_capacity n
  have owns : ∀ i b, (g.afterTake n).Owns i b → g.Owns i b := by
    rintro i b ⟨m, hm, hs⟩
    have hm := (node i).symm.trans hm
    split at hm
    · cases hm
      cases hs
    · exact ⟨m, hm, hs⟩
  refine ⟨⟨h.free_nodup.sublist (List.drop_sublist _ _), fun i hi => ?_, h.pools,
    fun i b ob => h.in_use i b (owns i b ob),
    fun i j b oi oj => h.alone i j b (owns i b oi) (owns j b oj)⟩, size, rfl, rfl, rfl,
    (List.take_append_drop n g.free).symm, h.free_nodup.sublist (List.take_sublist _ _),
    fun i hi => ?_, fun i hi => ?_⟩
  · rw [size]
    exact h.free_lt i (List.mem_of_mem_drop hi)
  · apply content_eq_some.mpr
    exact ⟨_, (node i).trans (if_pos hi), rfl⟩
  · exact content_congr ((node i).trans (if_neg hi)) fun _ _ => rfl

/-- Slots were added in front of the free list. -/
structure Grown (g g' : Graph) : Prop where
  sound : g'.Sound
  capacity : g.capacity ≤ g'.capacity
  grow : g'.growNodes = g.growNodes
  max : g'.maxNodes = g.maxNodes
  pools : g'.pools.size = g.pools.size
  free : ∃ n, g'.free = List.range' g.capacity n ++ g.free
  kept : ∀ i < g.capacity, g'.content? i = g.content? i

theorem extend_grown {n : Nat} (h : g.Sound) : g.Grown (g.extend n) := by
  have size : (g.extend n).capacity = g.capacity + n := by
    simp only [capacity, extend, Array.size_append, Array.size_replicate]
  have old : ∀ i < g.capacity, (g.extend n).nodes[i]? = g.nodes[i]? :=
    fun i hi => Array.getElem?_append_left hi
  have owns : ∀ i b, (g.extend n).Owns i b → g.Owns i b := by
    rintro i b ⟨m, hm, hs⟩
    by_cases hi : i < g.capacity
    · exact ⟨m, (old i hi).symm.trans hm, hs⟩
    · rw [extend, Array.getElem?_append_right (Nat.le_of_not_lt hi), Array.getElem?_replicate] at hm
      split at hm
      · cases hm
        cases hs
      · cases hm
  have fresh : ∀ i ∈ List.range' g.capacity n, g.capacity ≤ i ∧ i < g.capacity + n :=
    fun i hi => List.mem_range'_1.mp hi
  refine ⟨⟨?_, fun i hi => ?_, h.pools, fun i b ob => h.in_use i b (owns i b ob),
    fun i j b oi oj => h.alone i j b (owns i b oi) (owns j b oj)⟩, by omega, rfl, rfl, rfl,
    ⟨n, rfl⟩, fun i hi => content_congr (old i hi) fun _ _ => rfl⟩
  · refine List.nodup_append.mpr ⟨List.nodup_range', h.free_nodup, fun i hi j hj => ?_⟩
    exact Nat.ne_of_gt (Nat.lt_of_lt_of_le (h.free_lt j hj) (fresh i hi).1)
  · rw [size]
    rcases List.mem_append.mp hi with hi | hi
    · exact (fresh i hi).2
    · exact Nat.lt_add_right n (h.free_lt i hi)

end ChoiceGraph.Graph
