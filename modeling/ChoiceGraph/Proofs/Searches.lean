import ChoiceGraph.Proofs.Reduction
import ChoiceGraph.Proofs.Views

/-! # Searches keep the machine

The scheduler moves frames about and replaces the node of the front one by a node that is live. A
search that ends takes its frames and its root with it. -/
namespace ChoiceGraph

namespace Cells

variable {α : Type} {s : Cells α} {h : Handle} {names : List Handle}

/-- A writer's own name may stand anywhere. -/
theorem CountedBy.write_perm {f : α → α} {names' : List Handle} (hs : s.CountedBy names)
    (hp : names.Perm (h :: names')) : (s.write h f).2.CountedBy ((s.write h f).1 :: names') ∧
      ∀ k ∈ names', (s.write h f).2.read? k = s.read? k :=
  ⟨(hs.perm hp).write.1, (hs.perm hp).write.2.2⟩

end Cells

namespace Computation

variable {c c' : Computation} {P Q : NodeId → Prop} {f : Frame} {rest : List Frame} {i : NodeId}

/-- Its cells are counted, and all that it roots has a property. -/
structure Sound (c : Computation) (P : NodeId → Prop) : Prop where
  counted : c.Counted
  nodes : ∀ f ∈ c.queue, ∃ i, f.node = some i ∧ P i
  bound : ∀ f ∈ c.queue, ∀ i ∈ (c.constraintsOf f).nodes, P i

theorem Sound.roots (h : c.Sound P) (hi : some i ∈ c.roots) : P i := by
  obtain ⟨f, hf, hi⟩ := mem_roots.mp hi
  rcases hi with hi | hi
  · obtain ⟨j, hj, hP⟩ := h.nodes f hf
    cases hi.symm.trans hj
    exact hP
  · exact h.bound f hf i hi

/-- The same frames in another order, with other nodes, allotments and marks. -/
theorem Sound.reorder (h : c.Sound P) {queue : List Frame}
    (fingerprints : (c.queue.map Frame.fingerprint).Perm (queue.map Frame.fingerprint))
    (constraints : (c.queue.map Frame.constraints).Perm (queue.map Frame.constraints))
    (nodes : ∀ f ∈ queue, ∃ i, f.node = some i ∧ P i) :
    ({ c with queue := queue } : Computation).Sound P where
  counted := ⟨h.counted.fingerprints.perm fingerprints, h.counted.stores.perm constraints⟩
  nodes := nodes
  bound f hf i hi := by
    have named : f.constraints ∈ c.queue.map Frame.constraints :=
      constraints.mem_iff.mpr (List.mem_map_of_mem hf)
    obtain ⟨g, hg, same⟩ := List.mem_map.mp named
    refine h.bound g hg i ?_
    unfold constraintsOf at *
    rw [same]
    exact hi

theorem Sound.release (h : c.Sound P) (hq : c.queue = f :: rest) :
    (({ c with queue := rest } : Computation).release f).Sound P := by
  obtain ⟨fingerprints, stores⟩ := h.counted
  rw [hq, List.map_cons] at fingerprints stores
  have mem : ∀ g ∈ rest, g ∈ c.queue := fun g hg => hq ▸ List.mem_cons_of_mem _ hg
  refine ⟨⟨fingerprints.release.1, stores.release.1⟩, fun g hg => h.nodes g (mem g hg),
    fun g hg i hi => h.bound g (mem g hg) i ?_⟩
  have same : (c.stores.release f.constraints).read? g.constraints = c.stores.read? g.constraints :=
    stores.release.2 g.constraints (List.mem_map_of_mem hg)
  simp only [constraintsOf, Computation.release, same] at hi ⊢
  exact hi

theorem Sound.dropFront (h : c.Sound P) : c.dropFront.Sound P := by
  unfold Computation.dropFront
  split
  · exact h
  · next f rest hq => exact h.release hq

theorem Sound.clear (h : c.Sound P) : c.clear.Sound P := by
  have step : ∀ (fs : List Frame) (c : Computation), c.queue = [] →
      c.fingerprints.CountedBy (fs.map Frame.fingerprint) →
      c.stores.CountedBy (fs.map Frame.constraints) →
      (fs.foldl Computation.release c).queue = [] ∧
        (fs.foldl Computation.release c).Counted := by
    intro fs
    induction fs with
    | nil =>
      intro c hq fingerprints stores
      refine ⟨hq, ?_, ?_⟩
      · rw [List.foldl_nil, hq]
        exact fingerprints
      · rw [List.foldl_nil, hq]
        exact stores
    | cons f fs ih =>
      intro c hq fingerprints stores
      exact ih (c.release f) hq fingerprints.release.1 stores.release.1
  obtain ⟨hq, counted⟩ := step c.queue { c with queue := [] } rfl h.counted.fingerprints
    h.counted.stores
  unfold Computation.clear
  refine ⟨counted, fun f hf => ?_, fun f hf => ?_⟩
  · rw [hq] at hf
    exact absurd hf List.not_mem_nil
  · rw [hq] at hf
    exact absurd hf List.not_mem_nil

theorem Sound.requeue (h : c.Sound P) (allotment : Nat) (suspended : Bool) :
    (c.requeue allotment suspended).Sound P := by
  unfold Computation.requeue
  split
  · exact h
  · next f rest hq =>
    have queue : ((c.putFrame 0 { f with allotment := allotment, suspended := suspended }).rotate) =
        { c with queue := rest ++ [{ f with allotment := allotment, suspended := suspended }] } := by
      simp only [putFrame, hq, List.set_cons_zero, rotate]
    rw [queue]
    refine h.reorder ?_ ?_ fun g hg => ?_
    · rw [hq, List.map_append, List.map_cons]
      exact (List.perm_append_singleton _ _).symm
    · rw [hq, List.map_append, List.map_cons]
      exact (List.perm_append_singleton _ _).symm
    · rcases List.mem_append.mp hg with hg | hg
      · exact h.nodes g (hq ▸ List.mem_cons_of_mem _ hg)
      · rw [List.mem_singleton.mp hg]
        exact h.nodes f (hq ▸ List.mem_cons_self)

/-- The front frame goes on at another node. -/
theorem Sound.setFront (h : c.Sound P) (hq : c.queue = f :: rest) (hi : P i) (suspended : Bool) :
    ({ c with queue := { f with node := some i, suspended := suspended } :: rest } :
      Computation).Sound P := by
  refine h.reorder ?_ ?_ fun g hg => ?_
  · rw [hq]
    exact .refl _
  · rw [hq]
    exact .refl _
  · rcases List.mem_cons.mp hg with rfl | hg
    · exact ⟨i, rfl, hi⟩
    · exact h.nodes g (hq ▸ List.mem_cons_of_mem _ hg)

theorem Sound.resolve (h : c.Sound P) {l r : NodeId} (hl : P l) (hr : P r) (id : ChoiceId)
    (allotment : Nat) : (c.resolve id (some l) (some r) allotment).2.Sound P := by
  cases hq : c.queue with
  | nil =>
    simp only [Computation.resolve, hq]
    exact h
  | cons f rest =>
    cases hd : (c.fingerprintOf f).decide (c.constraintsOf f) id with
    | conflict =>
      simp only [Computation.resolve, hq, hd]
      exact h.dropFront
    | taken side =>
      simp only [Computation.resolve, hq, hd]
      cases side
      · exact h.setFront hq hl false
      · exact h.setFront hq hr false
    | undecided =>
      simp only [Computation.resolve, hq, hd]
      -- both alternatives name the store of their parent, and each its own fingerprint
      obtain ⟨fingerprints, stores⟩ := h.counted
      rw [hq, List.map_cons] at fingerprints stores
      have shared := fingerprints.share List.mem_cons_self
      obtain ⟨first, -⟩ := shared.write_perm (f := (·.set id .left)) (.refl _)
      obtain ⟨second, -⟩ := first.write_perm (f := (·.set id .right)) (.swap _ _ _)
      have store := stores.share List.mem_cons_self
      have read : ∀ k, (c.stores.share f.constraints).read? k = c.stores.read? k :=
        fun _ => Cells.share_read
      have mem : ∀ g ∈ rest, g ∈ c.queue := fun g hg => hq ▸ List.mem_cons_of_mem _ hg
      have front : f ∈ c.queue := hq ▸ List.mem_cons_self
      have back : ∀ {β : Type} (x y : β) (xs : List β), (y :: x :: xs).Perm (xs ++ [x] ++ [y]) :=
        fun x y xs => by
          rw [List.append_assoc]
          have swapped : ([x, y] ++ xs).Perm (xs ++ [x, y]) := List.perm_append_comm
          exact (List.Perm.swap x y xs).trans swapped
      refine ⟨⟨?_, ?_⟩, fun g hg => ?_, fun g hg i hi => ?_⟩
      · simp only [pushBack, writeFingerprint, fork, List.map_append, List.map_cons, List.map_nil]
        exact second.perm (back _ _ _)
      · simp only [pushBack, writeFingerprint, fork, List.map_append, List.map_cons, List.map_nil]
        exact store.perm (back _ _ _)
      · simp only [pushBack, writeFingerprint, fork, List.mem_append, List.mem_singleton] at hg
        rcases hg with (hg | rfl) | rfl
        · exact h.nodes g (mem g hg)
        · exact ⟨l, rfl, hl⟩
        · exact ⟨r, rfl, hr⟩
      · simp only [pushBack, writeFingerprint, fork, List.mem_append, List.mem_singleton,
          constraintsOf, read] at hg hi
        rcases hg with (hg | rfl) | rfl
        · exact h.bound g (mem g hg) i hi
        · exact h.bound f front i hi
        · exact h.bound f front i hi

theorem start_sound {root : NodeId} (hi : P root) (allotment : Nat) :
    (start (some root) allotment).Sound P := by
  have one : ∀ {α : Type} (v : α), ((Cells.empty.new v).2 : Cells α).CountedBy
      [(Cells.empty.new v).1] := fun v => Cells.empty_counted.new
  refine ⟨⟨one _, one _⟩, fun f hf => ?_, fun f hf i hi => ?_⟩
  · rw [List.mem_singleton.mp hf]
    exact ⟨root, rfl, hi⟩
  · rw [List.mem_singleton.mp hf] at hi
    exact absurd hi List.not_mem_nil

end Computation

namespace Machine

variable {m : Machine} {ρ : Rank} {c c' : Computation} {rest : List Computation} {i : NodeId}
  {f : Computation → Computation}

/-- The invariant holds, and nothing is under construction. -/
def Sound (m : Machine) : Prop := ∃ ρ, m.Inv [] ρ

theorem live_search (hc : c ∈ m.computations) (hi : some i ∈ c.roots) : m.Live [] i :=
  live_root (List.mem_append_right _ (List.mem_flatMap.mpr ⟨c, hc, hi⟩))

theorem Inv.search (h : m.Inv [] ρ) (hc : c ∈ m.computations) : c.Sound (m.Live []) where
  counted := h.counted c hc
  nodes f hf := by
    obtain ⟨i, hi⟩ := Option.ne_none_iff_exists'.mp (h.frames c hc f hf)
    exact ⟨i, hi, live_search hc (Computation.mem_roots.mpr ⟨f, hf, .inl hi⟩)⟩
  bound f hf i hi := live_search hc (Computation.mem_roots.mpr ⟨f, hf, .inr hi⟩)

/-- The innermost search goes on in another way. -/
theorem Inv.reschedule (h : m.Inv [] ρ) {roots : List Link} {computations : List Computation}
    {slice : Slice} (hr : ∀ i, some i ∈ roots → m.Live [] i)
    (hs : ∀ c ∈ computations, c.Sound (m.Live [])) :
    Inv { m with roots := roots, computations := computations, slice := slice } [] ρ := by
  refine h.shrink rfl rfl (fun c hc f hf => ?_) (fun c hc => (hs c hc).counted) fun i => ?_
  · obtain ⟨i, hi, -⟩ := (hs c hc).nodes f hf
    rw [hi]
    nofun
  · refine live_of_roots rfl fun i hi => ?_
    rw [List.map_nil, List.append_nil] at hi
    rcases List.mem_append.mp hi with hi | hi
    · exact hr i hi
    · obtain ⟨c, hc, hi⟩ := List.mem_flatMap.mp hi
      exact (hs c hc).roots hi

theorem Inv.mapInnermost (h : m.Inv [] ρ)
    (step : ∀ c ∈ m.computations, c.Sound (m.Live []) → (f c).Sound (m.Live [])) :
    (m.mapInnermost f).Inv [] ρ := by
  unfold Machine.mapInnermost
  cases hc : m.computations with
  | nil => exact h
  | cons c rest =>
    have mem : c ∈ m.computations := hc ▸ List.mem_cons_self
    refine h.reschedule (fun i hi => live_root (List.mem_append_left _ hi)) fun d hd => ?_
    rcases List.mem_cons.mp hd with rfl | hd
    · exact step c mem (h.search mem)
    · exact h.search (hc ▸ List.mem_cons_of_mem _ hd)

theorem mapInnermost_of_same (hc : m.computations = c :: rest) (same : f c = c) :
    m.mapInnermost f = m := by
  simp only [Machine.mapInnermost, hc, same]
  rw [← hc]

end Machine

namespace Schedule

open Eff Machine

variable {σ : Type} {m : Machine} {ρ : Rank} {i j : NodeId} {st : Stats}
  {normal : NodeId → Eff Unit} {visit : Visitor σ}

/-- The scheduler has acted on the frame in front of a search. -/
structure Acts (m : Machine) (ρ : Rank) (m' : Machine) : Prop where
  inv : m'.Inv [] ρ
  graph : m'.graph = m.graph
  rearranged : Rearranged m.views m'.views

theorem dropFront_meets (h : m.Inv [] ρ) {R : Machine → Prop} :
    dropFront.Meets m (fun _ m' => Acts m ρ m') R := by
  refine meets_of_ok rfl ⟨h.mapInnermost fun _ _ hc => hc.dropFront, mapInnermost_graph _,
    rearranged_mapInnermost fun c hc => ?_⟩
  rw [(h.counted c hc).dropFront_views]
  exact .tail _

theorem abandon_meets (h : m.Inv [] ρ) {R : Machine → Prop} :
    abandon.Meets m (fun _ m' => m'.Inv [] ρ ∧ m'.graph = m.graph ∧ m'.views = []) R := by
  refine meets_of_ok rfl ⟨h.mapInnermost fun _ _ hc => hc.clear, mapInnermost_graph _, ?_⟩
  cases hc : m.computations with
  | nil => exact views_nil (by simp only [mapInnermost, hc])
  | cons c rest =>
    exact (views_cons (by simp only [mapInnermost, hc]; rfl)).trans Computation.clear_views

theorem requeue_meets (h : m.Inv [] ρ) (suspended : Bool) {R : Machine → Prop} :
    (requeue suspended).Meets m (fun _ m' => Acts m ρ m') R :=
  meets_of_ok rfl ⟨h.mapInnermost fun _ _ hc => hc.requeue m.config.timeAllotment suspended,
    mapInnermost_graph _, rearranged_mapInnermost fun _ _ => Computation.requeue_rearranged _ _⟩

/-- The front frame goes on at a live node, which stays live. -/
theorem setFrontNode_meets (h : m.Inv [] ρ) (hi : m.Live [] i) {R : Machine → Prop} :
    (setFrontNode (some i)).Meets m
      (fun _ m' => m'.graph = m.graph ∧ m'.Inv [] ρ ∧ m'.Live [] i ∧ m'.views = m.views) R := by
  refine meets_of_ok rfl ⟨mapInnermost_graph _, h.mapInnermost fun c _ hc => ?_, ?_, ?_⟩
  · split
    · exact hc
    · next f rest hq => exact hc.setFront hq hi f.suspended
  · cases hc : m.computations with
    | nil =>
      simp only [mapInnermost, hc]
      exact hi
    | cons c rest =>
      cases hq : c.queue with
      | nil =>
        dsimp only
        rw [mapInnermost_of_same hc (by simp only [hq])]
        exact hi
      | cons f frames =>
        simp only [mapInnermost, hc, hq]
        exact live_search List.mem_cons_self
          (Computation.mem_roots.mpr ⟨_, List.mem_cons_self, .inl rfl⟩)
  · cases hc : m.computations with
    | nil => simp only [mapInnermost, hc]
    | cons c rest =>
      cases hq : c.queue with
      | nil =>
        dsimp only
        rw [mapInnermost_of_same hc (by simp only [hq])]
      | cons f frames =>
        simp only [mapInnermost, hc, hq]
        rw [views_cons rfl, views_cons hc]
        exact Computation.setFront_views hq _ f.suspended

theorem fork_meets (h : m.Inv [] ρ) (hi : m.Live [] i) {id left right symbol : Nat}
    (hc : m.graph.content? i = some ⟨.choice, symbol, id, .links [left, right]⟩)
    {R : Machine → Prop} :
    (fork i st).Meets m (fun _ m' => Acts m ρ m') R := by
  have hl := hi.link hc List.mem_cons_self
  have hr := hi.link hc (List.mem_cons_of_mem _ List.mem_cons_self)
  unfold fork
  refine meets_look_bind (TermGraph.aux_content hc) (meets_look_bind
    (h.read_successor (k := 0) hi hc rfl) (meets_look_bind
    (h.read_successor (k := 1) hi hc rfl) ?_))
  refine Meets.bind (Q := fun _ m' => Acts m ρ m') (meets_of_ok rfl ?_) fun resolution m' h' => ?_
  · split
    · exact ⟨h, rfl, .refl _⟩
    · next c rest hc =>
      have mem : c ∈ m.computations := hc ▸ List.mem_cons_self
      refine ⟨?_, rfl, ?_⟩
      swap
      · rw [views_cons hc, views_cons rfl]
        exact (h.counted c mem).resolve_rearranged _ _ _ _
      refine h.reschedule (fun i hi => live_root (List.mem_append_left _ hi)) fun d hd => ?_
      rcases List.mem_cons.mp hd with rfl | hd
      · exact (h.search mem).resolve hl hr id m.config.timeAllotment
      · exact h.search (hc ▸ List.mem_cons_of_mem _ hd)
  · cases resolution <;> exact meets_pure h'

/-- A turn leaves a sound machine whose queue has turned, and a value it hands out is live. -/
def Leaves (q : List View) (r : Stats × Outcome) (m' : Machine) : Prop :=
  m'.Sound ∧ Turned q m'.views ∧ ∀ i, r.2 = .value i → m'.Live [] i

/-- A value that is handed out for a node is a variable or a constructor, and its frame stays. -/
structure Presents (m : Machine) (i : NodeId) (m' : Machine) (j : NodeId) : Prop where
  live : m'.Live [] j
  leads : m.graph.Leads i j
  views : m'.views = m.views
  settled : ∃ c, m.graph.content? j = some c ∧ (c.tag = .free ∨ ∃ index, c.tag = .constructor index)

/-- What a turn does once the node of its frame has been reduced. -/
structure Handles (m : Machine) (i : NodeId) (r : Stats × Outcome) (m' : Machine) : Prop where
  sound : m'.Sound
  graph : m'.graph = m.graph
  rearranged : Rearranged m.views m'.views
  value : ∀ j, r.2 = .value j → Presents m i m' j

theorem Acts.handles {m' : Machine} (h : Acts m ρ m') (st : Stats) (i : NodeId) :
    Handles m i (st, .again) m' :=
  ⟨⟨ρ, h.inv⟩, h.graph, h.rearranged, nofun⟩

theorem dispatch_meets : ∀ (bound : Nat) (i : NodeId) (st : Stats) (m : Machine), m.Inv [] ρ →
    m.Live [] i → m.graph.depth ρ i < bound →
    (dispatch bound i st).Meets m (Handles m i) Machine.Sound := by
  intro bound
  induction bound with
  | zero => exact fun _ _ _ _ _ lt => absurd lt (Nat.not_lt_zero _)
  | succ bound ih =>
    intro i st m h hi lt
    obtain ⟨c, hc, fits⟩ := h.fits i hi
    unfold dispatch
    refine meets_look_bind (TermGraph.tag_content hc) ?_
    have presents : (c.tag = .free ∨ ∃ index, c.tag = .constructor index) → ∀ st : Stats,
        Handles m i (st, .value i) m := fun settled st => by
      refine ⟨⟨ρ, h⟩, rfl, .refl _, fun j hj => ?_⟩
      cases hj
      exact ⟨hi, .refl i, rfl, c, hc, settled⟩
    cases tag : c.tag with
    | failure => exact (dropFront_meets h).bind fun _ m' h' => meets_pure (h'.handles _ i)
    | operation => exact (dropFront_meets h).bind fun _ m' h' => meets_pure (h'.handles _ i)
    | forward =>
      obtain ⟨aux, next, rfl⟩ := fits.of_forward tag
      have live := hi.link hc List.mem_cons_self
      have deeper := Graph.depth_lt (h.lt live) (h.ranked i next _ hi hc List.mem_cons_self)
      refine meets_look_bind (h.read_successor (k := 0) hi hc rfl) ?_
      refine (setFrontNode_meets h live).bind fun _ m₁ ⟨graph, h₁, live₁, views⟩ => ?_
      refine meets_look_bind rfl (Meets.mono (ih next st m₁ h₁ live₁ ?_) (fun r m' rest => ?_)
        fun _ h => h)
      · rw [graph]
        exact Nat.lt_of_lt_of_le deeper (Nat.le_of_lt_succ lt)
      · refine ⟨rest.sound, rest.graph.trans graph, views ▸ rest.rearranged, fun j hj => ?_⟩
        obtain ⟨live, leads, same, settled⟩ := rest.value j hj
        rw [graph] at leads settled
        exact ⟨live, .step hc leads, same.trans views, settled⟩
    | choice =>
      obtain ⟨symbol, id, left, right, rfl, -⟩ := fits.of_choice tag
      exact (fork_meets h hi hc).bind fun _ m' h' => meets_pure (h'.handles _ i)
    | constructor index => exact meets_pure (presents (.inr ⟨index, tag⟩) _)
    | free => exact meets_pure (presents (.inl tag) _)
    | unassigned below => exact absurd tag (fits.tag_ne_unassigned below)

theorem catching_meets {body : Eff Unit} {P : Machine → Prop}
    (h : body.Meets m (fun _ m' => P m') P) : (catching body).Meets m (fun _ m' => P m') P := by
  unfold Meets catching at *
  cases run : body m with
  | ok _ m' =>
    rw [run] at h
    exact h
  | error stop m' =>
    rw [run] at h
    cases stop <;> exact h

/-- A frame that waits hands out no value. -/
theorem suspendFront_meets (h : m.Inv [] ρ) (i : NodeId) : (suspendFront st).Meets m
    (fun r m' => Handles m i r m' ∧ ∀ j, r.2 ≠ .value j) Machine.Sound := by
  unfold suspendFront
  refine (requeue_meets h true).bind fun _ m₁ h₁ => ?_
  refine Meets.bind (Q := fun m₂ m' => m₂ = m₁ ∧ m' = m₁) (meets_get ⟨rfl, rfl⟩) ?_
  rintro _ _ ⟨rfl, rfl⟩
  split
  · exact meets_pure ⟨h₁.handles st i, by simp⟩
  · split
    · refine (abandon_meets h₁.inv).bind ?_
      rintro _ m' ⟨h', graph, empty⟩
      refine meets_pure ⟨⟨⟨ρ, h'⟩, graph.trans h₁.graph, ?_, by simp⟩, by simp⟩
      rw [empty]
      exact .all _
    · exact meets_pure ⟨h₁.handles st i, by simp⟩

/-- What a search needs of the reduction it runs: the node it reduces stays live. -/
def Reduces (normal : NodeId → Eff Unit) : Prop :=
  ∀ m ρ i, m.Inv [] ρ → m.Live [] i → (normal i).Keeps (.below (ρ i)) m ρ fun _ _ _ => True

theorem turn_meets (sound : Reduces normal) (h : m.Inv [] ρ) (st : Stats) :
    (turn normal st).Meets m (Leaves m.views) Machine.Sound := by
  unfold turn
  refine Meets.bind (Q := fun m₁ m' => m₁ = m ∧ m' = m) (meets_get ⟨rfl, rfl⟩) ?_
  rintro _ m ⟨rfl, rfl⟩
  split
  · exact meets_pure ⟨⟨ρ, h⟩, .refl _, fun _ value => Outcome.noConfusion value⟩
  next _ f front =>
  split
  · exact meets_pure ⟨⟨ρ, h⟩, .refl _, fun _ value => Outcome.noConfusion value⟩
  next steps _ =>
  obtain ⟨c, hc, hf⟩ := Option.bind_eq_some_iff.mp front
  have mem : c ∈ m.computations := List.mem_of_head? hc
  obtain ⟨i, node, -⟩ := (h.search mem).nodes f (List.mem_of_head? hf)
  have rooted : some i ∈ m.rootSet := List.mem_append_right _ (List.mem_flatMap.mpr
    ⟨c, mem, Computation.mem_roots.mpr ⟨f, List.mem_of_head? hf, .inl node⟩⟩)
  have h₁ : Inv { m with slice := .ofSteps steps } [] ρ :=
    (quiet_count (s := .below 0) h m.nextId (.ofSteps steps)).inv
  refine Meets.bind (Q := fun _ m' => m' = { m with slice := .ofSteps steps })
    (meets_of_ok rfl rfl) ?_
  rintro _ _ rfl
  rw [node]
  refine meets_look_bind rfl ?_
  have reduced : (normal i).Meets { m with slice := .ofSteps steps }
      (fun _ m' => ∃ ρ', m'.Inv [] ρ' ∧ m'.Live [] i ∧ SearchExtends m.computations m'.computations)
      fun m' => ∃ ρ', m'.Inv [] ρ' ∧ m'.Live [] i ∧ SearchExtends m.computations m'.computations := by
    refine Meets.mono (sound _ ρ i h₁ (live_root rooted)) ?_ ?_
    · rintro _ m' ⟨ρ', ev, -⟩
      exact ⟨ρ', ev.inv, live_root (ev.rootSet rooted), ev.search⟩
    · rintro m' ⟨ρ', ev⟩
      exact ⟨ρ', ev.inv, live_root (ev.rootSet rooted), ev.search⟩
  refine Meets.bind ((catching_meets reduced).mono (fun _ _ h => h) ?_) ?_
  · rintro m' ⟨ρ', h', -⟩
    exact ⟨ρ', h'⟩
  rintro ending m₂ ⟨ρ₂, h₂, live₂, gains⟩
  have all : ∀ r m', Handles m₂ i r m' → Leaves m.views r m' := fun _ _ done =>
    ⟨done.sound, gains.turned done.rearranged.turned, fun j hj => (done.value j hj).live⟩
  refine Meets.bind (Q := fun m₃ m' => m₃ = m₂ ∧ m' = m₂) (meets_get ⟨rfl, rfl⟩) ?_
  rintro _ _ ⟨rfl, rfl⟩
  cases ending with
  | done =>
    exact (dispatch_meets _ i _ _ h₂ live₂ (Nat.lt_succ_of_le Graph.depth_le)).mono all
      fun _ h => h
  | preempted =>
    exact (requeue_meets h₂ false).bind fun _ m' h' => meets_pure (all _ _ (h'.handles _ i))
  | suspended => exact (suspendFront_meets h₂ i).mono (fun _ _ h => all _ _ h.1) fun _ h => h

/-- However a search ends, the machine has a property; it never stops at a fault. -/
def Found.Ends (found : Found σ) (P : Machine → Prop) : Prop :=
  match found.ending with
  | .ok _ m => P m
  | .error (.fault _) _ => False
  | .error _ m => P m

theorem takeTurns_ends (sound : Reduces normal)
    (total : ∀ m i s, m.Sound → m.Live [] i → ∃ r, visit m i s = .ok r) :
    ∀ (turns : Nat) (st : Stats) (s : σ) (m : Machine), m.Sound →
      (takeTurns normal visit turns st s m).Ends Machine.Sound := by
  intro turns
  induction turns with
  | zero => exact fun _ _ _ h => h
  | succ turns ih =>
    rintro st s m ⟨ρ, h⟩
    have leaves := turn_meets sound h st
    unfold takeTurns
    unfold Meets at leaves
    cases run : turn normal st m with
    | error stop m' =>
      rw [run] at leaves
      cases stop with
      | fault _ => exact leaves.elim
      | _ => exact leaves
    | ok r m' =>
      rw [run] at leaves
      obtain ⟨⟨ρ', h'⟩, -, live⟩ := leaves
      obtain ⟨st', outcome⟩ := r
      cases outcome with
      | «over» => exact ⟨ρ', h'⟩
      | again => exact ih st' s m' ⟨ρ', h'⟩
      | value i =>
        obtain ⟨⟨s', flow⟩, visited⟩ := total m' i s ⟨ρ', h'⟩ (live i rfl)
        have dropped := h'.mapInnermost fun _ _ hc => hc.dropFront
        dsimp only
        rw [visited]
        cases flow with
        | more => exact ih st' s' _ ⟨ρ', dropped⟩
        | enough => exact ⟨ρ', dropped.mapInnermost fun _ _ hc => hc.clear⟩

theorem enter_sound (h : m.Inv [] ρ) (hi : m.Live [] i) : (enter (some i) m).Inv [] ρ := by
  refine h.reschedule (fun j hj => ?_) fun c hc => ?_
  · rcases List.mem_cons.mp hj with hj | hj
    · cases hj
      exact hi
    · exact live_root (List.mem_append_left _ hj)
  · rcases List.mem_cons.mp hc with rfl | hc
    · exact Computation.start_sound hi _
    · exact h.search hc

theorem leave_sound (h : m.Sound) (outer : Slice) : (leave outer m).Sound := by
  obtain ⟨ρ, h⟩ := h
  refine ⟨ρ, h.reschedule (fun j hj => ?_) fun c hc => h.search (List.mem_of_mem_tail hc)⟩
  exact live_root (List.mem_append_left _ (List.mem_of_mem_tail hj))

theorem search_ends (sound : Reduces normal)
    (total : ∀ m i s, m.Sound → m.Live [] i → ∃ r, visit m i s = .ok r) (turns : Nat) (s : σ)
    (h : m.Sound) (hi : m.Live [] i) :
    (search normal turns visit (some i) s m).Ends Machine.Sound := by
  obtain ⟨ρ, h⟩ := h
  have ends := takeTurns_ends sound total turns {} s _ ⟨ρ, enter_sound h hi⟩
  unfold search
  unfold Found.Ends at *
  dsimp only
  cases run : (takeTurns normal visit turns {} s (enter (some i) m)).ending with
  | ok st m' =>
    rw [run] at ends
    exact leave_sound ends _
  | error stop m' =>
    rw [run] at ends
    cases stop with
    | fault _ => exact ends.elim
    | _ => exact leave_sound ends _

end Schedule

end ChoiceGraph
