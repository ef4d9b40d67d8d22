import ChoiceGraph.Proofs.Decisions
import ChoiceGraph.Proofs.Preemption
import ChoiceGraph.Proofs.Sums

/-! # Trees of alternatives are searched breadth first

The queue of a search for the values of a sum holds one frame for each sum that is left. A turn hands out
the value of the sum in front, drops it, or replaces it by two sums at the back. So the values come by the
depth of the leaves, and from left to right within a depth. -/
namespace ChoiceGraph

open Eff Reduction

/-- The sum of a tree and a literal, with the inner nodes of the tree. -/
structure Plot where
  sum : NodeId
  top : NodeId
  tree : Alternatives
  inner : List NodeId

variable {g g' : Graph} {m m' : Machine} {p q : Plot} {plots ps : List Plot} {k : NodeId} {b v : Int64}
  {S xs ys : List NodeId} {n n' a : Nat} {id : ChoiceId} {c c' : Computation} {f : Frame}
  {rest : List Frame} {outer : List Computation} {st : Stats}

namespace Plot

structure Stands (k : NodeId) (g : Graph) (p : Plot) : Prop where
  sum : g.Holds p.sum (.sum p.top k)
  grows : g.Grows p.tree p.top p.inner

theorem Stands.ripen {u : NodeId} (h : p.Stands k g) (ripens : g.Ripens u S g') (other : p.sum ≠ u)
    (apart : ∀ j ∈ p.inner, j ∉ S) : p.Stands k g' :=
  ⟨ripens.sums _ _ _ other h.sum, h.grows.ripen ripens apart⟩

end Plot

namespace Graph

/-- The choices among these nodes have identifiers of their own, all below `n`. -/
def Identified (g : Graph) (n : Nat) (xs : List NodeId) : Prop :=
  ∀ i ∈ xs, ∀ id l r, g.Holds i (.alternative false id l r) →
    id < n ∧ ∀ j ∈ xs, ∀ l' r', g.Holds j (.alternative false id l' r') → j = i

/-- An inner node that has not changed was the choice that it is. -/
theorem Ripens.back {u i l r : NodeId} (h : g.Ripens u S g')
    (branches : ∃ c l r, c.Branches l r ∧ g.Holds i c) (outside : i ∉ S)
    (hi : g'.Holds i (.alternative false id l r)) : g.Holds i (.alternative false id l r) := by
  obtain ⟨c, l', r', branches, held⟩ := branches
  cases (h.branches i c l' r' branches outside held).eq hi
  exact held

theorem Identified.ripen {u : NodeId} (h : g.Identified n xs) (ripens : g.Ripens u S g') (le : n ≤ n')
    (branches : ∀ i ∈ xs, ∃ c l r, c.Branches l r ∧ g.Holds i c) (fewer : ∀ i ∈ ys, i ∈ xs ∧ i ∉ S) :
    g'.Identified n' ys := by
  intro i hi id l r held
  have back : ∀ j ∈ ys, ∀ l r, g'.Holds j (.alternative false id l r) →
      g.Holds j (.alternative false id l r) := fun j hj l r =>
    ripens.back (branches j (fewer j hj).1) (fewer j hj).2
  obtain ⟨lt, single⟩ := h i (fewer i hi).1 id l r (back i hi l r held)
  exact ⟨lt.trans_le le, fun j hj l' r' hj' => single j (fewer j hj).1 l' r' (back j hj l' r' hj')⟩

end Graph

/-! ## The sums that are left -/

/-- The inner nodes of all trees. -/
def Plot.allInner (plots : List Plot) : List NodeId := plots.flatMap Plot.inner

theorem Plot.allInner_cons (p : Plot) (ps : List Plot) : allInner (p :: ps) = p.inner ++ allInner ps :=
  List.flatMap_cons

namespace Machine

/-- These sums stand apart from each other, and there are nodes for pulling every choice up. -/
structure Grove (k : NodeId) (b : Int64) (plots : List Plot) (m : Machine) : Prop where
  signature : m.signature.Sound
  sound : m.graph.Sound
  addend : m.graph.Holds k (.int b)
  stands : ∀ p ∈ plots, p.Stands k m.graph
  sums : (plots.map Plot.sum).Nodup
  inner : (Plot.allInner plots).Nodup
  identified : m.graph.Identified m.nextId (Plot.allInner plots)
  nodes : 2 * (Plot.allInner plots).length ≤ m.graph.free.length

namespace Grove

theorem branches (h : m.Grove k b plots) :
    ∀ i ∈ Plot.allInner plots, ∃ c l r, c.Branches l r ∧ m.graph.Holds i c := by
  intro i hi
  obtain ⟨p, hp, hi⟩ := List.mem_flatMap.mp hi
  exact (h.stands p hp).grows.branches i hi

/-- What has been done for the sum in front leaves the others as they were. -/
theorem others (h : m.Grove k b (p :: ps)) (worked : Worked p.sum S a m m')
    (mine : ∀ j ∈ S, j ∈ p.inner) : ∀ q ∈ ps, q.Stands k m'.graph := by
  have inner := h.inner
  rw [Plot.allInner_cons] at inner
  intro q hq
  refine (h.stands q (List.mem_cons_of_mem _ hq)).ripen worked.ripens ?_ fun j hj inside => ?_
  · rintro same
    exact (List.nodup_cons.mp h.sums).1 (same ▸ List.mem_map_of_mem hq)
  · exact (List.nodup_append.mp inner).2.2 j (mine j inside) j (List.mem_flatMap.mpr ⟨q, hq, hj⟩) rfl

/-- The sum in front has been brought to a literal or to a failure. -/
theorem dropped (h : m.Grove k b (p :: ps)) (worked : Worked p.sum [] a m m')
    (nodes : m.graph.free.length ≤ a) : m'.Grove k b ps where
  signature := by
    rw [worked.same]
    exact h.signature
  sound := worked.ripens.sound
  addend := worked.ripens.ints k b h.addend
  stands := h.others worked fun _ hj => by cases hj
  sums := (List.nodup_cons.mp h.sums).2
  inner := by
    have inner := h.inner
    rw [Plot.allInner_cons] at inner
    exact (List.nodup_append.mp inner).2.1
  identified := h.identified.ripen worked.ripens worked.later h.branches fun i hi => by
    rw [Plot.allInner_cons]
    exact ⟨List.mem_append_right _ hi, List.not_mem_nil⟩
  nodes := by
    have enough := h.nodes
    rw [Plot.allInner_cons, List.length_append] at enough
    exact le_trans (by omega) (nodes.trans worked.nodes)

/-- The sum in front has become a choice between two new sums. -/
theorem forked {o e l r u w : NodeId} {t t' : Alternatives}
    (h : m.Grove k b (⟨o, e, .either t t', e :: (xs ++ ys)⟩ :: ps)) (worked : Worked o [e] a m m')
    (nodes : m.graph.free.length ≤ a + 2)
    (left : m.graph.Grows t l xs) (right : m.graph.Grows t' r ys)
    (hu : m'.graph.Holds u (.sum l k)) (hw : m'.graph.Holds w (.sum r k)) (differ : u ≠ w)
    (newLeft : u ∈ m.graph.free) (newRight : w ∈ m.graph.free) :
    m'.Grove k b (ps ++ [⟨u, l, t, xs⟩, ⟨w, r, t', ys⟩]) := by
  have inner := h.inner
  have enough := h.nodes
  rw [Plot.allInner_cons] at inner enough
  have outside : e ∉ xs ++ ys := (List.nodup_cons.mp (List.nodup_append.mp inner).1).1
  have all : Plot.allInner (ps ++ [⟨u, l, t, xs⟩, ⟨w, r, t', ys⟩]) = Plot.allInner ps ++ (xs ++ ys) := by
    simp [Plot.allInner]
  have apart : ∀ j ∈ Plot.allInner ps ++ (xs ++ ys), j ≠ e := by
    rintro j hj rfl
    rcases List.mem_append.mp hj with hj | hj
    · exact (List.nodup_append.mp inner).2.2 j List.mem_cons_self j hj rfl
    · exact outside hj
  refine ⟨?_, worked.ripens.sound, worked.ripens.ints k b h.addend, ?_, ?_, ?_, ?_, ?_⟩
  · rw [worked.same]
    exact h.signature
  · intro q hq
    simp only [List.mem_append, List.mem_cons, List.not_mem_nil, or_false] at hq
    rcases hq with hq | rfl | rfl
    · exact h.others worked (fun j hj => List.mem_singleton.mp hj ▸ List.mem_cons_self) q hq
    · refine ⟨hu, left.ripen worked.ripens fun j hj inside => ?_⟩
      exact outside (List.mem_singleton.mp inside ▸ List.mem_append_left _ hj)
    · refine ⟨hw, right.ripen worked.ripens fun j hj inside => ?_⟩
      exact outside (List.mem_singleton.mp inside ▸ List.mem_append_right _ hj)
  · -- the new sums were not in use
    have used : ∀ i ∈ m.graph.free, i ∉ ps.map Plot.sum := by
      intro i hi hp
      obtain ⟨q, hq, rfl⟩ := List.mem_map.mp hp
      exact (h.stands q (List.mem_cons_of_mem _ hq)).sum.unfree hi
    rw [List.map_append]
    refine List.nodup_append.mpr ⟨(List.nodup_cons.mp h.sums).2, by simpa using differ, ?_⟩
    rintro i hi j hj rfl
    simp only [List.map_cons, List.map_nil, List.mem_cons, List.not_mem_nil, or_false] at hj
    rcases hj with rfl | rfl
    · exact used i newLeft hi
    · exact used i newRight hi
  · rw [all]
    have perm : (e :: (Plot.allInner ps ++ (xs ++ ys))).Perm (e :: (xs ++ ys) ++ Plot.allInner ps) :=
      List.perm_append_comm.cons e
    exact (List.nodup_cons.mp (perm.nodup_iff.mpr inner)).2
  · refine h.identified.ripen worked.ripens worked.later h.branches fun i hi => ?_
    rw [all] at hi
    rw [Plot.allInner_cons]
    refine ⟨?_, fun inside => apart i hi (List.mem_singleton.mp inside)⟩
    rcases List.mem_append.mp hi with hi | hi
    · exact List.mem_append_right _ hi
    · exact List.mem_append_left _ (List.mem_cons_of_mem _ hi)
  · rw [all]
    have left_ := worked.nodes
    simp only [List.length_append, List.length_cons] at enough ⊢
    omega

end Grove

end Machine

/-! ## The frames that are left -/

/-- A frame works at a sum. It has decided none of the choices in the tree, and no variable is bound. -/
structure Computation.Tends (c : Computation) (n : Nat) (g : Graph) (f : Frame) (p : Plot) : Prop where
  node : f.node = some p.sum
  store : c.constraintsOf f = .empty
  known : ∀ x side, (c.fingerprintOf f).get? x = some side →
    x < n ∧ ∀ i ∈ p.inner, ∀ l r, ¬ g.Holds i (.alternative false x l r)

/-- The frames behind go on at their sums. -/
theorem Computation.Tends.later {u : NodeId} (h : List.Forall₂ (c.Tends m.nextId m.graph) rest ps)
    (worked : Worked u S a m m') (views : ∀ f ∈ rest, c'.view f = c.view f)
    (branches : ∀ i ∈ Plot.allInner ps, ∃ c l r, c.Branches l r ∧ m.graph.Holds i c)
    (apart : ∀ i ∈ Plot.allInner ps, i ∉ S) :
    List.Forall₂ (c'.Tends m'.nextId m'.graph) rest ps := by
  induction h with
  | nil => exact .nil
  | @cons f p rest ps tends _ ih =>
    rw [Plot.allInner_cons] at branches apart
    refine .cons ⟨tends.node, ?_, fun x side decided => ?_⟩
      (ih (fun f hf => ?_) (fun i hi => ?_) fun i hi => ?_)
    · exact (congrArg View.bound (views f List.mem_cons_self)).trans tends.store
    · have same := congrArg (fun v => v.decided.get? x) (views f List.mem_cons_self)
      obtain ⟨lt, unmet⟩ := tends.known x side (same.symm.trans decided)
      refine ⟨lt.trans_le worked.later, fun i hi l r held => unmet i hi l r ?_⟩
      exact worked.ripens.back (branches i (List.mem_append_left _ hi))
        (apart i (List.mem_append_left _ hi)) held
    · exact views f (List.mem_cons_of_mem _ hf)
    · exact branches i (List.mem_append_right _ hi)
    · exact apart i (List.mem_append_right _ hi)

theorem ConstraintStore.empty_inClass {x : ChoiceId} (h : ConstraintStore.empty.InClass id x) : x = id := by
  induction h with
  | refl => rfl
  | tail _ tied _ => cases tied

namespace Schedule

/-- The innermost search has one frame for each of these sums, and steps enough for a slice. -/
structure Frontier (k : NodeId) (b : Int64) (outer : List Computation) (collections : Nat)
    (plots : List Plot) (c : Computation) (m : Machine) : Prop where
  search : m.computations = c :: outer
  sound : c.Sound fun _ => True
  frames : List.Forall₂ (c.Tends m.nextId m.graph) c.queue plots
  grove : m.Grove k b plots
  limit : m.config.stepLimit = none
  slice : 3 ≤ m.config.sliceSteps
  collections : m.collections = collections

variable {F collections : Nat}

namespace Frontier

theorem front (h : Frontier k b outer collections (p :: ps) c m) :
    ∃ f rest, c.queue = f :: rest ∧ c.Tends m.nextId m.graph f p ∧
      List.Forall₂ (c.Tends m.nextId m.graph) rest ps ∧ m.front? = some f := by
  obtain ⟨f, rest, tends, others, queue⟩ := List.forall₂_cons_right_iff.mp h.frames
  refine ⟨f, rest, queue, tends, others, ?_⟩
  rw [Machine.front?, h.search, List.head?_cons, Option.bind_some, Computation.front?, queue, List.head?_cons]

/-- A turn reduces the sum in front and acts on what has become of it. -/
theorem turn_front (h : Frontier k b outer collections (p :: ps) c m)
    (run : Reduction.normalize F p.sum { m with slice := .ofSteps m.config.sliceSteps } = .ok () m')
    (st : Stats) : turn (Reduction.normalize F) st m =
      dispatch m'.depthBound p.sum { st with steps := st.steps + m'.slice.used } m' := by
  obtain ⟨f, rest, -, tends, -, front⟩ := h.front
  rw [Schedule.turn_front front (by rw [nextSlice?, h.limit]), tends.node]
  refine reduceFront_done ?_
  unfold catching
  rw [run]

theorem room (h : Frontier k b outer collections plots c m) (nodes : a ≤ m.graph.free.length) :
    Machine.Room 3 a { m with slice := .ofSteps m.config.sliceSteps } :=
  ⟨rfl, ⟨_, rfl, h.slice⟩, nodes⟩

theorem searching (h : Frontier k b outer collections (p :: ps) c m)
    (worked : Worked p.sum S a { m with slice := .ofSteps m.config.sliceSteps } m') :
    m' = { m' with computations := c :: outer } := by
  have same : m'.computations = c :: outer := (congrArg Machine.computations worked.same).trans h.search
  rw [← same]

/-- The innermost search is the only thing that still has to change after the work on a sum. -/
theorem next (h : Frontier k b outer collections (p :: ps) c m)
    (worked : Worked p.sum S a { m with slice := .ofSteps m.config.sliceSteps } m')
    (sound : c'.Sound fun _ => True) (frames : List.Forall₂ (c'.Tends m'.nextId m'.graph) c'.queue plots)
    (grove : m'.Grove k b plots) :
    Frontier k b outer collections plots c' { m' with computations := c' :: outer } where
  search := rfl
  sound := sound
  frames := frames
  grove := ⟨grove.signature, grove.sound, grove.addend, grove.stands, grove.sums, grove.inner,
    grove.identified, grove.nodes⟩
  limit := (congrArg (fun m => m.config.stepLimit) worked.same).trans h.limit
  slice := by
    rw [worked.same]
    exact h.slice
  collections := (congrArg Machine.collections worked.same).trans h.collections

theorem grove₀ (h : Frontier k b outer collections plots c m) :
    Machine.Grove k b plots { m with slice := .ofSteps m.config.sliceSteps } :=
  ⟨h.grove.signature, h.grove.sound, h.grove.addend, h.grove.stands, h.grove.sums, h.grove.inner,
    h.grove.identified, h.grove.nodes⟩

/-- A sum that has been brought to a literal or to a failure is dropped. -/
theorem dropped (h : Frontier k b outer collections (p :: ps) c m)
    (worked : Worked p.sum [] a { m with slice := .ofSteps m.config.sliceSteps } m')
    (nodes : m.graph.free.length ≤ a) :
    Frontier k b outer collections ps c.dropFront (m'.mapInnermost Computation.dropFront) := by
  obtain ⟨f, rest, queue, -, others, -⟩ := h.front
  obtain ⟨queue', views⟩ := Computation.dropFront_others h.sound.counted queue
  have moved : m'.mapInnermost Computation.dropFront = { m' with computations := c.dropFront :: outer } := by
    rw [h.searching worked]
    rfl
  rw [moved]
  refine h.next worked h.sound.dropFront ?_ (h.grove₀.dropped worked nodes)
  rw [queue']
  refine Computation.Tends.later (m := { m with slice := .ofSteps m.config.sliceSteps }) others worked views
    (fun i hi => h.grove.branches i ?_) fun _ _ => List.not_mem_nil
  rw [Plot.allInner_cons]
  exact List.mem_append_right _ hi

end Frontier

/-! ## One turn -/

variable {o e l r : NodeId} {t t' : Alternatives}

/-- The value of the sum in front is handed out. -/
theorem turn_int (h : Frontier k b outer collections (⟨o, e, .int v, xs⟩ :: ps) c m) (st : Stats) :
    ∃ n m', turn (Reduction.normalize (F + 4)) st m =
        .ok ({ st with steps := st.steps + n, solutions := st.solutions + 1 }, .value o) m' ∧
      m'.intValue? o = .ok (some (v + b)) ∧
      Frontier k b outer collections ps c.dropFront (m'.mapInnermost Computation.dropFront) := by
  have stands := h.grove.stands _ List.mem_cons_self
  cases stands.grows with
  | int he =>
    obtain ⟨m', run, worked, ho⟩ := sum_int (F := F) (m := { m with slice := .ofSteps m.config.sliceSteps })
      h.grove.signature h.grove.sound (h.room le_rfl) stands.sum he h.grove.addend
    have tag : m'.tag o = .ok (.constructor 0) :=
      TermGraph.tag_content (t := m'.toTermGraph) (c := .int (v + b)) ho.content
    have literal : m'.literal? o = .ok (some (.int (v + b))) :=
      TermGraph.literal_content (t := m'.toTermGraph) (c := .int (v + b)) ho.content
    have skip : m'.skip o = .ok o := TermGraph.skip_self (t := m'.toTermGraph) ho.content nofun
    refine ⟨m'.slice.used, m', (h.turn_front run st).trans ((bind_ok (look_ok tag)).trans rfl), ?_,
      h.dropped worked le_rfl⟩
    simp only [TermGraph.intValue?, skip, literal, bind, Except.bind]
    rfl

/-- A failure in front is dropped. -/
theorem turn_fails (h : Frontier k b outer collections (⟨o, e, .failed, xs⟩ :: ps) c m) (st : Stats) :
    ∃ n c' m', turn (Reduction.normalize (F + 4)) st m =
        .ok ({ st with steps := st.steps + n, failures := st.failures + 1 }, .again) m' ∧
      Frontier k b outer collections ps c' m' := by
  have stands := h.grove.stands _ List.mem_cons_self
  cases stands.grows with
  | failed he =>
    obtain ⟨m', run, worked, ho⟩ := sum_fails (F := F)
      (m := { m with slice := .ofSteps m.config.sliceSteps }) h.grove.signature h.grove.sound
      (h.room le_rfl) stands.sum he
    have tag : m'.tag o = .ok .failure :=
      TermGraph.tag_content (t := m'.toTermGraph) (c := .blank) ho.content
    exact ⟨m'.slice.used, _, _, (h.turn_front run st).trans ((bind_ok (look_ok tag)).trans rfl),
      h.dropped worked le_rfl⟩

/-- The identifier of the choice in front is in use from now on, and no other choice of the tree has it. -/
theorem names_apart {d : Content} {all : List NodeId} (names : Names m.nextId d id m'.nextId)
    (worked : Worked o [e] a m m') (identified : m.graph.Identified m.nextId all) (he : m.graph.Holds e d)
    (branches : ∀ i ∈ all, ∃ c l r, c.Branches l r ∧ m.graph.Holds i c) (mem : e ∈ all)
    (fewer : ∀ i ∈ xs, i ∈ all ∧ i ≠ e) :
    id < m'.nextId ∧ ∀ i ∈ xs, ∀ l r, ¬ m'.graph.Holds i (.alternative false id l r) := by
  have back : ∀ i ∈ xs, ∀ l r, m'.graph.Holds i (.alternative false id l r) →
      m.graph.Holds i (.alternative false id l r) := fun i hi l r =>
    worked.ripens.back (branches i (fewer i hi).1) fun inside => (fewer i hi).2 (List.mem_singleton.mp inside)
  have later := worked.later
  generalize m'.nextId = n at names later
  cases names with
  | given =>
    obtain ⟨lt, single⟩ := identified e mem _ _ _ he
    exact ⟨lt, fun i hi l r held => (fewer i hi).2 (single i (fewer i hi).1 l r (back i hi l r held))⟩
  | fresh =>
    refine ⟨Nat.lt_succ_self _, fun i hi l r held => ?_⟩
    exact Nat.lt_irrefl _ (identified i (fewer i hi).1 _ _ _ (back i hi l r held)).1

/-- The frame in front has not decided the choice that its sum has become. -/
theorem names_undecided {d : Content} (names : Names m.nextId d id n)
    (tends : c.Tends m.nextId m.graph f p) (he : m.graph.Holds e d) (mem : e ∈ p.inner) (side : Side) :
    (c.fingerprintOf f).get? id ≠ some side := by
  intro decided
  obtain ⟨lt, unmet⟩ := tends.known id side decided
  cases names with
  | given => exact unmet e mem _ _ he
  | fresh => exact Nat.lt_irrefl _ lt

/-- A frame goes on at a node as `f` would have done, with one side of a choice taken. -/
structure Child (c : Computation) (f : Frame) (id : ChoiceId) (side : Side) (node : NodeId)
    (c' : Computation) (child : Frame) : Prop where
  node : child.node = some node
  store : c'.constraintsOf child = c.constraintsOf f
  decided : ∀ x, (c'.fingerprintOf child).get? x = if x = id then some side else (c.fingerprintOf f).get? x

/-- Where no choices are tied, a frame at a choice that it has not decided forks. -/
theorem dispatch_forks {i j : NodeId} (search : m.computations = c :: outer) (sound : c.Sound fun _ => True)
    (queue : c.queue = f :: rest) (signature : m.signature.Sound)
    (ho : m.graph.Holds o (.alternative false id i j)) (store : c.constraintsOf f = .empty)
    (undecided : ∀ side, (c.fingerprintOf f).get? id ≠ some side) (bound : Nat) (st : Stats) :
    ∃ c' first second, dispatch (bound + 1) o st m =
        .ok ({ st with forks := st.forks + 1 }, .again) { m with computations := c' :: outer } ∧
      c'.Sound (fun _ => True) ∧ c'.queue = rest ++ [first, second] ∧
      (∀ g ∈ rest, c'.view g = c.view g) ∧ Child c f id .left i c' first ∧
      Child c f id .right j c' second := by
  have tag : m.tag o = .ok .choice :=
    TermGraph.tag_content (t := m.toTermGraph) (c := .alternative false id i j) ho.content
  have aux : m.aux o = .ok id :=
    TermGraph.aux_content (t := m.toTermGraph) (c := .alternative false id i j) ho.content
  have fits := Content.alternative_fits (σ := m.signature) false id i j
  have forked : fork o st m = .ok _ _ := fork_resolved search aux
    (successor_reads signature ho fits (k := 0) rfl) (successor_reads signature ho fits (k := 1) rfl)
  have turned : dispatch (bound + 1) o st m = .ok _ _ := (bind_ok (look_ok tag)).trans (bind_ok forked)
  have resolved := Computation.resolve_resolved sound.counted queue id (some i) (some j)
    m.config.timeAllotment st
  have sound' := sound.resolve (l := i) (r := j) trivial trivial id m.config.timeAllotment
  generalize (c.resolve id (some i) (some j) m.config.timeAllotment).1.counts st = st' at *
  generalize (c.resolve id (some i) (some j) m.config.timeAllotment).2 = c' at *
  cases resolved with
  | failed member _ decided =>
    rw [store] at member
    cases ConstraintStore.empty_inClass member
    exact absurd decided (undecided _)
  | followed member decided =>
    rw [store] at member
    cases ConstraintStore.empty_inClass member
    exact absurd decided (undecided _)
  | forked _ queue' leftDecided rightDecided leftBound rightBound views =>
    exact ⟨c', _, _, turned, sound', queue', views, ⟨rfl, leftBound, leftDecided⟩,
      ⟨rfl, rightBound, rightDecided⟩⟩

/-- A child of the frame in front goes on at one of the new sums. -/
theorem Child.tends {side : Side} {child : Frame} (h : Child c f id side q.sum c' child)
    (tends : c.Tends m.nextId m.graph f p) (worked : Worked o [e] a m m')
    (branches : ∀ i ∈ p.inner, ∃ c l r, c.Branches l r ∧ m.graph.Holds i c) (used : id < m'.nextId)
    (apart : ∀ i ∈ q.inner, ∀ l r, ¬ m'.graph.Holds i (.alternative false id l r))
    (fewer : ∀ i ∈ q.inner, i ∈ p.inner ∧ i ≠ e) : c'.Tends m'.nextId m'.graph child q where
  node := h.node
  store := h.store.trans tends.store
  known x s told := by
    rw [h.decided] at told
    by_cases this : x = id
    · subst this
      exact ⟨used, apart⟩
    · rw [if_neg this] at told
      obtain ⟨lt, unmet⟩ := tends.known x s told
      refine ⟨lt.trans_le worked.later, fun i hi l r held => ?_⟩
      obtain ⟨mine, other⟩ := fewer i hi
      exact unmet i mine l r (worked.ripens.back (branches i mine)
        (fun inside => other (List.mem_singleton.mp inside)) held)

/-- A choice in front is replaced by two sums at the back. -/
theorem turn_forks (h : Frontier k b outer collections (⟨o, e, .either t t', xs⟩ :: ps) c m) (st : Stats) :
    ∃ n c' m' p q, p.tree = t ∧ q.tree = t' ∧ turn (Reduction.normalize (F + 4)) st m =
        .ok ({ st with steps := st.steps + n, forks := st.forks + 1 }, .again) m' ∧
      Frontier k b outer collections (ps ++ [p, q]) c' m' := by
  have stands := h.grove.stands _ List.mem_cons_self
  have grows : m.graph.Grows (.either t t') e xs := stands.grows
  obtain ⟨f, rest, queue, tends, others, -⟩ := h.front
  cases grows with
  | @either _ _ _ l r xs ys d he branches left right =>
    have inner := h.grove.inner
    have enough := h.grove.nodes
    rw [Plot.allInner_cons] at inner enough
    obtain ⟨a, nodes⟩ : ∃ a, m.graph.free.length = a + 2 := by
      rw [List.length_append, List.length_cons] at enough
      exact ⟨m.graph.free.length - 2, by omega⟩
    let m₀ : Machine := { m with slice := .ofSteps m.config.sliceSteps }
    have store : m₀.frontConstraints? = some .empty := by
      rw [Machine.frontConstraints?, show m₀.computations = c :: outer from h.search, List.head?_cons,
        Option.bind_some, Computation.front?, queue, List.head?_cons, Option.map_some, tends.store]
    obtain ⟨m', id, p, q, run, worked, names, ho, -, hp, hq, differ, newLeft, newRight⟩ :=
      sum_branches (F := F) (m := m₀) h.grove.signature h.grove.sound (h.room nodes.ge) stands.sum he
        branches store
    -- what is known of the tree itself, and of the trees behind
    have mine : ∀ i ∈ xs ++ ys, i ∈ e :: (xs ++ ys) ∧ i ≠ e := by
      refine fun i hi => ⟨List.mem_cons_of_mem _ hi, ?_⟩
      rintro rfl
      exact (List.nodup_cons.mp (List.nodup_append.mp inner).1).1 hi
    have branching := h.grove₀.branches
    rw [Plot.allInner_cons] at branching
    have identified := h.grove₀.identified
    rw [Plot.allInner_cons] at identified
    have fewer : ∀ i ∈ xs ++ ys, i ∈ e :: (xs ++ ys) ++ Plot.allInner ps ∧ i ≠ e := fun i hi =>
      ⟨List.mem_append_left _ (mine i hi).1, (mine i hi).2⟩
    obtain ⟨used, apart⟩ := names_apart names worked identified he branching
      (List.mem_append_left _ List.mem_cons_self) fewer
    have behind : ∀ i ∈ Plot.allInner ps, i ∉ [e] := fun i hi inside =>
      (List.nodup_append.mp inner).2.2 e List.mem_cons_self i hi (List.mem_singleton.mp inside).symm
    have search : m'.computations = c :: outer := (congrArg Machine.computations worked.same).trans h.search
    have signature : m'.signature.Sound := by
      rw [worked.same]
      exact h.grove.signature
    obtain ⟨c', first, second, forked, sound, queue', views, atLeft, atRight⟩ := dispatch_forks search h.sound
      queue signature ho tends.store (names_undecided names tends he List.mem_cons_self)
      m'.graph.capacity { st with steps := st.steps + m'.slice.used }
    refine ⟨m'.slice.used, c', _, ⟨p, l, t, xs⟩, ⟨q, r, t', ys⟩, rfl, rfl, (h.turn_front run st).trans forked,
      h.next worked sound ?_ (h.grove₀.forked worked nodes.le left right hp hq differ newLeft newRight)⟩
    rw [queue']
    have later := Computation.Tends.later (m := m₀) others worked views
      (fun i hi => branching i (List.mem_append_right _ hi)) behind
    refine List.rel_append later (.cons ?_ (.cons ?_ .nil))
    · exact Child.tends (m := m₀) (q := ⟨p, l, t, xs⟩) atLeft tends worked stands.grows.branches used
        (fun i hi => apart i (List.mem_append_left _ hi)) fun i hi => mine i (List.mem_append_left _ hi)
    · exact Child.tends (m := m₀) (q := ⟨q, r, t', ys⟩) atRight tends worked stands.grows.branches used
        (fun i hi => apart i (List.mem_append_right _ hi)) fun i hi => mine i (List.mem_append_right _ hi)

/-! ## The whole search -/

/-- Collects the integers that are handed out. -/
def integers : Visitor (List Int64) := fun m i vs => do
  match ← m.intValue? i with
  | some v => return (vs ++ [v], .more)
  | none => throw .dangling

/-- What a function of trees adds up to. -/
def total (count : Alternatives → Nat) (plots : List Plot) : Nat := (plots.map fun p => count p.tree).sum

/-- What is counted when these sums are done, in so many steps more. -/
def tally (plots : List Plot) (steps : Nat) (st : Stats) : Stats :=
  { st with
    solutions := st.solutions + total Alternatives.ints plots
    failures := st.failures + total Alternatives.failures plots
    forks := st.forks + total Alternatives.forks plots
    steps := st.steps + steps }

/-- A search takes one turn for each node that is left in its trees, and one more. -/
theorem takeTurns_inTurn (turns : Nat) : ∀ (plots : List Plot) (c : Computation) (m : Machine) (st : Stats)
    (seen : List Int64), Frontier k b outer collections plots c m → total Alternatives.nodes plots < turns →
    ∃ n m', takeTurns (Reduction.normalize (F + 4)) integers turns st seen m =
        ⟨seen ++ (Alternatives.inTurn (plots.map Plot.tree)).map (· + b), .ok (tally plots n st) m'⟩ ∧
      m'.collections = collections := by
  induction turns with
  | zero => exact fun _ _ _ _ _ _ lt => absurd lt (Nat.not_lt_zero _)
  | succ turns ih =>
    intro plots c m st seen h lt
    unfold takeTurns
    cases plots with
    | nil =>
      have empty : c.queue = [] := List.forall₂_nil_right_iff.mp h.frames
      have idle : m.front? = none := by
        rw [Machine.front?, h.search, List.head?_cons, Option.bind_some, Computation.front?, empty]
        rfl
      refine ⟨0, m, ?_, h.collections⟩
      rw [turn_idle idle]
      simp [tally, total, Alternatives.inTurn]
    | cons p ps =>
      obtain ⟨o, e, tree, xs⟩ := p
      simp only [total, List.map_cons, List.sum_cons] at lt
      cases tree with
      | int v =>
        obtain ⟨n, m₁, run, value, later⟩ := turn_int (F := F) h st
        have seen_ : integers m₁ o seen = .ok (seen ++ [v + b], .more) := by
          simp only [integers, value, bind, Except.bind]
          rfl
        obtain ⟨n', m', rest, same⟩ := ih ps _ _
          { st with steps := st.steps + n, solutions := st.solutions + 1 } (seen ++ [v + b]) later
          (Nat.lt_of_add_lt_add_left (n := 1) (by rw [Nat.add_comm 1 turns]; exact lt))
        refine ⟨n + n', m', ?_, same⟩
        rw [run]
        simp only [seen_]
        rw [rest]
        simp [tally, total, Alternatives.inTurn, Alternatives.ints, Alternatives.failures,
          Alternatives.forks, Nat.add_assoc]
      | failed =>
        obtain ⟨n, c₁, m₁, run, later⟩ := turn_fails (F := F) h st
        obtain ⟨n', m', rest, same⟩ := ih ps _ _
          { st with steps := st.steps + n, failures := st.failures + 1 } seen later
          (Nat.lt_of_add_lt_add_left (n := 1) (by rw [Nat.add_comm 1 turns]; exact lt))
        refine ⟨n + n', m', ?_, same⟩
        rw [run]
        simp only
        rw [rest]
        simp [tally, total, Alternatives.inTurn, Alternatives.ints, Alternatives.failures,
          Alternatives.forks, Nat.add_assoc]
      | either t t' =>
        obtain ⟨n, c₁, m₁, p, q, rfl, rfl, run, later⟩ := turn_forks (F := F) h st
        obtain ⟨n', m', rest, same⟩ := ih _ _ _
          { st with steps := st.steps + n, forks := st.forks + 1 } seen later (by
            simp only [total, List.map_append, List.sum_append, List.map_cons, List.map_nil, List.sum_cons,
              List.sum_nil]
            simp only [Alternatives.nodes] at lt
            omega)
        refine ⟨n + n', m', ?_, same⟩
        rw [run]
        simp only
        rw [rest]
        simp [tally, total, Alternatives.inTurn, Alternatives.ints, Alternatives.failures,
          Alternatives.forks, Nat.add_assoc]
        omega

/-- The values of the sum of a tree of alternatives and a literal come breadth first. The search yields
every literal of the tree, with the other one added to it, by depth and from left to right within a depth.
It forks once at each inner node, fails once at each leaf that fails, and is never preempted. Each fork
takes two nodes; with as many free ones nothing is collected. -/
theorem sums_in_level_order {root e : NodeId} {tree : Alternatives} {inner : List NodeId} {fuel : Nat}
    (sound : m.Sound) (sum : m.graph.Holds root (.sum e k)) (addend : m.graph.Holds k (.int b))
    (grows : m.graph.Grows tree e inner) (distinct : inner.Nodup)
    (identified : m.graph.Identified m.nextId inner) (nodes : 2 * tree.forks ≤ m.graph.free.length)
    (slice : 3 ≤ m.config.sliceSteps) (unlimited : m.config.stepLimit = none)
    (enough : tree.nodes + 4 ≤ fuel) :
    ∃ steps m', m.evaluate fuel integers root [] =
      ⟨tree.levelOrder.map (· + b), .ok
        { solutions := tree.ints, failures := tree.failures, forks := tree.forks, steps := steps } m'⟩ := by
  obtain ⟨ρ, inv⟩ := sound
  obtain ⟨F, rfl⟩ : ∃ F, fuel = F + 4 := ⟨fuel - 4, by omega⟩
  let p : Plot := ⟨root, e, tree, inner⟩
  let c := Computation.start (some root) m.config.timeAllotment
  have all : Plot.allInner [p] = inner := by simp [Plot.allInner, p]
  have grove : Machine.Grove k b [p] (enter (some root) m) := by
    refine ⟨inv.signature, inv.storage, addend, ?_, List.nodup_singleton _, all ▸ distinct,
      all ▸ identified, ?_⟩
    · rintro q hq
      cases List.mem_singleton.mp hq
      exact ⟨sum, grows⟩
    · rw [all, ← grows.forks]
      exact nodes
  have frontier : Frontier k b m.computations m.collections [p] c (enter (some root) m) := by
    refine ⟨rfl, Computation.start_sound trivial _, .cons ⟨rfl, rfl, fun x side told => ?_⟩ .nil, grove,
      unlimited, slice, rfl⟩
    cases told
  obtain ⟨n, m₁, run, same⟩ := takeTurns_inTurn (F := F) (F + 4) [p] c (enter (some root) m) {} [] frontier
    (by simp only [total, List.map_cons, List.map_nil, List.sum_singleton, p]; omega)
  refine ⟨n, leave m.slice m₁, ?_⟩
  unfold Machine.evaluate search
  rw [run]
  simp [tally, total, same, p, Alternatives.inTurn_eq_levelOrder]

/-- In `((1 <?> failed) ? 2) + 10`, where `<?>` is a choice node, the deeper literal comes last. -/
theorem sums_in_level_order_nested : ∃ m steps m', Operation.Run (.ofConfig (.fixedPool 16)) m ∧
    m.evaluate 20 integers 6 [] =
      ⟨[12, 11], .ok { solutions := 2, failures := 1, forks := 2, steps := steps } m'⟩ := by
  let s := Prelude.standard
  let ops : List Operation := [.int 1, .int 2, .make s.failed [], .int 10, .choice 0 2, .make s.choose [4, 1],
    .make s.add [5, 3]]
  let contents : List Content := [.int 1, .int 2, .failedCall, .int 10, .alternative false 0 0 2,
    .binary s.choose 0 4 1, .sum 5 3]
  have result : (Operation.script (.ofConfig (.fixedPool 16)) ops).map (fun m =>
      ((List.range 7).map m.graph.content?, m.graph.free, m.nextId, m.config.sliceSteps,
        m.config.stepLimit)) = some (contents.map some, List.range' 7 9, 1, 10000, none) := by decide +kernel
  obtain ⟨m, ran, facts⟩ := Option.map_eq_some_iff.mp result
  simp only [Prod.mk.injEq] at facts
  obtain ⟨stored, free, next, slice, unlimited⟩ := facts
  have holds : ∀ (i : Nat) (c : Content), contents[i]? = some c → i < 7 → m.graph.Holds i c := by
    intro i c hc lt
    have read := congrArg (fun l => l[i]?) stored
    rw [List.getElem?_map, List.getElem?_map, List.getElem?_range lt, hc] at read
    refine ⟨Option.some.inj read, fun mem => ?_⟩
    rw [free, List.mem_range'_1] at mem
    omega
  have run : Operation.Run (.ofConfig (.fixedPool 16)) m := Operation.Run.start.script ran
  have below : m.graph.Grows (.either (.int 1) .failed) 4 [4] :=
    .either (holds 4 _ rfl (by decide)) (.choice 0) (.int (holds 0 _ rfl (by decide)))
      (.failed (.call (holds 2 _ rfl (by decide))))
  have grows : m.graph.Grows (.either (.either (.int 1) .failed) (.int 2)) 5 [5, 4] :=
    .either (holds 5 _ rfl (by decide)) .call below (.int (holds 1 _ rfl (by decide)))
  have identified : m.graph.Identified m.nextId [5, 4] := by
    have call : ∀ id l r, ¬ m.graph.Holds 5 (.alternative false id l r) := fun id l r held => by
      cases held.eq (holds 5 _ rfl (by decide))
    intro i hi id l r held
    simp only [List.mem_cons, List.not_mem_nil, or_false] at hi
    rcases hi with rfl | rfl
    · exact absurd held (call id l r)
    · cases held.eq (holds 4 _ rfl (by decide))
      refine ⟨by rw [next]; decide, fun j hj l' r' held' => ?_⟩
      simp only [List.mem_cons, List.not_mem_nil, or_false] at hj
      exact hj.resolve_left fun here => call 0 l' r' (here ▸ held')
  have new : Machine.new (.fixedPool 16) = .ok (.ofConfig (.fixedPool 16)) := rfl
  have enough : (Alternatives.either (.either (.int 1) .failed) (.int 2)).nodes + 4 ≤ 20 := by decide
  obtain ⟨steps, m', evaluated⟩ := sums_in_level_order (run.sound new) (holds 6 _ rfl (by decide))
    (holds 3 _ rfl (by decide)) grows (by decide) identified (by rw [free]; decide) (by rw [slice]; decide)
    unlimited enough
  exact ⟨m, steps, m', run, evaluated⟩

end Schedule

end ChoiceGraph
