import ChoiceGraph.Proofs.Agreement
import ChoiceGraph.Proofs.Ties

/-! # Decisions about a class of choices

A choice in front is decided by all the choices that ties connect to it. Its class is met in some order
and the search of it stops at the first contradiction; neither matters. What the scheduler then does to
the queue follows the decision: the frame in front is dropped, goes on with one alternative, or is
replaced by two frames at the back. -/
namespace ChoiceGraph

/-! ## What is decided -/

namespace Decision

variable {l l' : List Side} {side : Side}

theorem ofSides_conflict : ofSides l = .conflict ↔ .left ∈ l ∧ .right ∈ l := by
  unfold ofSides
  split
  · next both => exact ⟨fun _ => both, fun _ => rfl⟩
  · next both =>
    refine ⟨fun h => ?_, fun h => absurd h both⟩
    cases l <;> cases h

theorem ofSides_taken : ofSides l = .taken side ↔ side ∈ l ∧ ∀ a ∈ l, a = side := by
  unfold ofSides
  split
  · next both =>
    refine ⟨nofun, fun ⟨_, all⟩ => ?_⟩
    cases (all _ both.1).trans (all _ both.2).symm
  · next both =>
    cases l with
    | nil => exact ⟨nofun, fun h => absurd h.1 List.not_mem_nil⟩
    | cons first rest =>
      simp only [taken.injEq]
      refine ⟨?_, fun h => h.2 first List.mem_cons_self⟩
      rintro rfl
      refine ⟨List.mem_cons_self, fun a ha => ?_⟩
      cases a with
      | left => cases first with
        | left => rfl
        | right => exact absurd ⟨ha, List.mem_cons_self⟩ both
      | right => cases first with
        | left => exact absurd ⟨List.mem_cons_self, ha⟩ both
        | right => rfl

theorem ofSides_undecided_iff : ofSides l = .undecided ↔ ∀ a, a ∉ l := by
  refine ⟨fun h => ?_, fun h => ?_⟩
  · rw [ofSides_undecided h]
    exact fun _ => List.not_mem_nil
  · rw [List.eq_nil_iff_forall_not_mem.mpr h]
    rfl

/-- Only which sides there are matters. -/
theorem ofSides_congr (same : ∀ a, a ∈ l ↔ a ∈ l') : ofSides l = ofSides l' := by
  cases decided : ofSides l' with
  | conflict =>
    rw [ofSides_conflict] at decided ⊢
    exact ⟨(same _).mpr decided.1, (same _).mpr decided.2⟩
  | taken side =>
    rw [ofSides_taken] at decided ⊢
    exact ⟨(same _).mpr decided.1, fun a ha => decided.2 a ((same a).mp ha)⟩
  | undecided =>
    rw [ofSides_undecided_iff] at decided ⊢
    exact fun a ha => decided a ((same a).mp ha)

end Decision

/-- The choices that chains of ties connect to a choice, with the choice itself. -/
def ConstraintStore.InClass (s : ConstraintStore) : ChoiceId → ChoiceId → Prop :=
  Relation.ReflTransGen s.Tied

theorem ConstraintStore.mem_class {s : ConstraintStore} {id x : ChoiceId} :
    x ∈ id :: s.equivalents id ↔ s.InClass id x := by
  rw [List.mem_cons, mem_equivalents, InClass]
  refine ⟨?_, fun path => or_iff_not_imp_left.mpr fun other => ⟨other, path⟩⟩
  rintro (rfl | ⟨-, path⟩)
  · exact .refl
  · exact path

namespace Fingerprint

variable {f : Fingerprint} {s : ConstraintStore} {id : ChoiceId} {side : Side}

/-- Meets choices one after the other, with the side found so far, and stops at a contradiction. -/
def scan (f : Fingerprint) : Option Side → List ChoiceId → Decision
  | none, [] => .undecided
  | some side, [] => .taken side
  | found, x :: xs =>
    match found, f.get? x with
    | some a, some b => if a = b then f.scan (some a) xs else .conflict
    | some a, none => f.scan (some a) xs
    | none, b => f.scan b xs

theorem scan_eq : ∀ (xs : List ChoiceId) (found : Option Side),
    f.scan found xs = .ofSides (found.toList ++ xs.filterMap f.get?) := by
  intro xs
  induction xs with
  | nil => intro found; cases found with
    | none => rfl
    | some a => cases a <;> rfl
  | cons x xs ih =>
    intro found
    unfold scan
    cases found with
    | none =>
      simp only [ih, Option.toList_none, List.nil_append, List.filterMap_cons]
      cases f.get? x <;> rfl
    | some a =>
      cases met : f.get? x with
      | none => simp only [ih, List.filterMap_cons, met]
      | some b =>
        simp only [ih, Option.toList_some, List.filterMap_cons, met, List.cons_append, List.nil_append]
        split
        · next same =>
          refine Decision.ofSides_congr fun c => ?_
          simp only [List.mem_cons, ← same, or_self_left]
        · next differ =>
          refine (Decision.ofSides_conflict.mpr ?_).symm
          cases a <;> cases b <;> simp at differ ⊢

/-- What is found about a choice, in whatever order its class is met, is what the class says. -/
structure DecidesByClass (f : Fingerprint) (s : ConstraintStore) (id : ChoiceId) : Prop where
  conflict : f.decide s id = .conflict ↔ ∃ x y, s.InClass id x ∧ s.InClass id y ∧
    f.get? x = some .left ∧ f.get? y = some .right
  taken (side : Side) : f.decide s id = .taken side ↔
    (∃ x, s.InClass id x ∧ f.get? x = some side) ∧
      ∀ x a, s.InClass id x → f.get? x = some a → a = side
  undecided : f.decide s id = .undecided ↔ ∀ x, s.InClass id x → f.get? x = none
  anyOrder (others : List ChoiceId) (same : ∀ x, x ∈ others ↔ x ∈ s.equivalents id) :
    f.scan (f.get? id) others = f.decide s id

theorem mem_sides : side ∈ (id :: s.equivalents id).filterMap f.get? ↔
    ∃ x, s.InClass id x ∧ f.get? x = some side := by
  rw [List.mem_filterMap]
  exact exists_congr fun x => and_congr_left fun _ => ConstraintStore.mem_class

theorem decides_by_class (f : Fingerprint) (s : ConstraintStore) (id : ChoiceId) :
    f.DecidesByClass s id where
  conflict := by
    rw [decide, Decision.ofSides_conflict, mem_sides, mem_sides]
    refine ⟨?_, ?_⟩
    · rintro ⟨⟨x, hx, left⟩, y, hy, right⟩
      exact ⟨x, y, hx, hy, left, right⟩
    · rintro ⟨x, y, hx, hy, left, right⟩
      exact ⟨⟨x, hx, left⟩, y, hy, right⟩
  taken side := by
    rw [decide, Decision.ofSides_taken, mem_sides]
    refine and_congr_right fun _ => ⟨fun all x a hx here => ?_, fun all a ha => ?_⟩
    · exact all a (mem_sides.mpr ⟨x, hx, here⟩)
    · obtain ⟨x, hx, here⟩ := mem_sides.mp ha
      exact all x a hx here
  undecided := by
    rw [decide, Decision.ofSides_undecided_iff]
    refine ⟨fun empty x hx => ?_, fun unset a ha => ?_⟩
    · exact Option.eq_none_iff_forall_ne_some.mpr fun a here => empty a (mem_sides.mpr ⟨x, hx, here⟩)
    · obtain ⟨x, hx, here⟩ := mem_sides.mp ha
      cases (unset x hx).symm.trans here
  anyOrder others same := by
    rw [scan_eq, decide]
    refine Decision.ofSides_congr fun a => ?_
    rw [List.filterMap_cons, List.mem_append, Option.mem_toList, List.mem_filterMap]
    have there : (∃ x ∈ others, f.get? x = some a) ↔ a ∈ (s.equivalents id).filterMap f.get? := by
      rw [List.mem_filterMap]
      exact exists_congr fun x => and_congr_left fun _ => same x
    rw [there]
    cases f.get? id with
    | none => simp
    | some b => simp [eq_comm]

/-- A decision about what is undecided is added to the others. -/
theorem get_set (free : f.get? id = none) (x : ChoiceId) :
    (f.set id side).get? x = if x = id then some side else f.get? x := by
  split
  · next here => rw [here, get_set_self free]
  · next other => exact get_set_ne other

end Fingerprint

/-! ## What follows for the queue -/

namespace Computation

variable {c : Computation} {f : Frame} {rest : List Frame} {id : ChoiceId}

/-- A frame like `f` on one alternative of a choice, with a full allotment. -/
def branch (f : Frame) (node : Link) (fingerprint : Handle) (allotment : Nat) : Frame :=
  { f with node := node, fingerprint := fingerprint, allotment := allotment, suspended := false }

/-- The alternative on a side. -/
def alternative (left right : Link) : Side → Link
  | .left => left
  | .right => right

/-- What has become of the queue `f :: rest` and of the counts when the choice `id` in front has been
resolved: both follow the decisions of its class. The frames of `rest` stay as they are. -/
inductive Resolved (c : Computation) (f : Frame) (rest : List Frame) (id : ChoiceId) (left right : Link)
    (allotment : Nat) (st : Stats) : Stats → Computation → Prop
  | failed {c' : Computation} {x y : ChoiceId}
      (leftMember : (c.constraintsOf f).InClass id x) (rightMember : (c.constraintsOf f).InClass id y)
      (isLeft : (c.fingerprintOf f).get? x = some .left)
      (isRight : (c.fingerprintOf f).get? y = some .right)
      (queue : c'.queue = rest) (others : ∀ g ∈ rest, c'.view g = c.view g) :
      Resolved c f rest id left right allotment st { st with failures := st.failures + 1 } c'
  | followed {x : ChoiceId} {side : Side}
      (member : (c.constraintsOf f).InClass id x)
      (decided : (c.fingerprintOf f).get? x = some side)
      (agreed : ∀ y b, (c.constraintsOf f).InClass id y →
        (c.fingerprintOf f).get? y = some b → b = side) :
      Resolved c f rest id left right allotment st st
        { c with queue := { f with node := alternative left right side, suspended := false } :: rest }
  | forked {c' : Computation} {l r : Handle}
      (undecided : ∀ x, (c.constraintsOf f).InClass id x → (c.fingerprintOf f).get? x = none)
      (queue : c'.queue = rest ++ [branch f left l allotment, branch f right r allotment])
      (leftDecided : ∀ x, (c'.fingerprintOf (branch f left l allotment)).get? x =
        if x = id then some .left else (c.fingerprintOf f).get? x)
      (rightDecided : ∀ x, (c'.fingerprintOf (branch f right r allotment)).get? x =
        if x = id then some .right else (c.fingerprintOf f).get? x)
      (leftBound : c'.constraintsOf (branch f left l allotment) = c.constraintsOf f)
      (rightBound : c'.constraintsOf (branch f right r allotment) = c.constraintsOf f)
      (others : ∀ g ∈ rest, c'.view g = c.view g) :
      Resolved c f rest id left right allotment st { st with forks := st.forks + 1 } c'

/-- Only the cells of the frame in front matter, not its node. -/
theorem Resolved.moved {c : Computation} {left right : Link} {allotment : Nat} {st st' : Stats}
    {c' : Computation} (queue : List Frame) (node : Link)
    (h : Resolved { c with queue := queue } { f with node := node } rest id left right allotment st st' c') :
    Resolved c f rest id left right allotment st st' c' := by
  cases h with
  | failed leftMember rightMember isLeft isRight queue others =>
    exact .failed leftMember rightMember isLeft isRight queue others
  | followed member decided agreed => exact .followed member decided agreed
  | forked undecided queue leftDecided rightDecided leftBound rightBound others =>
    exact .forked undecided queue leftDecided rightDecided leftBound rightBound others

theorem dropFront_others (counted : c.Counted) (front : c.queue = f :: rest) :
    c.dropFront.queue = rest ∧ ∀ g ∈ rest, c.dropFront.view g = c.view g := by
  have views := counted.dropFront_views
  have queue : c.dropFront.queue = rest := by simp only [dropFront, front, release]
  rw [Computation.views, queue, views_cons front, List.tail_cons] at views
  exact ⟨queue, List.map_inj_left.mp views⟩

/-- What a resolution counts. -/
def Resolution.counts : Resolution → Stats → Stats
  | .failed, st => { st with failures := st.failures + 1 }
  | .followed, st => st
  | .forked, st => { st with forks := st.forks + 1 }

theorem resolve_resolved (counted : c.Counted) (front : c.queue = f :: rest) (id : ChoiceId)
    (left right : Link) (allotment : Nat) (st : Stats) :
    Resolved c f rest id left right allotment st ((c.resolve id left right allotment).1.counts st)
      (c.resolve id left right allotment).2 := by
  have byClass := (c.fingerprintOf f).decides_by_class (c.constraintsOf f) id
  cases decision : (c.fingerprintOf f).decide (c.constraintsOf f) id with
  | conflict =>
    obtain ⟨x, y, hx, hy, isLeft, isRight⟩ := byClass.conflict.mp decision
    obtain ⟨queue, others⟩ := dropFront_others counted front
    simp only [resolve, front, decision]
    exact .failed hx hy isLeft isRight queue others
  | taken side =>
    obtain ⟨⟨x, hx, decided⟩, agreed⟩ := (byClass.taken side).mp decision
    have followed : Resolved c f rest id left right allotment st st _ :=
      .followed hx decided agreed
    cases side <;> simpa only [resolve, front, decision, alternative, Resolution.counts] using followed
  | undecided =>
    have undecided := byClass.undecided.mp decision
    have free := undecided id .refl
    obtain ⟨fingerprints, stores⟩ := counted
    rw [front, List.map_cons] at fingerprints stores
    obtain ⟨cell, hcell, -⟩ := fingerprints.cell List.mem_cons_self
    have old : c.fingerprints.read? f.fingerprint = some cell.value := by
      rw [Cells.read?, hcell, Option.map_some]
    have value : c.fingerprintOf f = cell.value := by rw [fingerprintOf, old, Option.getD_some]
    obtain ⟨leftCell, rightCell, others⟩ := fingerprints.part old (·.set id .left) (·.set id .right)
    let first := (c.fingerprints.share f.fingerprint).write f.fingerprint (·.set id .left)
    let second := first.2.write f.fingerprint (·.set id .right)
    simp only [resolve, front, decision]
    refine .forked (l := first.1) (r := second.1) undecided (List.append_assoc _ _ _) (fun x => ?_)
      (fun x => ?_) ?_ ?_ fun g hg => ?_
    · rw [value] at free ⊢
      rw [← Fingerprint.get_set free]
      simp only [fingerprintOf, branch, pushBack, writeFingerprint, fork, first, leftCell, Option.getD_some]
    · rw [value] at free ⊢
      rw [← Fingerprint.get_set free]
      simp only [fingerprintOf, branch, pushBack, writeFingerprint, fork, first, second, rightCell,
        Option.getD_some]
    · simp only [constraintsOf, branch, pushBack, writeFingerprint, fork, Cells.share_read]
    · simp only [constraintsOf, branch, pushBack, writeFingerprint, fork, Cells.share_read]
    · simp only [view, fingerprintOf, constraintsOf, pushBack, writeFingerprint, fork,
        others _ (List.mem_map_of_mem hg), Cells.share_read]

end Computation

/-- Indirections lead from one node to another, as many as the number says. -/
inductive TermGraph.Forwards (t : TermGraph) : Nat → NodeId → NodeId → Prop
  | here (i : NodeId) : Forwards t 0 i i
  | next {k : Nat} {i j p : NodeId} (tag : t.tag i = .ok .forward)
      (link : t.successor i 0 = .ok (some j)) (rest : Forwards t k j p) : Forwards t (k + 1) i p

namespace Schedule

open Eff

variable {m : Machine} {c : Computation} {outer : List Computation} {f : Frame} {rest : List Frame}
  {p : NodeId} {id : ChoiceId} {left right : Link} {st : Stats}

theorem fork_resolved (search : m.computations = c :: outer) (aux : m.aux p = .ok id)
    (first : m.successor p 0 = .ok left) (second : m.successor p 1 = .ok right) :
    fork p st m = .ok ((c.resolve id left right m.config.timeAllotment).1.counts st)
      { m with computations := (c.resolve id left right m.config.timeAllotment).2 :: outer } := by
  have resolved : resolveFront m id left right =
      ((c.resolve id left right m.config.timeAllotment).1,
        { m with computations := (c.resolve id left right m.config.timeAllotment).2 :: outer }) := by
    rw [resolveFront, search]
  have change : (modifyGet fun m => resolveFront m id left right : Eff Computation.Resolution) m =
      .ok (resolveFront m id left right).1 (resolveFront m id left right).2 := rfl
  rw [resolved] at change
  unfold fork
  refine (bind_ok (look_ok aux)).trans ((bind_ok (look_ok first)).trans ((bind_ok (look_ok second)).trans ?_))
  refine (bind_ok change).trans ?_
  cases (c.resolve id left right m.config.timeAllotment).1 <;> rfl

/-- Indirections in front of a choice move the frame to it. -/
theorem dispatch_resolved {k i : Nat} (leads : m.Forwards k i p) :
    ∀ {bound : Nat} {m' : Machine} {c : Computation} {f : Frame}, k < bound →
      m' = { m with computations := c :: outer } → c.Counted → c.queue = f :: rest →
      m.tag p = .ok .choice → m.aux p = .ok id → m.successor p 0 = .ok left →
      m.successor p 1 = .ok right →
      ∃ st' c', dispatch bound i st m' = .ok (st', .again) { m with computations := c' :: outer } ∧
        c.Resolved f rest id left right m.config.timeAllotment st st' c' := by
  induction leads with
  | here i =>
    rintro (_ | bound) m' c f lt rfl counted front tag aux first second
    · cases lt
    · refine ⟨_, _, ?_, Computation.resolve_resolved counted front id left right _ st⟩
      have forked : fork i st { m with computations := c :: outer } = .ok _ _ :=
        fork_resolved rfl aux first second
      unfold dispatch
      exact (bind_ok (look_ok tag)).trans (bind_ok forked)
  | @next k i j p forward link rest' ih =>
    rintro (_ | bound) m' c f lt rfl counted front tag aux first second
    · cases lt
    · let moved : Computation := { c with queue := { f with node := some j } :: rest }
      have still : moved.Counted := by
        obtain ⟨fingerprints, stores⟩ := counted
        rw [front] at fingerprints stores
        exact ⟨fingerprints, stores⟩
      obtain ⟨st', c', run, resolved⟩ := ih (Nat.lt_of_succ_lt_succ lt) rfl still rfl tag aux first second
      refine ⟨st', c', ?_, resolved.moved _ _⟩
      have move : setFrontNode (some j) ({ m with computations := c :: outer } : Machine) =
          .ok () { m with computations := moved :: outer } := by
        show EStateM.Result.ok () _ = _
        simp only [Machine.mapInnermost, front, moved]
      unfold dispatch
      refine (bind_ok (look_ok forward)).trans ((bind_ok (look_ok link)).trans ?_)
      exact (bind_ok move).trans ((bind_ok (look_ok (a := j) rfl)).trans run)

/-- One turn resolves the choice that the front frame has come to by all the choices that ties connect
to it: the class says what is decided, however it is met, and the queue follows the decision. -/
theorem choice_resolved_by_class {bound k : Nat} {i : NodeId} (search : m.computations = c :: outer)
    (counted : c.Counted) (front : c.queue = f :: rest) (leads : m.Forwards k i p) (enough : k < bound)
    (tag : m.tag p = .ok .choice) (aux : m.aux p = .ok id) (first : m.successor p 0 = .ok left)
    (second : m.successor p 1 = .ok right) :
    (∀ (fingerprint : Fingerprint) (s : ConstraintStore) (x : ChoiceId), fingerprint.DecidesByClass s x) ∧
      ∃ st' c', dispatch bound i st m = .ok (st', .again) { m with computations := c' :: outer } ∧
        c.Resolved f rest id left right m.config.timeAllotment st st' c' := by
  refine ⟨Fingerprint.decides_by_class, ?_⟩
  have same : m = { m with computations := c :: outer } := by rw [← search]
  exact dispatch_resolved leads enough same counted front tag aux first second

/-- A search for `1 ? 2` behind an indirection. Its frame has decided another choice, which a chain of
two ties connects to this one. -/
def tiedSearch : Computation where
  queue := [{ node := some 3, fingerprint := 0, constraints := 0, allotment := 1, suspended := false }]
  fingerprints := (Cells.empty.new (Fingerprint.empty.set 7 .right)).2
  stores := (Cells.empty.new (ConstraintStore.empty.tieAll [(5, 6), (7, 6)])).2

def tiedChoice : Machine :=
  { Machine.ofConfig (.fixedPool 4) with
    graph :=
      { nodes := #[⟨.choice, Builtin.choice, 5, .inline (some 1) (some 2)⟩,
          ⟨.constructor 0, Builtin.int, 0, .data (.int 1)⟩,
          ⟨.constructor 0, Builtin.int, 0, .data (.int 2)⟩,
          ⟨.forward, Builtin.forward, 0, .inline (some 0) none⟩]
        free := [], pools := #[], growNodes := 0, maxNodes := 4 }
    computations := [tiedSearch] }

theorem choice_resolved_by_class_tied : ∃ st' c',
    dispatch 2 3 {} tiedChoice = .ok (st', .again) { tiedChoice with computations := [c'] } ∧
      c'.queue.map Frame.node = [some 2] ∧ st' = {} := by
  have counted : tiedSearch.Counted := ⟨Cells.empty_counted.new, Cells.empty_counted.new⟩
  have leads : tiedChoice.Forwards 1 3 0 := .next rfl rfl (.here 0)
  obtain ⟨-, st', c', run, -⟩ : _ ∧ ∃ st' c', dispatch 2 3 {} tiedChoice = .ok (st', .again) _ ∧ _ :=
    choice_resolved_by_class rfl counted rfl leads Nat.one_lt_two rfl rfl rfl rfl
  let summary : EStateM.Result Stop Machine (Stats × Outcome) → Option (List (List Link) × Stats)
    | .ok (st, _) m => some (m.computations.map fun c => c.queue.map Frame.node, st)
    | .error _ _ => none
  have computed : summary (dispatch 2 3 {} tiedChoice) = some ([[some 2]], {}) := by decide +kernel
  rw [run] at computed
  simp only [summary, List.map_cons, List.map_nil, Option.some.injEq, Prod.mk.injEq, List.cons.injEq,
    and_true] at computed
  exact ⟨st', c', run, computed⟩

end Schedule

end ChoiceGraph
