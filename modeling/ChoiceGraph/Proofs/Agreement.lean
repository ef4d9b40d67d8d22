import ChoiceGraph.Proofs.Operations

/-! # Agreement of bound variables

A frame agrees on its variables when it has decided those of one type that chains of its bindings
connect the same way. A search does not keep to this. It asks the ties of a frame, not its
bindings, before it forks the frame at a choice, and ties are made only when a choice is pulled
above another node. What follows is the exact condition: all frames agree as long as no turn parts
variables of the frame in front. -/
namespace ChoiceGraph

namespace ConstraintStore

variable {s s' : ConstraintStore} {x y z : VarId}

/-- A normal binding of two variables, as it is recorded for both. -/
def Binds (s : ConstraintStore) (x y : VarId) : Prop :=
  ∃ a b : NodeId, (x, ⟨a, b, false⟩) ∈ s.bindings ∧ (y, ⟨b, a, false⟩) ∈ s.bindings

/-- A chain of normal bindings connects the variables. -/
def Bound (s : ConstraintStore) : VarId → VarId → Prop := Relation.ReflTransGen s.Binds

theorem bind_binds (x y : BoundVar) : (s.bind x y false).Binds x.id y.id := by
  refine ⟨x.node, y.node, ?_, ?_⟩
  · exact List.mem_append_left _ (List.mem_append_right _ (List.mem_singleton.mpr rfl))
  · exact List.mem_append_right _ (List.mem_singleton.mpr rfl)

theorem Binds.symm (h : s.Binds x y) : s.Binds y x := by
  obtain ⟨a, b, hx, hy⟩ := h
  exact ⟨b, a, hy, hx⟩

theorem Bound.symm (h : s.Bound x y) : s.Bound y x := by
  induction h with
  | refl => exact .refl
  | tail _ hb ih => exact .head hb.symm ih

theorem Bound.mono (h : s.Bound x y) (grows : s.Extends s') : s'.Bound x y := by
  refine Relation.ReflTransGen.mono (fun u v huv => ?_) _ _ h
  obtain ⟨a, b, hu, hv⟩ := huv
  exact ⟨a, b, grows.bindings.subset hu, grows.bindings.subset hv⟩

end ConstraintStore

theorem Decision.ofSides_undecided {sides : List Side} (h : ofSides sides = .undecided) :
    sides = [] := by
  unfold ofSides at h
  split at h
  · cases h
  · cases sides with
    | nil => rfl
    | cons side rest => cases h

namespace Fingerprint

variable {f : Fingerprint} {s : ConstraintStore} {id x : ChoiceId} {side a : Side}

/-- What is undecided is decided neither by itself nor through a tie. -/
theorem get_of_undecided (h : f.decide s id = .undecided) (hx : x ∈ id :: s.equivalents id) :
    f.get? x = none :=
  List.filterMap_eq_nil_iff.mp (Decision.ofSides_undecided h) x hx

theorem get_set_self (free : f.get? id = none) : (f.set id side).get? id = some side := by
  unfold set
  rw [free, Option.isSome_none, if_neg Bool.false_ne_true]
  exact List.lookup_cons_self

theorem get_set_ne (hx : x ≠ id) : (f.set id side).get? x = f.get? x := by
  unfold set
  split
  · rfl
  · rw [get?, List.lookup_cons, beq_false_of_ne hx]
    rfl

end Fingerprint

variable {τ : Type} {type : VarId → τ} {q q' : List View}

/-- Variables of one type that are bound are decided the same way. -/
def View.Agrees (type : VarId → τ) (v : View) : Prop :=
  ∀ x y a b, v.bound.Bound x y → type x = type y → v.decided.get? x = some a →
    v.decided.get? y = some b → a = b

/-- A turn parts variables of the frame in front: it forks the frame at a choice that is bound,
but not tied, to a variable the frame has decided, or it binds variables that the frame has decided
differently and does not drop the frame. -/
inductive Parts (type : VarId → τ) : List View → List View → Prop where
  | fork {v : View} {rest : List View} {s : ConstraintStore} {id y : VarId} {side : Side}
    (undecided : v.decided.get? id = none) (decided : v.decided.get? y = some side)
    (bound : s.Bound id y) (same : type id = type y) (untied : y ∉ s.equivalents id) :
    Parts type (v :: rest) (rest ++ [⟨v.decided.set id .left, s⟩, ⟨v.decided.set id .right, s⟩])
  | bind {v : View} {rest q : List View} {s : ConstraintStore} {x y : VarId}
    (left : v.decided.get? x = some .left) (right : v.decided.get? y = some .right)
    (bound : s.Bound x y) (new : ¬ v.bound.Bound x y) (same : type x = type y)
    (turned : Turned (⟨v.decided, s⟩ :: rest) q) (kept : rest.length < q.length) :
    Parts type (v :: rest) q

/-- A turn that parts variables leaves a frame that does not agree on them. -/
theorem Parts.disagrees (h : Parts type q q') : ∃ v ∈ q', ¬ v.Agrees type := by
  cases h with
  | @fork v rest s id y side undecided decided bound same untied =>
    have other : y ≠ id := by
      rintro rfl
      cases undecided.symm.trans decided
    have parted : ∀ taken, side ≠ taken → ¬ View.Agrees type ⟨v.decided.set id taken, s⟩ :=
      fun taken ne agrees => ne (agrees y id side taken bound.symm same.symm
        ((Fingerprint.get_set_ne other).trans decided) (Fingerprint.get_set_self undecided))
    cases side with
    | left => exact ⟨_, by simp, parted .right (by decide)⟩
    | right => exact ⟨_, by simp, parted .left (by decide)⟩
  | @bind v rest q s x y left right bound new same turned kept =>
    have parted : ∀ s' : ConstraintStore, s.Extends s' → ¬ View.Agrees type ⟨v.decided, s'⟩ :=
      fun s' grows agrees =>
        absurd (agrees x y .left .right (bound.mono grows) same left right) (by decide)
    cases turned with
    | dropped => exact absurd kept (lt_irrefl _)
    | abandoned => exact absurd kept (Nat.not_lt_zero _)
    | stays _ _ grows => exact ⟨_, List.mem_cons_self, parted _ grows⟩
    | waits _ _ grows => exact ⟨_, by simp, parted _ grows⟩
    | forks _ _ grows id undecided =>
      have free := Fingerprint.get_of_undecided undecided List.mem_cons_self
      have decided : ∀ z a, v.decided.get? z = some a → (v.decided.set id .left).get? z = some a := by
        intro z a hz
        refine (Fingerprint.get_set_ne fun e => ?_).trans hz
        cases free.symm.trans (e ▸ hz)
      refine ⟨_, List.mem_append_right _ List.mem_cons_self, fun agrees => ?_⟩
      exact absurd (agrees x y .left .right (bound.mono grows) same (decided x _ left)
        (decided y _ right)) (by decide)

/-- A frame that has gained bindings agrees, unless they are bindings of variables decided
differently. -/
theorem View.Agrees.gain {v : View} {s : ConstraintStore} (h : v.Agrees type)
    (careful : ∀ x y, v.decided.get? x = some .left → v.decided.get? y = some .right →
      s.Bound x y → ¬ v.bound.Bound x y → type x ≠ type y) :
    View.Agrees type ⟨v.decided, s⟩ := by
  intro x y a b bound same hx hy
  by_cases old : v.bound.Bound x y
  · exact h x y a b old same hx hy
  · cases a with
    | left => cases b with
      | left => rfl
      | right => exact absurd same (careful x y hx hy bound old)
    | right => cases b with
      | left =>
        exact absurd same.symm (careful y x hy hx bound.symm fun h => old h.symm)
      | right => rfl

/-- A frame that has decided one more choice agrees, unless it has decided a variable that is bound
to the choice. -/
theorem View.Agrees.decide {v : View} {id : ChoiceId} (side : Side) (h : v.Agrees type)
    (undecided : v.decided.get? id = none)
    (careful : ∀ y, (v.decided.get? y).isSome → v.bound.Bound id y → type id ≠ type y) :
    View.Agrees type ⟨v.decided.set id side, v.bound⟩ := by
  intro x y a b bound same hx hy
  dsimp only at bound hx hy
  by_cases ex : x = id
  · by_cases ey : y = id
    · rw [ex, Fingerprint.get_set_self undecided] at hx
      rw [ey, Fingerprint.get_set_self undecided] at hy
      exact Option.some.inj (hx.symm.trans hy)
    · rw [Fingerprint.get_set_ne ey] at hy
      rw [ex] at bound same
      exact absurd same (careful y (by rw [hy]; rfl) bound)
  · rw [Fingerprint.get_set_ne ex] at hx
    by_cases ey : y = id
    · rw [ey] at bound same
      exact absurd same.symm (careful x (by rw [hx]; rfl) bound.symm)
    · rw [Fingerprint.get_set_ne ey] at hy
      exact h x y a b bound same hx hy

/-- A turn that parts no variables leaves frames that agree. -/
theorem Turned.agrees (h : Turned q q') (agree : ∀ v ∈ q, v.Agrees type)
    (careful : ¬ Parts type q q') : ∀ v ∈ q', v.Agrees type := by
  -- a frame that is not dropped agrees with what it has gained
  have kept : ∀ {v : View} {rest : List View} {s : ConstraintStore}, q = v :: rest →
      Turned (⟨v.decided, s⟩ :: rest) q' → rest.length < q'.length →
      View.Agrees type ⟨v.decided, s⟩ := by
    rintro v rest s rfl turned length
    exact (agree v List.mem_cons_self).gain fun x y hx hy bound new same =>
      careful (.bind hx hy bound new same turned length)
  have others : ∀ {v : View} {rest : List View}, q = v :: rest → ∀ w ∈ rest, w.Agrees type := by
    rintro v rest rfl w hw
    exact agree w (List.mem_cons_of_mem _ hw)
  cases h with
  | empty => exact agree
  | dropped v rest => exact others rfl
  | abandoned v rest => exact fun w hw => absurd hw List.not_mem_nil
  | stays v rest grows =>
    intro w hw
    rcases List.mem_cons.mp hw with rfl | hw
    · exact kept rfl (.refl _) (Nat.lt_succ_self _)
    · exact others rfl w hw
  | @waits v rest s grows =>
    intro w hw
    rcases List.mem_append.mp hw with hw | hw
    · exact others rfl w hw
    · rw [List.mem_singleton.mp hw]
      exact kept rfl (.waits ⟨v.decided, s⟩ rest (.refl s)) (by simp)
  | @forks v rest s grows id undecided =>
    have gained := kept rfl (.forks ⟨v.decided, s⟩ rest (.refl s) id undecided) (by simp)
    have free := Fingerprint.get_of_undecided undecided List.mem_cons_self
    have forked : ∀ y, (v.decided.get? y).isSome → s.Bound id y → type id ≠ type y := by
      intro y decided bound same
      obtain ⟨side, decided⟩ := Option.isSome_iff_exists.mp decided
      refine careful (.fork free decided bound same fun tied => ?_)
      cases (Fingerprint.get_of_undecided undecided (List.mem_cons_of_mem _ tied)).symm.trans decided
    intro w hw
    simp only [List.mem_append, List.mem_cons, List.not_mem_nil, or_false] at hw
    rcases hw with hw | rfl | rfl
    · exact others rfl w hw
    · exact gained.decide .left free forked
    · exact gained.decide .right free forked

/-! ## Whole searches -/

namespace Schedule

variable {σ : Type} {normal : NodeId → Eff Unit} {visit : Visitor σ} {start m m' : Machine}
  {st st' : Stats} {o : Outcome}

/-- The states that the scheduler of a search passes through, with what each leaves to be done. -/
inductive Visits (normal : NodeId → Eff Unit) (start : Machine) : Stats → Outcome → Machine → Prop
  | enter : Visits normal start {} .again start
  | turn {st st' : Stats} {o : Outcome} {m m' : Machine} (h : Visits normal start st .again m)
    (run : turn normal st m = .ok (st', o) m') : Visits normal start st' o m'
  | drop {st : Stats} {i : NodeId} {m : Machine} (h : Visits normal start st (.value i) m) :
    Visits normal start st .again (m.mapInnermost Computation.dropFront)

/-- What a visitor gathers has a property that every value it is handed keeps. -/
theorem takeTurns_gathered {P : σ → Prop}
    (keeps : ∀ st i m s s' flow, Visits normal start st (.value i) m →
      visit m i s = .ok (s', flow) → P s → P s') :
    ∀ (turns : Nat) (st : Stats) (s : σ) (m : Machine), Visits normal start st .again m → P s →
      P (takeTurns normal visit turns st s m).gathered := by
  intro turns
  induction turns with
  | zero => exact fun _ _ _ _ hs => hs
  | succ turns ih =>
    intro st s m h hs
    unfold takeTurns
    cases run : turn normal st m with
    | error stop m' => exact hs
    | ok r m' =>
      obtain ⟨st', o⟩ := r
      have next := h.turn run
      cases o with
      | «over» => exact hs
      | again => exact ih st' s m' next hs
      | value i =>
        dsimp only
        cases visited : visit m' i s with
        | error e => exact hs
        | ok r =>
          obtain ⟨s', flow⟩ := r
          have hs' := keeps st' i m' s s' flow next visited hs
          cases flow with
          | more => exact ih st' s' _ next.drop hs'
          | enough => exact hs'

/-- Gathers the views of every state that hands out a value. -/
def recorder : Visitor (List View) := fun m _ views => .ok (m.views ++ views, .more)

theorem gathered_views (turns : Nat) :
    ∀ v ∈ (takeTurns normal recorder turns {} [] start).gathered,
      ∃ st i m, Visits normal start st (.value i) m ∧ v ∈ m.views := by
  let P : List View → Prop := fun views =>
    ∀ v ∈ views, ∃ st i m, Visits normal start st (.value i) m ∧ v ∈ m.views
  refine takeTurns_gathered (P := P) ?_ turns {} [] start .enter fun v hv => absurd hv List.not_mem_nil
  intro st i m s s' flow visits visited hs v hv
  cases visited
  rcases List.mem_append.mp hv with hv | hv
  · exact ⟨st, i, m, visits, hv⟩
  · exact hs v hv

/-- A turn, as long as it comes to an end, turns the queue of a sound machine. -/
theorem turn_turned (sound : Reduces normal) (h : m.Sound)
    (run : turn normal st m = .ok (st', o) m') : m'.Sound ∧ Turned m.views m'.views := by
  obtain ⟨ρ, h⟩ := h
  have leaves := turn_meets sound h st
  unfold Eff.Meets at leaves
  rw [run] at leaves
  exact ⟨leaves.1, leaves.2.1⟩

theorem Visits.sound (h : Visits normal start st o m) (sound : Reduces normal)
    (hs : start.Sound) : m.Sound := by
  induction h with
  | enter => exact hs
  | turn _ run ih => exact (turn_turned sound ih run).1
  | drop _ ih =>
    obtain ⟨ρ, h⟩ := ih
    exact ⟨ρ, h.mapInnermost fun _ _ hc => hc.dropFront⟩

theorem dropFront_views (h : m.Sound) : (m.mapInnermost Computation.dropFront).views = m.views.tail := by
  obtain ⟨ρ, h⟩ := h
  cases hc : m.computations with
  | nil =>
    rw [Machine.views_nil hc, Machine.views_nil (by simp only [Machine.mapInnermost, hc])]
    rfl
  | cons c rest =>
    rw [Machine.views_cons hc, Machine.views_cons (by simp only [Machine.mapInnermost, hc]; rfl)]
    exact (h.counted c (hc ▸ List.mem_cons_self)).dropFront_views

/-- All frames of a search agree on their variables, in every state of its scheduler, if and only
if no turn parts variables. -/
theorem visits_agree_iff {config : Config} {fresh m : Machine} {root : NodeId}
    (new : Machine.new config = .ok fresh) (run : Operation.Run fresh m)
    (reachable : m.Reachable root) (fuel : Nat) (type : VarId → τ) :
    (∀ st o m', Visits (Reduction.normalize fuel) (enter (some root) m) st o m' →
        ∀ v ∈ m'.views, v.Agrees type) ↔
      ∀ st m₁ r m₂, Visits (Reduction.normalize fuel) (enter (some root) m) st .again m₁ →
        turn (Reduction.normalize fuel) st m₁ = .ok r m₂ → ¬ Parts type m₁.views m₂.views := by
  have reduces : Reduces (Reduction.normalize fuel) := (Reduction.reducer_sound fuel).normal
  have entered : (enter (some root) m).Sound := by
    obtain ⟨ρ, h⟩ := run.sound new
    exact ⟨ρ, enter_sound h (Machine.live_iff.mpr reachable)⟩
  constructor
  · intro agree st m₁ r m₂ h turned parts
    obtain ⟨v, hv, disagrees⟩ := parts.disagrees
    exact disagrees (agree r.1 r.2 m₂ (h.turn turned) v hv)
  · intro careful st o m' h
    induction h with
    | enter =>
      -- the only frame has no bindings, so that only a variable itself is bound to it
      intro v hv x y a b bound _ hx hy
      have single : v = ⟨.empty, .empty⟩ := List.mem_singleton.mp hv
      subst single
      cases hx
    | turn h run ih =>
      exact (turn_turned reduces (h.sound reduces entered) run).2.agrees ih (careful _ _ _ _ h run)
    | drop h ih =>
      rw [dropFront_views (h.sound reduces entered)]
      exact fun v hv => ih v (List.mem_of_mem_tail hv)

/-! ### A search that parts variables -/

/-- `x =:= y &> (() ? failed) &> q ? q` where `q` is the pair of the variables `x` and `y`. While
the first alternative waits for its choice, the second narrows both variables. -/
def sharedPair : List Operation :=
  let p := Prelude.standard
  [.free (some p.boolType), .free (some p.boolType), .make p.ensureNotFree [0],
    .make p.ensureNotFree [1], .make p.pair [2, 3], .make p.unify [0, 1], .make p.unit [],
    .make p.failed [], .make p.choose [6, 7], .make p.guard [8, 4], .make p.guard [5, 9],
    .make p.choose [10, 4]]

theorem sharedPair_visits : ∃ m, Operation.Run (.ofConfig (.fixedPool 64)) m ∧
    m.Reachable 11 ∧
    m.graph.content? 0 = some ⟨.free, Builtin.free, 0, .literal (.type Prelude.standard.boolType)⟩ ∧
    m.graph.content? 1 = some ⟨.free, Builtin.free, 1, .literal (.type Prelude.standard.boolType)⟩ ∧
    ∃ st i m', Visits (Reduction.normalize 100) (enter (some 11) m) st (.value i) m' ∧
      ∃ v ∈ m'.views, v.bound.Bound 0 1 ∧ v.decided.get? 0 = some .left ∧
        v.decided.get? 1 = some .right := by
  let start : Machine := .ofConfig (.fixedPool 64)
  let parted : View → Bool := fun v =>
    decide ((0, ⟨0, 1, false⟩) ∈ v.bound.bindings ∧ (1, ⟨1, 0, false⟩) ∈ v.bound.bindings ∧
      v.decided.get? 0 = some .left ∧ v.decided.get? 1 = some .right)
  let facts : Machine → Bool := fun m =>
    decide (m.roots.contains (some 11) = true ∧
      m.graph.content? 0 = some ⟨.free, Builtin.free, 0, .literal (.type Prelude.standard.boolType)⟩ ∧
      m.graph.content? 1 = some ⟨.free, Builtin.free, 1, .literal (.type Prelude.standard.boolType)⟩) &&
    (takeTurns (Reduction.normalize 100) recorder 100 {} [] (enter (some 11) m)).gathered.any parted
  have result : (Operation.script start sharedPair).map facts = some true := by decide +kernel
  obtain ⟨m, ran, facts⟩ := Option.map_eq_some_iff.mp result
  obtain ⟨graph, gathered⟩ := Bool.and_eq_true_iff.mp facts
  obtain ⟨rooted, x, y⟩ := of_decide_eq_true graph
  obtain ⟨v, hv, parted⟩ := List.any_eq_true.mp gathered
  obtain ⟨bx, bY, dx, dy⟩ := of_decide_eq_true parted
  obtain ⟨st, i, m', visits, hv⟩ := gathered_views 100 v hv
  exact ⟨m, Operation.Run.start.script ran, Operation.reachable_of_contains rooted, x, y, st, i, m',
    visits, v, hv, .single ⟨0, 1, bx, bY⟩, dx, dy⟩

/-- A search may decide variables of one type differently that it has bound. -/
theorem bound_variables_differ : ¬ ∀ (m : Machine) (root : NodeId) (fuel : Nat),
    Operation.Run (.ofConfig (.fixedPool 64)) m → m.Reachable root → ∀ st o m',
      Visits (Reduction.normalize fuel) (enter (some root) m) st o m' → ∀ v ∈ m'.views,
        ∀ i j x y t a b, m.graph.content? i = some ⟨.free, Builtin.free, x, .literal (.type t)⟩ →
          m.graph.content? j = some ⟨.free, Builtin.free, y, .literal (.type t)⟩ →
            v.bound.Bound x y → v.decided.get? x = some a → v.decided.get? y = some b → a = b := by
  intro agree
  obtain ⟨m, run, reachable, x, y, st, i, m', visits, v, hv, bound, left, right⟩ :=
    sharedPair_visits
  have same := agree m 11 100 run reachable st _ m' visits v hv 0 1 0 1 _ .left .right x y bound
    left right
  cases same

/-- Some turn of that search parts variables. -/
theorem visits_agree_iff_sharedPair : ∃ m, Operation.Run (.ofConfig (.fixedPool 64)) m ∧
    m.Reachable 11 ∧ ∃ st m₁ r m₂,
      Visits (Reduction.normalize 100) (enter (some 11) m) st .again m₁ ∧
        turn (Reduction.normalize 100) st m₁ = .ok r m₂ ∧
        Parts (fun _ => Prelude.standard.boolType) m₁.views m₂.views := by
  obtain ⟨m, run, reachable, -, -, st, i, m', visits, v, hv, bound, left, right⟩ :=
    sharedPair_visits
  have new : Machine.new (.fixedPool 64) = .ok (.ofConfig (.fixedPool 64)) := rfl
  have exact_ := visits_agree_iff new run reachable 100 fun _ => Prelude.standard.boolType
  refine ⟨m, run, reachable, ?_⟩
  by_contra none
  have agree := exact_.mpr fun st m₁ r m₂ h turned parts =>
    none ⟨st, m₁, r, m₂, h, turned, parts⟩
  exact absurd (agree st _ m' visits v hv 0 1 .left .right bound rfl left right) (by decide)

/-! ### A chain of bindings that another frame has cut

A variable of a type with one constructor becomes an indirection to that constructor. A frame that
looks for the variables bound to one of its own does not see past a variable that has become one. -/

/-- The state of a search after some turns, each value let go of once it is found. -/
def stateAfter (normal : NodeId → Eff Unit) : Nat → Stats → Machine → Option (Stats × Machine)
  | 0, st, m => some (st, m)
  | turns + 1, st, m =>
    match turn normal st m with
    | .ok (st, .again) m => stateAfter normal turns st m
    | .ok (st, .value _) m => stateAfter normal turns st (m.mapInnermost Computation.dropFront)
    | _ => none

theorem stateAfter_visits (turns : Nat) (visits : Visits normal start st .again m)
    (after : stateAfter normal turns st m = some (st', m')) : Visits normal start st' .again m' := by
  induction turns generalizing st m with
  | zero =>
    cases after
    exact visits
  | succ turns ih =>
    rw [stateAfter] at after
    split at after
    · next run => exact ih (visits.turn run) after
    · next run => exact ih (visits.turn run).drop after
    · cases after

/-- `u =:= v &> v =:= w &> (() ? failed) &> (u, w) ? v` over the unit type, where `u` and the last
`v` are forced. While the first alternative waits for its choice, the second narrows `v`. -/
def cutChain : List Operation :=
  let p := Prelude.standard
  [.free (some p.unitType), .free (some p.unitType), .free (some p.unitType), .make p.unify [0, 1],
    .make p.unify [1, 2], .make p.unit [], .make p.failed [], .make p.choose [5, 6],
    .make p.ensureNotFree [0], .make p.pair [8, 2], .make p.guard [7, 9], .make p.guard [4, 10],
    .make p.guard [3, 11], .make p.ensureNotFree [1], .make p.choose [12, 13]]

/-- A turn may narrow a variable of the unit type and leave free another one, although a chain of
bindings of the frame in front connects the two. -/
theorem narrowing_misses_bound : ¬ ∀ (m : Machine) (root : NodeId) (fuel : Nat),
    Operation.Run (.ofConfig (.fixedPool 64)) m → m.Reachable root → ∀ st m₁ r m₂,
      Visits (Reduction.normalize fuel) (enter (some root) m) st .again m₁ →
        turn (Reduction.normalize fuel) st m₁ = .ok r m₂ → ∀ v rest i j x y,
          m₁.views = v :: rest → v.bound.Bound x y →
          m₁.graph.content? i =
            some ⟨.free, Builtin.free, x, .literal (.type Prelude.standard.unitType)⟩ →
          m₁.graph.content? j =
            some ⟨.free, Builtin.free, y, .literal (.type Prelude.standard.unitType)⟩ →
          (m₂.graph.content? i).map Content.tag ≠ some .free →
            (m₂.graph.content? j).map Content.tag ≠ some .free := by
  intro closed
  let start : Machine := .ofConfig (.fixedPool 64)
  let free : VarId → Content := fun x =>
    ⟨.free, Builtin.free, x, .literal (.type Prelude.standard.unitType)⟩
  let chained : View → Bool := fun v => decide (
    (0, ⟨0, 1, false⟩) ∈ v.bound.bindings ∧ (1, ⟨1, 0, false⟩) ∈ v.bound.bindings ∧
    (1, ⟨1, 2, false⟩) ∈ v.bound.bindings ∧ (2, ⟨2, 1, false⟩) ∈ v.bound.bindings)
  let narrows : Stats × Machine → Bool := fun r =>
    match turn (Reduction.normalize 100) r.1 r.2 with
    | .ok _ m₂ => decide ((m₂.graph.content? 0).map Content.tag ≠ some .free ∧
        (m₂.graph.content? 2).map Content.tag = some .free)
    | .error _ _ => false
  let facts : Machine → Option (Bool × Bool × Bool) := fun m =>
    (stateAfter (Reduction.normalize 100) 3 {} (enter (some 14) m)).map fun r =>
      (m.roots.contains (some 14), decide (r.2.graph.content? 0 = some (free 0) ∧
        r.2.graph.content? 2 = some (free 2) ∧ r.2.views.head?.any chained = true), narrows r)
  have result : (Operation.script start cutChain).bind facts = some (true, true, true) := by
    decide +kernel
  obtain ⟨m, ran, facts⟩ := Option.bind_eq_some_iff.mp result
  obtain ⟨⟨st, m₁⟩, after, facts⟩ := Option.map_eq_some_iff.mp facts
  obtain ⟨rooted, facts⟩ := Prod.mk.inj facts
  obtain ⟨before, narrowed⟩ := Prod.mk.inj facts
  obtain ⟨hx, hw, chain⟩ := of_decide_eq_true before
  obtain ⟨v, front, chained⟩ := (Option.any_eq_true _ _).mp chain
  obtain ⟨rest, views⟩ := List.head?_eq_some_iff.mp front
  obtain ⟨b01, b10, b12, b21⟩ := of_decide_eq_true chained
  have bound : v.bound.Bound 0 2 := .tail (.single ⟨0, 1, b01, b10⟩) ⟨1, 2, b12, b21⟩
  have visits := stateAfter_visits 3 .enter after
  dsimp only [narrows] at narrowed
  split at narrowed
  · next r m₂ run =>
    obtain ⟨gone, stays⟩ := of_decide_eq_true narrowed
    exact closed m 14 100 (Operation.Run.start.script ran) (Operation.reachable_of_contains rooted)
      st m₁ r m₂ visits run v rest 0 2 0 2 views bound hx hw gone stays
  · cases narrowed

/-! ### Searches that share a constraint or a failure

Only the frame in front gains constraints, but what it does to the graph is seen by all frames. -/

/-- The texts of the values of a node, in a machine that operations lead to. -/
def textsAfter (ops : List Operation) (root : NodeId) : Option (List String) :=
  (Operation.script (.ofConfig (.fixedPool 64)) ops).bind fun m =>
    match Machine.values 100 root m with
    | .ok texts _ => some texts
    | .error _ _ => none

/-- `u &> (x, y) ? u &> (x, y)` where `u` is one call `x =:= y`. -/
def sharedConstraint : List Operation :=
  let p := Prelude.standard
  [.free (some p.boolType), .free (some p.boolType), .make p.unify [0, 1],
    .make p.ensureNotFree [0], .make p.ensureNotFree [1], .make p.pair [3, 4], .make p.guard [2, 5],
    .make p.ensureNotFree [0], .make p.ensureNotFree [1], .make p.pair [7, 8], .make p.guard [2, 9],
    .make p.choose [6, 10]]

/-- Either alternative alone has two values; together they have one that neither has. -/
theorem shared_constraint_binds_once :
    textsAfter sharedConstraint 6 = some ["(False, False)", "(True, True)"] ∧
      textsAfter sharedConstraint 10 = some ["(False, False)", "(True, True)"] ∧
      ∃ texts, textsAfter sharedConstraint 11 = some texts ∧ "(False, True)" ∈ texts := by
  have both : textsAfter sharedConstraint 11 = some ["(False, False)", "(True, True)",
      "(False, False)", "(False, True)", "(True, False)", "(True, True)"] := by decide +kernel
  exact ⟨by decide +kernel, by decide +kernel, _, both, by simp⟩

/-- `x =:= y &> (x, y)`, with both variables forced. -/
def constrainedPair : List Operation :=
  let p := Prelude.standard
  [.free (some p.boolType), .free (some p.boolType), .make p.unify [0, 1],
    .make p.ensureNotFree [0], .make p.ensureNotFree [1], .make p.pair [3, 4], .make p.guard [2, 5]]

/-- The binding goes with the frame, the satisfied constraint stays in the graph: a second search has
values that no value of the first covers. -/
theorem second_search_finds_more : ∃ m first m₁ second m₂,
    Operation.Run (.ofConfig (.fixedPool 64)) m ∧ Machine.values 100 6 m = .ok first m₁ ∧
      Machine.values 100 6 m₁ = .ok second m₂ ∧ first = ["(False, False)", "(True, True)"] ∧
      "(False, True)" ∈ second := by
  let twice : Machine → Option (List String × List String) := fun m =>
    match Machine.values 100 6 m with
    | .error _ _ => none
    | .ok first m₁ =>
      match Machine.values 100 6 m₁ with
      | .error _ _ => none
      | .ok second _ => some (first, second)
  have result : (Operation.script (.ofConfig (.fixedPool 64)) constrainedPair).bind twice =
      some (["(False, False)", "(True, True)"],
        ["(False, False)", "(False, True)", "(True, False)", "(True, True)"]) := by decide +kernel
  obtain ⟨m, ran, searched⟩ := Option.bind_eq_some_iff.mp result
  cases one : Machine.values 100 6 m with
  | error stop m₁ =>
    simp only [twice, one] at searched
    cases searched
  | ok first m₁ =>
    cases two : Machine.values 100 6 m₁ with
    | error stop m₂ =>
      simp only [twice, one, two] at searched
      cases searched
    | ok second m₂ =>
      simp only [twice, one, two] at searched
      cases searched
      exact ⟨m, _, m₁, _, m₂, Operation.Run.start.script ran, one, two, rfl, by simp⟩

/-- `p == p ? p &> 3` where `p` is one pair with a failing component, up to the choice. -/
def sharedFailure : List Operation :=
  let p := Prelude.standard
  [.int 1, .make p.failed [], .make p.pair [0, 1], .make p.equals [2, 2], .int 3,
    .make p.guard [2, 4]]

/-- The right alternative has a value. The search does not find it, since the left one has turned
the pair into a failure by then. -/
theorem shared_failure_loses_value :
    textsAfter (sharedFailure ++ [.make Prelude.standard.choose [3, 5]]) 6 = some [] ∧
      ((Operation.script (.ofConfig (.fixedPool 64))
        (sharedFailure ++ [.forward 5, .normalize 100 6])).bind fun m =>
          (m.showTerm 6).toOption) = some "3" :=
  ⟨by decide +kernel, by decide +kernel⟩

end Schedule

end ChoiceGraph
