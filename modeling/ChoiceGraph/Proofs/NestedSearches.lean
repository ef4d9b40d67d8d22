import ChoiceGraph.Proofs.Isolation

/-! # Searches within reductions

A rule may search for the values of an argument. The search pushes a queue of its own, works on that
queue only, and takes it away again. So a reduction that runs searches is isolated, like every other
one; it never takes back a collection that was counted, nor a step that was paid for. -/
namespace ChoiceGraph

namespace Machine

/-- Every change that the scheduler makes to the innermost search keeps to the relation. -/
class Inward (R : Machine → Machine → Prop) : Prop extends IsPreorder Machine R where
  innermost : ∀ m f, R m (m.mapInnermost f)
  resolved : ∀ m c c' outer, m.computations = c :: outer →
    R m { m with computations := c' :: outer }
  sliced : ∀ m slice, R m { m with slice := slice }

instance : Inward Inside where
  innermost _ f := mapInnermost_inside f
  resolved m c c' outer h := by rw [Inside, h, List.tail_cons, List.tail_cons]
  sliced _ _ := rfl

/-- No collection is taken back. -/
def Counts (m m' : Machine) : Prop := m.collections ≤ m'.collections

instance : IsPreorder Machine Counts where
  refl m := Nat.le_refl m.collections
  trans _ _ _ h k := Nat.le_trans h k

theorem mapInnermost_collections (m : Machine) (f : Computation → Computation) :
    (m.mapInnermost f).collections = m.collections := by
  unfold mapInnermost
  split <;> rfl

theorem mapInnermost_config (m : Machine) (f : Computation → Computation) :
    (m.mapInnermost f).config = m.config := by
  unfold mapInnermost
  split <;> rfl

theorem mapInnermost_same (m : Machine) (f : Computation → Computation) :
    (m.mapInnermost f).toTermGraph = m.toTermGraph := by
  unfold mapInnermost
  split <;> rfl

instance : Inward Counts where
  innermost m f := (mapInnermost_collections m f).ge
  resolved m _ _ _ _ := Nat.le_refl m.collections
  sliced m _ := Nat.le_refl m.collections

/-- No collection is taken back, and a slice that is limited does not grow. -/
structure Pays (m m' : Machine) : Prop where
  counts : m.Counts m'
  spends : ∀ left, m.slice.remaining = some left →
    ∃ left', m'.slice.remaining = some left' ∧ left' ≤ left

variable {m m' : Machine}

theorem pays_of_same (counts : m'.collections = m.collections) (slice : m'.slice = m.slice) :
    m.Pays m' :=
  ⟨counts.ge, fun left limited => ⟨left, slice ▸ limited, Nat.le_refl left⟩⟩

instance : IsPreorder Machine Pays where
  refl _ := pays_of_same rfl rfl
  trans m m' m'' h k := by
    refine ⟨trans_of Counts h.counts k.counts, fun left limited => ?_⟩
    obtain ⟨left', limited', le⟩ := h.spends left limited
    obtain ⟨left'', limited'', le'⟩ := k.spends left' limited'
    exact ⟨left'', limited'', le'.trans le⟩

theorem chargeCollection_pays (m : Machine) : m.Pays (Eff.chargeCollection m) := by
  unfold Eff.chargeCollection
  split
  · exact refl_of Pays m
  · next f _ =>
    have slice : ∀ f : Computation → Computation, (m.mapInnermost f).slice = m.slice := by
      intro f
      unfold mapInnermost
      split <;> rfl
    have charged : ∀ f, m.Pays (m.mapInnermost f) := fun f =>
      pays_of_same (mapInnermost_collections m f) (slice f)
    dsimp only
    split
    · refine ⟨(charged _).counts, fun left limited => ?_⟩
      exact (charged _).spends left limited
    · exact charged _

instance : Permissive Pays where
  graph _ _ _ := pays_of_same rfl rfl
  roots _ _ := pays_of_same rfl rfl
  nextId _ _ := pays_of_same rfl rfl
  spent m _ := by
    refine ⟨Nat.le_refl m.collections, fun left limited => ⟨left - 1, ?_, Nat.sub_le left 1⟩⟩
    show m.slice.remaining.map (· - 1) = some (left - 1)
    rw [limited, Option.map_some]
  collected m g _ := by
    have counted : m.Pays { m.setGraph g with collections := m.collections + 1 } :=
      ⟨Nat.le_succ m.collections, fun left limited => ⟨left, limited, Nat.le_refl left⟩⟩
    exact trans_of Pays counted (chargeCollection_pays _)
  constrained m update := by
    refine pays_of_same (mapInnermost_collections m _) ?_
    unfold mapInnermost
    split <;> rfl

end Machine

namespace Schedule

open Eff Machine

variable {σ : Type} {normal : NodeId → Eff Unit} {visit : Visitor σ} {m m' : Machine} {st : Stats}
  {i : NodeId} {R : Machine → Machine → Prop}

section Inward

variable [Inward R]

theorem modify_moves {f : Computation → Computation} :
    (modify fun m => m.mapInnermost f : Eff Unit).Moves R :=
  fun m => Inward.innermost m f

theorem requeue_moves (suspended : Bool) : (requeue suspended).Moves R :=
  fun m => Inward.innermost m _

theorem resolveFront_moves (id : ChoiceId) (left right : Link) :
    R m (resolveFront m id left right).2 := by
  unfold resolveFront
  split
  · exact refl_of R m
  · next c outer hc => exact Inward.resolved m c _ outer hc

theorem fork_moves (choice : NodeId) (st : Stats) : (fork choice st).Moves R := by
  refine (moves_look _).bind fun id => (moves_look _).bind fun left => (moves_look _).bind
    fun right => ?_
  refine Moves.bind (fun m => resolveFront_moves id left right) fun resolution => ?_
  cases resolution <;> exact moves_pure _

theorem dispatch_moves (bound : Nat) (i : NodeId) (st : Stats) :
    (dispatch bound i st).Moves R := by
  induction bound generalizing i with
  | zero => exact moves_throw _
  | succ bound ih =>
    refine (moves_look _).bind fun tag => ?_
    cases tag with
    | failure => exact modify_moves.bind fun _ => moves_pure _
    | forward =>
      exact (moves_look _).bind fun next => modify_moves.bind fun _ => (moves_look _).bind
        fun j => ih j
    | choice => exact (fork_moves i st).bind fun _ => moves_pure _
    | operation => exact modify_moves.bind fun _ => moves_pure _
    | constructor _ => exact moves_pure _
    | free => exact moves_pure _
    | unassigned _ => exact moves_throw _

theorem suspendFront_moves (st : Stats) : (suspendFront st).Moves R := by
  refine (requeue_moves true).bind fun _ => moves_get.bind fun m => ?_
  split
  · exact moves_pure _
  · split
    · exact modify_moves.bind fun _ => moves_pure _
    · exact moves_pure _

omit [Inward R] in
theorem catching_moves {body : Eff Unit} (h : body.Moves R) :
    (catching body).Moves R := by
  intro m
  unfold catching
  cases run : body m with
  | ok _ m' => exact h.ok run
  | error stop m' => cases stop <;> exact h.error run

/-- The part of a turn that follows the choice of the frame: its node is normalized, and what has
become of it decides. -/
def reduceFront (normal : NodeId → Eff Unit) (node : Link) (st : Stats) : Eff (Stats × Outcome) := do
  let i ← look fun _ => node.target
  let ending ← catching (normal i)
  let m ← get
  let st := { st with steps := st.steps + m.slice.used }
  match ending with
  | .preempted =>
    requeue false
    return ({ st with preemptions := st.preemptions + 1 }, .again)
  | .suspended => suspendFront st
  | .done => dispatch m.depthBound i st

/-- The front frame is reduced for a slice. -/
theorem turn_front {normal : NodeId → Eff Unit} {st : Stats} {m : Machine} {f : Frame} {steps : Nat}
    (front : m.front? = some f) (slice : nextSlice? m.config st = some steps) :
    turn normal st m = reduceFront normal f.node st { m with slice := .ofSteps steps } := by
  have begin_ : ∀ k : Machine → Eff (Stats × Outcome), ((get : Eff Machine) >>= k) m = k m m :=
    fun _ => rfl
  unfold turn
  rw [begin_, front]
  dsimp only
  rw [slice]
  rfl

/-- Without a frame there is nothing to be done. -/
theorem turn_idle {normal : NodeId → Eff Unit} {m : Machine} (front : m.front? = none) (st : Stats) :
    turn normal st m = .ok (st, .over) m := by
  have begin_ : ∀ k : Machine → Eff (Stats × Outcome), ((get : Eff Machine) >>= k) m = k m m :=
    fun _ => rfl
  unfold turn
  rw [begin_, front]
  rfl

/-- Without a step left for the front frame the search is cut short. -/
theorem turn_limit {normal : NodeId → Eff Unit} {st : Stats} {m : Machine} {f : Frame}
    (front : m.front? = some f) (limit : nextSlice? m.config st = none) :
    turn normal st m = .ok ({ st with stepLimitHit := true }, .over) m := by
  have begin_ : ∀ k : Machine → Eff (Stats × Outcome), ((get : Eff Machine) >>= k) m = k m m :=
    fun _ => rfl
  unfold turn
  rw [begin_, front]
  dsimp only
  rw [limit]
  rfl

/-- How a turn begins: there is no frame, or no step left, or the front frame is reduced. -/
theorem turn_cases (normal : NodeId → Eff Unit) (st : Stats) (m : Machine) :
    (m.front? = none ∧ turn normal st m = .ok (st, .over) m) ∨
    turn normal st m = .ok ({ st with stepLimitHit := true }, .over) m ∨
    ∃ f steps, m.front? = some f ∧ nextSlice? m.config st = some steps ∧
      turn normal st m = reduceFront normal f.node st { m with slice := .ofSteps steps } := by
  cases front : m.front? with
  | none => exact .inl ⟨rfl, turn_idle front st⟩
  | some f =>
    cases slice : nextSlice? m.config st with
    | none => exact .inr (.inl (turn_limit front slice))
    | some steps => exact .inr (.inr ⟨f, steps, rfl, rfl, turn_front front slice⟩)

theorem reduceFront_moves (h : ∀ i, (normal i).Moves R) (node : Link) (st : Stats) :
    (reduceFront normal node st).Moves R := by
  refine (moves_look _).bind fun i => (catching_moves (h i)).bind fun ending =>
    moves_get.bind fun m => ?_
  cases ending with
  | done => exact dispatch_moves _ i _
  | preempted => exact (requeue_moves false).bind fun _ => moves_pure _
  | suspended => exact suspendFront_moves _

theorem turn_moves (h : ∀ i, (normal i).Moves R) (st : Stats) : (turn normal st).Moves R := by
  intro m
  rcases turn_cases normal st m with ⟨-, run⟩ | run | ⟨f, steps, -, -, run⟩
  · rw [run]
    exact refl_of R m
  · rw [run]
    exact refl_of R m
  · rw [run]
    have sliced : R m { m with slice := .ofSteps steps } := Inward.sliced m _
    have moved := reduceFront_moves h f.node st { m with slice := .ofSteps steps }
    split at moved <;> exact trans_of R sliced moved

/-- However a search ends, its machine is related to the one it started on. -/
def Found.Moves (R : Machine → Machine → Prop) (m : Machine) (found : Found σ) : Prop :=
  match found.ending with
  | .ok _ m' => R m m'
  | .error _ m' => R m m'

theorem takeTurns_moves (h : ∀ i, (normal i).Moves R) (turns : Nat) (st : Stats) (s : σ)
    (m : Machine) : (takeTurns normal visit turns st s m).Moves R m := by
  induction turns generalizing st s m with
  | zero => exact refl_of R m
  | succ turns ih =>
    have dropped : ∀ m : Machine, R m (m.mapInnermost Computation.dropFront) :=
      fun m => Inward.innermost m _
    -- what comes after the turn starts on a machine inside the same searches
    have later : ∀ {m₁ : Machine} {st : Stats} {s : σ}, R m m₁ →
        (takeTurns normal visit turns st s m₁).Moves R m := by
      intro m₁ st s moved
      have rest := ih st s m₁
      unfold Found.Moves at rest ⊢
      split at rest <;> exact trans_of R moved rest
    unfold takeTurns
    cases run : turn normal st m with
    | error stop m₁ => exact (turn_moves h st).error run
    | ok result m₁ =>
      obtain ⟨st₁, outcome⟩ := result
      have moved : R m m₁ := (turn_moves h st).ok run
      cases outcome with
      | «over» => exact moved
      | again => exact later moved
      | value i =>
        dsimp only
        cases visit m₁ i s with
        | error e => exact moved
        | ok seen =>
          obtain ⟨s₁, flow⟩ := seen
          have left := trans_of R moved (dropped m₁)
          cases flow with
          | more => exact later left
          | enough => exact trans_of R left (Inward.innermost _ _)

end Inward

/-- A search keeps to what its turns keep to, once it has been entered and is left again. -/
theorem search_around {S : Machine → Machine → Prop} [Inward R] (h : ∀ i, (normal i).Moves R)
    (turns : Nat) (root : Link) (s : σ)
    (around : ∀ m', R (enter root m) m' → S m (leave m.slice m')) :
    (search normal turns visit root s m).Moves S m := by
  have moved : (takeTurns normal visit turns {} s (enter root m)).Moves R (enter root m) :=
    takeTurns_moves h turns {} s _
  unfold search
  unfold Found.Moves at moved ⊢
  dsimp only
  cases run : (takeTurns normal visit turns {} s (enter root m)).ending with
  | ok st m' =>
    rw [run] at moved
    exact around m' moved
  | error stop m' =>
    rw [run] at moved
    exact around m' moved

theorem gather_around {S : Machine → Machine → Prop} [Inward R] (h : ∀ i, (normal i).Moves R)
    (turns : Nat) (root : Link) (s : σ)
    (around : ∀ m m', R (enter root m) m' → S m (leave m.slice m')) :
    (gather normal turns visit root s).Moves S := by
  intro m
  have searched : (search normal turns visit root s m).Moves S m :=
    search_around h turns root s (around m)
  unfold gather
  unfold Found.Moves at searched
  dsimp only
  cases run : (search normal turns visit root s m).ending with
  | ok st m' =>
    rw [run] at searched
    exact searched
  | error stop m' =>
    rw [run] at searched
    exact searched

/-- A search goes on inside the searches under way, and they and the slice are left as they were. -/
theorem gather_restores (h : ∀ i, (normal i).Isolated) (turns : Nat) (root : Link) (s : σ) :
    (gather normal turns visit root s).Moves fun m m' =>
      m'.computations = m.computations ∧ m'.slice = m.slice :=
  gather_around (fun i => (h i).mono fun _ _ same => same.inside) turns root s
    fun _ _ inside => ⟨inside.trans List.tail_cons, rfl⟩

theorem gather_isolated (h : ∀ i, (normal i).Isolated) (turns : Nat) (root : Link) (s : σ) :
    (gather normal turns visit root s).Isolated :=
  (gather_restores h turns root s).mono fun _ _ restored => undisturbed_of_same restored.1

/-- A search counts its collections, and the slice it was started in is left to what follows. -/
theorem gather_pays (h : ∀ i, (normal i).Moves Pays) (turns : Nat) (root : Link) (s : σ) :
    (gather normal turns visit root s).Moves Pays :=
  gather_around (R := Counts) (fun i => (h i).mono fun _ _ paid => paid.counts) turns root s
    fun _ _ counted => ⟨counted, fun left limited => ⟨left, limited, Nat.le_refl left⟩⟩

/-- A search keeps to the relation when the reductions that it runs do; roots may be pushed and
popped again around an effect. -/
class Encloses (R : Machine → Machine → Prop) : Prop extends Bracketing R where
  searched : ∀ {σ : Type} {normal : NodeId → Eff Unit} {visit : Visitor σ},
    (∀ i, (normal i).Moves R) → ∀ turns root s, (gather normal turns visit root s).Moves R

/-- A search keeps to the relation when the reductions that it runs do. -/
class Nests (R : Machine → Machine → Prop) : Prop extends Permissive R where
  searched : ∀ {σ : Type} {normal : NodeId → Eff Unit} {visit : Visitor σ},
    (∀ i, (normal i).Moves R) → ∀ turns root s, (gather normal turns visit root s).Moves R

instance (R : Machine → Machine → Prop) [Nests R] : Encloses R where
  searched := Nests.searched

instance : Nests Undisturbed where
  searched h turns root s := gather_isolated h turns root s

instance : Nests Pays where
  searched h turns root s := gather_pays h turns root s

end Schedule

namespace Reduction

open Eff Machine

variable {R : Machine → Machine → Prop} [Schedule.Encloses R] {r : Reducer} {root : NodeId}

theorem moving_searches : (moving R).Searching True where
  symbol h := (moves_look _).bind fun sym => h sym (.inl trivial)
  gather _ _ _ _ _ h := Schedule.Encloses.searched h

theorem headWork_moves (hr : r.Moves R) (i : NodeId) : (headWork r i).Moves R :=
  (headWork_abides moving_searches hr.abides i).moves

theorem passField_moves {count k : Nat} (rest : (normalizeFields r root count (k + 1)).Moves R)
    (j : NodeId) : (passField r root count k j).Moves R := (passField_abides rest.abides j).moves

theorem takeField_moves {count k : Nat} (rest : (normalizeFields r root count (k + 1)).Moves R)
    (i : NodeId) : (takeField r root count k i).Moves R := (takeField_abides rest.abides i).moves

theorem normalizeFields_moves (hr : r.Moves R) (root : NodeId) (count k : Nat) :
    (normalizeFields r root count k).Moves R := (normalizeFields_abides hr.abides root count k).moves

theorem takeHead_moves (hr : r.Moves R) (j : NodeId) : (takeHead r j).Moves R :=
  (takeHead_abides hr.abides j).moves

theorem normalWork_moves (hr : r.Moves R) (i : NodeId) : (normalWork r i).Moves R :=
  (normalWork_abides hr.abides i).moves

theorem reducer_moves (R : Machine → Machine → Prop) [Schedule.Encloses R] (fuel : Nat) :
    (reducer fuel).Moves R :=
  (reducer_abides moving_searches fuel).moves

end Reduction

end ChoiceGraph
