import ChoiceGraph.Proofs.Operations
import ChoiceGraph.Proofs.Restarts

/-! # Attempts at a normal form

Outside of searches a node may be normalized in several attempts, each in a slice that is over before
the node is in normal form. The last attempt, in a slice without a limit, comes to what a single one
would have come to: to the same end, with every node, every array, the free list and the next
identifier the same. -/
namespace ChoiceGraph

namespace Operation

open Machine

variable {m start : Machine}

instance : Keeping Undisturbed where
  evaluated fuel _ i s _ := Schedule.search_around (R := Inside)
    (fun j => ((Reduction.reducer_moves Undisturbed fuel).normal j).mono fun _ _ same => same.inside)
    fuel (some i) s fun _ inside => undisturbed_of_same (inside.trans List.tail_cons)
  defined _ _ := undisturbed_of_same rfl

/-- No search is under way between operations. -/
theorem Run.outside {config : Config} (run : Run start m) (new : Machine.new config = .ok start) :
    m.computations = [] := by
  have first : start.computations = [] := by
    rw [ofConfig_of_new new]
    rfl
  cases (run.moves : start.Undisturbed m) with
  | idle _ after => exact after
  | inner before => cases first.symm.trans before

end Operation

namespace Machine

open Eff Reduction

variable {m m' s : Machine} {t : TermGraph} {id id' n F : Nat} {root : NodeId} {t' : TermGraph}
  {v : Except Stop Unit} {slice : Slice} {α : Type} {e : Eff α} {r : Except Stop α}

/-! ## Roots that are kept for a while -/

theorem withRoots_outcome {links : List Link} (run : withRoots links e m = outcome r m') :
    ∃ m₁, e (m.push links) = outcome r m₁ ∧ m' = m₁.pop links.length := by
  have begin_ : { m with roots := links.reverse ++ m.roots } = m.push links := rfl
  unfold withRoots at run
  rw [begin_] at run
  cases ran : e (m.push links) with
  | ok a m₁ =>
    rw [ran] at run
    cases r with
    | ok _ =>
      cases run
      exact ⟨m₁, rfl, rfl⟩
    | error _ => cases run
  | error stop m₁ =>
    rw [ran] at run
    cases r with
    | ok _ => cases run
    | error _ =>
      cases run
      exact ⟨m₁, rfl, rfl⟩

theorem withRoots_obeys {links : List Link} {N : Nat} {Q : α → Machine → Prop}
    {S : Stop → Machine → Prop} (h : e.Obeys F N (m.push links) (fun a m' => Q a (m'.pop links.length))
      fun stop m' => S stop (m'.pop links.length)) : (withRoots links e).Obeys F N m Q S := by
  have begin_ : { m with roots := links.reverse ++ m.roots } = m.push links := rfl
  unfold Obeys at h ⊢
  unfold withRoots
  rw [begin_]
  cases ran : e (m.push links) with
  | ok a m₁ =>
    rw [ran] at h
    exact ⟨⟨h.1.counts, h.1.spends⟩, h.2⟩
  | error stop m₁ =>
    rw [ran] at h
    cases stop with
    | _ => exact h

theorem Aside.popped (h : (m.push [some root]).Aside m') : m.Aside (m'.pop 1) where
  rest := by
    rw [h.rest]
    rfl
  outside none := h.outside none

theorem Lands.popped (h : (m.push [some root]).Lands t id m') : m.Lands t id (m'.pop 1) where
  graph := h.graph
  id := h.id
  rest := by
    rw [h.rest]
    rfl

theorem Lands.same {m₁ m₂ : Machine} (h : m.Lands t id m₁) (h' : m.Lands t id m₂) :
    m₂ = { m₁ with slice := m₂.slice } := by
  have graph : m₂.graph = m₁.graph :=
    congrArg TermGraph.graph (h'.graph.trans h.graph.symm)
  rw [h'.rest, h.rest, graph, h'.id, h.id]

/-! ## One attempt -/

/-- Attempts to normalize a node, each in a slice of so many steps that is over before it is done. -/
inductive Attempts (root : NodeId) (m : Machine) : List Nat → Machine → Prop where
  | none : Attempts root m [] m
  | more {budgets : List Nat} {s s' : Machine} {budget F : Nat} (before : Attempts root m budgets s)
    (stopped : Machine.normalize F root { s with slice := .ofSteps budget } = .error .preempted s') :
    Attempts root m (budgets ++ [budget]) s'

/-- After some attempts at a normal form the same end is left to come to. -/
structure Pending (root : NodeId) (v : Except Stop Unit) (t' : TermGraph) (id' : Nat) (m s : Machine) :
    Prop where
  aside : m.Aside s
  inv : ∃ ρ, (s.push [some root]).Inv [] ρ
  rest : Concludes (.normal root) s.toTermGraph m.nextId v t' id'

/-- One more attempt comes to the end, or its slice is over. -/
theorem Pending.obeys (h : Pending root v t' id' m s) (outside : m.computations = []) (slice : Slice) :
    ∃ N, ∀ F, (Machine.normalize F root).Obeys F N { s with slice := slice }
      (fun _ m' => v = .ok () ∧ m.Lands t' id' m')
      fun stop m' => v = .error stop ∧ m.Lands t' id' m' ∨ Cut (Pending root v t' id' m) stop m' := by
  obtain ⟨ρ, inv⟩ := h.inv
  obtain ⟨N, pursued⟩ := h.rest.pursued
  let s₀ : Machine := { s with slice := slice }
  have aside₀ : m.Aside s₀ := h.aside.trans (show s.OnlySpends s₀ from rfl).aside
  have inv₀ : (s₀.push [some root]).Inv [] ρ :=
    (quiet_count (s := .below 0) inv (s.push [some root]).nextId slice).inv
  have live : (s₀.push [some root]).Live [] root := live_root (List.mem_cons_self)
  have stands : (s₀.push [some root]).Stands s.toTermGraph m.nextId := by
    refine ⟨rfl, ?_, h.aside.outside outside⟩
    show s.nextId = m.nextId
    rw [h.aside.rest]
  refine ⟨N, fun F => withRoots_obeys ?_⟩
  refine (Eff.Obeys.meets (pursued F _ ρ inv₀ live stands)
    ((reducer_sound F).normal _ ρ root inv₀ live)).mono ?_ ?_
  · exact fun _ m' ⟨⟨done, lands⟩, _⟩ => ⟨done, lands.popped.after aside₀ outside⟩
  · rintro stop m' ⟨⟨final, lands⟩ | ⟨same, isOver, restarts⟩, ρ', ev⟩
    · exact .inl ⟨final, lands.popped.after aside₀ outside⟩
    · refine .inr ⟨same, isOver, aside₀.trans restarts.aside.popped, ⟨ρ', ?_⟩, restarts.rest⟩
      have pushed : (m'.pop 1).push [some root] = m' := by
        rw [restarts.aside.rest]
        rfl
      exact pushed.symm ▸ ev.inv

/-- All attempts leave the same end to come to. -/
theorem Attempts.pending {budgets : List Nat} (h : Attempts root m budgets s)
    (first : Pending root v t' id' m m) (outside : m.computations = []) : Pending root v t' id' m s := by
  induction h with
  | none => exact first
  | @more _ s s' budget F _ stopped ih =>
    obtain ⟨N, obeys⟩ := ih.obeys outside (.ofSteps budget)
    rcases (obeys F).error stopped nofun with ⟨final, -⟩ | ⟨-, -, pending⟩
    · exact absurd final first.rest.patient
    · exact pending

/-- What a node comes to in a slice without a limit is a conclusion. -/
theorem normalize_concludes {m₁ : Machine} {v : Except Stop Unit} (sound : m.Sound)
    (reachable : m.Reachable root) (branching : m.toTermGraph.Branching) (outside : m.computations = [])
    (once : Machine.normalize F root { m with slice := .unbounded } = outcome v m₁)
    (ended : v ≠ .error .outOfFuel) (room : m₁.collections = m.collections) :
    Concludes (.normal root) m.toTermGraph m.nextId v m₁.toTermGraph m₁.nextId := by
  obtain ⟨ρ, h⟩ := sound
  have live := live_pushed (live_iff.mpr reachable)
  let m₀ : Machine := { m with slice := .unbounded }
  have inv : (m₀.push [some root]).Inv [] ρ :=
    (quiet_count (s := .below 0) (h.pushed (live_iff.mpr reachable)) m.nextId .unbounded).inv
  obtain ⟨m₂, run, rfl⟩ := withRoots_outcome once
  have final : ∀ stop, v = .error stop → stop.Final := by
    rintro stop rfl
    have kept := (reducer_sound F).normal (m₀.push [some root]) ρ root inv live
    unfold Keeps Meets at kept
    rw [show (reducer F).normal root (m₀.push [some root]) = .error stop m₂ from run] at kept
    cases stop with
    | fault => exact kept
    | outOfFuel => exact ended rfl
    | _ => trivial
  exact (reducer_concluded F).normal (m₀.push [some root]) ρ root v m₂
    ⟨inv, live, branching, outside, rfl, rfl⟩ ⟨run, room, final⟩

/-- Attempts that are preempted, and then one that is not, come to what a single attempt comes to. -/
theorem normalize_restarts {config : Config} {start m₁ : Machine} {budgets : List Nat}
    (new : Machine.new config = .ok start) (made : Operation.Run start m)
    (reachable : m.Reachable root) (branching : m.toTermGraph.Branching)
    (once : Machine.normalize F root { m with slice := .unbounded } = outcome v m₁)
    (ended : v ≠ .error .outOfFuel) (room : m₁.collections = m.collections)
    (attempts : m.Attempts root budgets s) :
    ∃ bound, ∀ fuel ≥ bound, ∃ slice, Machine.normalize fuel root { s with slice := .unbounded } =
      outcome v { m₁ with slice := slice } := by
  have outside := made.outside new
  obtain ⟨ρ, inv⟩ := made.sound new
  have concludes := normalize_concludes ⟨ρ, inv⟩ reachable branching outside once ended room
  have first : Pending root v m₁.toTermGraph m₁.nextId m m :=
    ⟨(OnlySpends.refl m).aside, ⟨ρ, inv.pushed (live_iff.mpr reachable)⟩, concludes⟩
  have single : m.Lands m₁.toTermGraph m₁.nextId m₁ := by
    obtain ⟨N, obeys⟩ := first.obeys outside .unbounded
    cases v with
    | ok _ => exact ((obeys F).ok once).2
    | error stop =>
      rcases (obeys F).error once (fun fuel => ended (congrArg _ fuel)) with ⟨-, lands⟩ | ⟨same, -⟩
      · exact lands
      · exact absurd (congrArg _ same) concludes.patient
  have pending := attempts.pending first outside
  obtain ⟨N, obeys⟩ := pending.obeys outside .unbounded
  refine ⟨N, fun fuel enough => ?_⟩
  have last := obeys fuel
  unfold Obeys at last
  cases run : Machine.normalize fuel root { s with slice := .unbounded } with
  | ok _ s' =>
    rw [run] at last
    obtain ⟨-, rfl, lands⟩ := last
    exact ⟨s'.slice, congrArg _ (single.same lands)⟩
  | error stop s' =>
    have moves : (Machine.normalize fuel root).Moves LetsRun :=
      withRoots_moves ((reducer_moves LetsRun fuel).normal root)
    have going : s'.slice.isOver = false :=
      ((moves.error run).unhindered ⟨pending.aside.outside outside, rfl, rfl⟩).isOver
    have halted : v = .error stop ∧ m.Lands m₁.toTermGraph m₁.nextId s' := by
      have halts := (obeys fuel).error run ?_
      · rcases halts with halted | ⟨-, isOver, -⟩
        · exact halted
        · cases going.symm.trans isOver
      · rintro rfl
        rw [run] at last
        exact Nat.not_lt_of_le enough last.1
    obtain ⟨rfl, lands⟩ := halted
    exact ⟨s'.slice, congrArg _ (single.same lands)⟩

/-- `(1 + 2) + (3 + 4)`. -/
def sumOfSums : List Operation :=
  let p := Prelude.standard
  [.int 1, .int 2, .make p.add [0, 1], .int 3, .int 4, .make p.add [3, 4], .make p.add [2, 5]]

/-- Two steps and then three are not enough for the sum, but it comes to the same machine as at once. -/
theorem normalize_restarts_sumOfSums : ∃ m m₁ s bound,
    Operation.Run (.ofConfig (.fixedPool 64)) m ∧ m.Attempts 6 [2, 3] s ∧
      Machine.normalize 50 6 { m with slice := .unbounded } = .ok () m₁ ∧
      (m₁.showTerm 6).toOption = some "10" ∧
      ∀ fuel ≥ bound, ∃ slice, Machine.normalize fuel 6 { s with slice := .unbounded } =
        .ok () { m₁ with slice := slice } := by
  let start : Machine := .ofConfig (.fixedPool 64)
  let stop : Machine → Nat → Option (Stop × Machine) := fun m budget =>
    Eff.stopped? (Machine.normalize 50 6 { m with slice := .ofSteps budget })
  let stops : Machine → Bool := fun m => (stop m 2).any fun r =>
    r.1 = .preempted ∧ (stop r.2 3).any fun r' => r'.1 = .preempted
  let lands : Machine → Bool := fun m =>
    (Eff.returned? (Machine.normalize 50 6 { m with slice := .unbounded })).any fun r =>
      r.2.collections = m.collections ∧ (r.2.showTerm 6).toOption = some "10"
  have result : (Operation.script start sumOfSums).map (fun m => (m.roots.contains (some 6),
      m.variableTypes, stops m, lands m)) = some (true, [], true, true) := by
    decide +kernel
  obtain ⟨m, ran, facts⟩ := Option.map_eq_some_iff.mp result
  obtain ⟨rooted, facts⟩ := Prod.mk.inj facts
  obtain ⟨untyped, facts⟩ := Prod.mk.inj facts
  obtain ⟨stopped, landed⟩ := Prod.mk.inj facts
  have new : Machine.new (.fixedPool 64) = .ok start := rfl
  have run : Operation.Run start m := Operation.Run.start.script ran
  have reachable : m.Reachable 6 := Operation.reachable_of_contains rooted
  have branching : m.toTermGraph.Branching :=
    TermGraph.branching_of_untyped untyped
  obtain ⟨⟨_, s₁⟩, first, stopped⟩ := (Option.any_eq_true _ _).mp stopped
  obtain ⟨rfl, stopped⟩ := of_decide_eq_true stopped
  obtain ⟨⟨_, s⟩, second, stopped⟩ := (Option.any_eq_true _ _).mp stopped
  obtain rfl := of_decide_eq_true stopped
  have attempts : m.Attempts 6 [2, 3] s :=
    (Attempts.none.more (Eff.of_stopped first)).more (Eff.of_stopped second)
  obtain ⟨⟨_, m₁⟩, once, landed⟩ := (Option.any_eq_true _ _).mp landed
  obtain ⟨room, shown⟩ := of_decide_eq_true landed
  have once := Eff.of_returned once
  obtain ⟨bound, restarts⟩ := normalize_restarts new run reachable branching (v := .ok ()) once (by simp)
    room attempts
  exact ⟨m, m₁, s, bound, run, attempts, once, shown, restarts⟩

end Machine

end ChoiceGraph
