import ChoiceGraph.Proofs.NestedSearches
import ChoiceGraph.Proofs.Reduction

/-! # Effects that run in a slice

An effect either returns, or its slice is over before. What it says about the two cases is put
together along its steps. Fuel is no concern as long as there is more of it than steps in the slice,
since what is nested is paid for, nor if there is enough of it for what the effect has to do. -/
namespace ChoiceGraph

namespace Eff

open Machine

variable {α β : Type} {e : Eff α} {f : α → Eff β} {F N N' : Nat} {m : Machine} {Q Q' : α → Machine → Prop}
  {P : β → Machine → Prop} {S S' : Stop → Machine → Prop} {a : α}

theorem Meets.ok {Q : α → Machine → Prop} {R : Machine → Prop} {m' : Machine} (h : e.Meets m Q R)
    (run : e m = .ok a m') : Q a m' := by
  unfold Meets at h
  rwa [run] at h

theorem Keeps.ok {s : Scope} {ρ : Rank} {K : α → Machine → Rank → Prop} {m' : Machine}
    (h : e.Keeps s m ρ K) (run : e m = .ok a m') : ∃ ρ', m.Evolves s ρ m' [] ρ' ∧ K a m' ρ' := by
  unfold Keeps Meets at h
  rwa [run] at h

/-- The effect returns in one condition, or stops in another. It is out of fuel only when there was
less fuel than is enough, and no more of it than steps in the slice. -/
def Obeys (e : Eff α) (F N : Nat) (m : Machine) (Q : α → Machine → Prop) (S : Stop → Machine → Prop) :
    Prop :=
  match e m with
  | .ok a m' => m.Pays m' ∧ Q a m'
  | .error .outOfFuel _ => F < N ∧ ∀ left, m.slice.remaining = some left → F ≤ left
  | .error stop m' => S stop m'

/-- The slice is over. -/
def Cut (S : Machine → Prop) (stop : Stop) (m : Machine) : Prop :=
  stop = .preempted ∧ m.slice.isOver = true ∧ S m

theorem Cut.mono {S S' : Machine → Prop} {stop : Stop} (h : Cut S stop m) (hS : S m → S' m) :
    Cut S' stop m :=
  ⟨h.1, h.2.1, hS h.2.2⟩

theorem obeys_of_ok {m' : Machine} (run : e m = .ok a m') (paid : m.Pays m') (q : Q a m') :
    e.Obeys F N m Q S := by
  unfold Obeys
  rw [run]
  exact ⟨paid, q⟩

theorem obeys_pure (q : Q a m) : (pure a : Eff α).Obeys F N m Q S :=
  obeys_of_ok rfl (refl_of Pays m) q

theorem obeys_outOfFuel : (throw .outOfFuel : Eff α).Obeys 0 (N + 1) m Q S :=
  ⟨Nat.zero_lt_succ N, fun left _ => Nat.zero_le left⟩

theorem obeys_of_error {stop : Stop} {m' : Machine} (run : e m = .error stop m')
    (fuelled : stop ≠ .outOfFuel) (s : S stop m') : e.Obeys F N m Q S := by
  unfold Obeys
  rw [run]
  cases stop with
  | outOfFuel => exact absurd rfl fuelled
  | _ => exact s

theorem Obeys.ok {m' : Machine} (h : e.Obeys F N m Q S) (run : e m = .ok a m') : Q a m' := by
  unfold Obeys at h
  rw [run] at h
  exact h.2

theorem Obeys.error {stop : Stop} {m' : Machine} (h : e.Obeys F N m Q S) (run : e m = .error stop m')
    (fuelled : stop ≠ .outOfFuel) : S stop m' := by
  unfold Obeys at h
  rw [run] at h
  cases stop with
  | outOfFuel => exact absurd rfl fuelled
  | _ => exact h

theorem Obeys.mono (h : e.Obeys F N m Q S) (hQ : ∀ a m', Q a m' → Q' a m')
    (hS : ∀ stop m', S stop m' → S' stop m') : e.Obeys F N m Q' S' := by
  unfold Obeys at h ⊢
  cases run : e m with
  | ok a m' =>
    rw [run] at h
    exact ⟨h.1, hQ a m' h.2⟩
  | error stop m' =>
    rw [run] at h
    cases stop with
    | outOfFuel => exact h
    | _ => exact hS _ m' h

theorem Obeys.congr {e' : Eff α} (h : e.Obeys F N m Q S) (same : e' m = e m) :
    e'.Obeys F N m Q S := by
  unfold Obeys at h ⊢
  rwa [same]

theorem Obeys.more (h : e.Obeys F N m Q S) (le : N ≤ N') : e.Obeys F N' m Q S := by
  unfold Obeys at h ⊢
  cases run : e m with
  | ok a m' =>
    rw [run] at h
    exact h
  | error stop m' =>
    rw [run] at h
    cases stop with
    | outOfFuel => exact ⟨Nat.lt_of_lt_of_le h.1 le, h.2⟩
    | _ => exact h

theorem Obeys.bind (h : e.Obeys F N m Q S)
    (hf : ∀ a m', e m = .ok a m' → Q a m' → (f a).Obeys F N m' P S) : (e >>= f).Obeys F N m P S := by
  unfold Obeys at h
  cases run : e m with
  | error stop m' =>
    rw [run] at h
    unfold Obeys
    rw [bind_error run]
    cases stop <;> exact h
  | ok a m' =>
    rw [run] at h
    obtain ⟨paid, q⟩ := h
    have rest := hf a m' run q
    unfold Obeys at rest ⊢
    rw [bind_ok run]
    cases run' : f a m' with
    | ok b m'' =>
      rw [run'] at rest
      exact ⟨trans_of Pays paid rest.1, rest.2⟩
    | error stop m'' =>
      rw [run'] at rest
      cases stop with
      | outOfFuel =>
        refine ⟨rest.1, fun left limited => ?_⟩
        obtain ⟨left', limited', le⟩ := paid.spends left limited
        exact (rest.2 left' limited').trans le
      | _ => exact rest

theorem obeys_still_bind (run : e m = .ok a m) (h : (f a).Obeys F N m P S) :
    (e >>= f).Obeys F N m P S := by
  unfold Obeys at h ⊢
  rwa [bind_ok run]

theorem obeys_look_bind {r : Machine → Except Fault α} (run : r m = .ok a)
    (h : (f a).Obeys F N m P S) : (look r >>= f).Obeys F N m P S :=
  obeys_still_bind (look_ok run) h

/-- What else is known of the effect. -/
theorem Obeys.meets {R : Machine → Prop} (h : e.Obeys F N m Q S) (k : e.Meets m Q' R) :
    e.Obeys F N m (fun a m' => Q a m' ∧ Q' a m') fun stop m' => S stop m' ∧ R m' := by
  unfold Obeys Meets at *
  cases run : e m with
  | ok a m' =>
    rw [run] at h k
    exact ⟨h.1, h.2, k⟩
  | error stop m' =>
    rw [run] at h k
    cases stop with
    | outOfFuel => exact h
    | fault => exact absurd k id
    | _ => exact ⟨h, k⟩

/-- A step that is paid for leaves less of the slice than there was fuel. -/
theorem obeys_tick_bind {f : Unit → Eff β} (stop : m.slice.isOver = true → S .preempted m)
    (go_on : m.slice.isOver = false → (f ()).Obeys F N { m with slice := m.slice.spend } P S) :
    (Reduction.tick >>= f).Obeys (F + 1) (N + 1) m P S := by
  cases isOver : m.slice.isOver with
  | true =>
    have run : Reduction.tick m = .error .preempted m := if_pos isOver
    exact obeys_of_error (bind_error run) nofun (stop isOver)
  | false =>
    have run : Reduction.tick m = .ok () { m with slice := m.slice.spend } := by
      unfold Reduction.tick
      rw [isOver]
      rfl
    have rest := go_on isOver
    unfold Obeys at rest ⊢
    rw [bind_ok run]
    cases run' : f () { m with slice := m.slice.spend } with
    | ok b m' =>
      rw [run'] at rest
      exact ⟨trans_of Pays (Permissive.spent m isOver) rest.1, rest.2⟩
    | error stop m' =>
      rw [run'] at rest
      cases stop with
      | outOfFuel =>
        refine ⟨Nat.succ_lt_succ rest.1, fun left limited => ?_⟩
        have spent : m.slice.spend.remaining = some (left - 1) := by
          show m.slice.remaining.map (· - 1) = _
          rw [limited, Option.map_some]
        have le := rest.2 (left - 1) spent
        have some_left : left ≠ 0 := by
          rintro rfl
          simp [Slice.isOver, limited] at isOver
        omega
      | _ => exact rest

end Eff

namespace Machine

variable {m m' m'' : Machine} {ρ : Rank}

/-- Nothing has changed but the slice. -/
def OnlySpends (m m' : Machine) : Prop := m' = { m with slice := m'.slice }

theorem OnlySpends.refl (m : Machine) : m.OnlySpends m := rfl

theorem OnlySpends.spent (m : Machine) : m.OnlySpends { m with slice := m.slice.spend } := rfl

theorem OnlySpends.trans (h : m.OnlySpends m') (h' : m'.OnlySpends m'') : m.OnlySpends m'' := by
  unfold OnlySpends at *
  rw [h', h]

theorem OnlySpends.same (h : m.OnlySpends m') : m'.toTermGraph = m.toTermGraph := by
  unfold OnlySpends at h
  rw [h]

/-- Apart from the graph, the slice and a search under way everything is the same. -/
structure Aside (m m' : Machine) : Prop where
  rest : m' = { m with graph := m'.graph, slice := m'.slice, computations := m'.computations }
  outside : m.computations = [] → m'.computations = []

theorem Aside.trans (h : m.Aside m') (h' : m'.Aside m'') : m.Aside m'' where
  rest := by
    rw [h'.rest, h.rest]
  outside none := h'.outside (h.outside none)

theorem OnlySpends.aside (h : m.OnlySpends m') : m.Aside m' where
  rest := by
    unfold OnlySpends at h
    rw [h]
  outside none := by
    unfold OnlySpends at h
    rw [h]
    exact none

theorem mapInnermost_aside (m : Machine) (f : Computation → Computation) :
    m.Aside (m.mapInnermost f) := by
  unfold mapInnermost
  split
  · exact (OnlySpends.refl m).aside
  · next searches =>
    refine ⟨rfl, fun none => ?_⟩
    cases none.symm.trans searches

theorem aside_graph (m : Machine) (g : Graph) : m.Aside (m.setGraph g) := ⟨rfl, id⟩

theorem Inv.spent (h : m.Inv [] ρ) : Inv { m with slice := m.slice.spend } [] ρ :=
  (quiet_count (s := .below 0) h m.nextId m.slice.spend).inv

end Machine

namespace Reduction

/-- A step that is paid for changes nothing but the slice. -/
theorem tick_spends {m m' : Machine} (run : tick m = .ok () m') :
    m' = { m with slice := m.slice.spend } := by
  unfold tick at run
  cases isOver : m.slice.isOver with
  | true =>
    rw [isOver] at run
    cases run
  | false =>
    rw [isOver] at run
    cases run
    rfl

end Reduction

end ChoiceGraph
