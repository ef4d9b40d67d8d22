import ChoiceGraph.Proofs.Decisions
import ChoiceGraph.Proofs.Passes
import ChoiceGraph.Proofs.Weaving

/-! # Unifications that guard a list

Before a list is looked at, unifications bind one variable to the next. Each unification succeeds at
once, its guard becomes an indirection to what it guards, and the search in front gains one binding. In
the end the bindings connect all the variables, and the indirections lead to the list. -/
namespace ChoiceGraph

/-- So many indirections lead from one node to another. -/
inductive Graph.Redirects (g : Graph) : Nat → NodeId → NodeId → Prop
  | here (i : NodeId) : Redirects g 0 i i
  | next {k : Nat} {i j p : NodeId} (h : g.Holds i (.indirection j)) (rest : Redirects g k j p) :
    Redirects g (k + 1) i p

theorem Graph.Redirects.kept {g g' : Graph} {k : Nat} {i p : NodeId} (h : g.Redirects k i p)
    (kept : ∀ i j, g.Holds i (.indirection j) → g'.Holds i (.indirection j)) : g'.Redirects k i p := by
  induction h with
  | here => exact .here _
  | next h _ ih => exact .next (kept _ _ h) ih

namespace Machine

variable {m m' m'' : Machine} {S S' : NodeId → Prop} {outer : List Computation} {l : Link}
  {s : ConstraintStore} {g' : Graph} {c : Content} {u : NodeId}

/-- Nothing was taken or freed, and only these nodes, the slice and the searches have changed. -/
structure Alters (S : NodeId → Prop) (m m' : Machine) : Prop where
  same : m' = { m with graph := m'.graph, slice := m'.slice, computations := m'.computations }
  sound : m'.graph.Sound
  capacity : m'.graph.capacity = m.graph.capacity
  free : m'.graph.free = m.graph.free
  pools : m'.graph.pools.size = m.graph.pools.size
  kept : ∀ j d, ¬ S j → m.graph.Holds j d → m'.graph.Holds j d

theorem Alters.trans (h : Alters S m m') (h' : Alters S' m' m'') : Alters (fun j => S j ∨ S' j) m m'' where
  same := by rw [h'.same, h.same]
  sound := h'.sound
  capacity := h'.capacity.trans h.capacity
  free := h'.free.trans h.free
  pools := h'.pools.trans h.pools
  kept j d out hj := h'.kept j d (fun hs => out (.inr hs)) (h.kept j d (fun hs => out (.inl hs)) hj)

theorem Alters.mono (h : Alters S m m') (sub : ∀ j, S j → S' j) : Alters S' m m' :=
  { h with kept := fun j d out hj => h.kept j d (fun hs => out (sub j hs)) hj }

theorem Alters.signature (h : Alters S m m') : m'.signature = m.signature := by rw [h.same]

theorem Alters.paid {slice : Slice} (h : Alters S { m with slice := slice } m') : Alters S m m' :=
  ⟨h.same, h.sound, h.capacity, h.free, h.pools, h.kept⟩

theorem alters_paid (sound : m.graph.Sound) (slice : Slice) (cs : List Computation) :
    Alters (fun _ => False) m { m with slice := slice, computations := cs } :=
  ⟨rfl, sound, rfl, rfl, rfl, fun _ _ _ hj => hj⟩

theorem alters_of_sets (sets : m.graph.Sets u c g') : Alters (· = u) m (m.setGraph g') :=
  ⟨rfl, sets.sound, sets.capacity, sets.free, sets.pools, fun _ _ other hj => sets.holds_other other hj⟩

theorem Fronted.congr (h : m.Fronted outer l s) (same : m'.computations = m.computations) :
    m'.Fronted outer l s := by
  obtain ⟨search, queue, counted, node, fingerprint, store⟩ := h
  exact .mk (same.trans search) queue counted node fingerprint store

end Machine

namespace Reduction

open Eff Machine Graph

variable {m m' : Machine} {outer : List Computation} {l : Link} {store : ConstraintStore} {x y : BoundVar}
  {t : TypeId} {s a F : Nat} {u v c r : NodeId} {g g' : Graph} {xs : List BoundVar}

/-! ## One unification -/

/-- Two variables with different identifiers are bound to each other. -/
theorem unify_binds (hσ : m.signature.Sound) (sound : m.graph.Sound) (room : m.Room (s + 1) a)
    (front : m.Fronted outer l store) (hc : m.graph.Holds c (.binary Prelude.standard.unify 0 x.node y.node))
    (hx : m.graph.Holds x.node (freeContent x.id (some t)))
    (hy : m.graph.Holds y.node (freeContent y.id (some t))) (apart : x.id ≠ y.id) :
    ∃ m', headNormalize (F + 2) c m = .ok c m' ∧ Alters (· = c) m m' ∧ m'.Room s a ∧
      m'.Fronted outer l (store.bind x y false) ∧ m'.graph.Holds c (.verdict true) := by
  let m₀ : Machine := { m with slice := m.slice.spend }
  have standing : Tag.free ≠ .forward := by decide
  have calling : Tag.operation ≠ .forward := by decide
  have answered : Tag.constructor 0 ≠ .forward ∧ Tag.constructor 0 ≠ .operation := by decide
  obtain ⟨sym, found, -, kind, head, -⟩ := Prelude.unify_binary.found hσ
  obtain ⟨left, right⟩ := Prelude.unify_binary.successorSkip (t := m₀.toTermGraph) hσ hc.content
    (TermGraph.skip_self hx.content standing) (TermGraph.skip_self hy.content standing)
  have begun : m₀.Fronted outer l store := front.congr rfl
  obtain ⟨cs, bound, front'⟩ := begun.updated fun s => s.bind x y false
  have bound' : bindVars x.node y.node false m₀ = .ok true { m₀ with computations := cs } := by
    have some_ : m₀.front?.isSome = true := by
      obtain ⟨search, queue, -⟩ := front
      have shown : m₀.front? = m.front? := rfl
      rw [shown, Machine.front?, search, List.head?_cons, Option.bind_some, Computation.front?, queue]
      rfl
    refine (bind_ok (look_ok (TermGraph.aux_content (t := m₀.toTermGraph) hx.content))).trans
      ((bind_ok (look_ok (TermGraph.aux_content (t := m₀.toTermGraph) hy.content))).trans
        ((bind_ok (show (get : Eff Machine) m₀ = .ok m₀ m₀ from rfl)).trans ?_))
    rw [if_pos some_]
    exact congrArg (EStateM.Result.ok true) bound
  obtain ⟨g, succeeds, sets⟩ := succeed_sets (m := { m₀ with computations := cs }) (u := c) sound hσ
    (Graph.content_lt hc.content)
  have ends : bindHeads c x.node y.node m₀ = (if x.id ≠ y.id then
      bindVars x.node y.node false >>= fun _ => succeed c else succeed c) m₀ :=
    (bind_ok (look_ok (TermGraph.aux_content (t := m₀.toTermGraph) hx.content))).trans
      (bind_ok (look_ok (TermGraph.aux_content (t := m₀.toTermGraph) hy.content)))
  have step : runHead (reducer (F + 1)) c .unify m₀ =
      .ok () (Machine.setGraph { m₀ with computations := cs } g) := by
    refine (bind_ok (look_ok left)).trans ((bind_ok (look_ok right)).trans
      ((bind_ok (look_ok (TermGraph.tag_content (t := m₀.toTermGraph) hx.content))).trans
        ((bind_ok (look_ok (TermGraph.tag_content (t := m₀.toTermGraph) hy.content))).trans ?_)))
    rw [if_pos ⟨rfl, rfl⟩]
    refine ends.trans ?_
    rw [if_pos apart]
    exact (bind_ok bound').trans succeeds
  have done : g.Holds c (.verdict true) := sets.holds hc.unfree
  have room' : Room s a { m₀ with computations := cs } :=
    ⟨room.preempt, room.spend.steps, room.nodes⟩
  refine ⟨_, ?_, ((alters_paid sound m.slice.spend cs).trans (alters_of_sets sets)).mono
    (fun j hj => hj.resolve_left id), room'.setGraph (sets.free.symm ▸ room.nodes),
    front'.congr rfl, done⟩
  have called := headNormalize_call (F := F + 1) room.goes (TermGraph.skip_self hc.content calling) hc.content
    rfl found kind
  rw [head] at called
  exact called.trans ((bind_ok step).trans
    (headNormalize_idle (TermGraph.skip_self done.content answered.1) done.content answered.2))

/-- A guard becomes an indirection to what it guards. -/
theorem guard_binds (hσ : m.signature.Sound) (sound : m.graph.Sound) (room : m.Room (s + 2) a)
    (front : m.Fronted outer l store) (hu : m.graph.Holds u (.binary Prelude.standard.guard 0 c r))
    (hc : m.graph.Holds c (.binary Prelude.standard.unify 0 x.node y.node))
    (hx : m.graph.Holds x.node (freeContent x.id (some t)))
    (hy : m.graph.Holds y.node (freeContent y.id (some t))) (apart : x.id ≠ y.id) :
    ∃ m', headNormalize (F + 3) u m = headNormalize (F + 2) u m' ∧ Alters (fun j => j = u ∨ j = c) m m' ∧
      m'.Room s a ∧ m'.Fronted outer l (store.bind x y false) ∧ m'.graph.Holds u (.indirection r) := by
  let m₀ : Machine := { m with slice := m.slice.spend }
  obtain ⟨sym, found, -, kind, head, -⟩ := Prelude.guard_binary.found hσ
  have differ : u ≠ c := fun same => by
    cases congrArg Content.symbol ((same ▸ hu).eq hc)
  obtain ⟨m₁, unified, altered, room₁, front₁, done⟩ := unify_binds (m := m₀) (F := F) hσ sound room.spend
    (front.congr rfl) hc hx hy apart
  have hσ₁ : m₁.signature.Sound := altered.signature.symm ▸ hσ
  have hu₁ := altered.kept u _ differ hu
  obtain ⟨g₂, sets₂, forced⟩ := headArg_value (r := reducer (F + 2)) (k := 0)
    (Prelude.guard_binary.successor (t := m₀.toTermGraph) hσ hu.content).1 unified altered.sound hσ₁
    hu₁.content (Prelude.guard_binary.fits hσ₁ 0 c r) rfl differ.symm done.content rfl
  have hu₂ : g₂.Holds u (.binary Prelude.standard.guard 0 c r) := sets₂.holds hu₁.unfree
  obtain ⟨g₃, forwarded, sets₃⟩ := rewriteForward_sets (m := m₁.setGraph g₂) sets₂.sound
    (Graph.content_lt hu₂.content) r
  have read := (Prelude.guard_binary.successor (t := (m₁.setGraph g₂).toTermGraph) hσ₁ hu₂.content).2
  have step : runHead (reducer (F + 2)) u .guard m₀ = .ok () (m₁.setGraph g₃) :=
    (bind_ok forced).trans ((bind_ok (look_ok read)).trans forwarded)
  have called := headNormalize_call (F := F + 2) room.goes (TermGraph.skip_self hu.content nofun) hu.content
    rfl found kind
  rw [head] at called
  refine ⟨m₁.setGraph g₃, called.trans (bind_ok step), ?_, ?_, front₁.congr rfl, sets₃.holds hu₂.unfree⟩
  · have both := (altered.trans (alters_of_sets sets₂)).trans (alters_of_sets (m := m₁.setGraph g₂) sets₃)
    refine (both.mono fun j hj => ?_).paid
    rcases hj with (rfl | rfl) | rfl
    · exact .inr rfl
    · exact .inl rfl
    · exact .inl rfl
  · exact room₁.setGraph ((sets₃.free.trans sets₂.free).symm ▸ room₁.nodes)

/-! ## All unifications -/

/-- Guards that bind each variable to the next one, and lead to a node. -/
inductive Asks (g : Graph) (v : NodeId) : List BoundVar → NodeId → Prop
  | last (x : BoundVar) : Asks g v [x] v
  | guard {x y : BoundVar} {xs : List BoundVar} {u c r : NodeId}
    (hu : g.Holds u (.binary Prelude.standard.guard 0 c r))
    (hc : g.Holds c (.binary Prelude.standard.unify 0 x.node y.node)) (rest : Asks g v (y :: xs) r) :
    Asks g v (x :: y :: xs) u

/-- One guard may change without the guards below it, as they are about other variables. -/
theorem Asks.kept (h : Asks g v xs r) {n n' r' : NodeId}
    (hu : g.Holds u (.binary Prelude.standard.guard 0 c r'))
    (hc : g.Holds c (.binary Prelude.standard.unify 0 n n')) (apart : ∀ x ∈ xs, x.node ≠ n)
    (kept : ∀ j d, ¬ (j = u ∨ j = c) → g.Holds j d → g'.Holds j d) : Asks g' v xs r := by
  induction h with
  | last x => exact .last x
  | @guard x y xs u₁ c₁ r₁ hu₁ hc₁ _ ih =>
    have conditions : c₁ ≠ c := fun same => by
      have equal := hc₁.eq (same ▸ hc)
      injection (Cargo.links.inj (congrArg Content.cargo equal)) with first
      exact apart x List.mem_cons_self first
    have guards : u₁ ≠ u := fun same => by
      have equal := hu₁.eq (same ▸ hu)
      injection (Cargo.links.inj (congrArg Content.cargo equal)) with first
      exact conditions first
    have first : u₁ ≠ c := fun same => by cases congrArg Content.symbol (hu₁.eq (same ▸ hc))
    have second : c₁ ≠ u := fun same => by cases congrArg Content.symbol (hc₁.eq (same ▸ hu))
    exact .guard (kept _ _ (fun h => h.elim guards first) hu₁)
      (kept _ _ (fun h => h.elim second conditions) hc₁)
      (ih fun z hz => apart z (List.mem_cons_of_mem _ hz))

/-- Binds each variable to the next one. -/
def chained : List BoundVar → ConstraintStore → ConstraintStore
  | x :: y :: xs, store => chained (y :: xs) (store.bind x y false)
  | _, store => store

/-- Whatever the node holds is a guard or a unification. -/
def Asking (g : Graph) (j : NodeId) : Prop :=
  ∀ d, g.Holds j d → d.symbol = Prelude.standard.guard ∨ d.symbol = Prelude.standard.unify

/-- The guards bind the variables in a chain and become indirections to the node they lead to. -/
theorem asks_bind {d : Content} (data : d.tag ≠ .operation) (ends : d.tag ≠ .forward) :
    ∀ (xs : List BoundVar) (x : BoundVar) (m : Machine) (u : NodeId) (store : ConstraintStore),
      Asks m.graph v (x :: xs) u → m.signature.Sound → m.graph.Sound →
      (∀ y ∈ x :: xs, m.graph.Holds y.node (freeContent y.id (some t))) → ((x :: xs).map BoundVar.id).Nodup →
      m.graph.Holds v d → m.Room (s + 2 * xs.length) a → m.Fronted outer l store →
      ∃ m', headNormalize (F + xs.length + 3) u m = .ok v m' ∧ Alters (Asking m.graph) m m' ∧ m'.Room s a ∧
        m'.Fronted outer l (chained (x :: xs) store) ∧ m'.graph.Redirects xs.length u v ∧
        m'.graph.Holds v d := by
  intro xs
  induction xs with
  | nil =>
    intro x m u store asks hσ sound free nodup hv room front
    cases asks
    exact ⟨m, headNormalize_idle (TermGraph.skip_self hv.content ends) hv.content data,
      ⟨rfl, sound, rfl, rfl, rfl, fun _ _ _ hj => hj⟩, room, front, .here v, hv⟩
  | cons y xs ih =>
    intro x m u store asks hσ sound free nodup hv room front
    cases asks with
    | @guard _ _ _ _ c r hu hc rest =>
    have distinct := List.nodup_cons.mp nodup
    have apart : ∀ z ∈ y :: xs, z.id ≠ x.id := fun z hz same =>
      distinct.1 (same ▸ List.mem_map_of_mem hz)
    have hx := free x List.mem_cons_self
    obtain ⟨m₁, stepped, altered, room₁, front₁, hu₁⟩ := guard_binds (F := F + xs.length + 1) hσ sound
      (s := s + 2 * xs.length) (room.mono (by rw [List.length_cons]; omega) le_rfl) front hu hc hx
      (free y (List.mem_cons_of_mem _ List.mem_cons_self)) (apart y List.mem_cons_self).symm
    have hσ₁ : m₁.signature.Sound := altered.signature.symm ▸ hσ
    have still : ∀ j d, m.graph.Holds j d → d.symbol ≠ Prelude.standard.guard →
        d.symbol ≠ Prelude.standard.unify → m₁.graph.Holds j d := fun j d hj first second => by
      refine altered.kept j d (fun here => ?_) hj
      rcases here with rfl | rfl
      · exact first (congrArg Content.symbol (hj.eq hu))
      · exact second (congrArg Content.symbol (hj.eq hc))
    have rest₁ : Asks m₁.graph v (y :: xs) r := rest.kept hu hc (fun z hz same => by
      have hz' := free z (List.mem_cons_of_mem _ hz)
      rw [same] at hz'
      exact apart z hz (congrArg Content.aux (hz'.eq hx))) altered.kept
    have hv₁ : m₁.graph.Holds v d := altered.kept v d (fun here => by
      rcases here with rfl | rfl
      · exact data (congrArg Content.tag (hv.eq hu))
      · exact data (congrArg Content.tag (hv.eq hc))) hv
    obtain ⟨m', run, altered', room', front', redirects, hv'⟩ := ih y m₁ r (store.bind x y false) rest₁ hσ₁
      altered.sound (fun z hz => still _ _ (free z (List.mem_cons_of_mem _ hz)) nofun nofun) distinct.2 hv₁
      room₁ front₁
    have next : ∃ e, m₁.graph.Holds r e ∧ e.tag ≠ .forward := by
      cases rest₁ with
      | last => exact ⟨d, hv₁, ends⟩
      | guard hr => exact ⟨_, hr, nofun⟩
    obtain ⟨e, hr, passes⟩ := next
    have skip : m₁.skip u = .ok r := TermGraph.skip_forward hu₁.content hr.content passes
    refine ⟨m', ?_, ?_, room', front', ?_, hv'⟩
    · calc headNormalize (F + (xs.length + 1) + 3) u m
          = headNormalize (F + xs.length + 3) u m₁ := stepped
        _ = headNormalize (F + xs.length + 3) r m₁ :=
          headNormalize_skip skip (TermGraph.skip_self hr.content passes)
        _ = _ := run
    · refine (altered.trans altered').mono fun j hj d' hd => ?_
      rcases hj with (rfl | rfl) | later
      · exact .inl (congrArg Content.symbol (hd.eq hu))
      · exact .inr (congrArg Content.symbol (hd.eq hc))
      · by_contra other
        exact other (later d' (still j d' hd (fun same => other (.inl same)) fun same => other (.inr same)))
    · have hu' : m'.graph.Holds u (.indirection r) := altered'.kept u _ (fun here => by
        rcases here _ hu₁ with same | same <;> cases same) hu₁
      exact .next hu' redirects

/-- Normalizing the guards binds the variables in a chain, and goes on with the node they lead to. -/
theorem asks_normalize {d : Content} {index : Nat} {x : BoundVar} (data : d.tag = .constructor index)
    (asks : Asks m.graph v (x :: xs) u) (hσ : m.signature.Sound) (sound : m.graph.Sound)
    (free : ∀ y ∈ x :: xs, m.graph.Holds y.node (freeContent y.id (some t)))
    (nodup : ((x :: xs).map BoundVar.id).Nodup) (hv : m.graph.Holds v d)
    (room : m.Room (s + 2 * xs.length + 1) a) (front : m.Fronted outer l store) :
    ∃ f m', F + xs.length + 5 ≤ f ∧ normalize (F + xs.length + 6) u m = normalize f v m' ∧
      Alters (Asking m.graph) m m' ∧ m'.Room s a ∧ m'.Fronted outer l (chained (x :: xs) store) ∧
      m'.graph.Redirects xs.length u v := by
  have call : d.tag ≠ .operation := by rw [data]; nofun
  have ends : d.tag ≠ .forward := by rw [data]; nofun
  cases xs with
  | nil =>
    cases asks
    exact ⟨F + 6, m, Nat.le_succ _, rfl, ⟨rfl, sound, rfl, rfl, rfl, fun _ _ _ hj => hj⟩,
      room.mono (Nat.le_add_right s 1) le_rfl, front, .here _⟩
  | cons y xs =>
    let m₀ : Machine := { m with slice := m.slice.spend }
    cases asks with
    | guard hu hc rest =>
    obtain ⟨m', run, altered, room', front', redirects, hv'⟩ := asks_bind (F := F + 2) call ends (y :: xs) x
      m₀ u store (.guard hu hc rest) hσ sound free nodup hv room.spend (front.congr rfl)
    have tag : m'.tag v = .ok (.constructor index) :=
      (TermGraph.tag_content hv'.content).trans (congrArg Except.ok data)
    have called := normalize_called (F := F + (y :: xs).length + 5) room.goes hu.content
      ((hσ.prelude Prelude.standard.guard (by decide)).trans rfl) rfl
    refine ⟨_, m', le_rfl, ?_, altered.paid, room', front', redirects⟩
    rw [show F + 2 + (y :: xs).length + 3 = F + (y :: xs).length + 5 by omega] at run
    exact called.trans ((bind_ok run).trans (bind_ok (look_ok (r := fun m => m.tag v) tag)))

end Reduction

end ChoiceGraph
