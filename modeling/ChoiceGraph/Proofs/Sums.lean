import ChoiceGraph.Proofs.LevelOrder
import ChoiceGraph.Proofs.Passes

/-! # Sums over trees of alternatives

The inner nodes of a tree of alternatives are calls of `?` and choices, its leaves are literals and calls
that fail. The sum of a tree and a literal is brought, within three steps, to a literal, to a failure, or
to a choice between the sums of the two subtrees. All other sums, and all trees but the one that is
evaluated, stay as they are. -/
namespace ChoiceGraph

namespace Content

def int (v : Int64) : Content := ⟨.constructor 0, Builtin.int, 0, .literal (.int v)⟩

def failedCall : Content := ⟨.operation, Prelude.standard.failed, 0, .links []⟩

def sum (x y : NodeId) : Content := binary Prelude.standard.add 0 x y

/-- A call of `?`, or a choice. -/
inductive Branches (l r : NodeId) : Content → Prop
  | call : Branches l r (binary Prelude.standard.choose 0 l r)
  | choice (id : ChoiceId) : Branches l r (alternative false id l r)

theorem int_fits {σ : Signature} (v : Int64) : (int v).Fits σ := .int 0 v

end Content

namespace Graph

variable {g g' : Graph} {i j u e x y l r : NodeId} {c : Content} {v : Int64} {t : Alternatives}
  {xs S : List NodeId}

/-- A leaf that fails, or has failed. -/
inductive Fails (g : Graph) (i : NodeId) : Prop
  | call (h : g.Holds i .failedCall)
  | failed (h : g.Holds i .blank)

/-- A tree with these inner nodes stands at a node. -/
inductive Grows (g : Graph) : Alternatives → NodeId → List NodeId → Prop where
  | int {v : Int64} {i : NodeId} (h : g.Holds i (.int v)) : Grows g (.int v) i []
  | failed {i : NodeId} (h : g.Fails i) : Grows g .failed i []
  | either {t t' : Alternatives} {i l r : NodeId} {xs ys : List NodeId} {c : Content}
    (h : g.Holds i c) (branches : c.Branches l r) (left : Grows g t l xs) (right : Grows g t' r ys) :
    Grows g (.either t t') i (i :: (xs ++ ys))

theorem Grows.forks (h : g.Grows t i xs) : t.forks = xs.length := by
  induction h with
  | int | failed => rfl
  | either _ _ _ _ left right =>
    rw [Alternatives.forks, left, right, List.length_cons, List.length_append]

theorem Grows.branches (h : g.Grows t i xs) : ∀ j ∈ xs, ∃ c l r, c.Branches l r ∧ g.Holds j c := by
  induction h with
  | int | failed => exact fun _ hj => by cases hj
  | either h branches _ _ left right =>
    intro j hj
    rcases List.mem_cons.mp hj with rfl | hj
    · exact ⟨_, _, _, branches, h⟩
    · exact (List.mem_append.mp hj).elim (left j) (right j)

/-- One sum and some inner nodes have changed. Everything else that there is in sums over trees is still
there; calls may have failed. -/
structure Ripens (g : Graph) (u : NodeId) (S : List NodeId) (g' : Graph) : Prop where
  sound : g'.Sound
  ints : ∀ j v, g.Holds j (.int v) → g'.Holds j (.int v)
  fails : ∀ j, g.Fails j → g'.Fails j
  branches : ∀ j c l r, c.Branches l r → j ∉ S → g.Holds j c → g'.Holds j c
  sums : ∀ j x y, j ≠ u → g.Holds j (.sum x y) → g'.Holds j (.sum x y)

/-- Besides the sum, one node has changed: the sum itself, a leaf that fails, or an inner node. -/
theorem ripens_of_others (sound : g'.Sound) (hu : g.Holds u (.sum x y))
    (others : ∀ j d, j ≠ u → j ≠ e → g.Holds j d → g'.Holds j d)
    (top : e = u ∨ (g.Fails e ∧ g'.Fails e) ∨ (e ∈ S ∧ ∃ c l r, c.Branches l r ∧ g.Holds e c)) :
    g.Ripens u S g' where
  sound := sound
  ints j v hj := by
    refine others j _ ?_ ?_ hj
    · rintro rfl
      cases hj.eq hu
    · rintro rfl
      rcases top with rfl | ⟨he | he, -⟩ | ⟨-, c, l, r, branches, he⟩
      · cases hj.eq hu
      · cases hj.eq he
      · cases hj.eq he
      · cases branches <;> cases hj.eq he
  fails j hj := by
    by_cases here : j = e
    · subst here
      rcases top with rfl | ⟨-, he⟩ | ⟨-, c, l, r, branches, he⟩
      · rcases hj with hj | hj <;> cases hj.eq hu
      · exact he
      · rcases hj with hj | hj <;> cases branches <;> cases hj.eq he
    · rcases hj with hj | hj
      · refine .call (others j _ ?_ here hj)
        rintro rfl
        cases hj.eq hu
      · refine .failed (others j _ ?_ here hj)
        rintro rfl
        cases hj.eq hu
  branches j c l r branches outside hj := by
    refine others j c ?_ ?_ hj
    · rintro rfl
      cases branches <;> cases hj.eq hu
    · rintro rfl
      rcases top with rfl | ⟨he | he, -⟩ | ⟨inside, -⟩
      · cases branches <;> cases hj.eq hu
      · cases branches <;> cases hj.eq he
      · cases branches <;> cases hj.eq he
      · exact outside inside
  sums j x' y' away hj := by
    refine others j _ away ?_ hj
    rintro rfl
    rcases top with rfl | ⟨he | he, -⟩ | ⟨-, c, l, r, branches, he⟩
    · exact away rfl
    · cases hj.eq he
    · cases hj.eq he
    · cases branches <;> cases hj.eq he

/-- A tree without the inner nodes that have changed stands as it stood. -/
theorem Grows.ripen (h : g.Grows t i xs) (ripens : g.Ripens u S g') (apart : ∀ j ∈ xs, j ∉ S) :
    g'.Grows t i xs := by
  induction h with
  | int h => exact .int (ripens.ints _ _ h)
  | failed h => exact .failed (ripens.fails _ h)
  | either h branches _ _ left right =>
    refine .either (ripens.branches _ _ _ _ branches (apart _ List.mem_cons_self) h) branches ?_ ?_
    · exact left fun j hj => apart j (List.mem_cons_of_mem _ (List.mem_append_left _ hj))
    · exact right fun j hj => apart j (List.mem_cons_of_mem _ (List.mem_append_right _ hj))

end Graph

/-- To be given the content that it has changes nothing. -/
theorem Graph.Sets.idle {g : Graph} {i : NodeId} {c : Content} (sound : g.Sound)
    (hc : g.content? i = some c) : g.Sets i c g := ⟨sound, rfl, rfl, rfl, rfl, rfl, hc, fun _ _ => rfl⟩

theorem Prelude.add_binary : Binary standard.add (.arithmetic .add) :=
  ⟨by decide, by decide, ⟨"+", rfl⟩, rfl⟩

theorem Prelude.choose_binary : Binary standard.choose .choose :=
  ⟨by decide, by decide, ⟨"?", rfl⟩, rfl⟩

namespace Reduction

open Eff Machine

variable {m m₁ m' : Machine} {u e k l r : NodeId} {c d : Content} {a F s : Nat} {v b : Int64}

/-! ## What is at the top of a tree -/

/-- The identifier that a choice has or that a call of `?` is given, and the first one unused after that. -/
inductive Names (n : Nat) : Content → ChoiceId → Nat → Prop
  | given {id : ChoiceId} {l r : NodeId} : Names n (.alternative false id l r) id n
  | fresh {l r : NodeId} : Names n (.binary Prelude.standard.choose 0 l r) n (n + 1)

/-- A call of `?` becomes a choice with a new identifier. -/
theorem head_chosen (hσ : m.signature.Sound) (sound : m.graph.Sound) (room : m.Room (s + 1) a)
    (he : m.graph.Holds e (.binary Prelude.standard.choose 0 l r)) :
    ∃ g', headNormalize (F + 2) e m =
        .ok e { m with graph := g', nextId := m.nextId + 1, slice := m.slice.spend } ∧
      m.graph.Sets e (.alternative false m.nextId l r) g' := by
  obtain ⟨sym, found, -, kind, head, -⟩ := Prelude.choose_binary.found hσ
  let m₀ : Machine := { m with slice := m.slice.spend }
  obtain ⟨left, right⟩ := Prelude.choose_binary.successor (t := m₀.toTermGraph) hσ he.content
  obtain ⟨g', written, sets⟩ := rewrite_sets (m := { m₀ with nextId := m.nextId + 1 }) sound
    (Graph.content_lt he.content) .choice Builtin.choice m.nextId [l, r] (Nat.le_refl 2)
  have called := headNormalize_call (F := F + 1) room.goes (TermGraph.skip_self he.content nofun)
    he.content rfl found kind
  have chosen : stepChoose e m₀ = .ok () { m₀ with graph := g', nextId := m.nextId + 1 } :=
    (bind_ok (look_ok left)).trans ((bind_ok (look_ok right)).trans
      ((bind_ok (show freshId m₀ = .ok m.nextId { m₀ with nextId := m.nextId + 1 } from rfl)).trans written))
  refine ⟨g', called.trans ?_, sets⟩
  rw [head]
  exact (bind_ok chosen).trans
    (headNormalize_idle (TermGraph.skip_self sets.same nofun) sets.same nofun)

/-- A call of `failed` becomes a failure. -/
theorem head_failed (hσ : m.signature.Sound) (sound : m.graph.Sound) (room : m.Room (s + 1) a)
    (he : m.graph.Holds e .failedCall) :
    ∃ g', headNormalize (F + 2) e m = .ok e { m with graph := g', slice := m.slice.spend } ∧
      m.graph.Sets e .blank g' := by
  obtain ⟨g', failed, sets⟩ := rewriteFail_sets (m := { m with slice := m.slice.spend }) sound
    (Graph.content_lt he.content)
  have called := headNormalize_call (F := F + 1) room.goes (TermGraph.skip_self he.content nofun)
    he.content rfl ((hσ.prelude Prelude.standard.failed (by decide)).trans rfl) rfl
  exact ⟨g', called.trans ((bind_ok failed).trans
    (headNormalize_idle (TermGraph.skip_self sets.same nofun) sets.same nofun)), sets⟩

theorem head_fails (hσ : m.signature.Sound) (sound : m.graph.Sound) (room : m.Room (s + 1) a)
    (fails : m.graph.Fails e) : ∃ g' slice, headNormalize (F + 2) e m =
        .ok e { m with graph := g', slice := slice } ∧ m.graph.Sets e .blank g' := by
  rcases fails with he | he
  · obtain ⟨g', run, sets⟩ := head_failed (F := F) hσ sound room he
    exact ⟨g', _, run, sets⟩
  · exact ⟨m.graph, m.slice, headNormalize_idle (TermGraph.skip_self he.content nofun) he.content nofun,
      .idle sound he.content⟩

theorem head_branches (hσ : m.signature.Sound) (sound : m.graph.Sound) (room : m.Room (s + 1) a)
    (he : m.graph.Holds e c) (branches : c.Branches l r) : ∃ g' n slice id,
      headNormalize (F + 2) e m = .ok e { m with graph := g', nextId := n, slice := slice } ∧
      m.graph.Sets e (.alternative false id l r) g' ∧
      Room s a { m with graph := g', nextId := n, slice := slice } ∧ Names m.nextId c id n := by
  cases branches with
  | call =>
    obtain ⟨g', run, sets⟩ := head_chosen (F := F) hσ sound room he
    have spent := room.spend
    exact ⟨g', _, _, _, run, sets, ⟨spent.preempt, spent.steps, sets.free.symm ▸ spent.nodes⟩, .fresh⟩
  | choice id =>
    exact ⟨m.graph, m.nextId, m.slice, id,
      headNormalize_idle (TermGraph.skip_self he.content nofun) he.content nofun,
      .idle sound he.content, room.mono (Nat.le_succ s) le_rfl, .given⟩

/-! ## A sum is brought to what its tree is at the top -/

/-- Only a sum and some nodes of its tree have changed. At least `a` nodes are left. -/
structure Worked (u : NodeId) (S : List NodeId) (a : Nat) (m m' : Machine) : Prop where
  same : m' = { m with graph := m'.graph, slice := m'.slice, nextId := m'.nextId }
  later : m.nextId ≤ m'.nextId
  ripens : m.graph.Ripens u S m'.graph
  nodes : a ≤ m'.graph.free.length

theorem sum_driven (hσ : m.signature.Sound) (room : m.Room (s + 2) a) (hu : m.graph.Holds u (.sum e k))
    (run : stepArithmetic (reducer (F + 2)) .add u { m with slice := m.slice.spend.spend } = .ok () m')
    (hd : m'.graph.content? u = some d) (tag : d.tag ≠ .operation) (ends : d.tag ≠ .forward) :
    normalize (F + 4) u m = takeHead (reducer (F + 3)) u m' := by
  obtain ⟨sym, found, call, kind, head, -⟩ := Prelude.add_binary.found hσ
  let m₀ : Machine := { m with slice := m.slice.spend }
  have called := headNormalize_call (m := m₀) (F := F + 2) room.spend.goes
    (TermGraph.skip_self hu.content nofun) hu.content rfl found kind
  rw [head] at called
  have driven : headNormalize (F + 3) u m₀ = .ok u m' := called.trans
    ((bind_ok run).trans (headNormalize_idle (TermGraph.skip_self hd ends) hd tag))
  exact (normalize_called room.goes hu.content found call.normal).trans (bind_ok driven)

theorem rewriteInt_sets (hσ : m.signature.Sound) (sound : m.graph.Sound) (lt : u < m.graph.capacity)
    (v : Int64) : ∃ g', rewriteInt u v m = .ok () (m.setGraph g') ∧ m.graph.Sets u (.int v) g' :=
  (rewriteData_writes sound lt ((Signature.tagFor_builtin hσ (by decide)).trans rfl) 0 (.int v)).sets
    ((faults_look _).bind fun _ => faults_put u _)

/-- The sum of two literals. -/
theorem sum_int (hσ : m.signature.Sound) (sound : m.graph.Sound) (room : m.Room 3 a)
    (hu : m.graph.Holds u (.sum e k)) (he : m.graph.Holds e (.int v)) (hk : m.graph.Holds k (.int b)) :
    ∃ m', normalize (F + 4) u m = .ok () m' ∧ Worked u [] a m m' ∧ m'.graph.Holds u (.int (v + b)) := by
  have fits := Prelude.add_binary.fits hσ 0 e k
  have left : e ≠ u := he.ne hu nofun
  have right : k ≠ u := hk.ne hu nofun
  let m₂ : Machine := { m with slice := m.slice.spend.spend }
  have idle : ∀ {g : Graph} {i w}, g.Holds i (.int w) →
      (reducer (F + 2)).head i (m₂.setGraph g) = .ok i (m₂.setGraph g) := fun hi =>
    headNormalize_idle (m := m₂.setGraph _) (TermGraph.skip_self hi.content nofun) hi.content nofun
  obtain ⟨g₁, sets₁, first⟩ := headArg_value (m := m₂) (k := 0)
    (Prelude.add_binary.successor (t := m₂.toTermGraph) hσ hu.content).1 (idle he) sound hσ hu.content fits
    rfl left he.content rfl
  have hu₁ : g₁.Holds u (.sum e k) := sets₁.holds hu.unfree
  have hk₁ := sets₁.holds_other right hk
  obtain ⟨g₂, sets₂, second⟩ := headArg_value (m := m₂.setGraph g₁) (k := 1)
    (Prelude.add_binary.successor (t := (m₂.setGraph g₁).toTermGraph) hσ hu₁.content).2 (idle hk₁)
    sets₁.sound hσ hu₁.content fits rfl right hk₁.content rfl
  have readLeft : (m₂.setGraph g₂).literal? e = .ok (some (.int v)) :=
    TermGraph.literal_content (t := (m₂.setGraph g₂).toTermGraph) (c := .int v)
      (sets₂.holds_other left (sets₁.holds_other left he)).content
  have readRight : (m₂.setGraph g₂).literal? k = .ok (some (.int b)) :=
    TermGraph.literal_content (t := (m₂.setGraph g₂).toTermGraph) (c := .int b)
      (sets₂.holds_other right hk₁).content
  obtain ⟨g₃, written, sets₃⟩ := rewriteInt_sets (m := m₂.setGraph g₂) hσ sets₂.sound
    (Graph.content_lt sets₂.same) (v + b)
  have added : stepArithmetic (reducer (F + 2)) .add u m₂ = .ok () (m₂.setGraph g₃) := by
    refine (bind_ok first).trans ((bind_ok second).trans ?_)
    exact (bind_ok (look_ok (r := fun m => m.literal? e) readLeft)).trans
      ((bind_ok (look_ok (r := fun m => m.literal? k) readRight)).trans written)
  have whole : m.graph.Sets u (.int (v + b)) g₃ := (sets₁.again sets₂).again sets₃
  have tag : (m₂.setGraph g₃).tag u = .ok (.constructor 0) :=
    TermGraph.tag_content (t := (m₂.setGraph g₃).toTermGraph) (c := .int (v + b)) whole.same
  have still : normalize (F + 3) u (m₂.setGraph g₃) =
      .ok () { m₂.setGraph g₃ with slice := m.slice.spend.spend.spend } :=
    normalize_still (m := m₂.setGraph g₃) room.spend.spend.goes hσ whole.same (Content.int_fits _) nofun
      (fun call => by cases call.1) fun data => absurd (show 10 ≤ Builtin.int from data.2) (by decide)
  refine ⟨_, (sum_driven hσ (room.mono (Nat.le_succ 2) le_rfl) hu added whole.same nofun nofun).trans
    ((bind_ok (look_ok (r := fun m => m.tag u) tag)).trans still), ⟨rfl, Nat.le_refl _, ?_,
      whole.free.symm ▸ room.nodes⟩, whole.holds hu.unfree⟩
  exact Graph.ripens_of_others (e := u) whole.sound hu (fun j d away _ hj => whole.holds_other away hj)
    (.inl rfl)

/-- The sum of a tree that fails. -/
theorem sum_fails (hσ : m.signature.Sound) (sound : m.graph.Sound) (room : m.Room 3 a)
    (hu : m.graph.Holds u (.sum e k)) (fails : m.graph.Fails e) :
    ∃ m', normalize (F + 4) u m = .ok () m' ∧ Worked u [] a m m' ∧ m'.graph.Holds u .blank := by
  let m₂ : Machine := { m with slice := m.slice.spend.spend }
  have apart : e ≠ u := by
    rintro rfl
    rcases fails with he | he <;> cases he.eq hu
  obtain ⟨g₁, slice, run, sets₁⟩ := head_fails (m := m₂) (F := F) hσ sound room.spend.spend fails
  have hu₁ : g₁.Holds u (.sum e k) := sets₁.holds_other apart.symm hu
  obtain ⟨g₂, sets₂, taken⟩ := headArg_failure (m := m₂) (k := 0) (r := reducer (F + 2))
    (Prelude.add_binary.successor (t := m₂.toTermGraph) hσ hu.content).1 run sets₁.sound hσ hu₁.content
    (Prelude.add_binary.fits hσ 0 e k) rfl apart sets₁.same rfl
  let m₃ : Machine := { m₂ with graph := g₂, slice := slice }
  have failed : stepArithmetic (reducer (F + 2)) .add u m₂ = .ok () m₃ := (bind_ok taken).trans rfl
  have tag : m₃.tag u = .ok .failure :=
    TermGraph.tag_content (t := m₃.toTermGraph) (c := .blank) sets₂.same
  have unfree : e ∉ m.graph.free := by rcases fails with he | he <;> exact he.unfree
  have free : g₂.free = m.graph.free := sets₂.free.trans sets₁.free
  refine ⟨m₃, (sum_driven hσ (room.mono (Nat.le_succ 2) le_rfl) hu failed sets₂.same nofun nofun).trans
    ((bind_ok (look_ok (r := fun m => m.tag u) tag)).trans rfl), ⟨rfl, Nat.le_refl _, ?_,
      free.symm ▸ room.nodes⟩, sets₂.holds hu₁.unfree⟩
  exact Graph.ripens_of_others (e := e) sets₂.sound hu
    (fun j d here away hj => sets₂.holds_other here (sets₁.holds_other away hj))
    (.inr (.inl ⟨fails, .failed (sets₂.holds_other apart (sets₁.holds unfree))⟩))

/-- The sum of a tree with two subtrees becomes a choice between two new sums. -/
theorem sum_branches (hσ : m.signature.Sound) (sound : m.graph.Sound) (room : m.Room 3 (a + 2))
    (hu : m.graph.Holds u (.sum e k)) (he : m.graph.Holds e c) (branches : c.Branches l r)
    (store : m.frontConstraints? = some .empty) :
    ∃ m' id p q, normalize (F + 4) u m = .ok () m' ∧ Worked u [e] a m m' ∧ Names m.nextId c id m'.nextId ∧
      m'.graph.Holds u (.alternative false id p q) ∧ m'.graph.Holds e (.alternative false id l r) ∧
      m'.graph.Holds p (.sum l k) ∧ m'.graph.Holds q (.sum r k) ∧
      p ≠ q ∧ p ∈ m.graph.free ∧ q ∈ m.graph.free := by
  let m₂ : Machine := { m with slice := m.slice.spend.spend }
  have apart : e ≠ u := by
    rintro rfl
    cases branches <;> cases he.eq hu
  obtain ⟨g₁, n, slice, id, run, sets₁, room₁, names⟩ :=
    head_branches (m := m₂) (F := F) hσ sound room.spend.spend he branches
  have hu₁ : g₁.Holds u (.sum e k) := sets₁.holds_other apart.symm hu
  obtain ⟨g₂, sets₂, there, settles⟩ := headArg_settles (m := m₂) (k := 0) (r := reducer (F + 2))
    (Prelude.add_binary.successor (t := m₂.toTermGraph) hσ hu.content).1 run sets₁.sound hσ hu₁.content
    (Prelude.add_binary.fits hσ 0 e k) rfl apart sets₁.same nofun nofun
  let m₃ : Machine := { m₂ with graph := g₂, nextId := n, slice := slice }
  have hu₂ : m₃.graph.Holds u (.sum e k) := sets₂.holds hu₁.unfree
  have he₂ : m₃.graph.Holds e (.alternative false id l r) :=
    sets₂.holds_other apart (sets₁.holds he.unfree)
  have knit : m₃.Knit fun _ => True := fun s hs => by
    cases store.symm.trans hs
    intro x b _ hb
    cases hb
  obtain ⟨g₃, pulls, sound₃, -, room₃, pulled⟩ := pull_pulls (m := m₃) (k := 0) hσ sets₂.sound
    ⟨room₁.preempt, room₁.steps, sets₂.free.symm ▸ room₁.nodes⟩ hu₂ (Prelude.add_binary.fits hσ 0 e k)
    (Nat.le_refl 2) rfl he₂ nofun knit trivial
  obtain ⟨p, q, hu₃, hp, hq⟩ := pulled.copies
  obtain ⟨differ, newLeft, newRight⟩ := pulled.fresh p q hu₃
  have tag₂ : m₃.tag e = .ok .choice :=
    TermGraph.tag_content (t := m₃.toTermGraph) (c := .alternative false id l r) there
  have taken : headArg (reducer (F + 2)) u 0 m₂ = .ok .taken (m₃.setGraph g₃) :=
    settles.trans ((bind_ok (look_ok (r := fun m => m.tag e) tag₂)).trans (bind_ok pulls))
  have branched : stepArithmetic (reducer (F + 2)) .add u m₂ = .ok () (m₃.setGraph g₃) :=
    (bind_ok taken).trans rfl
  have tag : (m₃.setGraph g₃).tag u = .ok .choice :=
    TermGraph.tag_content (t := (m₃.setGraph g₃).toTermGraph) (c := .alternative false id p q) hu₃.content
  have free : m₃.graph.free = m.graph.free := sets₂.free.trans sets₁.free
  refine ⟨m₃.setGraph g₃, id, p, q, (sum_driven hσ (room.mono (Nat.le_succ 2) le_rfl) hu branched
    hu₃.content nofun nofun).trans ((bind_ok (look_ok (r := fun m => m.tag u) tag)).trans rfl),
    ⟨rfl, ?_, ?_, room₃.nodes⟩, names, hu₃, pulled.others e _ apart he₂, hp, hq, differ, free ▸ newLeft,
    free ▸ newRight⟩
  · cases names with
    | given => exact Nat.le_refl _
    | fresh => exact Nat.le_succ _
  · exact Graph.ripens_of_others (e := e) sound₃ hu
      (fun j d here away hj =>
        pulled.others j d here (sets₂.holds_other here (sets₁.holds_other away hj)))
      (.inr (.inr ⟨List.mem_cons_self, c, l, r, branches, he⟩))

end Reduction

end ChoiceGraph
