import ChoiceGraph.Proofs.Decisions
import ChoiceGraph.Proofs.Weaving

/-! # The places of generators that are linked

Variables that were narrowed together have the same choices in the same places. A place is one class: what
is decided about one of its choices is decided about all. When the places before one go right and that one
goes left, every variable comes to the same alternative. The fields of an alternative are bound to the
fields in the same position of the others, and to nothing else. -/
namespace ChoiceGraph.Reduction

open Eff Machine Graph

variable {Q : Cluster} {m m' : Machine} {gens : List Gen} {links : List (Gen × Gen)} {s : ConstraintStore}
  {G G' : Gen} {x y : BoundVar} {a b : ChoiceId} {d : Nat}

/-! ## The classes of the choices -/

/-- A choice in this place, counted from the outside, of one of the generators. A single alternative
needs no choice. -/
def Place (gens : List Gen) (d : Nat) (a : ChoiceId) : Prop :=
  ∃ G ∈ gens, d + 1 < G.made.length ∧ G.decisions[d]? = some a

namespace Woven

variable {d' : Nat}

theorem eq_of_id (h : Woven Q gens links s m) {z : Nat} (hG : G ∈ gens) (hG' : G' ∈ gens)
    (hz : z ∈ G.ids) (hz' : z ∈ G'.ids) : G = G' := by
  by_contra differ
  have symm : Std.Symm (Function.onFun List.Disjoint Gen.ids) := ⟨fun _ _ disjoint => disjoint.symm⟩
  exact (List.nodup_flatMap.mp h.distinct).2.forall hG hG' differ hz hz'

/-- No choice is in two places. -/
theorem place_unique (kin : Kin Q) (h : Woven Q gens links s m) (hG : G ∈ gens) (hG' : G' ∈ gens)
    (here : G.decisions[d]? = some a) (there : G'.decisions[d']? = some a) : G = G' ∧ d = d' := by
  cases d with
  | zero =>
    cases Option.some.inj here
    cases h.eq_of_decision kin hG hG' there
    cases d' with
    | zero => exact ⟨rfl, rfl⟩
    | succ d' =>
      have inner : G.var.id ∈ G.ids := List.mem_append_right _ (List.mem_of_getElem? there)
      exact absurd (h.fresh G hG _ inner).1 (Nat.not_le_of_lt (kin.given _ (h.members G hG)))
  | succ d =>
    cases d' with
    | zero =>
      cases Option.some.inj there
      cases h.eq_of_decision kin hG' hG here
      have inner : G.var.id ∈ G.ids := List.mem_append_right _ (List.mem_of_getElem? here)
      exact absurd (h.fresh G hG _ inner).1 (Nat.not_le_of_lt (kin.given _ (h.members G hG)))
    | succ d' =>
      have inner : a ∈ G.ids := List.mem_append_right _ (List.mem_of_getElem? here)
      have inner' : a ∈ G'.ids := List.mem_append_right _ (List.mem_of_getElem? there)
      cases h.eq_of_id hG hG' inner inner'
      have nodup := (List.nodup_append.mp ((List.nodup_flatMap.mp h.distinct).1 G hG)).2.1
      have lt := (List.getElem?_eq_some_iff.mp here).1
      exact ⟨rfl, congrArg (· + 1) ((List.getElem?_inj (Nat.lt_of_succ_lt_succ lt) nodup).mp (here.trans there.symm))⟩

theorem depth_unique (kin : Kin Q) (h : Woven Q gens links s m) (here : Place gens d a)
    (there : Place gens d' a) : d = d' := by
  obtain ⟨G, hG, -, here⟩ := here
  obtain ⟨G', hG', -, there⟩ := there
  exact (h.place_unique kin hG hG' here there).2

theorem place_inner (h : Woven Q gens links s m) (here : Place gens d a) : d + 1 < Q.ctors.length := by
  obtain ⟨G, hG, lt, -⟩ := here
  rwa [(h.stands G hG).lengths.1] at lt

/-- The choices in one place form a class. -/
theorem class_iff (kin : Kin Q) (h : Woven Q gens links s m) (complete : Complete Q gens links)
    (here : Place gens d a) : s.InClass a b ↔ Place gens d b := by
  constructor
  · intro path
    induction path with
    | refl => exact here
    | @tail b c _ tied ih =>
      obtain ⟨H, H', d', mates, left, right⟩ := (h.ties b c).mp tied
      obtain ⟨hH, hH'⟩ := h.mates_mem mates
      obtain ⟨G, hG, lt, at_⟩ := ih
      obtain ⟨rfl, rfl⟩ := h.place_unique kin hG hH at_ left
      exact ⟨H', hH', by rwa [(h.stands H' hH').lengths.1, ← (h.stands G hG).lengths.1], right⟩
  · rintro ⟨G', hG', -, there⟩
    obtain ⟨G, hG, -, here⟩ := here
    have along : ∀ H, Relation.ReflTransGen (Mates links) G H →
        ∃ c, H.decisions[d]? = some c ∧ s.InClass a c := by
      intro H path
      induction path with
      | refl => exact ⟨a, here, .refl⟩
      | @tail H H' _ mates ih =>
        obtain ⟨c, at_, path⟩ := ih
        obtain ⟨hH, hH'⟩ := h.mates_mem mates
        have size : H'.decisions.length = H.decisions.length := by
          simp only [Gen.decisions, List.length_cons, (h.stands H hH).lengths, (h.stands H' hH').lengths]
        have lt : d < H'.decisions.length := size ▸ (List.getElem?_eq_some_iff.mp at_).1
        have there := List.getElem?_eq_getElem lt
        exact ⟨_, there, path.tail ((h.ties _ _).mpr ⟨H, H', d, mates, at_, there⟩)⟩
    obtain ⟨c, at_, path⟩ := along G' (complete.connected G hG G' hG')
    cases there.symm.trans at_
    exact path

end Woven

/-! ## The way to an alternative -/

/-- The places before `i` go right, and place `i` goes left. -/
def upTo (i d : Nat) : Option Side :=
  if d < i then some .right else if d = i then some .left else none

/-- What is known about the places is known about their choices. -/
def Takes (place : Nat → ChoiceId → Prop) (known : Nat → Option Side) : Choosing := fun a side =>
  ∃ d, place d a ∧ known d = some side

variable {g : Graph} {place : Nat → ChoiceId → Prop} {σ : Signature} {ctors : List (SymbolId × Nat)}
  {alt : NodeId × List BoundVar} {i : Nat} {demanded : Bool}

/-- Choices that nest from place `e` on lead to their alternatives. -/
theorem nested_resolves {top : NodeId} {alternatives inner : List NodeId} {ids : List ChoiceId}
    (nested : g.Nested top alternatives ids inner) : ∀ (e j : Nat) (x : NodeId),
      (∀ i ∈ inner, i ∉ g.free) → (∀ j id, ids[j]? = some id → place (e + j) id) →
      alternatives[j]? = some x →
      ∃ k ≤ j + 1, g.Resolves (Takes place (upTo (e + j))) x demanded top k := by
  induction nested with
  | last top =>
    intro e j x _ _ at_
    cases j with
    | zero =>
      cases at_
      exact ⟨0, Nat.zero_le _, .here⟩
    | succ j => cases at_
  | @choice top first below id alternatives inner ids content _ ih =>
    intro e j x unfree places at_
    have top_ : g.Holds top (.alternative false id first below) :=
      ⟨content, unfree top List.mem_cons_self⟩
    have here : place e id := places 0 id rfl
    cases j with
    | zero =>
      cases at_
      exact ⟨1, Nat.le_refl 1, .choice (s := .left) top_ ⟨e, here, by simp [upTo]⟩ .here⟩
    | succ j =>
      obtain ⟨k, le, resolves⟩ := ih (e + 1) j x (fun i hi => unfree i (List.mem_cons_of_mem _ hi))
        (fun j id hj => by
          have place := places (j + 1) id hj
          rwa [Nat.add_comm j 1, ← Nat.add_assoc] at place) at_
      rw [Nat.add_assoc, Nat.add_comm 1 j] at resolves
      exact ⟨k + 1, Nat.succ_le_succ le, .choice (s := .right) top_ ⟨e, here, by simp [upTo]⟩ resolves⟩

theorem arity_le_fieldCount {ctor : SymbolId × Nat} (mem : ctor ∈ ctors) : ctor.2 ≤ fieldCount ctors := by
  induction ctors with
  | nil => exact absurd mem List.not_mem_nil
  | cons first ctors ih =>
    obtain ⟨symbol, arity⟩ := first
    rw [fieldCount]
    rcases List.mem_cons.mp mem with rfl | mem
    · exact Nat.le_add_right _ _
    · exact Nat.le_add_left_of_le (ih mem)

namespace Gen.Stands

/-- If the places go that way, the variable comes to its alternative. -/
theorem resolves (h : G.Stands g σ ctors) (hG : G ∈ gens) {x : NodeId} (at_ : G.terms[i]? = some x) :
    ∃ k ≤ i + 1, g.Resolves (Takes (Place gens) (upTo i)) x demanded G.var.node k := by
  have places : ∀ d a, d + 1 < G.terms.length → G.decisions[d]? = some a → Place gens d a :=
    fun d a lt ha => ⟨G, hG, by rwa [Gen.terms, List.length_map] at lt, ha⟩
  have unfree : ∀ j ∈ G.inner, j ∉ g.free := fun j hj =>
    h.unfree j (List.mem_cons_of_mem _ (List.mem_append_right _ hj))
  have encodes := h.encodes
  unfold decisions at places
  generalize G.terms = alternatives at encodes at_ places
  generalize G.inner = inner at encodes unfree
  generalize G.choices = choices at encodes places
  cases encodes with
  | only content =>
    cases i with
    | zero =>
      cases at_
      exact ⟨0, Nat.zero_le _, .through ⟨content, h.unfree _ List.mem_cons_self⟩⟩
    | succ i => cases at_
  | @several first below alternatives inner choices content nested =>
    have top : g.Holds G.var.node (.alternative true G.var.id first below) :=
      ⟨content, h.unfree _ List.mem_cons_self⟩
    obtain ⟨-, size⟩ := nested_length nested
    have here := places 0 _ (by rw [List.length_cons]; omega) rfl
    cases i with
    | zero =>
      cases at_
      exact ⟨1, Nat.le_refl 1, .choice (s := .left) top ⟨0, here, rfl⟩ .here⟩
    | succ i =>
      obtain ⟨k, le, resolves⟩ := nested_resolves nested 1 i x unfree
        (fun j id hj => by
          have lt := (List.getElem?_eq_some_iff.mp hj).1
          exact places (1 + j) id (by rw [List.length_cons]; omega) (by rwa [Nat.add_comm])) at_
      rw [Nat.add_comm 1 i] at resolves
      exact ⟨k + 1, Nat.succ_le_succ le, .choice (s := .right) top ⟨0, here, rfl⟩ resolves⟩

/-- An alternative is its constructor applied to its fields. -/
theorem alternative (h : G.Stands g σ ctors) (at_ : G.made[i]? = some alt) :
    ∃ ctor index, ctors[i]? = some ctor ∧ σ.tagFor ctor.1 = .ok (.constructor index) ∧
      alt.2.length = ctor.2 ∧
      g.Holds alt.1 ⟨.constructor index, ctor.1, 0, .links (alt.2.map BoundVar.node)⟩ := by
  have plain : G.plain[i]? = some (alt.1, alt.2.map BoundVar.node) := by
    rw [Gen.plain, List.getElem?_map, at_]
    rfl
  obtain ⟨ctor, hctor, applies⟩ := forall₂_left h.laid.applied.flip plain
  obtain ⟨index, tag, content⟩ := applies.content
  have arity := applies.arity
  rw [List.length_map] at arity
  refine ⟨ctor, index, hctor, tag, arity, content, h.unfree _ (List.mem_cons_of_mem _ ?_)⟩
  exact List.mem_append_left _ (List.mem_flatMap.mpr ⟨_, List.mem_of_getElem? plain, List.mem_cons_self⟩)

/-- A field is a variable of no type. -/
theorem field_holds (h : G.Stands g σ ctors) {u : BoundVar} (hu : u ∈ G.fields) :
    g.Holds u.node (freeContent u.id none) := by
  refine ⟨h.field hu, h.unfree _ (List.mem_cons_of_mem _ (List.mem_append_left _ ?_))⟩
  obtain ⟨alt, halt, hu⟩ := List.mem_flatMap.mp hu
  exact List.mem_flatMap.mpr ⟨_, List.mem_map_of_mem halt,
    List.mem_cons_of_mem _ (List.mem_map_of_mem hu)⟩

/-- An alternative is a term. -/
theorem terms (h : G.Stands m.graph m.signature ctors) (listed : Listed m ctors) :
    m.Terms (fieldCount ctors) G.terms := by
  intro x hx
  obtain ⟨alt, halt, rfl⟩ := List.mem_map.mp hx
  obtain ⟨i, at_⟩ := List.mem_iff_getElem?.mp halt
  obtain ⟨ctor, index, hctor, tag, arity, holds⟩ := h.alternative at_
  have mem := List.mem_of_getElem? hctor
  obtain ⟨le, sym, type, index', found, isConstructor, size⟩ := listed ctor mem
  cases (Signature.Symbol.IsConstructor.tagFor found isConstructor).symm.trans tag
  refine ⟨_, ⟨holds, ⟨⟨_, rfl⟩, le⟩, fun f hf => ?_⟩, ?_, ?_⟩
  · obtain ⟨u, hu, rfl⟩ := List.mem_map.mp hf
    exact ⟨u.id, h.field_holds (List.mem_flatMap.mpr ⟨alt, halt, hu⟩)⟩
  · exact .constructor _ sym type _ 0 _ le found isConstructor (by rw [List.length_map, arity, size])
  · show (alt.2.map BoundVar.node).length ≤ _
    rw [List.length_map, arity]
    exact arity_le_fieldCount mem

end Gen.Stands

/-! ## Which bindings there are -/

/-- With several constructors there is a choice in the place of the variable. -/
theorem Gen.Stands.narrowed (h : G.Stands g σ ctors) (several : 2 ≤ ctors.length) :
    ∃ l r, g.Holds G.var.node (.alternative true G.var.id l r) := by
  have size : G.terms.length = ctors.length := by rw [Gen.terms, List.length_map, h.lengths.1]
  have encodes := h.encodes
  generalize G.terms = alternatives at encodes size
  generalize G.inner = inner at encodes
  generalize G.choices = choices at encodes
  cases encodes with
  | only =>
    rw [← size] at several
    exact absurd several (show ¬ 2 ≤ 1 by decide)
  | several content => exact ⟨_, _, content, h.unfree _ List.mem_cons_self⟩

namespace Woven

/-- The choices of the generators belong to no other variable. -/
theorem unfielded (kin : Kin Q) (h : Woven Q gens links s m) (here : Place gens d a) (hG : G ∈ gens)
    {u : BoundVar} (hu : u ∈ G.fields) : u.id ≠ a := by
  rintro rfl
  have field : u.id ∈ G.ids := List.mem_append_left _ (List.mem_map_of_mem hu)
  obtain ⟨H, hH, -, here⟩ := here
  cases d with
  | zero =>
    have given := kin.given _ (h.members H hH)
    rw [Option.some.inj here] at given
    exact absurd (h.fresh G hG _ field).1 (Nat.not_le_of_lt given)
  | succ d =>
    have inner : u.id ∈ H.choices := List.mem_of_getElem? here
    cases h.eq_of_id hG hH field (List.mem_append_right _ inner)
    have nodup := (List.nodup_flatMap.mp h.distinct).1 G hG
    exact (List.nodup_append.mp nodup).2.2 _ (List.mem_map_of_mem hu) _ inner rfl

/-- All choices are knit. -/
theorem knits (kin : Kin Q) (binds : Binds Q.store Q.vars) (h : Woven Q gens links s m)
    (complete : Complete Q gens links) : m.graph.Knits (fun a => ∃ d, Place gens d a) s := by
  rintro x b ⟨d, place⟩ hb -
  have several : 2 ≤ Q.ctors.length := (Nat.le_add_left 2 d).trans (h.place_inner place)
  rcases (h.bindings _).mp hb with old | ⟨G, G', u, v, mates, beside, same⟩
  · obtain ⟨y, hy, z, hz, same⟩ := binds.ends _ old
    cases same
    obtain ⟨G, hG, G', hG', rfl, rfl, mates⟩ := complete.bound y z ⟨hy, hz, old⟩
    obtain ⟨l, r, left⟩ := (h.stands G hG).narrowed several
    obtain ⟨l', r', right⟩ := (h.stands G' hG').narrowed several
    have lt : 0 + 1 < G'.made.length := by rwa [(h.stands G' hG').lengths.1]
    exact ⟨G'.var.id, l, r, l', r', ⟨0, G', hG', lt, rfl⟩, (h.ties _ _).mpr ⟨G, G', 0, mates, rfl, rfl⟩, left, right⟩
  · have owner := (h.mates_mem mates).1
    have field := (Gen.mem_of_besides beside).1
    exact absurd (congrArg Prod.fst same).symm (h.unfielded kin place owner field)

end Woven

/-- A field in this position of one of the alternatives. -/
def Spot (G : Gen) (i j : Nat) (u : BoundVar) : Prop := ∃ alt, G.made[i]? = some alt ∧ alt.2[j]? = some u

theorem Spot.mem {j : Nat} {u : BoundVar} (h : Spot G i j u) : u ∈ G.fields := by
  obtain ⟨alt, hi, hj⟩ := h
  exact List.mem_flatMap.mpr ⟨alt, List.mem_of_getElem? hi, List.mem_of_getElem? hj⟩

theorem besides_iff {u v : BoundVar} :
    (u, v) ∈ G.besides G' ↔ ∃ i j, Spot G i j u ∧ Spot G' i j v := by
  rw [Gen.besides, List.mem_flatMap]
  constructor
  · rintro ⟨p, hp, here⟩
    obtain ⟨i, left, right⟩ := mem_zip_iff.mp hp
    obtain ⟨j, hu, hv⟩ := mem_zip_iff.mp here
    exact ⟨i, j, ⟨p.1, left, hu⟩, p.2, right, hv⟩
  · rintro ⟨i, j, ⟨alt, left, hu⟩, alt', right, hv⟩
    exact ⟨(alt, alt'), mem_zip_iff.mpr ⟨i, left, right⟩, mem_zip_iff.mpr ⟨j, hu, hv⟩⟩

/-- A field is known by its identifier. -/
theorem Woven.spot_unique {i i' j j' : Nat} {u u' : BoundVar} (h : Woven Q gens links s m) (hG : G ∈ gens)
    (hG' : G' ∈ gens) (here : Spot G i j u) (there : Spot G' i' j' u') (same : u.id = u'.id) :
    G = G' ∧ i = i' ∧ j = j' := by
  have field : u.id ∈ G.ids := List.mem_append_left _ (List.mem_map_of_mem here.mem)
  have field' : u.id ∈ G'.ids := same ▸ List.mem_append_left _ (List.mem_map_of_mem there.mem)
  cases h.eq_of_id hG hG' field field'
  have nodup := (List.nodup_append.mp ((List.nodup_flatMap.mp h.distinct).1 G hG)).1
  rw [Gen.fields, List.map_flatMap, List.nodup_flatMap] at nodup
  obtain ⟨each, apart⟩ := nodup
  obtain ⟨alt, hi, hj⟩ := here
  obtain ⟨alt', hi', hj'⟩ := there
  have first : (alt.2.map BoundVar.id)[j]? = some u.id := by rw [List.getElem?_map, hj]; rfl
  have second : (alt'.2.map BoundVar.id)[j']? = some u.id := by rw [List.getElem?_map, hj', same]; rfl
  obtain ⟨lt, rfl⟩ := List.getElem?_eq_some_iff.mp hi
  obtain ⟨lt', rfl⟩ := List.getElem?_eq_some_iff.mp hi'
  have disjoint := List.pairwise_iff_getElem.mp apart
  rcases Nat.lt_trichotomy i i' with before | rfl | after
  · exact (disjoint i i' lt lt' before (List.mem_of_getElem? first) (List.mem_of_getElem? second)).elim
  · have bound := (List.getElem?_eq_some_iff.mp first).1
    exact ⟨rfl, rfl, (List.getElem?_inj bound (each _ (List.getElem_mem lt))).mp (first.trans second.symm)⟩
  · exact (disjoint i' i lt' lt after (List.mem_of_getElem? second) (List.mem_of_getElem? first)).elim

theorem Spot.eq {i j : Nat} {u v : BoundVar} (h : Spot G i j u) (h' : Spot G i j v) : u = v := by
  obtain ⟨alt, hi, hj⟩ := h
  obtain ⟨alt', hi', hj'⟩ := h'
  cases hi.symm.trans hi'
  exact Option.some.inj (hj.symm.trans hj')

/-- Generators of one type have fields in the same positions. -/
theorem Woven.spot_exists {i j : Nat} {u : BoundVar} (h : Woven Q gens links s m) (hG : G ∈ gens)
    (hG' : G' ∈ gens) (here : Spot G i j u) : ∃ v, Spot G' i j v := by
  obtain ⟨alt, hi, hj⟩ := here
  obtain ⟨ctor, -, hctor, -, arity, -⟩ := (h.stands G hG).alternative hi
  have lt : i < G'.made.length := by
    rw [(h.stands G' hG').lengths.1]
    exact (List.getElem?_eq_some_iff.mp hctor).1
  obtain ⟨ctor', -, hctor', -, arity', -⟩ := (h.stands G' hG').alternative (List.getElem?_eq_getElem lt)
  cases hctor.symm.trans hctor'
  have within := (List.getElem?_eq_some_iff.mp hj).1
  rw [arity, ← arity'] at within
  exact ⟨_, _, List.getElem?_eq_getElem lt, List.getElem?_eq_getElem within⟩

/-- A field is bound to the fields in the same position of the generators that its own is linked to. -/
theorem Woven.field_bound {i j : Nat} {u : BoundVar} {b : Binding} (binds : Binds Q.store Q.vars)
    (kin : Kin Q) (h : Woven Q gens links s m) (hG : G ∈ gens) (here : Spot G i j u) :
    (u.id, b) ∈ s.bindings ↔ ∃ G' v, Mates links G G' ∧ Spot G' i j v ∧ b = (tether u v).2 := by
  rw [h.bindings]
  constructor
  · rintro (old | ⟨H, H', u', v, mates, beside, same⟩)
    · obtain ⟨x, hx, y, -, same⟩ := binds.ends _ old
      have field : u.id ∈ G.ids := List.mem_append_left _ (List.mem_map_of_mem here.mem)
      have given := kin.given x hx
      rw [← show u.id = x.id from congrArg Prod.fst same] at given
      exact absurd (h.fresh G hG _ field).1 (Nat.not_le_of_lt given)
    · obtain ⟨i', j', left, right⟩ := besides_iff.mp beside
      obtain ⟨rfl, rfl, rfl⟩ := h.spot_unique hG (h.mates_mem mates).1 here left (congrArg Prod.fst same)
      obtain ⟨alt, hi, hj⟩ := here
      obtain ⟨alt', hi', hj'⟩ := left
      cases hi.symm.trans hi'
      cases hj.symm.trans hj'
      exact ⟨H', v, mates, right, congrArg Prod.snd same⟩
  · rintro ⟨G', v, mates, there, rfl⟩
    exact .inr ⟨G, G', u, v, mates, besides_iff.mpr ⟨i, j, here, there⟩, rfl⟩

theorem boundVariables_reads {v : NodeId} {z : VarId} {pairs : List (BoundVar × BoundVar)}
    (read : m.variableOf v = .ok (some z)) (front : m.frontConstraints? = some s)
    (run : s.boundPairs z m.variableOf = .ok pairs) : ∃ l, boundVariables m v = .ok l ∧
      ∀ p, p ∈ l ↔ p ≠ v ∧ ∃ q ∈ pairs, q.2.node = p := by
  let nodes := (pairs.map fun p => p.2.node).filter (· ≠ v)
  refine ⟨(nodes.mergeSort fun a b => a ≤ b).eraseDups, ?_, fun p => ?_⟩
  · unfold boundVariables
    rw [read, front]
    show (s.boundPairs z m.variableOf >>= fun pairs => _) = _
    rw [run]
    rfl
  · rw [List.mem_eraseDups, List.mem_mergeSort, List.mem_filter, List.mem_map, decide_eq_true_eq, and_comm]

/-- While the fields are still variables, a field is bound to those in its position of all the other
generators. -/
theorem Woven.bound_fields {i j : Nat} {u : BoundVar} (binds : Binds Q.store Q.vars) (kin : Kin Q)
    (h : Woven Q gens links s m) (complete : Complete Q gens links) (hG : G ∈ gens) (here : Spot G i j u)
    (front : m'.frontConstraints? = some s)
    (free : ∀ H ∈ gens, ∀ v ∈ H.fields, m'.graph.Holds v.node (freeContent v.id none)) :
    ∃ l, boundVariables m' u.node = .ok l ∧
      ∀ p, p ∈ l ↔ ∃ H ∈ gens, H ≠ G ∧ ∃ v, Spot H i j v ∧ p = v.node := by
  have reads : ∀ H ∈ gens, ∀ v, Spot H i j v → m'.variableOf v.node = .ok (some v.id) :=
    fun H hH v hv => Gen.variableOf_free (free H hH v hv.mem).content
  have readable : s.Readable m'.variableOf fun z => ∃ H ∈ gens, ∃ v, Spot H i j v ∧ v.id = z := by
    rintro z b ⟨H, hH, v, hv, rfl⟩ hb -
    obtain ⟨H', v', mates, there, rfl⟩ := (h.field_bound binds kin hH hv).mp hb
    have owner := (h.mates_mem mates).2
    exact ⟨some v'.id, reads H' owner v' there, fun z hz => ⟨H', owner, v', there, Option.some.inj hz⟩⟩
  obtain ⟨pairs, run, mem⟩ := ConstraintStore.boundPairs_exact readable ⟨G, hG, u, here, rfl⟩
  have at_ : ∀ H ∈ gens, ∀ v, Spot H i j v → ∀ p, s.PairAt m'.variableOf v.id p ↔
      ∃ H' v', Mates links H H' ∧ Spot H' i j v' ∧ p = (v, v') := by
    intro H hH v hv p
    constructor
    · rintro ⟨b, z, hb, -, read, rfl⟩
      obtain ⟨H', v', mates, there, rfl⟩ := (h.field_bound binds kin hH hv).mp hb
      cases (reads H' (h.mates_mem mates).2 v' there).symm.trans read
      exact ⟨H', v', mates, there, rfl⟩
    · rintro ⟨H', v', mates, there, rfl⟩
      exact ⟨_, v'.id, (h.field_bound binds kin hH hv).mpr ⟨H', v', mates, there, rfl⟩, rfl,
        reads H' (h.mates_mem mates).2 v' there, rfl⟩
  have reached : ∀ z, Relation.ReflTransGen (s.Next m'.variableOf) u.id z →
      ∃ H ∈ gens, ∃ v, Spot H i j v ∧ v.id = z := by
    intro z path
    induction path with
    | refl => exact ⟨G, hG, u, here, rfl⟩
    | tail _ step ih =>
      obtain ⟨H, hH, v, hv, rfl⟩ := ih
      obtain ⟨p, pair, rfl⟩ := step
      obtain ⟨H', v', mates, there, rfl⟩ := (at_ H hH v hv p).mp pair
      exact ⟨H', (h.mates_mem mates).2, v', there, rfl⟩
  have along : ∀ H, Relation.ReflTransGen (Mates links) G H → ∃ v, Spot H i j v ∧
      Relation.ReflTransGen (s.Next m'.variableOf) u.id v.id := by
    intro H path
    induction path with
    | refl => exact ⟨u, here, .refl⟩
    | @tail H H' _ mates ih =>
      obtain ⟨v, hv, path⟩ := ih
      obtain ⟨hH, hH'⟩ := h.mates_mem mates
      obtain ⟨v', there⟩ := h.spot_exists hH hH' hv
      exact ⟨v', there, path.tail ⟨_, (at_ H hH v hv _).mpr ⟨H', v', mates, there, rfl⟩, rfl⟩⟩
  obtain ⟨l, collected, listed⟩ := boundVariables_reads (reads G hG u here) front run
  refine ⟨l, collected, fun p => (listed p).trans ⟨?_, ?_⟩⟩
  · rintro ⟨other, q, hq, rfl⟩
    obtain ⟨z, path, pair⟩ := (mem q).mp hq
    obtain ⟨H, hH, v, hv, rfl⟩ := reached z path
    obtain ⟨H', v', mates, there, rfl⟩ := (at_ H hH v hv q).mp pair
    refine ⟨H', (h.mates_mem mates).2, fun same => other ?_, v', there, rfl⟩
    exact congrArg BoundVar.node ((same ▸ there).eq here)
  · rintro ⟨H, hH, other, v, hv, rfl⟩
    refine ⟨fun same => other ?_, ?_⟩
    · have ids := congrArg Content.aux ((same ▸ free H hH v hv.mem).eq (free G hG u here.mem))
      exact (h.spot_unique hH hG hv here ids).1
    · rcases Relation.ReflTransGen.cases_tail (complete.connected G hG H hH) with same | ⟨H₀, path, mates⟩
      · exact absurd same other
      · obtain ⟨v₀, hv₀, path⟩ := along H₀ path
        have pair := (at_ H₀ (h.mates_mem mates).1 v₀ hv₀ (v₀, v)).mpr ⟨H, v, mates, hv, rfl⟩
        exact ⟨(v₀, v), (mem _).mpr ⟨v₀.id, path, pair⟩, rfl⟩

end ChoiceGraph.Reduction
