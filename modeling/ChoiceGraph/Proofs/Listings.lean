import ChoiceGraph.Proofs.Branches
import ChoiceGraph.Proofs.Closures
import Mathlib.Data.List.Nodup
import Mathlib.Logic.Relation

/-! # Listings of bindings

Whoever asks what a variable is bound to gets pairs of ends, one for each normal binding of each variable
that chains of such bindings lead to. The search that lists them has no bound of its own: it goes on until
nothing is pending, and the rounds it is given are as many as that takes. Whether a node is a variable is
up to the caller. One who names each node by the variable it was bound under gets the class of the start
in the smallest equivalence that contains the normal bindings; lazy ones connect nothing. -/
namespace ChoiceGraph

/-! ## What is recorded -/

/-- What a post records under a variable: a normal binding under both ends, a lazy one under the first. -/
def Post.recordedUnder (u : VarId) : Post → List Binding
  | .bind x y isLazy =>
    (if x.id = u then [⟨x.node, y.node, isLazy⟩] else []) ++
      if isLazy = false ∧ y.id = u then [⟨y.node, x.node, false⟩] else []
  | .tie _ _ => []

namespace ConstraintStore

variable {s : ConstraintStore} {x y u v : VarId} {b : Binding} {varOf : NodeId → Option VarId}

/-- A store after a sequence of posts. -/
def ofPosts (posts : List Post) : ConstraintStore := posts.foldl (fun s p => p.apply s) .empty

theorem bindingsOf_addBinding (s : ConstraintStore) (x u : VarId) (b : Binding) :
    (s.addBinding x b).bindingsOf u = s.bindingsOf u ++ if x = u then [b] else [] := by
  simp only [bindingsOf, addBinding, List.filterMap_append, List.filterMap_cons, List.filterMap_nil]
  by_cases here : x = u <;> simp [here]

theorem bindingsOf_apply (s : ConstraintStore) (p : Post) (u : VarId) :
    (p.apply s).bindingsOf u = s.bindingsOf u ++ p.recordedUnder u := by
  cases p with
  | tie a b =>
    simp only [Post.apply, Post.recordedUnder, bindingsOf, tie_bindings, List.append_nil]
  | bind x y isLazy =>
    cases isLazy with
    | true => simp [Post.apply, bind, bindingsOf_addBinding, Post.recordedUnder]
    | false => simp [Post.apply, bind, bindingsOf_addBinding, Post.recordedUnder]

/-- What is stored under a variable is what the posts record there, the oldest first. -/
theorem bindingsOf_ofPosts (posts : List Post) (u : VarId) :
    (ofPosts posts).bindingsOf u = posts.flatMap (Post.recordedUnder u) := by
  have later : ∀ s : ConstraintStore, (posts.foldl (fun s p => p.apply s) s).bindingsOf u =
      s.bindingsOf u ++ posts.flatMap (Post.recordedUnder u) := by
    induction posts with
    | nil => simp
    | cons p posts ih =>
      intro s
      rw [List.foldl_cons, ih, bindingsOf_apply, List.flatMap_cons, List.append_assoc]
  exact later .empty

/-! ## The search without a bound -/

/-- The ends of the normal bindings of one variable whose partners are variables. -/
def listed (s : ConstraintStore) (varOf : NodeId → Option VarId) (u : VarId) :
    List (BoundVar × BoundVar) :=
  ((s.bindingsOf u).filter fun b => !b.isLazy).filterMap fun b =>
    (varOf b.partner).map fun z => (⟨u, b.bound⟩, ⟨z, b.partner⟩)

/-- A normal binding of `u` leads to `v`. -/
def Leads (s : ConstraintStore) (varOf : NodeId → Option VarId) (u v : VarId) : Prop :=
  ∃ b ∈ s.bindingsOf u, b.isLazy = false ∧ varOf b.partner = some v

/-- What the bindings of a variable lead to that was not seen before, each once. -/
def found (s : ConstraintStore) (varOf : NodeId → Option VarId) (seen : List VarId) (u : VarId) :
    List VarId :=
  unseen seen ((s.listed varOf u).map fun p => p.2.id)

/-- The search settles the front one of the pending variables, as long as there is one, and puts what it
finds there before the others. In the end it has listed some pairs. -/
inductive Lists (s : ConstraintStore) (varOf : NodeId → Option VarId) :
    List VarId → List VarId → List (BoundVar × BoundVar) → Prop where
  | idle (seen : List VarId) : Lists s varOf seen [] []
  | settle {seen pending : List VarId} {u : VarId} {pairs : List (BoundVar × BoundVar)} :
      Lists s varOf (s.found varOf seen u ++ seen) ((s.found varOf seen u).reverse ++ pending) pairs →
      Lists s varOf seen (u :: pending) (s.listed varOf u ++ pairs)

theorem pairsOf_eq (s : ConstraintStore) (varOf : NodeId → Option VarId) (u : VarId) :
    s.pairsOf (fun i => .ok (varOf i)) u = .ok (s.listed varOf u) := by
  have read : ((s.bindingsOf u).filter fun b => !b.isLazy).mapM (m := Except Fault) (fun b => do
        return (← Except.ok (varOf b.partner)).map fun z => (BoundVar.mk u b.bound, BoundVar.mk z b.partner)) =
      .ok (((s.bindingsOf u).filter fun b => !b.isLazy).map fun b =>
        (varOf b.partner).map fun z => (BoundVar.mk u b.bound, BoundVar.mk z b.partner)) := List.mapM_pure
  unfold pairsOf listed
  dsimp only
  rw [read]
  show Except.ok (List.filterMap (fun p => p) _) = _
  rw [List.filterMap_map]
  rfl

theorem mem_listed {p : BoundVar × BoundVar} : p ∈ s.listed varOf u ↔
    ∃ b ∈ s.bindingsOf u, b.isLazy = false ∧ ∃ z, varOf b.partner = some z ∧
      (⟨u, b.bound⟩, ⟨z, b.partner⟩) = p := by
  simp only [listed, List.mem_filterMap, List.mem_filter, Bool.not_eq_true', Option.map_eq_some_iff,
    and_assoc]

theorem leads_iff : s.Leads varOf u v ↔ ∃ p ∈ s.listed varOf u, p.2.id = v := by
  constructor
  · rintro ⟨b, stored, normal, named⟩
    exact ⟨_, mem_listed.mpr ⟨b, stored, normal, v, named, rfl⟩, rfl⟩
  · rintro ⟨p, hp, rfl⟩
    obtain ⟨b, stored, normal, z, named, rfl⟩ := mem_listed.mp hp
    exact ⟨b, stored, normal, named⟩

theorem mem_found {seen : List VarId} : v ∈ s.found varOf seen u ↔ s.Leads varOf u v ∧ v ∉ seen := by
  rw [found, (unseen_exact _ seen).2, List.mem_map, leads_iff]

theorem found_nodup (seen : List VarId) (u : VarId) : (s.found varOf seen u).Nodup :=
  (unseen_exact _ seen).1

theorem pairsFrom_settle {rounds : Nat} {seen pending : List VarId} {pairs : List (BoundVar × BoundVar)}
    (rest : s.pairsFrom (fun i => .ok (varOf i)) rounds (s.found varOf seen u ++ seen)
      ((s.found varOf seen u).reverse ++ pending) = .ok pairs) :
    s.pairsFrom (fun i => .ok (varOf i)) (rounds + 1) seen (u :: pending) =
      .ok (s.listed varOf u ++ pairs) := by
  unfold pairsFrom
  rw [pairsOf_eq]
  show (do
    let after ← s.pairsFrom (fun i => .ok (varOf i)) rounds (s.found varOf seen u ++ seen)
      ((s.found varOf seen u).reverse ++ pending)
    return s.listed varOf u ++ after) = _
  rw [rest]
  rfl

/-- Every variable but the first one is seen at the end of a binding. -/
def Found (s : ConstraintStore) (varOf : NodeId → Option VarId) (start : VarId) (seen : List VarId) :
    Prop :=
  seen ⊆ start :: s.bindings.filterMap fun e => varOf e.2.partner

theorem Leads.partner (h : s.Leads varOf u v) :
    v ∈ s.bindings.filterMap fun e => varOf e.2.partner := by
  obtain ⟨b, stored, -, named⟩ := h
  exact List.mem_filterMap.mpr ⟨(u, b), mem_bindingsOf.mp stored, named⟩

/-- The search comes to an end, in as many rounds as there are bindings that were not followed. -/
theorem lists_of_rounds (start : VarId) : ∀ (rounds : Nat) (seen pending : List VarId), seen.Nodup →
    s.Found varOf start seen → s.bindings.length + 1 + pending.length ≤ rounds + seen.length →
    ∃ pairs, s.Lists varOf seen pending pairs ∧
      s.pairsFrom (fun i => .ok (varOf i)) rounds seen pending = .ok pairs := by
  intro rounds
  induction rounds with
  | zero =>
    intro seen pending nodup ends enough
    have few := (nodup.subperm ends).length_le
    have most : (s.bindings.filterMap fun e => varOf e.2.partner).length ≤ s.bindings.length :=
      List.length_filterMap_le ..
    rw [List.length_cons] at few
    obtain rfl : pending = [] := List.length_eq_zero_iff.mp (by omega)
    exact ⟨[], .idle seen, rfl⟩
  | succ rounds ih =>
    intro seen pending nodup ends enough
    cases pending with
    | nil => exact ⟨[], .idle seen, rfl⟩
    | cons u pending =>
      have apart : (s.found varOf seen u ++ seen).Nodup :=
        List.nodup_append.mpr ⟨found_nodup seen u, nodup,
          fun a ha c hc same => (mem_found.mp ha).2 (same ▸ hc)⟩
      have ends' : s.Found varOf start (s.found varOf seen u ++ seen) :=
        List.append_subset.mpr ⟨fun a ha => List.mem_cons_of_mem _ (mem_found.mp ha).1.partner, ends⟩
      obtain ⟨pairs, lists, run⟩ := ih _ ((s.found varOf seen u).reverse ++ pending) apart ends' (by
        simp only [List.length_append, List.length_reverse, List.length_cons] at enough ⊢
        omega)
      exact ⟨_, .settle lists, pairsFrom_settle run⟩

/-! ## What the search lists -/

/-- What is settled from now on: each variable once, beginning with what is pending, and with everything
that is led to and was not seen before. -/
structure Settles (s : ConstraintStore) (varOf : NodeId → Option VarId) (seen pending settled : List VarId) :
    Prop where
  nodup : settled.Nodup
  begins : pending ⊆ settled
  fresh : ∀ v ∈ settled, v ∈ pending ∨ v ∉ seen
  reached : ∀ v ∈ settled, ∃ u ∈ pending, Relation.ReflTransGen (s.Leads varOf) u v
  closed : ∀ u ∈ settled, ∀ v, s.Leads varOf u v → v ∈ settled ∨ v ∈ seen

theorem Settles.settle {seen pending settled : List VarId} (sub : u ∈ seen) (once : u ∉ pending)
    (h : s.Settles varOf (s.found varOf seen u ++ seen) ((s.found varOf seen u).reverse ++ pending) settled) :
    s.Settles varOf seen (u :: pending) (u :: settled) where
  nodup := by
    refine List.nodup_cons.mpr ⟨fun again => ?_, h.nodup⟩
    rcases h.fresh u again with hu | hu
    · rcases List.mem_append.mp hu with hu | hu
      · exact (mem_found.mp (List.mem_reverse.mp hu)).2 sub
      · exact once hu
    · exact hu (List.mem_append_right _ sub)
  begins := List.cons_subset_cons _ fun v hv => h.begins (List.mem_append_right _ hv)
  fresh v hv := by
    rcases List.mem_cons.mp hv with rfl | hv
    · exact .inl List.mem_cons_self
    rcases h.fresh v hv with hv | hv
    · rcases List.mem_append.mp hv with hv | hv
      · exact .inr (mem_found.mp (List.mem_reverse.mp hv)).2
      · exact .inl (List.mem_cons_of_mem _ hv)
    · exact .inr fun old => hv (List.mem_append_right _ old)
  reached v hv := by
    rcases List.mem_cons.mp hv with rfl | hv
    · exact ⟨v, List.mem_cons_self, .refl⟩
    obtain ⟨w, hw, path⟩ := h.reached v hv
    rcases List.mem_append.mp hw with hw | hw
    · exact ⟨u, List.mem_cons_self, .head (mem_found.mp (List.mem_reverse.mp hw)).1 path⟩
    · exact ⟨w, List.mem_cons_of_mem _ hw, path⟩
  closed w hw v step := by
    rcases List.mem_cons.mp hw with rfl | hw
    · by_cases old : v ∈ seen
      · exact .inr old
      · have new : v ∈ s.found varOf seen w := mem_found.mpr ⟨step, old⟩
        exact .inl (List.mem_cons_of_mem _
          (h.begins (List.mem_append_left _ (List.mem_reverse.mpr new))))
    rcases h.closed w hw v step with hv | hv
    · exact .inl (List.mem_cons_of_mem _ hv)
    rcases List.mem_append.mp hv with hv | hv
    · exact .inl (List.mem_cons_of_mem _
        (h.begins (List.mem_append_left _ (List.mem_reverse.mpr hv))))
    · exact .inr hv

theorem Lists.settles {seen pending : List VarId} {pairs : List (BoundVar × BoundVar)}
    (h : s.Lists varOf seen pending pairs) : pending.Nodup → pending ⊆ seen →
    ∃ settled, pairs = settled.flatMap (s.listed varOf) ∧ s.Settles varOf seen pending settled := by
  induction h with
  | idle seen =>
    exact fun _ _ => ⟨[], rfl, List.nodup_nil, List.Subset.refl _, by simp, by simp, by simp⟩
  | @settle seen pending u pairs _ ih =>
    intro nodup sub
    obtain ⟨once, nodup⟩ := List.nodup_cons.mp nodup
    obtain ⟨here, sub⟩ := List.cons_subset.mp sub
    have apart : ((s.found varOf seen u).reverse ++ pending).Nodup :=
      List.nodup_append.mpr ⟨List.nodup_reverse.mpr (found_nodup seen u), nodup,
        fun a ha c hc same => (mem_found.mp (List.mem_reverse.mp ha)).2 (sub (same ▸ hc))⟩
    obtain ⟨settled, rfl, rest⟩ := ih apart (List.append_subset.mpr
      ⟨fun a ha => List.mem_append_left _ (List.mem_reverse.mp ha),
        fun a ha => List.mem_append_right _ (sub ha)⟩)
    exact ⟨u :: settled, rfl, rest.settle here once⟩

theorem Settles.mem_iff {settled : List VarId} (h : s.Settles varOf [x] [x] settled) :
    v ∈ settled ↔ Relation.ReflTransGen (s.Leads varOf) x v := by
  have start : x ∈ settled := h.begins List.mem_cons_self
  constructor
  · intro hv
    obtain ⟨u, hu, path⟩ := h.reached v hv
    rwa [List.mem_singleton.mp hu] at path
  · intro path
    induction path with
    | refl => exact start
    | tail _ step ih =>
      exact (h.closed _ ih _ step).elim id fun hv => List.mem_singleton.mp hv ▸ start

/-! ## Chains of normal bindings -/

/-- The caller names each node by the variable it was bound under. -/
def Names (s : ConstraintStore) (varOf : NodeId → Option VarId) : Prop :=
  ∀ u, ∀ b ∈ s.bindingsOf u, varOf b.bound = some u

/-- A normal binding between two variables was posted. -/
def Joined (posts : List Post) (u v : VarId) : Prop :=
  ∃ x y, Post.bind x y false ∈ posts ∧ x.id = u ∧ y.id = v

variable {posts : List Post}

theorem mem_recordedUnder {p : Post} : b ∈ p.recordedUnder u ↔
    (∃ x y isLazy, p = .bind x y isLazy ∧ x.id = u ∧ b = ⟨x.node, y.node, isLazy⟩) ∨
      ∃ x y, p = .bind x y false ∧ y.id = u ∧ b = ⟨y.node, x.node, false⟩ := by
  cases p with
  | tie a c => simp [Post.recordedUnder]
  | bind x y isLazy =>
    simp only [Post.recordedUnder, List.mem_append, List.mem_ite_nil_right, List.mem_singleton,
      Post.bind.injEq]
    constructor
    · rintro (⟨rfl, rfl⟩ | ⟨⟨rfl, rfl⟩, rfl⟩)
      · exact .inl ⟨x, y, isLazy, ⟨rfl, rfl, rfl⟩, rfl, rfl⟩
      · exact .inr ⟨x, y, ⟨rfl, rfl, rfl⟩, rfl, rfl⟩
    · rintro (⟨_, _, _, ⟨rfl, rfl, rfl⟩, rfl, rfl⟩ | ⟨_, _, ⟨rfl, rfl, rfl⟩, rfl, rfl⟩)
      · exact .inl ⟨rfl, rfl⟩
      · exact .inr ⟨⟨rfl, rfl⟩, rfl⟩

/-- A normal binding is recorded under both of its ends. -/
theorem bind_recorded {x y : BoundVar} (posted : Post.bind x y false ∈ posts) :
    ⟨x.node, y.node, false⟩ ∈ (ofPosts posts).bindingsOf x.id ∧
      ⟨y.node, x.node, false⟩ ∈ (ofPosts posts).bindingsOf y.id := by
  rw [bindingsOf_ofPosts, bindingsOf_ofPosts]
  refine ⟨List.mem_flatMap.mpr ⟨_, posted, ?_⟩, List.mem_flatMap.mpr ⟨_, posted, ?_⟩⟩
  · exact mem_recordedUnder.mpr (.inl ⟨x, y, false, rfl, rfl, rfl⟩)
  · exact mem_recordedUnder.mpr (.inr ⟨x, y, rfl, rfl, rfl⟩)

theorem leads_ofPosts (names : (ofPosts posts).Names varOf) :
    (ofPosts posts).Leads varOf u v ↔ Relation.SymmGen (Joined posts) u v := by
  constructor
  · rintro ⟨b, stored, normal, named⟩
    rw [bindingsOf_ofPosts] at stored
    obtain ⟨p, posted, recorded⟩ := List.mem_flatMap.mp stored
    rcases mem_recordedUnder.mp recorded with ⟨x, y, isLazy, rfl, rfl, rfl⟩ | ⟨x, y, rfl, rfl, rfl⟩
    · cases normal
      have other := names y.id _ (bind_recorded posted).2
      exact .inl ⟨x, y, posted, rfl, Option.some.inj (other.symm.trans named)⟩
    · have other := names x.id _ (bind_recorded posted).1
      exact .inr ⟨x, y, posted, Option.some.inj (other.symm.trans named), rfl⟩
  · rintro (⟨x, y, posted, rfl, rfl⟩ | ⟨x, y, posted, rfl, rfl⟩)
    · exact ⟨_, (bind_recorded posted).1, rfl, names y.id _ (bind_recorded posted).2⟩
    · exact ⟨_, (bind_recorded posted).2, rfl, names x.id _ (bind_recorded posted).1⟩

theorem chains_ofPosts (names : (ofPosts posts).Names varOf) :
    Relation.ReflTransGen ((ofPosts posts).Leads varOf) u v ↔ Relation.EqvGen (Joined posts) u v := by
  have same : (ofPosts posts).Leads varOf = Relation.SymmGen (Joined posts) :=
    funext fun u => funext fun v => propext (leads_ofPosts names)
  rw [same, Relation.EqvGen.reflTransGen_symmGen]

/-- Whatever was posted, and whatever the caller takes for a variable, the search for the bindings of a
variable ends and lists the normal bindings of all the variables that chains of them lead to, each variable
settled once. If nodes are named by the variables they were bound under, the chains are those of normal
bindings in either direction. -/
theorem bindings_listed_once (posts : List Post) (varOf : NodeId → Option VarId) (x : VarId) :
    (∀ u, (ofPosts posts).bindingsOf u = posts.flatMap (Post.recordedUnder u)) ∧
    (∃ pairs, ∃ settled : List VarId, (ofPosts posts).Lists varOf [x] [x] pairs ∧
      (ofPosts posts).boundPairs x (fun i => .ok (varOf i)) = .ok pairs ∧
      settled.Nodup ∧ (∀ u, u ∈ settled ↔ Relation.ReflTransGen ((ofPosts posts).Leads varOf) x u) ∧
      pairs = settled.flatMap ((ofPosts posts).listed varOf)) ∧
    ((ofPosts posts).Names varOf → ∀ u v,
      Relation.ReflTransGen ((ofPosts posts).Leads varOf) u v ↔ Relation.EqvGen (Joined posts) u v) := by
  refine ⟨bindingsOf_ofPosts posts, ?_, fun names u v => chains_ofPosts names⟩
  have found : (ofPosts posts).Found varOf x [x] :=
    fun u hu => List.mem_singleton.mp hu ▸ List.mem_cons_self
  obtain ⟨pairs, lists, run⟩ := lists_of_rounds x ((ofPosts posts).bindings.length + 1) [x] [x]
    (List.nodup_singleton x) found (Nat.le_refl _)
  obtain ⟨settled, rfl, h⟩ := lists.settles (List.nodup_singleton x) (List.Subset.refl _)
  exact ⟨_, settled, lists, run, h.nodup, fun u => h.mem_iff, rfl⟩

/-- Variables 0, 1 and 2 are bound to each other, 0 and 1 twice and 1 to itself; 2 is bound to 3 lazily. -/
def knotted : List Post :=
  [.bind ⟨0, 10⟩ ⟨1, 11⟩ false, .bind ⟨1, 11⟩ ⟨0, 10⟩ false, .bind ⟨1, 11⟩ ⟨1, 11⟩ false,
    .bind ⟨1, 11⟩ ⟨2, 12⟩ false, .bind ⟨2, 12⟩ ⟨3, 13⟩ true]

theorem bindings_listed_once_knotted :
    (ofPosts knotted).boundPairs 2 (fun i => .ok (some (i - 10))) =
      .ok [(⟨2, 12⟩, ⟨1, 11⟩), (⟨1, 11⟩, ⟨0, 10⟩), (⟨1, 11⟩, ⟨0, 10⟩), (⟨1, 11⟩, ⟨1, 11⟩),
        (⟨1, 11⟩, ⟨1, 11⟩), (⟨1, 11⟩, ⟨2, 12⟩), (⟨0, 10⟩, ⟨1, 11⟩), (⟨0, 10⟩, ⟨1, 11⟩)] ∧
    Relation.ReflTransGen ((ofPosts knotted).Leads fun i => some (i - 10)) 2 0 ∧
    ¬ Relation.ReflTransGen ((ofPosts knotted).Leads fun i => some (i - 10)) 2 3 := by
  have names : (ofPosts knotted).Names fun i => some (i - 10) := by
    have all : ∀ e ∈ (ofPosts knotted).bindings, some (e.2.bound - 10) = some e.1 := by decide
    exact fun u b stored => all (u, b) (mem_bindingsOf.mp stored)
  obtain ⟨-, -, chains⟩ :=
    bindings_listed_once knotted (fun i => some (i - 10)) 2
  refine ⟨by decide, (chains names 2 0).mpr ?_, fun path => ?_⟩
  · have first : Joined knotted 0 1 := ⟨⟨0, 10⟩, ⟨1, 11⟩, by simp [knotted], rfl, rfl⟩
    have second : Joined knotted 1 2 := ⟨⟨1, 11⟩, ⟨2, 12⟩, by simp [knotted], rfl, rfl⟩
    exact .symm _ _ (.trans _ _ _ (.rel _ _ first) (.rel _ _ second))
  · have below : ∀ u v, Relation.EqvGen (Joined knotted) u v → (u < 3 ↔ v < 3) := by
      intro u v h
      induction h with
      | rel u v joined =>
        obtain ⟨x, y, posted, rfl, rfl⟩ := joined
        simp only [knotted, List.mem_cons, List.not_mem_nil, or_false, Post.bind.injEq, and_true,
          reduceCtorEq, and_false] at posted
        rcases posted with ⟨rfl, rfl⟩ | ⟨rfl, rfl⟩ | ⟨rfl, rfl⟩ | ⟨rfl, rfl⟩ <;> decide
      | refl => rfl
      | symm _ _ _ ih => exact ih.symm
      | trans _ _ _ _ _ ih ih' => exact ih.trans ih'
    exact absurd ((below 2 3 ((chains names 2 3).mp path)).mp (by decide)) (by decide)

end ConstraintStore

end ChoiceGraph
