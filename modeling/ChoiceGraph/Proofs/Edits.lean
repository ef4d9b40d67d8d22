import ChoiceGraph.Proofs.Exhaustion
import ChoiceGraph.Proofs.Settling
import ChoiceGraph.Proofs.Strictness

/-! # Edits of one node

Once a step has its arguments, it rewrites its node and nodes that it has just been given. Then every
other live node is as it was, no variable of a type is new, and no frame has gained a decision or a
constraint. Unlike what is said of footprints, this holds however the step ends, and across
collections. -/
namespace ChoiceGraph

/-! ## Requests and types -/

namespace Graph

variable {g g' g'' : Graph} {roots : List Link} {n : Nat} {i : NodeId}

/-- No node has become a variable of a type. -/
def KeepsTypes (g g' : Graph) : Prop :=
  ∀ i c type, g'.content? i = some c → c.cargo = .literal (.type type) → g.content? i = some c

theorem KeepsTypes.refl (g : Graph) : g.KeepsTypes g := fun _ _ _ hc _ => hc

theorem KeepsTypes.trans (h : g.KeepsTypes g') (k : g'.KeepsTypes g'') : g.KeepsTypes g'' :=
  fun i c type hc literal => h i c type (k i c type hc literal) literal

/-- What a node holds now, it held before, or it is blank. -/
def Blanks (g g' : Graph) : Prop :=
  ∀ i c, g'.content? i = some c → g.content? i = some c ∨ c = .blank

theorem Blanks.trans (h : g.Blanks g') (k : g'.Blanks g'') : g.Blanks g'' :=
  fun i c hc => (k i c hc).elim (h i c) .inr

theorem Blanks.keepsTypes (h : g.Blanks g') : g.KeepsTypes g' := by
  intro i c type hc literal
  refine (h i c hc).resolve_right ?_
  rintro rfl
  cases literal

theorem Collected.blanks (c : g.Collected roots g') : g.Blanks g' := by
  intro i d hd
  by_cases reached : g.Reach roots i
  · exact .inl ((c.content reached).symm.trans hd)
  · have lt : i < g.capacity := c.capacity ▸ content_lt hd
    have blank : g'.content? i = some .blank := content_eq_some.mpr ⟨_, c.swept i lt reached, rfl⟩
    exact .inr (Option.some.inj (hd.symm.trans blank))

theorem afterTake_blanks (h : g.Sound) (n : Nat) : g.Blanks (g.afterTake n) := by
  intro i d hd
  have taken := afterTake_taken (n := n) h
  by_cases handed : i ∈ g.free.take n
  · exact .inr (Option.some.inj (hd.symm.trans (taken.blank i handed)))
  · exact .inl ((taken.kept i handed).symm.trans hd)

theorem extend_new {c : Content} (ge : g.capacity ≤ i) (hc : (g.extend n).content? i = some c) :
    c = .blank := by
  obtain ⟨slots, node, cargo⟩ := content_eq_some.mp hc
  rw [extend, Array.getElem?_append_right ge, Array.getElem?_replicate] at node
  split at node
  · obtain ⟨tag, symbol, aux, held⟩ := c
    cases node
    cases cargo
    rfl
  · cases node

theorem extend_blanks (h : g.Sound) (n : Nat) : g.Blanks (g.extend n) := by
  intro i d hd
  by_cases lt : i < g.capacity
  · exact .inl (((extend_grown h).kept i lt).symm.trans hd)
  · exact .inr (extend_new (Nat.le_of_not_lt lt) hd)

theorem grow_sound (h : g.Sound) (grown : g.grow? n = some g') : g'.Sound ∧ g.Blanks g' := by
  unfold grow? at grown
  dsimp only at grown
  split at grown
  · cases grown
  · cases grown
    exact ⟨(extend_grown h).sound, extend_blanks h _⟩

end Graph

namespace Machine

variable {m m' m'' : Machine}

/-- A collection is charged to the allotment of a frame, not to its view. -/
theorem chargeCollection_views (m : Machine) : (Eff.chargeCollection m).views = m.views := by
  unfold Eff.chargeCollection
  cases front : m.front? with
  | none => rfl
  | some f =>
    obtain ⟨c, hc, hf⟩ := Option.bind_eq_some_iff.mp front
    obtain ⟨outer, hc⟩ := List.head?_eq_some_iff.mp hc
    obtain ⟨rest, hq⟩ := List.head?_eq_some_iff.mp hf
    let charged : Machine := m.mapInnermost fun c =>
      c.putFrame 0 { f with allotment := f.allotment - 1 }
    have same : charged.views = m.views := by
      have searches : charged.computations =
          c.putFrame 0 { f with allotment := f.allotment - 1 } :: outer := by
        simp only [charged, mapInnermost, hc]
      rw [views_cons searches, views_cons hc, Computation.views_cons hq]
      simp only [Computation.views, Computation.putFrame, hq, List.set_cons_zero, List.map_cons]
      rfl
    dsimp only
    split
    · exact same
    · exact same

/-- No frame has gained a decision or a constraint, and no node has become a variable of a type. -/
structure Bare (m m' : Machine) : Prop where
  views : m'.views = m.views
  types : m.graph.KeepsTypes m'.graph

theorem Bare.refl (m : Machine) : m.Bare m := ⟨rfl, .refl _⟩

theorem Bare.trans (h : m.Bare m') (k : m'.Bare m'') : m.Bare m'' :=
  ⟨k.views.trans h.views, h.types.trans k.types⟩

end Machine

namespace Eff

open Machine

variable {α β : Type} {e : Eff α} {f : α → Eff β} {m : Machine} {ρ : Rank} {n : Nat}

/-- A request that is served or refused, whatever it has to do for it. -/
theorem allocate_blanks (h : m.Inv [] ρ) (n : Nat) :
    match allocate n m with
    | .ok _ m' => m'.views = m.views ∧ m.graph.Blanks m'.graph
    | .error _ m' => m'.views = m.views ∧ m.graph.Blanks m'.graph := by
  have closed : m.graph.Closed m.rootSet := by simpa using h.closed
  obtain ⟨g, run, collected⟩ := Graph.collect_exact h.storage.tenancy closed
  have sound := collected.storage h.storage
  have views : (collectedTo m g).views = m.views := chargeCollection_views _
  have graph : (collectedTo m g).graph = g := (chargeCollection_same _).1
  rw [allocate_eq (n := n) run]
  by_cases first : m.graph.hasFree n
  · rw [if_pos first]
    exact ⟨rfl, Graph.afterTake_blanks h.storage n⟩
  rw [if_neg first]
  by_cases second : g.hasFree n
  · rw [if_pos second]
    exact ⟨views, collected.blanks.trans (Graph.afterTake_blanks sound n)⟩
  rw [if_neg second]
  cases grown : g.grow? n with
  | none =>
    refine ⟨views, ?_⟩
    rw [graph]
    exact collected.blanks
  | some g' =>
    obtain ⟨sound', blanks⟩ := Graph.grow_sound sound grown
    dsimp only
    by_cases third : g'.hasFree n
    · rw [if_pos third]
      exact ⟨views, (collected.blanks.trans blanks).trans (Graph.afterTake_blanks sound' n)⟩
    · rw [if_neg third]
      exact ⟨views, collected.blanks.trans blanks⟩

/-- The request serves blank nodes, and changes nothing that is live. -/
def Offers (e : Eff (List NodeId)) (m : Machine) : Prop :=
  match e m with
  | .ok ids m' => m.Quiet m' ∧ m.Bare m' ∧ m'.Blank [] ids
  | .error _ m' => m.Quiet m' ∧ m.Bare m'

theorem allocate_offers (h : m.Inv [] ρ) (n : Nat) : (allocate n).Offers m := by
  have meets := allocate_meets h n
  have blanks := allocate_blanks h n
  unfold Meets at meets
  unfold Offers
  cases run : allocate n m with
  | ok ids m' =>
    rw [run] at meets blanks
    exact ⟨meets.1, ⟨blanks.1, blanks.2.keepsTypes⟩, meets.2.2⟩
  | error stop m' =>
    rw [run] at meets blanks
    cases stop with
    | fault f => exact meets.elim
    | _ => exact ⟨meets, blanks.1, blanks.2.keepsTypes⟩

/-- Nothing else changes if the live nodes of the request are rooted once more. -/
theorem allocate_rooted_offers {links : List Link} (h : m.Inv [] ρ)
    (live : ∀ i, some i ∈ links → m.Live [] i) (n : Nat) :
    (withRoots links (allocate n)).Offers m := by
  have offers := allocate_offers (h.push live) n
  unfold Offers withRoots at *
  rw [show { m with roots := links.reverse ++ m.roots } = m.push links from rfl]
  cases run : allocate n (m.push links) with
  | ok ids m' =>
    rw [run] at offers
    obtain ⟨quiet, bare, blank⟩ := offers
    exact ⟨quiet.pop live, ⟨bare.views, bare.types⟩,
      { blank with dead := fun i hi hd => blank.dead i hi (live_pop hd) }⟩
  | error stop m' =>
    rw [run] at offers
    exact ⟨offers.1.pop live, offers.2.views, offers.2.types⟩

end Eff

/-! ## Writing given nodes -/

namespace Machine

variable {S : NodeId → Prop} {m m' m'' : Machine} {i x : NodeId} {g' : Graph} {node : Node}

/-- Only nodes of `S` were written, and only the graph has changed. -/
structure Redrawn (S : NodeId → Prop) (m m' : Machine) : Prop where
  touches : m.toTermGraph.Touches S m'.toTermGraph
  roots : m'.roots = m.roots
  computations : m'.computations = m.computations

/-- The same, as long as the nodes of `S` are slots of a sound graph. -/
def Redraws (S : NodeId → Prop) (m m' : Machine) : Prop :=
  m.graph.Sound → (∀ i, S i → i < m.graph.capacity) → m.Redrawn S m'

instance : IsPreorder Machine (Redraws S) where
  refl _ sound _ := ⟨.refl sound, rfl, rfl⟩
  trans m m' m'' h k sound bound := by
    have first := h sound bound
    have second := k first.touches.sound fun i hi => first.touches.capacity.symm ▸ bound i hi
    exact ⟨first.touches.trans second.touches fun _ hi => .inl hi, second.roots.trans first.roots,
      second.computations.trans first.computations⟩

/-- Node `x` was edited: what else is live is as it was. -/
structure Edited (x : NodeId) (m m' : Machine) : Prop where
  signature : m'.signature = m.signature
  roots : m'.roots = m.roots
  search : SearchExtends m.computations m'.computations
  bare : m.Bare m'
  others : ∀ i, m.Live [] i → i ≠ x → m'.graph.content? i = m.graph.content? i

/-- The same, as long as the node is live. -/
def Edits (x : NodeId) (m m' : Machine) : Prop :=
  ∀ ρ, m.Inv [] ρ → m.Live [] x → m.Edited x m'

theorem Edited.refl (x : NodeId) (m : Machine) : m.Edited x m :=
  ⟨rfl, rfl, .refl _, .refl m, fun _ _ _ => rfl⟩

theorem Redrawn.bare (h : m.Redrawn S m') : m.Bare m' where
  views := by rw [views, views, h.computations]
  types := h.touches.typed

end Machine

namespace Eff

open Machine

variable {α β : Type} {S S' : NodeId → Prop} {e : Eff α} {f : α → Eff β} {i x : NodeId}

theorem put_redraws {node : Node} (hs : S i) (unpooled : ∀ b, node.slots ≠ .pooled b)
    (plain : ∀ type, node.slots.literal? ≠ some (.type type)) : (put i node).Moves (Redraws S) := by
  intro m
  cases run : put i node m with
  | ok a m' =>
    intro sound bound
    obtain ⟨g', run', spares, here, -⟩ := put_spares (n := node) sound (bound i hs)
      fun b hb => absurd hb (unpooled b)
    cases run'.symm.trans run
    exact ⟨touches_of_spares hs spares here plain, rfl, rfl⟩
  | error stop m' =>
    intro sound bound
    obtain ⟨g', run', -⟩ := put_spares (n := node) sound (bound i hs)
      fun b hb => absurd hb (unpooled b)
    cases run'.symm.trans run

theorem rewrite_redraws (hs : S i) (tag : Tag) (symbol : SymbolId) (aux : Nat)
    (links : List Link) : (rewrite i tag symbol aux links).Moves (Redraws S) := by
  intro m
  have either := fun (sound : m.graph.Sound) (bound : ∀ i, S i → i < m.graph.capacity) =>
    rewrite_spares sound (bound i hs) tag symbol aux links
  cases run : rewrite i tag symbol aux links m with
  | ok a m' =>
    intro sound bound
    rcases either sound bound with ⟨slots, g', run', spares, here, linked, -⟩ | ⟨err, failed⟩
    · cases run'.symm.trans run
      refine ⟨touches_of_spares hs spares here fun type literal => ?_, rfl, rfl⟩
      cases linked.symm.trans literal
    · cases failed.symm.trans run
  | error stop m' =>
    intro sound bound
    rcases either sound bound with ⟨slots, g', run', -⟩ | ⟨err, failed⟩
    · cases run'.symm.trans run
    · cases failed.symm.trans run
      exact refl_of (Redraws S) m sound bound

theorem freshId_redraws : freshId.Moves (Redraws S) := fun _ sound _ => ⟨.refl sound, rfl, rfl⟩

theorem rewriteTo_redraws (hs : S i) (symbol : SymbolId) (links : List Link) :
    (rewriteTo i symbol links).Moves (Redraws S) :=
  (moves_look _).bind fun tag => rewrite_redraws hs tag symbol 0 links

theorem rewriteInt_redraws (hs : S i) (v : Int64) : (rewriteInt i v).Moves (Redraws S) :=
  (moves_look _).bind fun _ => put_redraws hs (fun _ hb => by cases hb) fun _ hl => by cases hl

theorem rewriteFail_redraws (hs : S i) : (rewriteFail i).Moves (Redraws S) :=
  put_redraws hs (fun _ hb => by cases hb) fun _ hl => by cases hl

theorem rewriteForward_redraws (hs : S i) (target : Link) :
    (rewriteForward i target).Moves (Redraws S) :=
  put_redraws hs (fun _ hb => by cases hb) fun _ hl => by cases hl

theorem rewriteFree_redraws (hs : S i) (id : Nat) : (rewriteFree i id none).Moves (Redraws S) :=
  put_redraws hs (fun _ hb => by cases hb) fun _ hl => by cases hl

/-! ## Edits -/

theorem Moves.edits (h : e.Moves (Redraws (Only x))) : e.Moves (Edits x) := by
  refine h.mono fun m m' redraws ρ inv live => ?_
  have drawn := redraws inv.storage fun i hi => hi ▸ inv.lt live
  refine ⟨drawn.touches.signature, drawn.roots, ?_, drawn.bare, fun i hi ne => ?_⟩
  · rw [drawn.computations]
    exact .refl _
  · exact drawn.touches.others i ne (inv.unfree i hi)

theorem edits_pure (a : α) : (pure a : Eff α).Moves (Edits x) := fun m _ _ _ => .refl x m

theorem edits_throw (stop : Stop) : (throw stop : Eff α).Moves (Edits x) := fun m _ _ _ => .refl x m

/-- Reading before an edit. -/
theorem edits_read {r : Machine → Except Fault α} (h : ∀ a, (f a).Moves (Edits x)) :
    (look r >>= f).Moves (Edits x) := by
  intro m
  cases value : r m with
  | ok a =>
    rw [bind_ok (look_ok value)]
    exact h a m
  | error fault =>
    have stopped : Eff.look r m = .error (.fault fault) m := by
      unfold Eff.look
      rw [value]
    rw [bind_error stopped]
    exact fun _ _ _ => .refl x m

/-- Nodes that are asked for are written along with the node that is edited. -/
theorem edits_of_request {request : Eff (List NodeId)} {f : List NodeId → Eff β}
    (offers : ∀ m ρ, m.Inv [] ρ → m.Live [] x → request.Offers m)
    (h : ∀ ids, (f ids).Moves (Redraws fun i => Only x i ∨ i ∈ ids)) :
    (request >>= f).Moves (Edits x) := by
  have edited : ∀ {m m₁ m' : Machine} {ρ : Rank} {ids : List NodeId}, m.Inv [] ρ → m.Live [] x →
      request m = .ok ids m₁ → m₁.Redraws (fun i => Only x i ∨ i ∈ ids) m' → m.Edited x m' := by
    intro m m₁ m' ρ ids inv live first redraws
    have offer := offers m ρ inv live
    unfold Offers at offer
    rw [first] at offer
    obtain ⟨quiet, bare, blank⟩ := offer
    have inv₁ := quiet.inv inv
    have drawn := redraws inv₁.storage fun i hi =>
      hi.elim (fun same => same ▸ inv₁.lt ((quiet.live inv).mpr live)) (blank.lt i)
    refine ⟨drawn.touches.signature.trans quiet.signature, drawn.roots.trans quiet.roots, ?_,
      bare.trans drawn.bare, fun i hi ne => ?_⟩
    · rw [drawn.computations]
      exact quiet.search
    · have alive := (quiet.live inv).mpr hi
      have outside : ¬ (Only x i ∨ i ∈ ids) := not_or.mpr ⟨ne, fun new => blank.dead i new alive⟩
      exact (drawn.touches.others i outside (inv₁.unfree i alive)).trans (quiet.kept i hi)
  intro m
  cases first : request m with
  | ok ids m₁ =>
    rw [bind_ok first]
    cases run : f ids m₁ with
    | ok b m' => exact fun ρ inv live => edited inv live first ((h ids).ok run)
    | error stop m' => exact fun ρ inv live => edited inv live first ((h ids).error run)
  | error stop m₁ =>
    rw [bind_error first]
    intro ρ inv live
    have offer := offers m ρ inv live
    unfold Offers at offer
    rw [first] at offer
    obtain ⟨quiet, bare⟩ := offer
    exact ⟨quiet.signature, quiet.roots, quiet.search, bare, fun i hi _ => quiet.kept i hi⟩

end Eff

namespace Reduction

open Eff Machine

variable {S : NodeId → Prop} {root x : NodeId} {f : List NodeId → Eff Unit} {h : HeadStep}

theorem allocateBeside_edits {β : Type} {f : List NodeId → Eff β} (n : Nat)
    (h : ∀ ids, (f ids).Moves (Redraws fun i => Only root i ∨ i ∈ ids)) :
    (allocateBeside root n >>= f).Moves (Edits root) :=
  edits_of_request (fun _ _ inv live => allocate_rooted_offers inv live.rooted n) h

/-! ## What the steps do with their arguments -/

theorem pullTab_edits (root : NodeId) (k : Nat) : (pullTab root k).Moves (Edits root) := by
  refine allocateBeside_edits 2 fun ids => ?_
  split
  · next left right =>
    refine (moves_look _).bind fun choice => (moves_look _).bind fun c => (moves_look _).bind
      fun l => (moves_look _).bind fun r => (moves_look _).bind fun node => (moves_look _).bind
      fun links => ?_
    refine (rewrite_redraws (.inr List.mem_cons_self) _ _ _ _).bind fun _ => ?_
    refine (rewrite_redraws (.inr (List.mem_cons_of_mem _ List.mem_cons_self)) _ _ _ _).bind
      fun _ => ?_
    exact rewrite_redraws (.inl rfl) _ _ _ _
  · exact moves_throw _

theorem stepChoose_edits (root : NodeId) : (stepChoose root).Moves (Edits root) := by
  refine Moves.edits ((moves_look _).bind fun _ => (moves_look _).bind fun _ =>
    freshId_redraws.bind fun _ => ?_)
  exact rewrite_redraws (only_self root) _ _ _ _

theorem succeed_edits (root : NodeId) : (succeed root).Moves (Edits root) :=
  (rewriteTo_redraws (only_self root) _ _).edits

theorem rewriteFail_edits (root : NodeId) : (rewriteFail root).Moves (Edits root) :=
  (rewriteFail_redraws (only_self root)).edits

theorem unifyPairs_redraws : ∀ (nodes : List NodeId) (pairs : List (Link × Link)),
    (∀ i ∈ nodes, S i) → (unifyPairs nodes pairs).Moves (Redraws S)
  | [], _, _ => moves_pure ()
  | _ :: _, [], _ => moves_pure ()
  | _ :: nodes, _ :: pairs, own =>
    (rewriteTo_redraws (own _ List.mem_cons_self) _ _).bind fun _ =>
      unifyPairs_redraws nodes pairs fun i hi => own i (List.mem_cons_of_mem _ hi)

theorem conjoin_redraws : ∀ nodes conjunctions : List NodeId, (∀ i ∈ conjunctions, S i) →
    (conjoin nodes conjunctions).Moves (Redraws S)
  | [], _, _ => moves_throw _
  | [last], _, _ => moves_pure last
  | _ :: _ :: _, [], _ => moves_throw _
  | _ :: next :: rest, conjunction :: conjunctions, own =>
    (conjoin_redraws (next :: rest) conjunctions fun i hi =>
      own i (List.mem_cons_of_mem _ hi)).bind fun _ =>
        (rewriteTo_redraws (own conjunction List.mem_cons_self) _ _).bind fun _ =>
          moves_pure conjunction

theorem unifySuccessors_edits (root : NodeId) (pairs : List (Link × Link)) :
    (unifySuccessors root pairs).Moves (Edits root) := by
  refine allocateBeside_edits _ fun fresh => ?_
  refine (unifyPairs_redraws _ pairs fun i hi => .inr (List.mem_of_mem_take hi)).bind fun _ => ?_
  refine (conjoin_redraws _ _ fun i hi => .inr (List.mem_of_mem_drop hi)).bind fun i => ?_
  exact rewriteForward_redraws (.inl rfl) _

theorem unifyHeads_edits (root x y : NodeId) : (unifyHeads root x y).Moves (Edits root) := by
  refine edits_read fun a => edits_read fun b => ?_
  split
  · exact rewriteFail_edits root
  refine edits_read fun symbol => ?_
  split
  · exact rewriteFail_edits root
  split
  · split
    · exact succeed_edits root
    · exact rewriteFail_edits root
  refine edits_read fun xs => edits_read fun ys => ?_
  split
  · exact succeed_edits root
  split
  · exact unifySuccessors_edits root _
  · exact edits_throw _

/-- A loop puts a number into a new node and leaves the call as it is. -/
theorem stepSpin_edits (root : NodeId) : stepSpin.Moves (Edits root) := by
  rw [stepSpin_eq]
  refine edits_of_request (fun m ρ inv _ => allocate_offers inv 1) fun ids => ?_
  cases ids with
  | nil => exact moves_throw _
  | cons i ids =>
    show (rewriteInt i 0 >>= fun _ => pure ()).Moves _
    exact (rewriteInt_redraws (.inr List.mem_cons_self) 0).bind fun _ => moves_pure ()

/-- A kind of head step that forces these arguments and then edits its node. -/
def ForcesEdits (root : NodeId) (h : HeadStep) : Prop :=
  ∃ demands act, (∀ r, runHead r root h = force r root demands act) ∧
    ∀ xs, (act xs).Moves (Edits root)

theorem forcesEdits_pair {body : NodeId → NodeId → Eff Unit} (demands : List Demand)
    (eq : ∀ r, runHead r root h = force r root demands (onPair body))
    (edits : ∀ x y, (body x y).Moves (Edits root)) : ForcesEdits root h := by
  refine ⟨demands, onPair body, eq, fun xs => ?_⟩
  unfold onPair
  split
  · exact edits _ _
  · exact edits_pure ()

theorem forcesEdits_one {body : NodeId → Eff Unit} (demands : List Demand)
    (eq : ∀ r, runHead r root h = force r root demands (onOne body))
    (edits : ∀ x, (body x).Moves (Edits root)) : ForcesEdits root h := by
  refine ⟨demands, onOne body, eq, fun xs => ?_⟩
  unfold onOne
  split
  · exact edits _
  · exact edits_pure ()

theorem forcesEdits_none {done : Eff Unit} (eq : ∀ r, runHead r root h = done)
    (edits : done.Moves (Edits root)) : ForcesEdits root h :=
  ⟨[], fun _ => done, eq, fun _ => edits⟩

/-- The steps that a call may run, apart from rules and from unification, whose variables are not
forced. One that only follows its argument never returns. -/
theorem forcesEdits_of_reads (root : NodeId) (reads : h.reads? ≠ none) (unify : h ≠ .unify)
    (forward : h ≠ .forward) : ForcesEdits root h := by
  have own := only_self root
  cases h with
  | none => exact forcesEdits_none (fun _ => rfl) (edits_pure ())
  | forward => exact absurd rfl forward
  | arithmetic op =>
    refine forcesEdits_pair [.head 0, .head 1] (fun _ => rfl) fun x y =>
      Moves.edits ((moves_look _).bind fun a => (moves_look _).bind fun b => ?_)
    split
    · split
      · exact rewriteInt_redraws own _
      · exact rewriteFail_redraws own
    · exact rewriteFail_redraws own
  | equals =>
    exact forcesEdits_pair [.normal 0, .normal 1] (fun _ => rfl) fun x y =>
      Moves.edits ((moves_look _).bind fun same => rewriteTo_redraws own _ _)
  | compare =>
    exact forcesEdits_pair [.normal 0, .normal 1] (fun _ => rfl) fun x y =>
      Moves.edits ((moves_look _).bind fun order => rewriteTo_redraws own _ _)
  | choose => exact forcesEdits_none (fun _ => rfl) (stepChoose_edits root)
  | fail => exact forcesEdits_none (fun _ => rfl) (rewriteFail_edits root)
  | unify => exact absurd rfl unify
  | conjunction =>
    exact forcesEdits_pair [.head 0, .head 1] (fun _ => rfl) fun _ _ =>
      succeed_edits root
  | guard =>
    exact forcesEdits_one [.head 0] (fun _ => rfl) fun _ =>
      Moves.edits ((moves_look _).bind fun l => rewriteForward_redraws own l)
  | strictApply =>
    exact forcesEdits_one [.head 1] (fun _ => rfl) fun _ =>
      Moves.edits ((moves_look _).bind fun f => (moves_look _).bind fun x =>
        rewriteTo_redraws own _ _)
  | ensureNotFree =>
    exact forcesEdits_one [.head 0] (fun _ => rfl) fun x =>
      (rewriteForward_redraws own (some x)).edits
  | apply =>
    refine forcesEdits_one [.head 0] (fun _ => rfl) fun f =>
      Moves.edits ((moves_look _).bind fun x => (moves_look _).bind fun missing =>
        (moves_look _).bind fun symbol => ?_)
    split
    · exact rewriteFail_redraws own
    split
    · exact rewrite_redraws own _ _ _ _
    refine (moves_look _).bind fun spine => ?_
    split
    · exact rewriteFail_redraws own
    · exact rewriteTo_redraws own _ _
  | spin => exact forcesEdits_none (fun _ => rfl) (stepSpin_edits root)
  | rule rule => exact absurd rfl reads

end Reduction

end ChoiceGraph
