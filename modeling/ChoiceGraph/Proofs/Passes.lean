import ChoiceGraph.Proofs.Closures
import ChoiceGraph.Proofs.Resolving
import ChoiceGraph.Proofs.Rewriting

/-! # Passes over a list of choices

Normalizing a node that comes to a list, whichever sides of its choices are taken, ends: either a
choice has been pulled up to the node, or the node is the list. Everything else still comes to what it
came to, so that other frames are not disturbed. A pass of this kind needs room: steps of the slice and
nodes of the pool. With enough of both it is neither preempted nor does it collect. -/
namespace ChoiceGraph

namespace Graph

/-- The variables of a kind are narrowed, and tied to all that they are bound to. -/
def Knits (g : Graph) (D : VarId → Prop) (store : ConstraintStore) : Prop :=
  ∀ x b, D x → (x, b) ∈ store.bindings → b.isLazy = false →
    ∃ z l r l' r', D z ∧ store.Tied x z ∧ g.Holds b.bound (.alternative true x l r) ∧
      g.Holds b.partner (.alternative true z l' r')

theorem Knits.advance {g g' : Graph} {D : VarId → Prop} {store : ConstraintStore} (h : g.Knits D store)
    (still : ∀ i id l r, g.Holds i (.alternative true id l r) → g'.Holds i (.alternative true id l r)) :
    g'.Knits D store := by
  intro x b hx hb normal
  obtain ⟨z, l, r, l', r', hz, tied, here, there⟩ := h x b hx hb normal
  exact ⟨z, l, r, l', r', hz, tied, still _ _ _ _ here, still _ _ _ _ there⟩

end Graph

namespace Machine

variable {m m' m'' : Machine} {s a s' a' k k' A : Nat} {g' : Graph} {D : VarId → Prop} {id : VarId}
  {φ : Choosing} {xs : List NodeId} {x : NodeId}

/-- There are this many steps and nodes left. -/
structure Room (s a : Nat) (m : Machine) : Prop where
  preempt : m.slice.preempt = false
  steps : ∃ r, m.slice.remaining = some r ∧ s ≤ r
  nodes : a ≤ m.graph.free.length

theorem Room.mono (h : m.Room s a) (steps : s' ≤ s) (nodes : a' ≤ a) : m.Room s' a' where
  preempt := h.preempt
  steps := h.steps.imp fun _ hr => ⟨hr.1, steps.trans hr.2⟩
  nodes := nodes.trans h.nodes

theorem Room.goes (h : m.Room (s + 1) a) : m.slice.isOver = false := by
  obtain ⟨r, remaining, le⟩ := h.steps
  rw [Slice.isOver, h.preempt, remaining, Bool.false_or, beq_eq_false_iff_ne]
  rintro same
  cases same
  omega

theorem Room.spend (h : m.Room (s + 1) a) : Room s a { m with slice := m.slice.spend } where
  preempt := h.preempt
  steps := by
    obtain ⟨r, remaining, le⟩ := h.steps
    refine ⟨r - 1, ?_, by omega⟩
    show m.slice.remaining.map (· - 1) = _
    rw [remaining]
    rfl
  nodes := h.nodes

theorem Room.setGraph (h : m.Room s a) (nodes : a' ≤ g'.free.length) : (m.setGraph g').Room s a' :=
  ⟨h.preempt, h.steps, nodes⟩

/-- Each of these is a constructor applied to at most `A` variables. -/
def Terms (m : Machine) (A : Nat) (xs : List NodeId) : Prop :=
  ∀ x ∈ xs, ∃ c, m.graph.Leaf x c ∧ c.Fits m.signature ∧ c.links.length ≤ A

theorem Terms.leaves (h : m.Terms A xs) : ∀ x ∈ xs, ∃ c, m.graph.Leaf x c := fun x hx =>
  (h x hx).imp fun _ => And.left

/-- Only the graph and the slice have changed, and all nodes come to what they came to. Cells of lists
of at least `k` terms are as they were. -/
structure Advanced (φ : Choosing) (k : Nat) (m m' : Machine) : Prop where
  same : m' = { m with graph := m'.graph, slice := m'.slice }
  sound : m'.graph.Sound
  capacity : m'.graph.capacity = m.graph.capacity
  advances : m.graph.Advances m'.graph
  cells : m.graph.KeepsCells φ k m'.graph

namespace Advanced

theorem paid (sound : m.graph.Sound) (slice : Slice) : Advanced φ k m { m with slice := slice } :=
  ⟨rfl, sound, rfl, .refl _, fun _ _ _ _ _ h _ _ _ => h⟩

theorem trans (h : Advanced φ k m m') (h' : Advanced φ k m' m'') : Advanced φ k m m'' where
  same := by rw [h'.same, h.same]
  sound := h'.sound
  capacity := h'.capacity.trans h.capacity
  advances := h.advances.trans h'.advances
  cells := h.cells.trans h.advances h'.cells

theorem mono (h : Advanced φ k m m') (le : k ≤ k') : Advanced φ k' m m' :=
  { h with cells := h.cells.mono le }

theorem signature (h : Advanced φ k m m') : m'.signature = m.signature := by rw [h.same]

theorem front (h : Advanced φ k m m') : m'.frontConstraints? = m.frontConstraints? := by
  rw [h.same]
  rfl

theorem terms (h : Advanced φ k m m') (terms : m.Terms A xs) : m'.Terms A xs := fun x hx => by
  obtain ⟨c, leaf, fits, le⟩ := terms x hx
  exact ⟨c, h.advances.leaves x c leaf, h.signature.symm ▸ fits, le⟩

theorem reformed {u v : NodeId} (sound : g'.Sound) (capacity : g'.capacity = m.graph.capacity)
    (reforms : m.graph.Reforms u g') (hu : m.graph.Holds u (.demand v)) :
    Advanced φ k m (m.setGraph g') :=
  ⟨rfl, sound, capacity, reforms.advances, reforms.keeps_cells hu⟩

theorem recelled {u : NodeId} {n : Nat} (sound : g'.Sound) (capacity : g'.capacity = m.graph.capacity)
    (reforms : m.graph.Reforms u g') (single : ∀ id s s', φ id s → φ id s' → s = s')
    (spells : m.graph.Spells φ xs u n) : Advanced φ (xs.length + 1) m (m.setGraph g') :=
  ⟨rfl, sound, capacity, reforms.advances, reforms.keeps_longer single spells⟩

/-- A node has been given the content it had. -/
theorem rewritten {u : NodeId} {c : Content} (sets : m.graph.Sets u c g') (hu : m.graph.Holds u c) :
    Advanced φ k m (m.setGraph g') := by
  have kept : ∀ j d, m.graph.Holds j d → g'.Holds j d := fun j d hj => by
    by_cases here : j = u
    · subst here
      exact hu.eq hj ▸ sets.holds hu.unfree
    · exact sets.holds_other here hj
  exact ⟨rfl, sets.sound, sets.capacity, Graph.advances_of_holds kept, fun j _ _ _ _ hj _ _ _ => kept j _ hj⟩

end Advanced

/-- The variables of a kind are knit for the frame in front. -/
def Knit (D : VarId → Prop) (m : Machine) : Prop :=
  ∀ store, m.frontConstraints? = some store → m.graph.Knits D store

theorem Knit.advance (h : m.Knit D) (front : m'.frontConstraints? = m.frontConstraints?)
    (still : ∀ i id l r, m.graph.Holds i (.alternative true id l r) →
      m'.graph.Holds i (.alternative true id l r)) : m'.Knit D := fun store hs =>
  (h store (front ▸ hs)).advance still

theorem Advanced.knit (h : Advanced φ k m m') (knit : m.Knit D) : m'.Knit D :=
  knit.advance h.front fun i _ _ _ hi => h.advances.still i _ hi (.inl rfl)

end Machine

namespace Reduction

open Eff Machine

variable {m m' m₁ : Machine} {s a A F n k count : Nat} {i j e t u v w x p q : NodeId} {c d : Content}
  {φ : Choosing} {D : VarId → Prop} {id : ChoiceId} {l r : NodeId} {narrowed : Bool} {xs : List NodeId}

/-! ## Pulling one choice -/

theorem skip_alternative (hw : m.graph.Holds w (.alternative narrowed id l r)) : m.skip w = .ok w :=
  TermGraph.skip_self hw.content nofun

theorem successor_reads (hσ : m.signature.Sound) (hu : m.graph.Holds u c) (fits : c.Fits m.signature)
    (hk : c.links[k]? = some p) : m.successor u k = .ok (some p) := by
  obtain ⟨sym, found, -, arity⟩ := fits.symbol hσ
  exact TermGraph.successor_content hu.content found arity hk

/-- Nodes that are taken hold nothing yet, and are nobody else's. -/
theorem allocateBeside_takes (sound : m.graph.Sound) (root : NodeId) (nodes : n ≤ m.graph.free.length) :
    ∃ ids g', allocateBeside root n m = .ok ids (m.setGraph g') ∧ m.graph.Taken ids g' ∧
      ids.length = n ∧ ∀ i ∈ ids, g'.Holds i .blank := by
  have enough : m.graph.hasFree n = true := by
    unfold Graph.hasFree
    rw [List.length_take, Nat.min_eq_left nodes, beq_self_eq_true]
  have taken := Graph.afterTake_taken (n := n) sound
  refine ⟨_, _, ((allocate_requests n).rooted [some root]).served m enough, taken,
    by rw [List.length_take, Nat.min_eq_left nodes], fun i hi => ⟨taken.blank i hi, fun free => ?_⟩⟩
  have nodup := sound.free_nodup
  rw [taken.split] at nodup
  exact (List.nodup_append.mp nodup).2.2 i hi i free rfl

theorem rewrite_sets (sound : m.graph.Sound) (lt : i < m.graph.capacity) (tag : Tag) (symbol aux : Nat)
    (ls : List NodeId) (short : ls.length ≤ 2) : ∃ g', rewrite i tag symbol aux (ls.map some) m =
      .ok () (m.setGraph g') ∧ m.graph.Sets i ⟨tag, symbol, aux, .links ls⟩ g' := by
  have faults : (rewrite i tag symbol aux (ls.map some)).Faults := by
    have stored : (storeLinks (ls.map some)).Faults := by
      intro m stop m' run
      match ls, short with
      | [], _ => cases run
      | [a], _ => cases run
      | [a, b], _ => cases run
    exact stored.bind fun slots => faults_put i _
  exact (rewrite_writes sound lt tag symbol aux ls).sets faults

/-- A choice is pulled above a node with at most two links. -/
theorem pullTab_pulls (hσ : m.signature.Sound) (sound : m.graph.Sound)
    (nodes : a + 2 ≤ m.graph.free.length) (hu : m.graph.Holds u c) (fits : c.Fits m.signature)
    (short : c.links.length ≤ 2) (hk : c.links[k]? = some w)
    (hw : m.graph.Holds w (.alternative narrowed id l r)) :
    ∃ g', pullTab u k m = .ok () (m.setGraph g') ∧ g'.Sound ∧ g'.capacity = m.graph.capacity ∧
      g'.pools.size = m.graph.pools.size ∧ a ≤ g'.free.length ∧
      m.graph.Pulled u c k narrowed id l r g' ∧ ∀ i ∈ g'.free, i ∈ m.graph.free := by
  obtain ⟨ids, g, served, taken, size, blank⟩ :=
    allocateBeside_takes sound u (n := 2) (by omega)
  obtain ⟨f, h, rfl⟩ := List.length_eq_two.mp size
  have different : f ≠ h := fun same => by simpa [same] using taken.nodup
  have keeps : ∀ j d, m.graph.Holds j d → g.Holds j d := fun j d hj => taken.holds hj
  have new : ∀ i ∈ [f, h], ∀ d, m.graph.Holds i d → False := fun i hi d held =>
    held.unfree (taken.split ▸ List.mem_append_left _ hi)
  have hf := blank f List.mem_cons_self
  have hh := blank h (List.mem_cons_of_mem _ List.mem_cons_self)
  have hu₁ := keeps u c hu
  have hw₁ := keeps w _ hw
  -- the two copies, and then the choice in the place of the node
  obtain ⟨g₁, first, sets₁⟩ := rewrite_sets (m := m.setGraph g) taken.sound (Graph.content_lt hf.content)
    c.tag c.symbol c.aux (c.links.set k l) (by rwa [List.length_set])
  have hh₁ := sets₁.holds_other different.symm hh
  obtain ⟨g₂, second, sets₂⟩ := rewrite_sets (m := m.setGraph g₁) sets₁.sound
    (Graph.content_lt hh₁.content) c.tag c.symbol c.aux (c.links.set k r) (by rwa [List.length_set])
  have left := sets₂.holds_other different (sets₁.holds hf.unfree)
  have right := sets₂.holds hh₁.unfree
  have apart : ∀ i ∈ [f, h], u ≠ i := fun i hi same => new i hi c (same ▸ hu)
  have hu₂ := sets₂.holds_other (apart h (by simp)) (sets₁.holds_other (apart f (by simp)) hu₁)
  obtain ⟨g₃, third, sets₃⟩ := rewrite_sets (m := m.setGraph g₂) sets₂.sound
    (Graph.content_lt hu₂.content) .choice (if narrowed then Builtin.narrowed else Builtin.choice) id
    [f, h] (Nat.le_refl 2)
  have capacity : g₃.capacity = m.graph.capacity :=
    sets₃.capacity.trans (sets₂.capacity.trans (sets₁.capacity.trans taken.capacity))
  have free : g₃.free = g.free := sets₃.free.trans (sets₂.free.trans sets₁.free)
  refine ⟨g₃, ?_, sets₃.sound, capacity,
    sets₃.pools.trans (sets₂.pools.trans (sets₁.pools.trans taken.pools)), ?_, ⟨fun j d hj hd => ?_, ⟨f,
      h, sets₃.holds hu₂.unfree, ?_, ?_⟩, fun p q copies => ?_⟩, fun i hi => ?_⟩
  · obtain ⟨slots, node, -⟩ := TermGraph.node_content (t := (m.setGraph g).toTermGraph) hu₁.content
    obtain ⟨slots', node', -⟩ := TermGraph.node_content (t := (m.setGraph g).toTermGraph) hw₁.content
    have fits' := Content.alternative_fits (σ := m.signature) narrowed id l r
    have found : (m.setGraph g).successorSkip u k = .ok w := by
      simp only [TermGraph.successorSkip, successor_reads (m := m.setGraph g) hσ hu₁ fits hk, bind,
        Except.bind, Link.target]
      exact skip_alternative (m := m.setGraph g) hw₁
    have toLeft := successor_reads (m := m.setGraph g) (k := 0) hσ hw₁ fits' rfl
    have toRight := successor_reads (m := m.setGraph g) (k := 1) hσ hw₁ fits' rfl
    obtain ⟨sym, listed, -, arity⟩ := fits.symbol hσ
    have links : (m.setGraph g).successors u = .ok (c.links.map some) :=
      TermGraph.successors_content hu₁.content listed arity
    rw [List.map_set] at first second
    calc pullTab u k m
        = _ := bind_ok served
      _ = _ := bind_ok (look_ok found)
      _ = _ := bind_ok (look_ok node')
      _ = _ := (bind_ok (look_ok toLeft)).trans (bind_ok (look_ok toRight))
      _ = _ := (bind_ok (look_ok node)).trans (bind_ok (look_ok links))
      _ = _ := (bind_ok first).trans (bind_ok second)
      _ = _ := third
  · rw [free]
    have split := congrArg List.length taken.split
    rw [List.length_append, size] at split
    omega
  · have outside : ∀ i ∈ [f, h], j ≠ i := fun i hi same => new i hi d (same ▸ hd)
    exact sets₃.holds_other hj (sets₂.holds_other (outside h (by simp))
      (sets₁.holds_other (outside f (by simp)) (keeps j d hd)))
  · exact sets₃.holds_other (apart f (by simp)).symm left
  · exact sets₃.holds_other (apart h (by simp)).symm right
  · cases congrArg Content.cargo (copies.eq (sets₃.holds hu₂.unfree))
    rw [taken.split]
    exact ⟨different, List.mem_append_left _ (by simp), List.mem_append_left _ (by simp)⟩
  · rw [free] at hi
    exact taken.split ▸ List.mem_append_right _ hi

theorem variableOf_alternative (hi : m.graph.Holds i (.alternative true id l r)) :
    m.variableOf i = .ok (some id) := by
  obtain ⟨slots, node, -⟩ := TermGraph.node_content (t := m.toTermGraph) hi.content
  simp only [TermGraph.variableOf, skip_alternative hi, bind, Except.bind]
  rw [node]
  rfl

theorem instantiateEnd_idle (hi : m.graph.Holds i c) (tag : c.tag ≠ .free) (ends : c.tag ≠ .forward) :
    instantiateEnd i m = .ok () m := by
  refine (bind_ok (look_ok (TermGraph.skip_self hi.content ends))).trans
    ((bind_ok (look_ok (TermGraph.tag_content hi.content))).trans
      ((bind_ok (look_ok (TermGraph.literal_content hi.content))).trans ?_))
  rw [if_neg fun both => tag both.1]
  rfl

/-- Variables that are tied are not linked again. -/
theorem link_idle {store : ConstraintStore} {x y : BoundVar} (hs : m.frontConstraints? = some store)
    (tied : store.Tied x.id y.id) : link x y m = .ok () m := by
  refine (bind_ok (show (get : Eff Machine) m = .ok m m from rfl)).trans ?_
  rw [hs]
  dsimp only
  rw [if_pos tied]
  rfl

theorem linkPairs_idle {store : ConstraintStore} (knit : m.Knit D) (hs : m.frontConstraints? = some store) :
    ∀ pairs : List (BoundVar × BoundVar),
      (∀ p ∈ pairs, ∃ x, D x ∧ store.PairAt m.variableOf x p) → linkPairs pairs m = .ok () m := by
  intro pairs
  induction pairs with
  | nil => exact fun _ => rfl
  | cons p pairs ih =>
    intro all
    obtain ⟨x, hx, b, z, stored, normal, named, rfl⟩ := all p List.mem_cons_self
    obtain ⟨z', l, r, l', r', -, tied, here, there⟩ := knit store hs x b hx stored normal
    cases (variableOf_alternative there).symm.trans named
    calc linkPairs ((⟨x, b.bound⟩, ⟨z, b.partner⟩) :: pairs) m
        = _ := (bind_ok (instantiateEnd_idle here nofun nofun)).trans
          (bind_ok (instantiateEnd_idle there nofun nofun))
      _ = _ := bind_ok (link_idle (x := ⟨x, b.bound⟩) (y := ⟨z, b.partner⟩) hs tied)
      _ = _ := ih fun q hq => all q (List.mem_cons_of_mem _ hq)

/-- A variable that is narrowed and tied to all that it is bound to needs nothing more. -/
theorem bindGenerators_idle (knit : m.Knit D) (hx : D id) : bindGenerators id m = .ok () m := by
  refine (bind_ok (show (get : Eff Machine) m = .ok m m from rfl)).trans ?_
  cases hs : m.frontConstraints? with
  | none => rfl
  | some store =>
    have readable : store.Readable m.variableOf D := by
      intro x b hx hb normal
      obtain ⟨z, l, r, l', r', hz, -, -, there⟩ := knit store hs x b hx hb normal
      exact ⟨_, variableOf_alternative there, fun y hy => Option.some.inj hy ▸ hz⟩
    obtain ⟨pairs, run, mem⟩ := ConstraintStore.boundPairs_exact readable hx
    have kind : ∀ z, Relation.ReflTransGen (store.Next m.variableOf) id z → D z := by
      intro z path
      induction path with
      | refl => exact hx
      | tail _ step ih =>
        obtain ⟨p, ⟨b, z, stored, normal, named, rfl⟩, rfl⟩ := step
        obtain ⟨o, read, all⟩ := readable _ b ih stored normal
        cases named.symm.trans read
        exact all z rfl
    refine (bind_ok (look_ok run)).trans (linkPairs_idle knit hs pairs fun p hp => ?_)
    obtain ⟨z, path, at_⟩ := (mem p).mp hp
    exact ⟨z, kind z path, at_⟩

/-- Pulling a choice does nothing else, if it is no narrowed variable or all is tied already. -/
theorem pull_pulls (hσ : m.signature.Sound) (sound : m.graph.Sound) (room : m.Room s (a + 2))
    (hu : m.graph.Holds u c) (fits : c.Fits m.signature) (short : c.links.length ≤ 2)
    (hk : c.links[k]? = some w) (hw : m.graph.Holds w (.alternative narrowed id l r))
    (tag : c.tag ≠ .choice) (knit : m.Knit D) (hid : D id) :
    ∃ g', pull u k m = .ok () (m.setGraph g') ∧ g'.Sound ∧ g'.capacity = m.graph.capacity ∧
      (m.setGraph g').Room s a ∧ m.graph.Pulled u c k narrowed id l r g' := by
  obtain ⟨g', run, sound', capacity, -, nodes, pulled, -⟩ :=
    pullTab_pulls hσ sound room.nodes hu fits short hk hw
  refine ⟨g', ?_, sound', capacity, room.setGraph nodes, pulled⟩
  have found : m.successorSkip u k = .ok w := by
    simp only [TermGraph.successorSkip, successor_reads hσ hu fits hk, bind, Except.bind, Link.target]
    exact skip_alternative hw
  have symbol := TermGraph.symbolId_content (t := m.toTermGraph) hw.content
  have knit' : (m.setGraph g').Knit D := knit.advance rfl fun i id l r hi =>
    pulled.others i _ (hi.ne hu fun same => tag same.symm) hi
  refine (bind_ok (look_ok found)).trans ((bind_ok (look_ok symbol)).trans ?_)
  cases narrowed with
  | false => exact run
  | true =>
    have aux := TermGraph.aux_content (t := m.toTermGraph) hw.content
    calc pullBind u k m
        = _ := (bind_ok (look_ok found)).trans (bind_ok (look_ok aux))
      _ = _ := bind_ok run
      _ = _ := bindGenerators_idle knit' hid

/-! ## What is in normal form -/

/-- A variable of no type is left alone. -/
theorem variable_normal {f z : Nat} (hσ : m.signature.Sound) (hf : m.graph.Holds f (freeContent z none))
    (room : m.Room (s + 1) a) :
    normalize (F + 1) f m = .ok () { m with slice := m.slice.spend } :=
  normalize_still room.goes hσ hf.content (.untyped z) nofun (fun call => by cases call.1)
    fun data => by cases data.1.choose_spec

theorem field_taken (count : Nat) {q : NodeId} (read : m.successor u k = .ok (some q))
    (ran : normalize F q m = .ok () m₁) :
    normalizeFields (reducer F) u (count + 1) k m = takeField (reducer F) u count k q m₁ :=
  (bind_ok (look_ok read)).trans
    ((bind_ok (look_ok (r := fun _ => Link.target (some q)) rfl)).trans (bind_ok ran))

theorem field_passed {r : Reducer} (u : NodeId) (count k : Nat) {q : NodeId}
    (hq : m.graph.content? q = some d) (ends : d.tag ≠ .forward) : takeField r u count k q m = passField r u count k q m := by
  unfold takeField
  refine (bind_ok (look_ok (TermGraph.skip_self hq ends))).trans ?_
  rw [if_neg fun differ => differ rfl]

theorem fields_normal (hσ : m.signature.Sound) (hx : m.graph.Holds x c) (fits : c.Fits m.signature)
    (fields : ∀ f ∈ c.links, ∃ z, m.graph.Holds f (freeContent z none)) :
    ∀ (count k : Nat) (slice : Slice), k + count = c.links.length →
      Room (s + count) a { m with slice := slice } →
      ∃ slice', normalizeFields (reducer (F + 1)) x count k { m with slice := slice } =
        .ok () { m with slice := slice' } ∧ Room s a { m with slice := slice' } := by
  intro count
  induction count with
  | zero => exact fun k slice _ room => ⟨slice, rfl, room⟩
  | succ count ih =>
    intro k slice total room
    have lt : k < c.links.length := by omega
    have hk := List.getElem?_eq_getElem lt
    obtain ⟨z, hf⟩ := fields _ (List.getElem_mem lt)
    have read := successor_reads (m := { m with slice := slice }) hσ hx fits hk
    have ran := variable_normal (m := { m with slice := slice }) (F := F) (s := s + count) hσ hf room
    obtain ⟨slice', rest, left⟩ := ih (k + 1) slice.spend (by omega)
      (Room.spend (m := { m with slice := slice }) (s := s + count) room)
    refine ⟨slice', ?_, left⟩
    have passed := field_passed (m := { m with slice := slice.spend }) (r := reducer (F + 1)) x
      count k hf.content nofun
    have tag : ({ m with slice := slice.spend } : Machine).tag c.links[k] = .ok .free :=
      TermGraph.tag_content hf.content
    exact (field_taken count read ran).trans (passed.trans
      ((bind_ok (look_ok (r := fun m => m.tag c.links[k]) tag)).trans rest))

/-- A term is in normal form already. -/
theorem term_normal (hσ : m.signature.Sound) (terms : m.Terms A [x]) (room : m.Room (s + A + 1) a) :
    ∃ slice, normalize (F + 2) x m = .ok () { m with slice := slice } ∧
      Room s a { m with slice := slice } := by
  obtain ⟨c, leaf, fits, few⟩ := terms x List.mem_cons_self
  have paid : Room (s + c.links.length) a { m with slice := m.slice.spend } :=
    room.spend.mono (by omega) le_rfl
  obtain ⟨slice, run, left⟩ := fields_normal (F := F) hσ leaf.holds fits leaf.fields _ 0 m.slice.spend
    (Nat.zero_add _) paid
  exact ⟨slice, (normalize_data room.goes hσ leaf.holds.content fits leaf.data).trans run, left⟩

/-! ## Driving an item to a term or to a choice -/

theorem demand_reads (hσ : m.signature.Sound) (he : m.graph.Holds e (.demand v)) :
    m.successor e 0 = .ok (some v) :=
  successor_reads hσ he (Content.demand_fits hσ v) rfl

/-- What is demanded is a term: the demand becomes an indirection to it. -/
theorem demand_value (hσ : m.signature.Sound) (sound : m.graph.Sound) (room : m.Room s a)
    (he : m.graph.Holds e (.demand v)) (leaf : m.graph.Leaf x c)
    (leads : v = x ∨ m.graph.Holds v (.indirection x)) :
    ∃ m', stepEnsureNotFree (reducer (F + 1)) e m = .ok () m' ∧ Advanced φ 0 m m' ∧ m'.Room s a ∧
      m'.graph.Holds e (.indirection x) := by
  obtain ⟨⟨index, tag⟩, -⟩ := leaf.data
  have apart : x ≠ e := leaf.holds.ne he (by rw [tag]; nofun)
  have skip : m.skip v = .ok x := by
    rcases leads with rfl | hv
    · exact TermGraph.skip_self leaf.holds.content (by rw [tag]; nofun)
    · exact TermGraph.skip_forward hv.content leaf.holds.content (by rw [tag]; nofun)
  have head : (reducer (F + 1)).head v m = .ok x m :=
    headNormalize_idle skip leaf.holds.content (by rw [tag]; nofun)
  obtain ⟨g₁, sets₁, forced⟩ := headArg_value (demand_reads hσ he) head sound hσ he.content
    (Content.demand_fits hσ v) rfl apart leaf.holds.content tag
  have first : Advanced φ 0 m (m.setGraph g₁) := by
    rcases leads with rfl | hv
    · exact .rewritten sets₁ he
    · exact .reformed sets₁.sound sets₁.capacity (sets₁.reforms_demand he hv) he
  have he₁ : g₁.Holds e (.demand x) := sets₁.holds he.unfree
  obtain ⟨g₂, written, sets₂⟩ := rewriteForward_wrote (m := m.setGraph g₁) sets₁.sound
    (Graph.content_lt he₁.content) x
  have second : Advanced φ 0 (m.setGraph g₁) (m.setGraph g₂) :=
    .reformed sets₂.sound sets₂.capacity
      (sets₂.toSets.reforms_value he₁ (first.advances.leaves x c leaf)) he₁
  have free : g₂.free = m.graph.free := sets₂.free.trans sets₁.free
  exact ⟨m.setGraph g₂, (bind_ok forced).trans written, first.trans second,
    room.setGraph (free.symm ▸ room.nodes), sets₂.toSets.holds he₁.unfree⟩

/-- What is demanded is a choice: it is pulled above the demand. -/
theorem demand_choice (hσ : m.signature.Sound) (sound : m.graph.Sound) (room : m.Room s (a + 2))
    (knit : m.Knit D) (hid : D id) (he : m.graph.Holds e (.demand v))
    (hv : m.graph.Holds v (.alternative narrowed id l r)) :
    ∃ m' p q, stepEnsureNotFree (reducer (F + 1)) e m = .ok () m' ∧ Advanced φ 0 m m' ∧ m'.Room s a ∧
      m'.graph.Holds e (.alternative narrowed id p q) := by
  have apart : v ≠ e := hv.ne he nofun
  have head : (reducer (F + 1)).head v m = .ok v m :=
    headNormalize_idle (skip_alternative hv) hv.content nofun
  obtain ⟨g₁, sets₁, hv₁, forced⟩ := headArg_settles (demand_reads hσ he) head sound hσ he.content
    (Content.demand_fits hσ v) rfl apart hv.content nofun nofun
  have first : Advanced φ 0 m (m.setGraph g₁) := .rewritten sets₁ he
  have he₁ : g₁.Holds e (.demand v) := sets₁.holds he.unfree
  have hv₁ : g₁.Holds v (.alternative narrowed id l r) := sets₁.holds_other apart hv
  have room₁ : (m.setGraph g₁).Room s (a + 2) := room.setGraph (sets₁.free.symm ▸ room.nodes)
  obtain ⟨g₂, pulls, sound₂, capacity, room₂, pulled⟩ := pull_pulls (m := m.setGraph g₁) (k := 0) hσ
    sets₁.sound room₁ he₁ (Content.demand_fits hσ v) (Nat.le_succ 1) rfl hv₁ nofun (first.knit knit) hid
  have tag : (m.setGraph g₁).tag v = .ok .choice :=
    TermGraph.tag_content (t := (m.setGraph g₁).toTermGraph) (c := .alternative narrowed id l r) hv₁.content
  have second : Advanced φ 0 (m.setGraph g₁) (m.setGraph g₂) :=
    .reformed sound₂ capacity (pulled.demand he₁ hv₁) he₁
  obtain ⟨p, q, he₂, -⟩ := pulled.copies
  have taken : headArg (reducer (F + 1)) e 0 m = .ok .taken (m.setGraph g₂) :=
    forced.trans ((bind_ok (look_ok (r := fun m => m.tag v) tag)).trans (bind_ok pulls))
  exact ⟨m.setGraph g₂, p, q, (bind_ok taken).trans rfl, first.trans second, room₂, he₂⟩

/-- An item leads to its term, or it is a choice and leads to itself. -/
inductive Heads (g : Graph) (x e : NodeId) : NodeId → Prop
  | value (leads : e = x ∨ g.Holds e (.indirection x)) : Heads g x e x
  | choice {narrowed : Bool} {id : ChoiceId} {l r : NodeId}
    (h : g.Holds e (.alternative narrowed id l r)) : Heads g x e e

/-- An item that comes to a term is driven to the term, or to a choice. -/
theorem item_head (hσ : m.signature.Sound) (sound : m.graph.Sound) (room : m.Room (s + 1) (a + 2))
    (knit : m.Knit D) (within : ∀ id side, φ id side → D id) (leaf : m.graph.Leaf x c)
    (resolves : m.graph.Resolves φ x true e n) :
    ∃ y m', headNormalize (F + 2) e m = .ok y m' ∧ Advanced φ 0 m m' ∧ m'.Room s a ∧
      Heads m'.graph x e y := by
  obtain ⟨⟨index, tag⟩, -⟩ := leaf.data
  have done : m.Room s a := room.mono (Nat.le_succ s) (Nat.le_add_right a 2)
  have still : Advanced φ 0 m m := .paid sound m.slice
  have ends : c.tag ≠ .forward := by rw [tag]; nofun
  have idle : c.tag ≠ .operation := by rw [tag]; nofun
  cases resolves with
  | here =>
    have skip : m.skip e = .ok e := TermGraph.skip_self leaf.holds.content ends
    exact ⟨e, m, headNormalize_idle skip leaf.holds.content idle, still, done, .value (.inl rfl)⟩
  | through he =>
    have skip : m.skip e = .ok x := TermGraph.skip_forward he.content leaf.holds.content ends
    exact ⟨x, m, headNormalize_idle skip leaf.holds.content idle, still, done, .value (.inr he)⟩
  | choice he =>
    exact ⟨e, m, headNormalize_idle (skip_alternative he) he.content nofun, still, done, .choice he⟩
  | @demand e v n he below =>
    let m₀ : Machine := { m with slice := m.slice.spend }
    have paid : Advanced φ 0 m m₀ := .paid sound _
    have room₀ : m₀.Room s (a + 2) := room.spend
    have leaf₀ : m₀.graph.Leaf x c := leaf
    have called : headNormalize (F + 2) e m =
        (stepEnsureNotFree (reducer (F + 1)) e >>= fun _ => headNormalize (F + 1) e) m₀ :=
      headNormalize_call room.goes (TermGraph.skip_self he.content nofun) he.content rfl
        ((hσ.prelude Prelude.standard.ensureNotFree (by decide)).trans rfl) rfl
    by_cases leads : v = x ∨ m.graph.Holds v (.indirection x)
    · obtain ⟨m₁, run, advanced, room₁, he₁⟩ := demand_value (m := m₀) (F := F) (φ := φ) hσ sound
        (room₀.mono le_rfl (Nat.le_add_right a 2)) he leaf₀ leads
      have leaf₁ := advanced.advances.leaves x c leaf₀
      have skip : m₁.skip e = .ok x := TermGraph.skip_forward he₁.content leaf₁.holds.content ends
      exact ⟨x, m₁, called.trans ((bind_ok run).trans (headNormalize_idle skip leaf₁.holds.content idle)),
        paid.trans advanced, room₁, .value (.inr he₁)⟩
    · cases below with
      | here => exact absurd (.inl rfl) leads
      | through hv => exact absurd (.inr hv) leads
      | choice hv taken =>
        obtain ⟨m₁, p, q, run, advanced, room₁, he₁⟩ := demand_choice (m := m₀) (F := F) (φ := φ) hσ
          sound room₀ (paid.knit knit) (within _ _ taken) he hv
        exact ⟨e, m₁, called.trans ((bind_ok run).trans
          (headNormalize_idle (skip_alternative he₁) he₁.content nofun)), paid.trans advanced, room₁,
          .choice he₁⟩

theorem normalize_called {sym : Symbol} (going : m.slice.isOver = false)
    (hc : m.graph.content? i = some c) (found : m.signature.symbol? c.symbol = some sym)
    (call : sym.normal = .call) : normalize (F + 1) i m =
      (headNormalize F i >>= takeHead (reducer F)) { m with slice := m.slice.spend } := by
  have symbol := TermGraph.symbol_content (t := m.toTermGraph) hc found
  rw [normalize_paid going]
  refine (bind_ok (look_ok symbol)).trans ?_
  rw [call]
  rfl

/-- The term that an item leads to is normalized as well; a choice is left alone. -/
theorem head_taken {y : NodeId} (hσ : m.signature.Sound) (terms : m.Terms A [x])
    (heads : Heads m.graph x e y) (room : m.Room (s + A + 1) a) :
    ∃ slice, takeHead (reducer (F + 2)) y m = .ok () { m with slice := slice } ∧
      Room s a { m with slice := slice } := by
  cases heads with
  | value leads =>
    obtain ⟨c, leaf, -⟩ := terms x List.mem_cons_self
    obtain ⟨⟨index, constructor_⟩, -⟩ := leaf.data
    have tag : m.tag x = .ok (.constructor index) :=
      (TermGraph.tag_content leaf.holds.content).trans (congrArg Except.ok constructor_)
    obtain ⟨slice, run, left⟩ := term_normal (F := F) hσ terms room
    exact ⟨slice, (bind_ok (look_ok (r := fun m => m.tag x) tag)).trans run, left⟩
  | choice he =>
    have tag : m.tag e = .ok .choice := TermGraph.tag_content he.content
    exact ⟨m.slice, (bind_ok (look_ok (r := fun m => m.tag e) tag)).trans rfl,
      room.mono (by omega) le_rfl⟩

/-- An item that comes to a term is normalized to an indirection to the term, or to a choice. -/
theorem item_normal (hσ : m.signature.Sound) (sound : m.graph.Sound)
    (room : m.Room (s + A + 3) (a + 2)) (knit : m.Knit D) (within : ∀ id side, φ id side → D id)
    (terms : m.Terms A [x]) (resolves : m.graph.Resolves φ x true e n) :
    ∃ m', normalize (F + 3) e m = .ok () m' ∧ Advanced φ 0 m m' ∧ m'.Room s a ∧
      ∃ y, Heads m'.graph x e y := by
  obtain ⟨c, leaf, -⟩ := terms x List.mem_cons_self
  let m₀ : Machine := { m with slice := m.slice.spend }
  have paid : Advanced φ 0 m m₀ := .paid sound _
  have room₀ : m₀.Room (s + A + 2) (a + 2) := room.spend
  have going := room.goes
  cases resolves with
  | here =>
    obtain ⟨slice, run, left⟩ := term_normal (F := F + 1) (s := s) (a := a) hσ terms
      (room.mono (by omega) (Nat.le_add_right a 2))
    exact ⟨_, run, .paid sound slice, left, e, .value (.inl rfl)⟩
  | through he =>
    obtain ⟨slice, run, left⟩ := term_normal (m := m₀) (F := F) (s := s) (a := a) hσ terms
      (room₀.mono (by omega) (Nat.le_add_right a 2))
    exact ⟨_, (normalize_forward going hσ he.content (.forward 0 x) rfl rfl).trans run,
      .paid sound slice, left, x, .value (.inr he)⟩
  | @choice _ narrowed _ _ _ id _ _ he =>
    refine ⟨m₀, normalize_still going hσ he.content (Content.alternative_fits narrowed id _ _) nofun
      (fun call => by cases call.1) (fun data => by cases data.1.choose_spec), paid,
      room₀.mono (by omega) (Nat.le_add_right a 2), e, .choice he⟩
  | @demand e v n he below =>
    obtain ⟨y, m₁, head, advanced, room₁, heads⟩ := item_head (m := m₀) (F := F) (s := s + A + 1)
      hσ sound room₀ (paid.knit knit) within leaf (.demand he below)
    obtain ⟨slice, run, left⟩ := head_taken (F := F) (advanced.signature.symm ▸ hσ)
      (advanced.terms terms) heads room₁
    exact ⟨_, (normalize_called going he.content
      ((hσ.prelude Prelude.standard.ensureNotFree (by decide)).trans rfl) rfl).trans
        ((bind_ok head).trans run), (paid.trans advanced).trans (.paid advanced.sound slice), left, y,
      heads⟩

/-! ## Normalizing a list -/

/-- A field that leads elsewhere is linked to where it leads. -/
theorem field_moved {r : Reducer} (count : Nat) (hσ : m.signature.Sound) (sound : m.graph.Sound)
    (hu : m.graph.Holds u c) (fits : c.Fits m.signature) (hk : c.links[k]? = some e)
    (skip : m.skip e = .ok x) : ∃ g', m.graph.Sets u (c.setLink k x) g' ∧
      takeField r u count k e m = passField r u count k x (m.setGraph g') := by
  by_cases same : x = e
  · subst same
    refine ⟨m.graph, ?_, ?_⟩
    · rw [Content.setLink_eq fits hk]
      exact ⟨sound, rfl, rfl, rfl, rfl, rfl, hu.content, fun _ _ => rfl⟩
    · refine (bind_ok (look_ok skip)).trans ?_
      rw [if_neg fun differ => differ rfl]
      rfl
  · obtain ⟨g', run, sets⟩ := (setSuccessor_writes sound hσ hu.content fits
      (List.getElem?_eq_some_iff.mp hk).1 x).sets (faults_setSuccessor u k (some x))
    refine ⟨g', sets, (bind_ok (look_ok skip)).trans ?_⟩
    rw [if_pos same]
    exact bind_ok run

/-- The node has become a choice, or it is a list of these terms. -/
def Passed (g : Graph) (xs : List NodeId) (u : NodeId) : Prop :=
  (∃ narrowed id l r, g.Holds u (.alternative narrowed id l r)) ∨ g.Lists xs u

/-- A choice in a field is pulled above the cell. -/
theorem cell_pulled {r : Reducer} (count : Nat) (hσ : m.signature.Sound) (sound : m.graph.Sound)
    (room : m.Room s (a + 2)) (knit : m.Knit D) (hid : D id)
    (single : ∀ id s s', φ id s → φ id s' → s = s') (spells : m.graph.Spells φ xs u n)
    (hu : m.graph.Holds u (.cons e t)) (hk : (Content.cons e t).links[k]? = some w)
    (hw : m.graph.Holds w (.alternative narrowed id l q)) :
    ∃ m', passField r u count k w m = .ok () m' ∧ Advanced φ (xs.length + 1) m m' ∧ m'.Room s a ∧
      Passed m'.graph xs u := by
  obtain ⟨g, pulls, sound', capacity, room', pulled⟩ := pull_pulls hσ sound room hu
    (Content.cons_fits hσ e t) (Nat.le_refl 2) hk hw nofun knit hid
  have tag : m.tag w = .ok .choice :=
    TermGraph.tag_content (t := m.toTermGraph) (c := .alternative narrowed id l q) hw.content
  have reforms : m.graph.Reforms u g := by
    rcases k with _ | _ | k
    · cases hk
      exact pulled.item hu hw
    · cases hk
      exact pulled.rest hu hw
    · cases hk
  obtain ⟨p, p', hu', -⟩ := pulled.copies
  exact ⟨m.setGraph g, (bind_ok (look_ok (r := fun m => m.tag w) tag)).trans pulls,
    .recelled sound' capacity reforms single spells, room', .inl ⟨_, _, _, _, hu'⟩⟩

theorem Passed.tag (h : Passed m.graph xs t) : ∃ d, m.graph.content? t = some d ∧
    (d.tag = .choice ∨ ∃ index, d.tag = .constructor index) := by
  rcases h with ⟨_, _, _, _, ht⟩ | lists
  · exact ⟨_, ht.content, .inl rfl⟩
  · cases lists with
    | nil h => exact ⟨_, h.content, .inr ⟨0, rfl⟩⟩
    | cons h => exact ⟨_, h.content, .inr ⟨1, rfl⟩⟩

/-- Once its rest has been normalized, a cell is done, or the choice in the rest is pulled above it. -/
theorem rest_passed (run : normalize F t m = .ok () m₁) (advanced : Advanced φ (xs.length + 1) m m₁)
    (room : m₁.Room s (a + 2)) (passed : Passed m₁.graph xs t) (hσ : m.signature.Sound)
    (knit : m.Knit D) (within : ∀ id side, φ id side → D id)
    (single : ∀ id s s', φ id s → φ id s' → s = s') (terms : m.Terms A (x :: xs))
    (hu : m.graph.Holds u (.cons x t)) (spells : m.graph.Spells φ xs t k) :
    ∃ m', normalizeFields (reducer F) u 1 1 m = .ok () m' ∧ Advanced φ (xs.length + 2) m m' ∧
      m'.Room s a ∧ Passed m'.graph (x :: xs) u := by
  have whole : m.graph.Spells φ (x :: xs) u (0 + k) := .cons hu .here spells
  have hσ₁ : m₁.signature.Sound := advanced.signature.symm ▸ hσ
  have hu₁ : m₁.graph.Holds u (.cons x t) :=
    advanced.cells u x t _ _ hu terms.leaves whole (Nat.le_refl _)
  have read : m.successor u 1 = .ok (some t) := successor_reads hσ hu (Content.cons_fits hσ x t) rfl
  have taken := field_taken 0 read run
  obtain ⟨d, hd, tag⟩ := passed.tag
  have goes := field_passed (m := m₁) (r := reducer F) u 0 1 hd (by
    rcases tag with tag | ⟨_, tag⟩ <;> rw [tag] <;> nofun)
  rcases passed with ⟨narrowed, id, l, q, ht⟩ | lists
  · have spells₁ := advanced.advances.spells φ xs t k
      (fun y hy => terms.leaves y (List.mem_cons_of_mem _ hy)) spells
    obtain ⟨side, _, _, decided, -⟩ := spells₁.taken ht
    obtain ⟨m', pulled, second, room', done⟩ := cell_pulled (r := reducer F) (k := 1) 0 hσ₁
      advanced.sound room (advanced.knit knit) (within id side decided) single
      (advanced.advances.spells φ _ u _ terms.leaves whole) hu₁ rfl ht
    exact ⟨m', taken.trans (goes.trans pulled), (advanced.mono (Nat.le_succ _)).trans second, room', done⟩
  · have tag : ∃ index, m₁.tag t = .ok (.constructor index) := by
      rcases tag with tag | ⟨index, tag⟩
      · cases lists with
        | nil h => cases h.content.symm.trans hd; cases tag
        | cons h => cases h.content.symm.trans hd; cases tag
      · exact ⟨index, (TermGraph.tag_content hd).trans (congrArg Except.ok tag)⟩
    obtain ⟨index, tag⟩ := tag
    exact ⟨m₁, taken.trans (goes.trans ((bind_ok (look_ok (r := fun m => m.tag t) tag)).trans rfl)),
      advanced.mono (Nat.le_succ _), room.mono le_rfl (Nat.le_add_right a 2), .inr (.cons hu₁ lists)⟩

/-- The first item of a cell has been normalized; the rest follows if the item is a term. -/
theorem item_passed {y : NodeId} {s₁ a₁ : Nat} (sound : m.graph.Sound) (hσ : m.signature.Sound)
    (room : m.Room s₁ a₁) (steps : s ≤ s₁) (nodes : a + 2 ≤ a₁) (knit : m.Knit D) (within : ∀ id side, φ id side → D id)
    (single : ∀ id s s', φ id s → φ id s' → s = s') (terms : m.Terms A (x :: xs))
    (hu : m.graph.Holds u (.cons e t)) (item : m.graph.Resolves φ x true e n)
    (spells : m.graph.Spells φ xs t k) (heads : Heads m.graph x e y)
    (rest : ∀ m₁, Advanced φ (xs.length + 2) m m₁ → m₁.Room s₁ a₁ →
      m₁.graph.Holds u (.cons x t) → ∃ m', normalizeFields (reducer F) u 1 1 m₁ = .ok () m' ∧
        Advanced φ (xs.length + 2) m₁ m' ∧ m'.Room s a ∧ Passed m'.graph (x :: xs) u) :
    ∃ m', takeField (reducer F) u 1 0 e m = .ok () m' ∧ Advanced φ (xs.length + 2) m m' ∧
      m'.Room s a ∧ Passed m'.graph (x :: xs) u := by
  obtain ⟨c, leaf, -⟩ := terms x List.mem_cons_self
  obtain ⟨⟨index, tag⟩, -⟩ := leaf.data
  have whole : m.graph.Spells φ (x :: xs) u (n + k) := .cons hu item spells
  cases heads with
  | choice he =>
    obtain ⟨side, _, _, decided, -⟩ := item.taken he ⟨c, leaf⟩
    obtain ⟨m', pulled, advanced, room', done⟩ := cell_pulled (r := reducer F) (k := 0) 1 hσ
      sound (room.mono steps nodes) knit (within _ side decided) single whole hu rfl he
    exact ⟨m', (field_passed u 1 0 he.content nofun).trans pulled, advanced, room', done⟩
  | value leads =>
    have ends : c.tag ≠ .forward := by rw [tag]; nofun
    have skip : m.skip e = .ok x := by
      rcases leads with rfl | he
      · exact TermGraph.skip_self leaf.holds.content ends
      · exact TermGraph.skip_forward he.content leaf.holds.content ends
    obtain ⟨g, sets, moved⟩ := field_moved (r := reducer F) 1 hσ sound hu
      (Content.cons_fits hσ e t) (k := 0) rfl skip
    have advanced : Advanced φ (xs.length + 2) m (m.setGraph g) := by
      rcases leads with rfl | he
      · exact .rewritten sets hu
      · exact .recelled sets.sound sets.capacity (sets.reforms_item hu he) single whole
    have leaf' := advanced.advances.leaves x c leaf
    have read : (m.setGraph g).tag x = .ok (.constructor index) :=
      (TermGraph.tag_content leaf'.holds.content).trans (congrArg Except.ok tag)
    obtain ⟨m', run, later, room', done⟩ := rest (m.setGraph g) advanced
      (room.setGraph (sets.free.symm ▸ room.nodes)) (sets.holds hu.unfree)
    exact ⟨m', moved.trans ((bind_ok (look_ok (r := fun m => m.tag x) read)).trans run),
      advanced.trans later, room', done⟩

/-- There is nothing to do about a choice. -/
theorem choice_normal (sound : m.graph.Sound) (hσ : m.signature.Sound) (room : m.Room (s + 1) a)
    (hu : m.graph.Holds u (.alternative narrowed id l r)) :
    ∃ m', normalize (F + 1) u m = .ok () m' ∧ Advanced φ k m m' ∧ m'.Room s a ∧
      Passed m'.graph xs u :=
  ⟨_, normalize_still room.goes hσ hu.content (Content.alternative_fits narrowed id l r) nofun
    (fun call => by cases call.1) (fun data => by cases data.1.choose_spec), .paid sound _, room.spend,
    .inl ⟨narrowed, id, l, r, hu⟩⟩

/-- A node that comes to a list is normalized to the list, or to a choice. -/
theorem list_normal (within : ∀ id side, φ id side → D id)
    (single : ∀ id s s', φ id s → φ id s' → s = s') : ∀ (xs : List NodeId) (m : Machine)
    (u n s a : Nat), m.graph.Sound → m.signature.Sound → m.Knit D → m.Terms A xs →
      m.graph.Spells φ xs u n → m.Room (s + (A + 5) * (xs.length + 1)) (a + 4 * (xs.length + 1)) →
      ∃ m', normalize (F + xs.length + 4) u m = .ok () m' ∧ Advanced φ (xs.length + 1) m m' ∧
        m'.Room s a ∧ Passed m'.graph xs u := by
  intro xs
  induction xs with
  | nil =>
    intro m u n s a sound hσ knit terms spells room
    have room' : m.Room (s + 1) a := room.mono (by simp only [List.length_nil]; omega) (by omega)
    cases spells with
    | choice hu => exact choice_normal sound hσ room' hu
    | nil hu =>
      exact ⟨_, normalize_data (F := F + 3) room'.goes hσ hu.content (Content.nil_fits hσ)
        Content.nil_isData, .paid sound _, room'.spend, .inr (.nil hu)⟩
  | cons x xs ih =>
    intro m u n s a sound hσ knit terms spells room
    have bound : (A + 5) * (xs.length + 1 + 1) = (A + 5) * (xs.length + 1) + (A + 5) :=
      Nat.mul_succ _ _
    generalize hs₁ : s + (A + 5) * (xs.length + 1) = s₁
    generalize ha₁ : a + 2 + 4 * (xs.length + 1) = a₁
    replace room : m.Room (s₁ + A + 4 + 1) (a₁ + 2) := room.mono (by rw [List.length_cons]; omega)
      (by rw [List.length_cons]; omega)
    cases spells with
    | choice hu =>
      exact choice_normal (F := F + (xs.length + 1) + 3) sound hσ (room.mono (by omega) (by omega)) hu
    | @cons _ e t _ _ n k hu item spells =>
      let m₀ : Machine := { m with slice := m.slice.spend }
      have paid : Advanced φ (xs.length + 2) m m₀ := .paid sound _
      obtain ⟨m₁, first, advanced, room₁, y, heads⟩ := item_normal (m := m₀) (F := F + xs.length + 1)
        (s := s₁ + 1) hσ sound (room.spend.mono (by omega) le_rfl) (paid.knit knit) within
        (fun z hz => terms z (List.mem_singleton.mp hz ▸ List.mem_cons_self)) item
      have hσ₁ : m₁.signature.Sound := advanced.signature.symm ▸ hσ
      have terms₁ : m₁.Terms A (x :: xs) := advanced.terms (m := m₀) terms
      have whole : m.graph.Spells φ (x :: xs) u (n + k) := .cons hu item spells
      have hu₁ : m₁.graph.Holds u (.cons e t) :=
        advanced.cells u e t _ _ hu terms.leaves whole (Nat.zero_le _)
      have item₁ := advanced.advances.resolves φ x true e n (terms.leaves x List.mem_cons_self) item
      have spells₁ := advanced.advances.spells φ xs t k
        (fun z hz => terms.leaves z (List.mem_cons_of_mem _ hz)) spells
      have knit₁ : m₁.Knit D := advanced.knit (m := m₀) knit
      obtain ⟨m', rest, later, room', done⟩ := item_passed (F := F + xs.length + 4) (s := s) (a := a)
        advanced.sound hσ₁ room₁ (by omega) (by omega) knit₁ within single terms₁ hu₁ item₁ spells₁
        heads fun m₂ advanced₂ room₂ hu₂ => by
          have hσ₂ : m₂.signature.Sound := advanced₂.signature.symm ▸ hσ₁
          have terms₂ := advanced₂.terms terms₁
          have spells₂ := advanced₂.advances.spells φ xs t k
            (fun z hz => terms₁.leaves z (List.mem_cons_of_mem _ hz)) spells₁
          obtain ⟨m₃, run, advanced₃, room₃, passed⟩ := ih m₂ t k s (a + 2) advanced₂.sound hσ₂
            (advanced₂.knit knit₁) (fun z hz => terms₂ z (List.mem_cons_of_mem _ hz)) spells₂
            (room₂.mono (by omega) (by omega))
          exact rest_passed run advanced₃ room₃ passed hσ₂ (advanced₂.knit knit₁) within single terms₂
            hu₂ spells₂
      have read : m₀.successor u 0 = .ok (some e) :=
        successor_reads (m := m₀) hσ hu (Content.cons_fits hσ e t) rfl
      refine ⟨m', ?_, (paid.trans (advanced.mono (Nat.zero_le _))).trans later, room', done⟩
      exact (normalize_data (F := F + xs.length + 4) room.goes hσ hu.content (Content.cons_fits hσ e t)
        (Content.cons_isData e t)).trans ((field_taken (m := m₀) 1 read first).trans rest)

end Reduction

end ChoiceGraph
