import ChoiceGraph.Proofs.Instantiation

/-! # Narrowing bound variables together

Where a variable is narrowed to a single constructor, the variables that are bound to it are narrowed
as well. If they are all of its type, this makes no failure and no choice either, and every value stays
one. Where a choice is pulled, they are narrowed to choices; but then the node is taken over. -/
namespace ChoiceGraph

theorem except_bind_eq_ok {α β : Type} {e : Except Fault α} {f : α → Except Fault β} {b : β}
    (run : (e >>= f) = .ok b) : ∃ a, e = .ok a ∧ f a = .ok b := by
  cases e with
  | error fault => cases run
  | ok a => exact ⟨a, rfl, run⟩

/-- What each of the reads returns, one of them has read. -/
theorem mem_of_mapM_ok {α β : Type} {f : α → Except Fault β} : ∀ {l : List α} {bs : List β},
    l.mapM f = .ok bs → ∀ b ∈ bs, ∃ a ∈ l, f a = .ok b := by
  intro l
  induction l with
  | nil =>
    intro bs run b hb
    cases run
    exact absurd hb List.not_mem_nil
  | cons a l ih =>
    intro bs run b hb
    rw [List.mapM_cons] at run
    obtain ⟨b₀, first, run⟩ := except_bind_eq_ok run
    obtain ⟨bs₀, rest, run⟩ := except_bind_eq_ok run
    cases run
    rcases List.mem_cons.mp hb with rfl | hb
    · exact ⟨a, List.mem_cons_self, first⟩
    · obtain ⟨a', ha', read⟩ := ih rest b hb
      exact ⟨a', List.mem_cons_of_mem _ ha', read⟩

namespace ConstraintStore

variable {s : ConstraintStore} {g : Graph} {varOf : NodeId → Except Fault (Option VarId)}
  {u : VarId} {pairs : List (BoundVar × BoundVar)}

/-- Two variables that are bound, at anchors of them. -/
structure Couples (s : ConstraintStore) (g : Graph) (p : BoundVar × BoundVar) : Prop where
  binds : s.Binds p.1.id p.2.id
  left : p.1.node ∈ s.nodes ∧ g.Anchors p.1.id p.1.node
  right : p.2.node ∈ s.nodes ∧ g.Anchors p.2.id p.2.node

/-- The variable of a node is known if it is no other than the one anchored there. -/
def Knows (s : ConstraintStore) (g : Graph) (varOf : NodeId → Except Fault (Option VarId)) : Prop :=
  ∀ i ∈ s.nodes, ∀ y z, varOf i = .ok (some z) → g.Anchors y i → z = y

theorem pairsOf_couples (fastened : s.Fastened g) (known : s.Knows g varOf)
    (run : s.pairsOf varOf u = .ok pairs) : ∀ p ∈ pairs, p.1.id = u ∧ s.Couples g p := by
  intro p hp
  obtain ⟨read, reads, run⟩ := except_bind_eq_ok run
  cases run
  obtain ⟨o, ho, hp⟩ := List.mem_filterMap.mp hp
  obtain ⟨b, hb, entry⟩ := mem_of_mapM_ok reads o ho
  obtain ⟨listed, normal⟩ := List.mem_filter.mp hb
  have normal : b.isLazy = false := by simpa using normal
  obtain ⟨⟨u', b'⟩, stored, same⟩ := List.mem_filterMap.mp listed
  simp only at same
  split at same
  · next here =>
    cases same
    subst here
    obtain ⟨z?, named, entry⟩ := except_bind_eq_ok entry
    cases entry
    obtain ⟨z, rfl, rfl⟩ := Option.map_eq_some_iff.mp hp
    obtain ⟨w, binds, partner⟩ := fastened.binds stored normal
    have inside : b.bound ∈ s.nodes ∧ b.partner ∈ s.nodes :=
      ⟨List.mem_flatMap.mpr ⟨_, stored, List.mem_cons_self⟩,
        List.mem_flatMap.mpr ⟨_, stored, List.mem_cons_of_mem _ List.mem_cons_self⟩⟩
    obtain rfl : z = w := known b.partner inside.2 w z named partner
    exact ⟨rfl, binds, ⟨inside.1, (fastened u' b stored normal).1⟩, inside.2, partner⟩
  · cases same

theorem mem_unseen : ∀ (seen xs : List VarId) (x : VarId), x ∈ unseen seen xs → x ∈ xs := by
  intro seen xs
  induction xs generalizing seen with
  | nil => exact fun x hx => hx
  | cons y ys ih =>
    intro x hx
    unfold unseen at hx
    split at hx
    · exact List.mem_cons_of_mem _ (ih seen x hx)
    · rcases List.mem_cons.mp hx with rfl | hx
      · exact List.mem_cons_self
      · exact List.mem_cons_of_mem _ (ih _ x hx)

/-- All the pairs that are collected are connected to where the collection starts. -/
theorem pairsFrom_couples (var : VarId) (fastened : s.Fastened g) (known : s.Knows g varOf) :
    ∀ (rounds : Nat) (seen pending : List VarId) (pairs : List (BoundVar × BoundVar)),
      (∀ u ∈ pending, s.Bound var u) → s.pairsFrom varOf rounds seen pending = .ok pairs →
      ∀ p ∈ pairs, s.Bound var p.1.id ∧ s.Couples g p := by
  intro rounds
  induction rounds with
  | zero =>
    intro seen pending pairs _ run p hp
    cases run
    exact absurd hp List.not_mem_nil
  | succ rounds ih =>
    intro seen pending pairs bound run p hp
    cases pending with
    | nil =>
      cases run
      exact absurd hp List.not_mem_nil
    | cons u pending =>
      obtain ⟨here, first, run⟩ := except_bind_eq_ok run
      obtain ⟨rest, later, run⟩ := except_bind_eq_ok run
      cases run
      have couples := pairsOf_couples fastened known first
      rcases List.mem_append.mp hp with hp | hp
      · obtain ⟨same, couples⟩ := couples p hp
        exact ⟨same ▸ bound u List.mem_cons_self, couples⟩
      · refine ih _ _ rest (fun v hv => ?_) later p hp
        rcases List.mem_append.mp hv with hv | hv
        · obtain ⟨q, hq, rfl⟩ := List.mem_map.mp (mem_unseen _ _ v (List.mem_reverse.mp hv))
          obtain ⟨same, couples⟩ := couples q hq
          exact .tail (bound u List.mem_cons_self) (same ▸ couples.binds)
        · exact bound v (List.mem_cons_of_mem _ hv)

end ConstraintStore

namespace Machine

variable {m m' : Machine} {y : VarId}

/-- A variable with this identifier has a type with exactly one constructor, or none. -/
def Lone (m : Machine) (y : VarId) : Prop :=
  ∀ i type d, m.graph.content? i = some (Eff.freeContent y (some type)) →
    m.signature.types[type]? = some d → d.constructors.length = 1

theorem Lone.after (h : m.Lone y) (c : m.Carries m') : m'.Lone y := fun i type d hi hd =>
  h i type d (c.types i _ type hi rfl) (c.signature ▸ hd)

end Machine

namespace Reduction

open Eff Machine

variable {m : Machine} {ρ : Rank} {root i x p : NodeId} {c d : Content} {k : Nat} {s : Scope}
  {y var : VarId}

theorem instantiateEnd_tends (h : m.Inv [] ρ) (live : m.Live [] i) (anchors : m.graph.Anchors y i) :
    (instantiateEnd i).Tends m fun _ m' => m.Lone y →
      ∀ j, m.Live [] j → m.graph.Value j → m'.graph.Value j := by
  obtain ⟨x, c, skip, leads, hc, -⟩ := h.read_skip live
  unfold instantiateEnd
  refine tends_read skip (tends_read (TermGraph.tag_content hc)
    (tends_read (TermGraph.literal_content hc) ?_))
  split
  · next free =>
    refine (instantiate_tends h (live.leads leads) hc free.1).bind ?_
    rintro n m' - carries ⟨id, type, d, rfl, hd, count, -, kept⟩
    refine tends_pure fun lone => kept ?_
    obtain rfl : id = y := (anchors.leads leads).id hc (.inl rfl)
    exact count.trans (lone x type d hc hd)
  · exact tends_pure fun _ _ _ value => value

/-! ## Tying generators -/

/-- Fields that are paired are recognised as variables on both sides. -/
theorem fieldPairs_variables {t : TermGraph} {a b : NodeId} {pairs : List (BoundVar × BoundVar)}
    (run : Generator.fieldPairs t a b = .ok pairs) : ∀ p ∈ pairs,
      t.variableOf p.1.node = .ok (some p.1.id) ∧ t.variableOf p.2.node = .ok (some p.2.id) := by
  intro p hp
  obtain ⟨xs, -, run⟩ := except_bind_eq_ok run
  obtain ⟨ys, -, run⟩ := except_bind_eq_ok run
  obtain ⟨read, reads, run⟩ := except_bind_eq_ok run
  cases run
  obtain ⟨o, ho, hp⟩ := List.mem_filterMap.mp hp
  obtain ⟨⟨x, y⟩, -, run⟩ := mem_of_mapM_ok reads o ho
  obtain ⟨i, -, run⟩ := except_bind_eq_ok run
  obtain ⟨j, -, run⟩ := except_bind_eq_ok run
  obtain ⟨u, hu, run⟩ := except_bind_eq_ok run
  obtain ⟨v, hv, run⟩ := except_bind_eq_ok run
  cases u with
  | none =>
    cases run
    cases hp
  | some u =>
    cases v with
    | none =>
      cases run
      cases hp
    | some v =>
      cases run
      cases hp
      exact ⟨hu, hv⟩

theorem allFieldPairs_variables {t : TermGraph} {a b : Generator}
    {pairs : List (BoundVar × BoundVar)} (run : Generator.allFieldPairs t a b = .ok pairs) :
    ∀ p ∈ pairs, t.variableOf p.1.node = .ok (some p.1.id) ∧
      t.variableOf p.2.node = .ok (some p.2.id) := by
  intro p hp
  obtain ⟨lists, read, run⟩ := except_bind_eq_ok run
  cases run
  obtain ⟨l, hl, hp⟩ := List.mem_flatten.mp hp
  obtain ⟨_, -, run⟩ := mem_of_mapM_ok read l hl
  exact fieldPairs_variables run p hp

/-- Tying choices and binding anchors keeps a store fastened. -/
theorem linkConstraints_fastened {g : Graph} {x y : BoundVar} {a b : Generator}
    {fields : List (BoundVar × BoundVar)} {st : ConstraintStore} (fastened : st.Fastened g)
    (anchored : ∀ p ∈ fields, g.Anchors p.1.id p.1.node ∧ g.Anchors p.2.id p.2.node) :
    (linkConstraints x y a b fields st).Fastened g := by
  have binds : ∀ (fields : List (BoundVar × BoundVar)) (st : ConstraintStore), st.Fastened g →
      (∀ p ∈ fields, g.Anchors p.1.id p.1.node ∧ g.Anchors p.2.id p.2.node) →
      (fields.foldl (fun s p => s.bind p.1 p.2 false) st).Fastened g := by
    intro fields
    induction fields with
    | nil => exact fun st fastened _ => fastened
    | cons p fields ih =>
      intro st fastened anchored
      obtain ⟨left, right⟩ := anchored p List.mem_cons_self
      exact ih _ (fastened.bind left right) fun q hq => anchored q (List.mem_cons_of_mem _ hq)
  exact binds fields _ (fastened.congr ((foldl_ties _ _).2.trans ConstraintStore.tie_bindings))
    anchored

theorem link_tends (h : m.Inv [] ρ) {x y : BoundVar} (hx : m.Live [] x.node)
    (hy : m.Live [] y.node) : (link x y).Tends m fun _ m' => m'.graph = m.graph := by
  unfold link
  refine tends_get ?_
  split
  · exact tends_pure rfl
  · next store _ =>
    split
    · exact tends_pure rfl
    · obtain ⟨a, ra, ha⟩ := ofVar_ok h hx
      obtain ⟨b, rb, hb⟩ := ofVar_ok h hy
      refine tends_read ra (tends_read rb (tends_look_bind fun same _ => ?_))
      split
      · obtain ⟨fields, rf, hf⟩ := allFieldPairs_ok h ha hb
        have named := allFieldPairs_variables rf
        refine tends_read rf ⟨carries_constrained h (linkConstraints_extends x y a b fields)
          (fun st i hi => (linkConstraints_nodes hi).imp_right ?_) fun st fastened =>
          linkConstraints_fastened fastened fun p hp => ?_, mapInnermost_graph _⟩
        · rintro ⟨p, hp, rfl | rfl⟩
          · exact (hf p hp).1
          · exact (hf p hp).2
        · exact ⟨anchors_of_variableOf h (hf p hp).1 (named p hp).1,
            anchors_of_variableOf h (hf p hp).2 (named p hp).2⟩
      · exact tends_pure rfl

theorem linkPairs_tends : ∀ (pairs : List (BoundVar × BoundVar)) (m : Machine) (ρ : Rank),
    m.Inv [] ρ → (∀ p ∈ pairs, (some p.1.node ∈ m.rootSet ∧ m.graph.Anchors p.1.id p.1.node) ∧
      some p.2.node ∈ m.rootSet ∧ m.graph.Anchors p.2.id p.2.node) →
    (linkPairs pairs).Tends m fun _ m' => (∀ p ∈ pairs, m.Lone p.1.id ∧ m.Lone p.2.id) →
      ∀ i, m.Steady s ρ i → m.graph.Value i → m'.graph.Value i := by
  intro pairs
  induction pairs with
  | nil => exact fun m ρ _ _ => tends_pure fun _ _ _ value => value
  | cons p pairs ih =>
    intro m ρ h ends
    obtain ⟨⟨hx, ax⟩, hy, ay⟩ := ends p List.mem_cons_self
    unfold linkPairs
    refine (instantiateEnd_tends h (live_root hx) ax).bind fun _ m₁ run₁ c₁ kept₁ => ?_
    obtain ⟨ρ₁, ev₁, -⟩ := (instantiateEnd_keeps (s := s) h (live_root hx)).ok run₁
    refine (instantiateEnd_tends ev₁.inv (live_root (c₁.rooted hy)) (c₁.anchors _ _ hy ay)).bind
      fun _ m₂ run₂ c₂ kept₂ => ?_
    obtain ⟨ρ₂, ev₂, -⟩ := (instantiateEnd_keeps (s := s) ev₁.inv (live_root (c₁.rooted hy))).ok run₂
    have c₁₂ := c₁.trans c₂
    have hx₂ : m₂.Live [] p.1.node := live_root (c₁₂.rooted hx)
    have hy₂ : m₂.Live [] p.2.node := live_root (c₁₂.rooted hy)
    refine (link_tends ev₂.inv hx₂ hy₂).bind fun _ m₃ run₃ c₃ graph => ?_
    obtain ⟨ρ₃, ev₃, -⟩ := (link_keeps (s := s) ev₂.inv hx₂ hy₂).ok run₃
    have c := c₁₂.trans c₃
    have ends₃ : ∀ q ∈ pairs, (some q.1.node ∈ m₃.rootSet ∧ m₃.graph.Anchors q.1.id q.1.node) ∧
        some q.2.node ∈ m₃.rootSet ∧ m₃.graph.Anchors q.2.id q.2.node := fun q hq => by
      obtain ⟨⟨hu, au⟩, hv, av⟩ := ends q (List.mem_cons_of_mem _ hq)
      exact ⟨⟨c.rooted hu, c.anchors _ _ hu au⟩, c.rooted hv, c.anchors _ _ hv av⟩
    refine (ih m₃ ρ₃ ev₃.inv ends₃).mono fun _ m' _ _ kept₄ lone i steady value => ?_
    obtain ⟨lx, ly⟩ := lone p List.mem_cons_self
    have steady₁ := ev₁.steady steady
    have steady₂ := ev₂.steady steady₁
    have value₂ := kept₂ (ly.after c₁) i steady₁.live (kept₁ lx i steady.live value)
    refine kept₄ (fun q hq => ?_) i (ev₃.steady steady₂) (graph ▸ value₂)
    obtain ⟨lu, lv⟩ := lone q (List.mem_cons_of_mem _ hq)
    exact ⟨lu.after c, lv.after c⟩

theorem bindGenerators_tends (h : m.Inv [] ρ) (secure : m.Secure) (var : VarId) :
    (bindGenerators var).Tends m fun _ m' =>
      (∀ st, m.frontConstraints? = some st → ∀ z, st.Bound var z → m.Lone z) →
      ∀ i, m.Steady s ρ i → m.graph.Value i → m'.graph.Value i := by
  unfold bindGenerators
  refine tends_get ?_
  split
  · exact tends_pure fun _ _ _ value => value
  · next store hs =>
    obtain ⟨v, hv, rfl⟩ := view_of_front hs
    have known : v.bound.Knows m.graph m.variableOf := fun i hi y z named anchors =>
      variableOf_anchors h (live_root (rootSet_of_front hs hi)) named anchors
    refine tends_look_bind fun pairs read => ?_
    have couples := ConstraintStore.pairsFrom_couples var (secure v hv) known _ _ _ pairs
      (fun u hu => List.mem_singleton.mp hu ▸ .refl) read
    refine (linkPairs_tends (s := s) pairs m ρ h fun p hp => ?_).mono ?_
    · obtain ⟨-, -, left, right⟩ := couples p hp
      exact ⟨⟨rootSet_of_front hs left.1, left.2⟩, rootSet_of_front hs right.1, right.2⟩
    · intro _ m' _ _ kept lone
      refine kept fun p hp => ?_
      obtain ⟨bound, binds, -⟩ := couples p hp
      exact ⟨lone _ hs _ bound, lone _ hs _ (.tail bound binds)⟩

/-! ## Narrowing and pulling -/

/-- A variable that is narrowed becomes a failure or a choice, or else all values stay. -/
theorem narrow_tends (h : m.Inv [] ρ) (secure : m.Secure) (live : m.Live [] x)
    (hc : m.graph.content? x = some c) (tag : c.tag = .free) (q : ℚ) :
    (narrow x).Tends m fun _ m' => m'.toTermGraph.Spoiled x ∨ m.Calm q ρ m' := by
  unfold narrow
  refine tends_read (TermGraph.aux_content hc) ?_
  refine (instantiate_tends h live hc tag).bind ?_
  rintro n m₁ run₁ c₁ ⟨id, type, d, rfl, hd, count, generates, kept⟩
  split
  · next single =>
    obtain ⟨ρ₁, ev₁, -⟩ := (instantiate_keeps (s := .below q) h live hc tag).ok run₁
    refine (bindGenerators_tends (s := .below q) ev₁.inv (c₁.secure secure) id).mono ?_
    intro _ m' _ c₂ kept₂
    refine .inr fun uniform i steady value => ?_
    refine kept₂ ?_ i (ev₁.steady steady) (kept single i steady.live value)
    -- what is bound to the variable is of its type, which has one constructor
    intro st hs z bound j type' d' free hd'
    obtain ⟨st', hs', grows⟩ := c₂.search.front hs
    have same : type = type' := uniform st' hs' id z x j type type' (bound.mono grows) hc
      (c₁.types j _ type' free rfl)
    subst same
    rw [c₁.signature, hd] at hd'
    cases hd'
    exact count.symm.trans single
  · next many => exact tends_pure (.inl (generates.spoils many))

/-- Pulling a choice takes over a node that anchors no variable. -/
theorem pull_tends {j : NodeId} (w : m.Site s ρ root c) (secure : m.Secure)
    (loose : ∀ y, ¬ m.graph.Anchors y root) (hk : c.links[k]? = some p) (leads : m.graph.Leads p j)
    (hd : m.graph.content? j = some d) (tag : d.tag = .choice) :
    (pull root k).Tends m fun _ m' => m'.toTermGraph.Spoiled root := by
  obtain ⟨symbol, id, left, right, rfl, kind⟩ := (w.inv.fitsAt (w.below hk leads).1 hd).of_choice tag
  have below : m.ChoiceBelow root c k j symbol id left right := ⟨⟨p, hk, leads⟩, hd, kind⟩
  have skip := choiceBelow_skip w.inv w.live w.content below
  have pulled := (pullTab_edits root k).tends w.inv w.live loose
  refine Tends.mono (P := fun _ _ => True) ?_ fun _ m' run _ _ => pull_spoils w hk leads hd tag run
  unfold pull
  refine tends_read skip (tends_read (TermGraph.symbolId_content hd) ?_)
  split
  · unfold pullBind
    refine tends_read skip (tends_read (TermGraph.aux_content hd) ?_)
    refine pulled.bind fun _ m₁ run₁ c₁ _ => ?_
    obtain ⟨ρ₁, ev₁, -⟩ := (pullTab_keeps w.inv w.live w.content below w.loose).ok run₁
    exact (bindGenerators_tends (s := s) ev₁.inv (c₁.secure secure) _).mono fun _ _ _ _ _ => trivial
  · exact pulled.mono fun _ _ _ _ _ => trivial

end Reduction

end ChoiceGraph
