import ChoiceGraph.Proofs.Asking
import ChoiceGraph.Proofs.Dealing
import ChoiceGraph.Proofs.Places

/-! # The first demand

A list demands variables that a chain of bindings connects. Its first item narrows the variable in front,
and with it all the others. Where there are several constructors, the choice of the first variable is
pulled above the item; where there is one, the item becomes an indirection to it. From then on the list
comes to one list of terms for each constructor. -/
namespace ChoiceGraph.Reduction

open Eff Machine Graph

variable {Q : Cluster} {m m' : Machine} {gens : List Gen} {links : List (Gen × Gen)} {s : ConstraintStore}
  {G : Gen} {x y : BoundVar} {xs : List BoundVar} {a : Nat} {g g' : Graph}

/-! ## Chains of bindings -/

theorem chained_adds : ∀ (xs : List BoundVar) (store : ConstraintStore), chained xs store =
    { store with
      bindings := store.bindings ++ (xs.zip xs.tail).flatMap fun p => [tether p.1 p.2, tether p.2 p.1] }
  | [], store => by simp [chained]
  | [_], store => by simp [chained]
  | x :: y :: xs, store => by
    rw [chained, chained_adds (y :: xs), bind_adds, List.tail_cons, List.tail_cons, List.zip_cons_cons,
      List.flatMap_cons, List.append_assoc]

/-- Variables that stand at different nodes are known by their bindings. -/
theorem tether_inj {u v : BoundVar} (nodes : (xs.map BoundVar.node).Nodup) (hy : y ∈ xs) (hv : v ∈ xs)
    (same : tether x y = tether u v) : x = u ∧ y = v := by
  obtain ⟨id, node⟩ := x
  obtain ⟨id', node'⟩ := u
  simp only [tether, Prod.mk.injEq, Binding.mk.injEq, and_true] at same
  obtain ⟨rfl, rfl, partner⟩ := same
  exact ⟨rfl, List.inj_on_of_nodup_map nodes hy hv partner⟩

/-- A chain binds each variable to its neighbours, and so it connects all of them. -/
theorem chained_binds (nodes : (xs.map BoundVar.node).Nodup) : Binds (chained xs .empty) xs := by
  have mem : ∀ e, e ∈ (chained xs .empty).bindings ↔
      ∃ p ∈ xs.zip xs.tail, e = tether p.1 p.2 ∨ e = tether p.2 p.1 := by
    intro e
    rw [chained_adds]
    simp [ConstraintStore.empty]
  have within : ∀ p ∈ xs.zip xs.tail, p.1 ∈ xs ∧ p.2 ∈ xs := fun p hp =>
    ⟨(List.of_mem_zip hp).1, List.mem_of_mem_tail (List.of_mem_zip hp).2⟩
  have beside : ∀ x ∈ xs, ∀ y ∈ xs, (tether x y ∈ (chained xs .empty).bindings ↔
      (x, y) ∈ xs.zip xs.tail ∨ (y, x) ∈ xs.zip xs.tail) := by
    intro x hx y hy
    rw [mem]
    constructor
    · rintro ⟨p, hp, same | same⟩
      · obtain ⟨rfl, rfl⟩ := tether_inj nodes hy (within p hp).2 same
        exact .inl hp
      · obtain ⟨rfl, rfl⟩ := tether_inj nodes hy (within p hp).1 same
        exact .inr hp
    · rintro (hp | hp)
      · exact ⟨_, hp, .inl rfl⟩
      · exact ⟨_, hp, .inr rfl⟩
  have back : ∀ x ∈ xs, ∀ y ∈ xs, tether x y ∈ (chained xs .empty).bindings →
      tether y x ∈ (chained xs .empty).bindings := fun x hx y hy h =>
    (beside y hy x hx).mpr ((beside x hx y hy).mp h).symm
  have symm : Std.Symm ((chained xs .empty).Joins xs) :=
    ⟨fun x y h => ⟨h.2.1, h.1, back x h.1 y h.2.1 h.2.2⟩⟩
  have along : ∀ (d : Nat) (x first : BoundVar), xs[0]? = some first → xs[d]? = some x →
      Relation.ReflTransGen ((chained xs .empty).Joins xs) first x := by
    intro d
    induction d with
    | zero =>
      intro x first hfirst hx
      cases hfirst.symm.trans hx
      exact .refl
    | succ d ih =>
      intro x first hfirst hx
      have lt := Nat.lt_of_succ_lt (List.getElem?_eq_some_iff.mp hx).1
      have hw := List.getElem?_eq_getElem lt
      have pair : (xs[d], x) ∈ xs.zip xs.tail :=
        mem_zip_iff.mpr ⟨d, hw, by rw [List.getElem?_tail]; exact hx⟩
      exact (ih _ first hfirst hw).tail ⟨List.getElem_mem lt, List.mem_of_getElem? hx,
        (beside _ (List.getElem_mem lt) _ (List.mem_of_getElem? hx)).mpr (.inl pair)⟩
  refine ⟨fun e he => ?_, back, fun x hx loop => ?_, fun x hx y hy => ?_⟩
  · obtain ⟨p, hp, rfl | rfl⟩ := (mem e).mp he
    · exact ⟨p.1, (within p hp).1, p.2, (within p hp).2, rfl⟩
    · exact ⟨p.2, (within p hp).2, p.1, (within p hp).1, rfl⟩
  · have pair : (x, x) ∈ xs.zip xs.tail := ((beside x hx x hx).mp loop).elim id id
    obtain ⟨d, here, next⟩ := mem_zip_iff.mp pair
    rw [List.getElem?_tail] at next
    have lt := (List.getElem?_eq_some_iff.mp here).1
    have same := (List.getElem?_inj lt (List.Nodup.of_map _ nodes)).mp (here.trans next.symm)
    omega
  · obtain ⟨d, hd⟩ := List.mem_iff_getElem?.mp hx
    obtain ⟨e, he⟩ := List.mem_iff_getElem?.mp hy
    have some_ : 0 < xs.length := List.length_pos_of_mem hx
    have first := List.getElem?_eq_getElem some_
    exact (Std.Symm.symm _ _ (along d x _ first hd)).trans (along e y _ first he)

/-! ## Machines that have gone on -/

/-- The same variables, seen from a machine that has gone on. -/
def Cluster.moved (Q : Cluster) (m : Machine) (spare : Nat) : Cluster := { Q with start := m, spare := spare }

theorem Kin.moved (kin : Kin Q) (signature : m.signature = Q.start.signature)
    (pools : m.graph.pools.size = Q.start.graph.pools.size) : Kin (Q.moved m a) where
  signature := signature.symm ▸ kin.signature
  run := by
    have run := kin.run
    unfold constructorsOf at run ⊢
    rwa [← signature] at run
  listed := by
    have listed := kin.listed
    unfold Listed at listed ⊢
    rwa [← signature] at listed
  filled := kin.filled
  fit p hp := by
    have fit := kin.fit p hp
    unfold Fitting at fit ⊢
    rwa [← pools] at fit
  distinct := kin.distinct
  given := kin.given

/-- Variables and generators stay as they are while other nodes are written. -/
theorem Woven.moved (h : Woven Q gens links s m) (signature : m'.signature = m.signature)
    (computations : m'.computations = m.computations) (nextId : m'.nextId = m.nextId)
    (sound : m'.graph.Sound) (settled : ∀ j d, Established d → m.graph.Holds j d → m'.graph.Holds j d)
    (waiting : ∀ x ∈ Q.vars, m.graph.Holds x.node (freeContent x.id (some Q.type)) →
      m'.graph.Holds x.node (freeContent x.id (some Q.type)))
    (room : a + generatorSize Q.ctors * (Q.vars.length - gens.length) ≤ m'.graph.free.length) :
    Woven (Q.moved m' a) gens links s m' where
  same := rfl
  front := h.front.congr computations
  sound := sound
  capacity := rfl
  pools := rfl
  kept _ _ _ hj := hj
  stands G hG := by
    have stands := (h.stands G hG).kept settled
    rwa [← h.signature, ← signature] at stands
  members := h.members
  once := h.once
  pending x hx := (h.pending x hx).imp_right (waiting x hx)
  distinct := h.distinct
  later := nextId.symm ▸ h.later
  fresh := nextId.symm ▸ h.fresh
  linked := h.linked
  ties := h.ties
  bindings := h.bindings
  room := room

theorem Complete.moved (h : Complete Q gens links) : Complete (Q.moved m a) gens links :=
  ⟨h.all, h.bound, h.connected⟩

/-- Each variable has been narrowed once. -/
theorem Woven.count (kin : Kin Q) (h : Woven Q gens links s m) (complete : Complete Q gens links) :
    gens.length = Q.vars.length := by
  have perm : (gens.map Gen.var).Perm Q.vars := by
    refine (List.perm_ext_iff_of_nodup h.once (List.Nodup.of_map _ kin.distinct)).mpr fun x => ?_
    refine ⟨fun hx => ?_, fun hx => ?_⟩
    · obtain ⟨G, hG, rfl⟩ := List.mem_map.mp hx
      exact h.members G hG
    · obtain ⟨G, hG, rfl⟩ := complete.all x hx
      exact List.mem_map_of_mem hG
  rw [← perm.length_eq, List.length_map]

/-! ## What the first item does -/

variable {e : NodeId} {F k b : Nat}

/-- A single alternative takes the place of the variable. -/
theorem Gen.Stands.single {σ : Signature} {ctors : List (SymbolId × Nat)} (h : G.Stands g σ ctors)
    (one : ctors.length = 1) : ∃ t, G.terms = [t] ∧ g.Holds G.var.node (.indirection t) := by
  have size : G.terms.length = 1 := by rw [Gen.terms, List.length_map, h.lengths.1, one]
  have encodes := h.encodes
  generalize G.terms = alternatives at encodes size ⊢
  generalize G.inner = inner at encodes
  generalize G.choices = choices at encodes
  cases encodes with
  | only content => exact ⟨_, rfl, content, h.unfree _ List.mem_cons_self⟩
  | several _ nested =>
    obtain ⟨-, length⟩ := nested_length nested
    rw [List.length_cons] at size
    omega

theorem final_of_tag {c : Content} (tag : c.tag ≠ .free) : Final c := fun _ _ same => tag (same ▸ rfl)

/-- A variable of some type is narrowed where its value is needed. -/
theorem headArg_narrows {t : TypeId} (reads : m.successor e k = .ok (some x.node))
    (hx : m.graph.Holds x.node (freeContent x.id (some t))) : headArg (reducer (F + 1)) e k m =
      (narrow x.node >>= fun _ => look (·.skip x.node) >>= settle e k) m := by
  have head : (reducer (F + 1)).head x.node m = .ok x.node m :=
    headNormalize_idle (TermGraph.skip_self hx.content nofun) hx.content nofun
  have tag : m.tag x.node = .ok .free := TermGraph.tag_content hx.content
  refine (bind_ok (look_ok reads)).trans
    ((bind_ok (look_ok (r := fun _ => Link.target (some x.node)) rfl)).trans ((bind_ok head).trans ?_))
  rw [if_neg fun differ => differ rfl]
  refine (bind_ok (look_ok (r := fun m => m.tag x.node) tag)).trans ?_
  rw [if_pos rfl]

/-- An item has demanded a variable, and all variables have been narrowed. Whichever constructor is
chosen, the item comes to the term of its variable. -/
structure Opened (Q : Cluster) (x : BoundVar) (e : NodeId) (a : Nat) (gens : List Gen)
    (links : List (Gen × Gen)) (s : ConstraintStore) (m m' : Machine) : Prop where
  same : m' = { m with
    graph := m'.graph, nextId := m'.nextId, computations := m'.computations, slice := m'.slice }
  capacity : m'.graph.capacity = m.graph.capacity
  kin : Kin (Q.moved m' a)
  woven : Woven (Q.moved m' a) gens links s m'
  complete : Complete (Q.moved m' a) gens links
  kept : ∀ j d, Final d → j ≠ e → m.graph.Holds j d → m'.graph.Holds j d
  item : ∀ G ∈ gens, G.var = x → ∀ i t, G.terms[i]? = some t →
    ∃ k ≤ i + 1, m'.graph.Resolves (Takes (Place gens) (upTo i)) t true e k
  heads : ∀ G ∈ gens, G.var = x → ∀ t, G.terms[0]? = some t → ∃ y, Heads m'.graph t e y

/-- With one constructor, the variables that are bound are narrowed right away. -/
theorem demand_single (kin : Kin Q) (binds : Binds Q.store Q.vars) (h : Woven Q [] [] Q.store Q.start)
    (hx : x ∈ Q.vars) (free : Q.start.graph.Holds x.node (freeContent x.id (some Q.type)))
    (he : Q.start.graph.Holds e (.demand x.node)) (one : Q.ctors.length = 1) (spare : a ≤ Q.spare) :
    ∃ gens links s m', stepEnsureNotFree (reducer (F + 1)) e Q.start = .ok () m' ∧
      m'.slice = Q.start.slice ∧ Opened Q x e a gens links s Q.start m' := by
  obtain ⟨G₀, m₁, narrowed, woven₁, var⟩ := instantiate_woven kin h hx free
  subst var
  obtain ⟨gens, links, s, m₂, bound, woven, complete⟩ := bindGenerators_woven kin binds woven₁
  obtain ⟨G, hG, var⟩ := complete.all _ hx
  have stands := woven.stands G hG
  obtain ⟨t, terms, hvar⟩ := stands.single one
  rw [var] at hvar
  obtain ⟨c, leaf, -⟩ := (woven.signature.symm ▸ stands).terms (woven.listed kin) t
    (terms ▸ List.mem_cons_self)
  obtain ⟨⟨index, constructor_⟩, -⟩ := leaf.data
  have he₂ := woven.kept e _ (final_of_tag (show Tag.operation ≠ .free by decide)) he
  have narrows : narrow G₀.var.node Q.start = .ok () m₂ := by
    refine (bind_ok (look_ok (TermGraph.aux_content (t := Q.start.toTermGraph) free.content))).trans
      ((bind_ok narrowed).trans ?_)
    rw [if_pos one]
    exact bound
  have skip : m₂.skip G₀.var.node = .ok t :=
    TermGraph.skip_forward hvar.content leaf.holds.content (by rw [constructor_]; nofun)
  have tag : m₂.tag t = .ok (.constructor index) :=
    (TermGraph.tag_content leaf.holds.content).trans (congrArg Except.ok constructor_)
  have forced : headArg (reducer (F + 1)) e 0 Q.start = .ok (.value t) m₂ :=
    (headArg_narrows (demand_reads kin.signature he) free).trans ((bind_ok narrows).trans
      ((bind_ok (look_ok (r := fun m => m.skip G₀.var.node) skip)).trans
        (bind_ok (look_ok (r := fun m => m.tag t) tag))))
  obtain ⟨g, written, wrote⟩ := rewriteForward_wrote woven.sound (Graph.content_lt he₂.content) t
  have sets := wrote.toSets
  have he₃ : g.Holds e (.indirection t) := sets.holds he₂.unfree
  have others : ∀ j d, Final d → j ≠ e → m₂.graph.Holds j d → g.Holds j d := fun j d _ hj hd =>
    sets.holds_other hj hd
  have full := woven.room
  rw [woven.count kin complete] at full
  have stays : ∀ j d, Established d → m₂.graph.Holds j d → g.Holds j d := fun j d settled hd =>
    sets.holds_other (fun here => settled.idle (congrArg Content.tag (hd.eq (here ▸ he₂)))) hd
  have only : ∀ H ∈ gens, H.var = G₀.var → H.terms = [t] := fun H hH same =>
    woven.eq_of_var hH hG (same.trans var.symm) ▸ terms
  refine ⟨gens, links, s, m₂.setGraph g, (bind_ok forced).trans written, by rw [woven.same]; rfl, ?_⟩
  exact {
    same := by rw [woven.same]; rfl
    capacity := sets.capacity.trans woven.capacity
    kin := kin.moved woven.signature (sets.pools.trans woven.pools)
    woven := woven.moved rfl rfl rfl sets.sound stays
      (fun y hy hfree => sets.holds_other (fun here => by cases (here ▸ hfree).eq he₂) hfree)
      (by rw [woven.count kin complete]; exact sets.free.symm ▸ (Nat.add_le_add_right spare _).trans full)
    complete := complete.moved
    kept := fun j d final hj hd => others j d final hj (woven.kept j d final hd)
    item := fun H hH same i t' at_ => by
      rw [only H hH same] at at_
      cases i with
      | zero =>
        cases at_
        exact ⟨0, Nat.zero_le _, .through he₃⟩
      | succ i => cases at_
    heads := fun H hH same t' at_ => by
      rw [only H hH same] at at_
      cases at_
      exact ⟨t, .value (.inr he₃)⟩ }

/-- When the choice of a narrowed variable has been pulled above a demand, what is bound to it follows. -/
theorem pull_binds {v l r : NodeId} {id : VarId} (hσ : m.signature.Sound)
    (he : m.graph.Holds e (.demand v)) (hv : m.graph.Holds v (.alternative true id l r)) :
    pull e 0 m = (pullTab e 0 >>= fun _ => bindGenerators id) m := by
  have symbol : m.symbolId v = .ok Builtin.narrowed :=
    TermGraph.symbolId_content (t := m.toTermGraph) (c := .alternative true id l r) hv.content
  have aux : m.aux v = .ok id :=
    TermGraph.aux_content (t := m.toTermGraph) (c := .alternative true id l r) hv.content
  have found : m.successorSkip e 0 = .ok v := by
    simp only [TermGraph.successorSkip, demand_reads hσ he, bind, Except.bind, Link.target]
    exact skip_alternative hv
  calc pull e 0 m
      = pullBind e 0 m := by
        refine (bind_ok (look_ok found)).trans ((bind_ok (look_ok symbol)).trans ?_)
        rw [if_pos rfl]
    _ = _ := (bind_ok (look_ok found)).trans (bind_ok (look_ok aux))

/-- With several constructors, the choice of the variable is pulled above the item, and then the variables
that are bound are narrowed. -/
theorem demand_several (kin : Kin Q) (binds : Binds Q.store Q.vars) (h : Woven Q [] [] Q.store Q.start)
    (hx : x ∈ Q.vars) (free : Q.start.graph.Holds x.node (freeContent x.id (some Q.type)))
    (he : Q.start.graph.Holds e (.demand x.node)) (several : 2 ≤ Q.ctors.length)
    (spare : a + 2 ≤ Q.spare) :
    ∃ gens links s m', stepEnsureNotFree (reducer (F + 1)) e Q.start = .ok () m' ∧
      m'.slice = Q.start.slice ∧ Opened Q x e a gens links s Q.start m' := by
  obtain ⟨G₀, m₁, narrowed, woven₁, var⟩ := instantiate_woven kin h hx free
  subst var
  obtain ⟨l, r, hv⟩ := (woven₁.stands G₀ List.mem_cons_self).narrowed several
  have hσ₁ : m₁.signature.Sound := woven₁.signature.symm ▸ kin.signature
  have he₁ := woven₁.kept e _ (final_of_tag (show Tag.operation ≠ .free by decide)) he
  have full := woven₁.room
  obtain ⟨g₂, pulls, sound₂, capacity₂, pools₂, nodes₂, pulled, -⟩ := pullTab_pulls (m := m₁) (k := 0)
    (a := a + generatorSize Q.ctors * (Q.vars.length - [G₀].length)) hσ₁ woven₁.sound (by omega) he₁
    (Content.demand_fits hσ₁ _) (Nat.le_succ 1) rfl hv
  have others : ∀ j d, d.tag ≠ .operation → m₁.graph.Holds j d → g₂.Holds j d := fun j d idle hd =>
    pulled.others j d (fun here => idle (congrArg Content.tag (hd.eq (here ▸ he₁)))) hd
  have woven₂ : Woven (Q.moved (m₁.setGraph g₂) a) [G₀] [] Q.store (m₁.setGraph g₂) :=
    woven₁.moved rfl rfl rfl sound₂ (fun j d settled => others j d settled.idle)
      (fun y _ => others _ _ (show Tag.free ≠ .operation by decide)) nodes₂
  have kin₂ : Kin (Q.moved (m₁.setGraph g₂) a) := kin.moved woven₁.signature (pools₂.trans woven₁.pools)
  obtain ⟨gens, links, s, m₃, bound, woven₃, complete⟩ := bindGenerators_woven kin₂ binds woven₂
  obtain ⟨p, q, he₂, copies⟩ := pulled.side
  have hv₂ : g₂.Holds G₀.var.node (.alternative true G₀.var.id l r) :=
    others _ _ (show Tag.choice ≠ .operation by decide) hv
  have he₃ := woven₃.kept e _ (final_of_tag (show Tag.choice ≠ .free by decide)) he₂
  have hv₃ := woven₃.kept _ _ (final_of_tag (show Tag.choice ≠ .free by decide)) hv₂
  have copies₃ : ∀ side : Side, m₃.graph.Holds (side.pick p q) (.demand (side.pick l r)) := fun side =>
    woven₃.kept _ _ (final_of_tag (show Tag.operation ≠ .free by decide)) (copies side)
  have narrows : narrow G₀.var.node Q.start = .ok () m₁ := by
    refine (bind_ok (look_ok (TermGraph.aux_content (t := Q.start.toTermGraph) free.content))).trans
      ((bind_ok narrowed).trans ?_)
    rw [if_neg (by omega)]
    rfl
  have skip : m₁.skip G₀.var.node = .ok G₀.var.node := skip_alternative hv
  have tag : m₁.tag G₀.var.node = .ok .choice :=
    TermGraph.tag_content (t := m₁.toTermGraph) (c := .alternative true G₀.var.id l r) hv.content
  have pulled_ : pull e 0 m₁ = .ok () m₃ := (pull_binds hσ₁ he₁ hv).trans ((bind_ok pulls).trans bound)
  have forced : headArg (reducer (F + 1)) e 0 Q.start = .ok .taken m₃ :=
    (headArg_narrows (demand_reads kin.signature he) free).trans ((bind_ok narrows).trans
      ((bind_ok (look_ok (r := fun m => m.skip G₀.var.node) skip)).trans
        ((bind_ok (look_ok (r := fun m => m.tag G₀.var.node) tag)).trans (bind_ok pulled_))))
  have same : m₃ = { Q.start with
      graph := m₃.graph, nextId := m₃.nextId, computations := m₃.computations } := by
    rw [woven₃.same]
    show ({ m₁ with graph := _, nextId := _, computations := _ } : Machine) = _
    rw [woven₁.same]
  refine ⟨gens, links, s, m₃, (bind_ok forced).trans rfl, by rw [same], ?_⟩
  exact {
    same := by rw [same]
    capacity := woven₃.capacity.trans (capacity₂.trans woven₁.capacity)
    kin := kin.moved (by rw [same]) (woven₃.pools.trans (pools₂.trans woven₁.pools))
    woven := woven₃.moved rfl rfl rfl woven₃.sound (fun _ _ _ hd => hd) (fun _ _ hd => hd) woven₃.room
    complete := complete.moved
    kept := fun j d final hj hd =>
      woven₃.kept j d final (pulled.others j d hj (woven₁.kept j d final hd))
    item := fun G hG same i t at_ => by
      have stands := woven₃.stands G hG
      obtain ⟨c, leaf, -⟩ := (woven₃.signature.symm ▸ stands).terms (woven₃.listed kin₂) t
        (List.mem_of_getElem? at_)
      obtain ⟨n, le, resolves⟩ := stands.resolves hG at_
      rw [same] at resolves
      obtain ⟨side, n, rfl, taken, below⟩ := resolves.taken hv₃ ⟨c, leaf⟩
      exact ⟨n + 1, le, .choice he₃ taken (.demand (copies₃ side) below)⟩
    heads := fun _ _ _ t _ => ⟨e, .choice he₃⟩ }

/-- The first item narrows all variables. -/
theorem demand_opens (kin : Kin Q) (binds : Binds Q.store Q.vars) (h : Woven Q [] [] Q.store Q.start)
    (hx : x ∈ Q.vars) (free : Q.start.graph.Holds x.node (freeContent x.id (some Q.type)))
    (he : Q.start.graph.Holds e (.demand x.node)) (spare : a + 2 ≤ Q.spare) :
    ∃ gens links s m', stepEnsureNotFree (reducer (F + 1)) e Q.start = .ok () m' ∧
      m'.slice = Q.start.slice ∧ Opened Q x e a gens links s Q.start m' := by
  have some_ := List.length_pos_iff.mpr kin.filled
  by_cases one : Q.ctors.length = 1
  · exact demand_single kin binds h hx free he one (by omega)
  · exact demand_several kin binds h hx free he (by omega) spare

namespace Opened

variable {c : Content} {t v : NodeId}

/-- Steps that are paid for change nothing. -/
theorem paid {slice : Slice} {n : Nat}
    (h : Opened (Q.moved { m with slice := slice } n) x e a gens links s { m with slice := slice } m')
    (slice' : Slice) : Opened Q x e a gens links s m { m' with slice := slice' } where
  same := by rw [h.same]
  capacity := h.capacity
  kin := h.kin.moved rfl rfl
  woven := h.woven.moved rfl rfl rfl h.woven.sound (fun _ _ _ hd => hd) (fun _ _ hd => hd) h.woven.room
  complete := h.complete.moved
  kept := h.kept
  item := h.item
  heads := h.heads

theorem room (h : Opened Q x e a gens links s m m') : a ≤ m'.graph.free.length :=
  (Nat.le_add_right _ _).trans h.woven.room

theorem stands (h : Opened Q x e a gens links s m m') :
    ∀ G ∈ gens, G.Stands m'.graph m'.signature Q.ctors := h.woven.stands

/-- The variable in front has a generator with a first term. -/
theorem first (h : Opened Q x e a gens links s m m') (hx : x ∈ Q.vars) :
    ∃ G ∈ gens, G.var = x ∧ ∃ t, G.terms[0]? = some t ∧ m'.Terms (fieldCount Q.ctors) [t] ∧
      ∃ y, Heads m'.graph t e y := by
  obtain ⟨G, hG, var⟩ := h.complete.all x hx
  have stands := h.stands G hG
  have some_ : 0 < G.terms.length := by
    rw [Gen.terms, List.length_map, stands.lengths.1]
    exact List.length_pos_iff.mpr h.kin.filled
  have at_ := List.getElem?_eq_getElem some_
  refine ⟨G, hG, var, _, at_, fun z hz => ?_, h.heads G hG var _ at_⟩
  exact stands.terms (h.woven.listed h.kin) z (List.mem_singleton.mp hz ▸ List.getElem_mem some_)

end Opened

/-- A call that has come to a term or to a choice is in head normal form. -/
theorem Heads.idle {c : Content} {t : NodeId} (h : Heads m.graph t e v) (leaf : m.graph.Leaf t c) :
    headNormalize (F + 1) e m = .ok v m := by
  obtain ⟨⟨index, tag⟩, -⟩ := leaf.data
  have ends : c.tag ≠ .forward := by rw [tag]; nofun
  have data : c.tag ≠ .operation := by rw [tag]; nofun
  cases h with
  | choice he => exact headNormalize_idle (skip_alternative he) he.content nofun
  | value leads =>
    refine headNormalize_idle ?_ leaf.holds.content data
    rcases leads with rfl | he
    · exact TermGraph.skip_self leaf.holds.content ends
    · exact TermGraph.skip_forward he.content leaf.holds.content ends

/-- Normalizing the first item narrows all variables, and normalizes the term or leaves the choice. -/
theorem item_opens {n : Nat} (kin : Kin Q) (binds : Binds Q.store Q.vars)
    (h : Woven Q [] [] Q.store Q.start) (hx : x ∈ Q.vars)
    (free : Q.start.graph.Holds x.node (freeContent x.id (some Q.type)))
    (he : Q.start.graph.Holds e (.demand x.node)) (spare : a + 2 ≤ Q.spare)
    (room : Q.start.Room (n + fieldCount Q.ctors + 3) b) :
    ∃ gens links s m', normalize (F + 3) e Q.start = .ok () m' ∧
      Opened Q x e a gens links s Q.start m' ∧ m'.Room n a := by
  let m₁ : Machine := { Q.start with slice := Q.start.slice.spend }
  let m₂ : Machine := { Q.start with slice := Q.start.slice.spend.spend }
  have room₁ : m₁.Room (n + fieldCount Q.ctors + 2) b := room.spend
  have room₂ : m₂.Room (n + fieldCount Q.ctors + 1) b := room₁.spend
  obtain ⟨gens, links, s, m₃, run, slice, opened⟩ := demand_opens (Q := Q.moved m₂ Q.spare) (F := F)
    (a := a) (kin.moved rfl rfl) binds
    (h.moved rfl rfl rfl h.sound (fun _ _ _ hd => hd) (fun _ _ hd => hd) h.room) hx free he spare
  obtain ⟨G, hG, var, t, at_, terms, y, heads⟩ := opened.first hx
  obtain ⟨c, leaf, -⟩ := terms t List.mem_cons_self
  have called : headNormalize (F + 2) e m₁ =
      (stepEnsureNotFree (reducer (F + 1)) e >>= fun _ => headNormalize (F + 1) e) m₂ :=
    headNormalize_call room₁.goes (TermGraph.skip_self he.content nofun) he.content rfl
      ((kin.signature.prelude Prelude.standard.ensureNotFree (by decide)).trans rfl) rfl
  have head : headNormalize (F + 2) e m₁ = .ok y m₃ :=
    called.trans ((bind_ok run).trans (heads.idle leaf))
  have room₃ : m₃.Room (n + fieldCount Q.ctors + 1) a :=
    ⟨slice ▸ room₂.preempt, slice ▸ room₂.steps, opened.room⟩
  obtain ⟨slice', taken, room'⟩ := head_taken (F := F) opened.kin.signature terms heads room₃
  refine ⟨gens, links, s, { m₃ with slice := slice' }, ?_, opened.paid slice', room'⟩
  exact (normalize_called room.goes he.content
    ((kin.signature.prelude Prelude.standard.ensureNotFree (by decide)).trans rfl) rfl).trans
      ((bind_ok head).trans taken)

/-! ## The list -/

/-- A list of demands for these variables. -/
inductive Demands (g : Graph) : List BoundVar → NodeId → Prop
  | nil {i : NodeId} (h : g.Holds i .nil) : Demands g [] i
  | cons {i e t : NodeId} {x : BoundVar} {xs : List BoundVar} (h : g.Holds i (.cons e t))
    (he : g.Holds e (.demand x.node)) (rest : Demands g xs t) : Demands g (x :: xs) i

/-- A term of a generator. -/
def Gen.term (G : Gen) (i : Nat) : NodeId := G.terms.getD i 0

variable {Gs : List Gen} {i : Nat} {t u v : NodeId}

theorem Demands.mono (h : Demands g xs u) (ends : ∀ i, g.Holds i .nil → g'.Holds i .nil)
    (cells : ∀ i e t, g.Holds i (.cons e t) → g'.Holds i (.cons e t))
    (items : ∀ i, ∀ y ∈ xs, g.Holds i (.demand y.node) → g'.Holds i (.demand y.node)) :
    Demands g' xs u := by
  induction h with
  | nil hu => exact .nil (ends _ hu)
  | cons hu he _ ih =>
    exact .cons (cells _ _ _ hu) (items _ _ List.mem_cons_self he)
      (ih fun i y hy => items i y (List.mem_cons_of_mem _ hy))

/-- The list behind its first item stays while the item changes. -/
theorem Demands.kept {n : NodeId} (h : Demands g xs u) (he : g.Holds e (.demand n))
    (apart : ∀ y ∈ xs, y.node ≠ n)
    (kept : ∀ j d, Final d → j ≠ e → g.Holds j d → g'.Holds j d) : Demands g' xs u := by
  refine h.mono (fun i hi => ?_) (fun i e' t hi => ?_) fun i y hy hi => ?_
  · exact kept i _ (final_of_tag (show Tag.constructor 0 ≠ .free by decide)) (hi.ne he nofun) hi
  · exact kept i _ (final_of_tag (show Tag.constructor 1 ≠ .free by decide)) (hi.ne he nofun) hi
  · refine kept i _ (final_of_tag (show Tag.operation ≠ .free by decide)) (fun here => ?_) hi
    have same := hi.eq (here ▸ he)
    injection (Cargo.links.inj (congrArg Content.cargo same)) with node
    exact apart y hy node

theorem Gen.Stands.term_at {σ : Signature} {ctors : List (SymbolId × Nat)} (h : G.Stands g σ ctors)
    (lt : i < ctors.length) : G.terms[i]? = some (G.term i) := by
  have within : i < G.terms.length := by rwa [Gen.terms, List.length_map, h.lengths.1]
  rw [Gen.term, List.getD_eq_getElem?_getD, List.getElem?_eq_getElem within, Option.getD_some]

/-- Demands for variables that have been narrowed come to one list for each constructor. -/
theorem Demands.spells {σ : Signature} {ctors : List (SymbolId × Nat)} (h : Demands g xs u)
    (lt : i < ctors.length) : ∀ Gs : List Gen, Gs.map Gen.var = xs →
      (∀ G ∈ Gs, G ∈ gens ∧ G.Stands g σ ctors) → ∃ k ≤ xs.length * (i + 1),
        g.Spells (Takes (Place gens) (upTo i)) (Gs.map fun G => G.term i) u k := by
  induction h with
  | nil hu =>
    intro Gs vars _
    cases List.map_eq_nil_iff.mp vars
    exact ⟨0, Nat.zero_le _, .nil hu⟩
  | @cons u e t x xs hu he _ ih =>
    intro Gs vars within
    obtain ⟨G, Gs, rfl, rfl, rest⟩ := List.map_eq_cons_iff.mp vars
    obtain ⟨hG, stands⟩ := within G List.mem_cons_self
    obtain ⟨k, le, item⟩ := stands.resolves hG (stands.term_at lt)
    obtain ⟨n, le', spells⟩ := ih Gs rest fun H hH => within H (List.mem_cons_of_mem _ hH)
    refine ⟨k + n, ?_, .cons hu (.demand he item) spells⟩
    rw [List.length_cons, Nat.succ_mul]
    omega

theorem Woven.rows (kin : Kin Q) (h : Woven Q gens links s m) (within : ∀ G ∈ Gs, G ∈ gens)
    (lt : i < Q.ctors.length) : m.Terms (fieldCount Q.ctors) (Gs.map fun G => G.term i) := by
  intro z hz
  obtain ⟨G, hG, rfl⟩ := List.mem_map.mp hz
  have stands := h.signature ▸ h.stands G (within G hG)
  exact stands.terms (h.listed kin) _ (List.mem_of_getElem? (stands.term_at lt))

/-- The list comes to one list of terms for each constructor. -/
theorem Opened.spells (h : Opened Q x e a gens links s m m') (hv : m'.graph.Holds v (.cons e t))
    (demands : Demands m'.graph xs t) (vars : Gs.map Gen.var = x :: xs) (within : ∀ G ∈ Gs, G ∈ gens)
    (lt : i < Q.ctors.length) : ∃ k ≤ (xs.length + 1) * (i + 1),
      m'.graph.Spells (Takes (Place gens) (upTo i)) (Gs.map fun G => G.term i) v k := by
  obtain ⟨G, Gs, rfl, rfl, rest⟩ := List.map_eq_cons_iff.mp vars
  have hG := within G List.mem_cons_self
  obtain ⟨k, le, item⟩ := h.item G hG rfl i _ ((h.stands G hG).term_at lt)
  obtain ⟨n, le', spells⟩ := demands.spells lt Gs rest fun H hH =>
    ⟨within H (List.mem_cons_of_mem _ hH), h.stands H (within H (List.mem_cons_of_mem _ hH))⟩
  refine ⟨k + n, ?_, .cons hv item spells⟩
  rw [Nat.succ_mul]
  omega

/-- A list of demands has been normalized. In the machine `m₁` all variables had been narrowed; since then
nodes have come to what they came to there. -/
structure Unfolded (Q : Cluster) (v : NodeId) (a : Nat) (gens : List Gen) (links : List (Gen × Gen))
    (s : ConstraintStore) (Gs : List Gen) (m₁ m' : Machine) : Prop where
  start : m₁ = { Q.start with
    graph := m₁.graph, nextId := m₁.nextId, computations := m₁.computations, slice := m₁.slice }
  kin : Kin (Q.moved m₁ a)
  woven : Woven (Q.moved m₁ a) gens links s m₁
  complete : Complete (Q.moved m₁ a) gens links
  vars : Gs.map Gen.var = Q.vars
  within : ∀ G ∈ Gs, G ∈ gens
  same : m' = { m₁ with graph := m'.graph, slice := m'.slice }
  sound : m'.graph.Sound
  capacity : m'.graph.capacity = Q.start.graph.capacity
  advances : m₁.graph.Advances m'.graph
  spells : ∀ i < Q.ctors.length, ∃ k ≤ Q.vars.length * (i + 1),
    m'.graph.Spells (Takes (Place gens) (upTo i)) (Gs.map fun G => G.term i) v k
  passed : Passed m'.graph (Gs.map fun G => G.term 0) v
  redirects : ∀ i j, Q.start.graph.Holds i (.indirection j) → m'.graph.Holds i (.indirection j)
  nodes : a ≤ m'.graph.free.length

theorem rows_exist : ∀ xs : List BoundVar, (∀ x ∈ xs, ∃ G ∈ gens, G.var = x) →
    ∃ Gs : List Gen, Gs.map Gen.var = xs ∧ ∀ G ∈ Gs, G ∈ gens := by
  intro xs
  induction xs with
  | nil => exact fun _ => ⟨[], rfl, fun G hG => absurd hG List.not_mem_nil⟩
  | cons x xs ih =>
    intro all
    obtain ⟨G, hG, var⟩ := all x List.mem_cons_self
    obtain ⟨Gs, vars, within⟩ := ih fun y hy => all y (List.mem_cons_of_mem _ hy)
    exact ⟨G :: Gs, by rw [List.map_cons, var, vars], List.forall_mem_cons.mpr ⟨hG, within⟩⟩

/-- What is known about the places decides each choice one way. -/
theorem Woven.single (kin : Kin Q) (h : Woven Q gens links s m) (known : Nat → Option Side) (c : ChoiceId)
    (side side' : Side) (hs : Takes (Place gens) known c side) (hs' : Takes (Place gens) known c side') :
    side = side' := by
  obtain ⟨d, here, told⟩ := hs
  obtain ⟨d', here', told'⟩ := hs'
  cases h.depth_unique kin here here'
  exact Option.some.inj (told.symm.trans told')

theorem Opened.knit (h : Opened Q x e a gens links s m m') (binds : Binds Q.store Q.vars) :
    m'.Knit fun c => ∃ d, Place gens d c := fun store hs => by
  cases h.woven.front.front.symm.trans hs
  exact h.woven.knits h.kin binds h.complete

/-- After its first item the rest of the list is normalized, as the list of the first terms. -/
theorem Opened.passes {n n₁ a₁ : Nat} (h : Opened Q x e a₁ gens links s m m') (room : m'.Room n₁ a₁)
    (binds : Binds Q.store Q.vars) (hv : m'.graph.Holds v (.cons e t)) (demands : Demands m'.graph xs t)
    (vars : Gs.map Gen.var = x :: xs) (within : ∀ G ∈ Gs, G ∈ gens)
    (steps : n + (fieldCount Q.ctors + 5) * (xs.length + 1) ≤ n₁) (nodes : a + 2 + 4 * (xs.length + 1) ≤ a₁) :
    ∃ m'', takeField (reducer (F + xs.length + 4)) v 1 0 e m' = .ok () m'' ∧
      Advanced (Takes (Place gens) (upTo 0)) (xs.length + 2) m' m'' ∧ m''.Room n a ∧
      Passed m''.graph (Gs.map fun G => G.term 0) v := by
  have some_ : 0 < Q.ctors.length := List.length_pos_iff.mpr h.kin.filled
  have terms := h.woven.rows h.kin within some_
  have knit := h.knit binds
  have single := h.woven.single h.kin (upTo 0)
  have inside : ∀ c side, Takes (Place gens) (upTo 0) c side → ∃ d, Place gens d c := fun c side taken =>
    taken.imp fun d hd => hd.1
  obtain ⟨G, Gs, rfl, var, later⟩ := List.map_eq_cons_iff.mp vars
  have hG := within G List.mem_cons_self
  have first := (h.stands G hG).term_at some_
  obtain ⟨k, -, item⟩ := h.item G hG var 0 _ first
  obtain ⟨k', -, rest⟩ := demands.spells some_ Gs later fun H hH =>
    ⟨within H (List.mem_cons_of_mem _ hH), h.stands H (within H (List.mem_cons_of_mem _ hH))⟩
  obtain ⟨y, heads⟩ := h.heads G hG var _ first
  have size : (Gs.map fun G => G.term 0).length = xs.length := by
    rw [List.length_map, ← List.length_map (f := Gen.var), later]
  have hσ : m'.signature.Sound := h.kin.signature
  obtain ⟨m'', run, advanced, room', passed⟩ := item_passed (F := F + xs.length + 4) (s := n) (a := a)
    h.woven.sound hσ room (by omega) (by omega) knit inside single terms hv item rest heads
    fun m₂ advanced₂ room₂ hv₂ => by
      have hσ₂ : m₂.signature.Sound := advanced₂.signature.symm ▸ hσ
      have terms₂ := advanced₂.terms terms
      have rest₂ := advanced₂.advances.spells _ _ t k'
        (fun z hz => terms.leaves z (List.mem_cons_of_mem _ hz)) rest
      obtain ⟨m₃, run, advanced₃, room₃, passed⟩ := list_normal (F := F) inside single
        (Gs.map fun G => G.term 0) m₂ t k' n (a + 2) advanced₂.sound hσ₂ (advanced₂.knit knit)
        (fun z hz => terms₂ z (List.mem_cons_of_mem _ hz)) rest₂
        (room₂.mono (by rw [size]; exact steps) (by rw [size]; exact nodes))
      rw [size] at run
      exact rest_passed run advanced₃ room₃ passed hσ₂ (advanced₂.knit knit) inside single terms₂ hv₂ rest₂
  rw [size] at advanced
  exact ⟨m'', run, advanced, room', passed⟩

theorem Woven.free (h : Woven Q [] links s m) (hx : x ∈ Q.vars) :
    m.graph.Holds x.node (freeContent x.id (some Q.type)) :=
  (h.pending x hx).resolve_left fun narrowed => by
    obtain ⟨G, hG, -⟩ := narrowed
    exact absurd hG List.not_mem_nil

/-- Variables with different identifiers stand at different nodes. -/
theorem nodes_nodup {type : TypeId} (free : ∀ x ∈ xs, g.Holds x.node (freeContent x.id (some type)))
    (ids : (xs.map BoundVar.id).Nodup) : (xs.map BoundVar.node).Nodup := by
  refine List.Nodup.map_on (fun x hx y hy same => ?_) (List.Nodup.of_map _ ids)
  have content := (free x hx).eq (same ▸ free y hy)
  exact List.inj_on_of_nodup_map ids hx hy (congrArg Content.aux content)

theorem length_le_capacity {type : TypeId}
    (free : ∀ x ∈ xs, g.Holds x.node (freeContent x.id (some type))) (ids : (xs.map BoundVar.id).Nodup) :
    xs.length ≤ g.capacity := by
  have within : xs.map BoundVar.node ⊆ List.range g.capacity := fun i hi => by
    obtain ⟨y, hy, rfl⟩ := List.mem_map.mp hi
    exact List.mem_range.mpr (Graph.content_lt (free y hy).content)
  have le := (List.subperm_of_subset (nodes_nodup free ids) within).length_le
  rwa [List.length_map, List.length_range] at le

/-- Normalizing the list narrows all variables with the first item, and then goes on to the others. -/
theorem list_unfolds {n : Nat} (kin : Kin Q) (binds : Binds Q.store Q.vars)
    (h : Woven Q [] [] Q.store Q.start) (vars : Q.vars = x :: xs)
    (demands : Demands Q.start.graph (x :: xs) v) (spare : a + 4 * (xs.length + 2) ≤ Q.spare)
    (room : Q.start.Room (n + (fieldCount Q.ctors + 5) * (xs.length + 2)) b) :
    ∃ gens links s Gs m₁ m', normalize (F + xs.length + 5) v Q.start = .ok () m' ∧
      Unfolded Q v a gens links s Gs m₁ m' := by
  cases demands with
  | @cons _ e t _ _ hv he rest =>
  let m₀ : Machine := { Q.start with slice := Q.start.slice.spend }
  have bound : (fieldCount Q.ctors + 5) * (xs.length + 2) =
      (fieldCount Q.ctors + 5) * (xs.length + 1) + (fieldCount Q.ctors + 5) := Nat.mul_succ _ _
  generalize hn₁ : n + (fieldCount Q.ctors + 5) * (xs.length + 1) + 1 = n₁
  generalize ha₁ : a + 2 + 4 * (xs.length + 1) = a₁
  have going : Q.start.Room (n₁ + fieldCount Q.ctors + 3 + 1) b := room.mono (by omega) le_rfl
  have hx : x ∈ Q.vars := vars ▸ List.mem_cons_self
  have woven₀ : Woven (Q.moved m₀ Q.spare) [] [] Q.store m₀ :=
    h.moved rfl rfl rfl h.sound (fun _ _ _ hd => hd) (fun _ _ hd => hd) h.room
  obtain ⟨gens, links, s, m₁, first, opened, room₁⟩ := item_opens (Q := Q.moved m₀ Q.spare)
    (F := F + xs.length + 1) (kin.moved rfl rfl) binds woven₀ hx (h.free hx) he
    (a := a₁) (show a₁ + 2 ≤ Q.spare by omega) going.spend
  have nodes := nodes_nodup (fun y => h.free (x := y)) kin.distinct
  rw [vars, List.map_cons, List.nodup_cons] at nodes
  have hv₁ : m₁.graph.Holds v (.cons e t) :=
    opened.kept v _ (final_of_tag (show Tag.constructor 1 ≠ .free by decide)) (hv.ne he nofun) hv
  have rest₁ : Demands m₁.graph xs t :=
    rest.kept he (fun y hy same => nodes.1 (same ▸ List.mem_map_of_mem hy)) opened.kept
  obtain ⟨Gs, rows, within⟩ := rows_exist Q.vars opened.complete.all
  have rows' : Gs.map Gen.var = x :: xs := rows.trans vars
  obtain ⟨m', passes, advanced, room', passed⟩ := opened.passes (F := F) (a := a) (n := n) room₁ binds hv₁
    rest₁ rows' within (show n + (fieldCount Q.ctors + 5) * (xs.length + 1) ≤ n₁ by omega) (by omega)
  have read : m₀.successor v 0 = .ok (some e) :=
    successor_reads (m := m₀) kin.signature hv (Content.cons_fits kin.signature e t) rfl
  refine ⟨gens, links, s, Gs, m₁, m', ?_, ?_⟩
  · exact (normalize_data (F := F + xs.length + 4) going.goes kin.signature hv.content
      (Content.cons_fits kin.signature e t) (Content.cons_isData e t)).trans
        ((field_taken (m := m₀) 1 read first).trans passes)
  · exact {
      start := opened.same
      kin := opened.kin.moved rfl rfl
      woven := opened.woven.moved rfl rfl rfl opened.woven.sound (fun _ _ _ hd => hd) (fun _ _ hd => hd)
        ((Nat.add_le_add_right (show a ≤ a₁ by omega) _).trans opened.woven.room)
      complete := opened.complete.moved
      vars := rows
      within := within
      same := advanced.same
      sound := advanced.sound
      capacity := advanced.capacity.trans opened.capacity
      advances := advanced.advances
      spells := fun i lt => by
        obtain ⟨k, le, spells⟩ := opened.spells hv₁ rest₁ rows' within lt
        rw [vars]
        exact ⟨k, le, advanced.advances.spells _ _ _ _ (opened.woven.rows opened.kin within lt).leaves spells⟩
      passed := passed
      redirects := fun i j hi => advanced.advances.still _ _ (opened.kept i _
        (final_of_tag (show Tag.forward ≠ .free by decide)) (hi.ne he nofun) hi) (.inr (.inr rfl))
      nodes := room'.nodes }

/-! ## A type without constructors -/

/-- A variable that no constructor can take the place of fails. -/
theorem instantiate_fails {type : TypeId} (sound : m.graph.Sound) (run : constructorsOf m type = .ok [])
    (hx : m.graph.Holds x.node (freeContent x.id (some type))) :
    ∃ g', instantiate x.node m = .ok 0 (m.setGraph g') ∧ m.graph.Sets x.node .blank g' := by
  obtain ⟨g', failed, sets⟩ := rewriteFail_sets sound (Graph.content_lt hx.content)
  refine ⟨g', ?_, sets⟩
  unfold instantiate
  rw [bind_ok (look_ok (TermGraph.aux_content hx.content)),
    bind_ok (look_ok (TermGraph.literal_content hx.content))]
  dsimp only [freeContent, Cargo.literal?, Option.elim]
  rw [bind_ok (look_ok run)]
  exact bind_ok failed

/-- An item that demands such a variable fails with it. -/
theorem demand_fails {type : TypeId} (hσ : m.signature.Sound) (sound : m.graph.Sound)
    (run : constructorsOf m type = .ok []) (hx : m.graph.Holds x.node (freeContent x.id (some type)))
    (he : m.graph.Holds e (.demand x.node)) :
    ∃ g₁ g₂, stepEnsureNotFree (reducer (F + 1)) e m = .ok () (m.setGraph g₂) ∧
      m.graph.Sets x.node .blank g₁ ∧ g₁.Sets e .blank g₂ := by
  obtain ⟨g₁, failed, sets₁⟩ := instantiate_fails sound run hx
  have hx₁ : g₁.Holds x.node .blank := sets₁.holds hx.unfree
  have he₁ : g₁.Holds e (.demand x.node) := sets₁.holds_other (he.ne hx nofun) he
  obtain ⟨g₂, failed', sets₂⟩ := rewriteFail_sets (m := m.setGraph g₁) sets₁.sound
    (Graph.content_lt he₁.content)
  have narrows : narrow x.node m = .ok () (m.setGraph g₁) :=
    (bind_ok (look_ok (TermGraph.aux_content hx.content))).trans ((bind_ok failed).trans rfl)
  have skip : (m.setGraph g₁).skip x.node = .ok x.node :=
    TermGraph.skip_self (t := (m.setGraph g₁).toTermGraph) hx₁.content nofun
  have tag : (m.setGraph g₁).tag x.node = .ok .failure :=
    TermGraph.tag_content (t := (m.setGraph g₁).toTermGraph) hx₁.content
  have forced : headArg (reducer (F + 1)) e 0 m = .ok .taken (m.setGraph g₂) :=
    (headArg_narrows (demand_reads hσ he) hx).trans ((bind_ok narrows).trans
      ((bind_ok (look_ok (r := fun m => m.skip x.node) skip)).trans
        ((bind_ok (look_ok (r := fun m => m.tag x.node) tag)).trans (bind_ok failed'))))
  exact ⟨g₁, g₂, (bind_ok forced).trans rfl, sets₁, sets₂⟩

/-- A list whose first item fails fails. -/
theorem list_fails {type : TypeId} {n : Nat} (hσ : m.signature.Sound) (sound : m.graph.Sound)
    (run : constructorsOf m type = .ok []) (hx : m.graph.Holds x.node (freeContent x.id (some type)))
    (demands : Demands m.graph (x :: xs) v) (room : m.Room (n + 3) b) :
    ∃ m', normalize (F + 4) v m = .ok () m' ∧ m' = { m with graph := m'.graph, slice := m'.slice } ∧
      m'.graph.Holds v .blank ∧ m'.graph.capacity = m.graph.capacity ∧
      ∀ i j, m.graph.Holds i (.indirection j) → m'.graph.Holds i (.indirection j) := by
  cases demands with
  | @cons _ e t _ _ hv he _ =>
  let m₁ : Machine := { m with slice := m.slice.spend }
  let m₂ : Machine := { m with slice := m.slice.spend.spend }
  let m₃ : Machine := { m with slice := m.slice.spend.spend.spend }
  have room₁ : m₁.Room (n + 2) b := room.spend
  have room₂ : m₂.Room (n + 1) b := room₁.spend
  obtain ⟨g₁, g₂, step, sets₁, sets₂⟩ := demand_fails (m := m₃) (F := F) hσ sound run hx he
  have he₂ : g₂.Holds e .blank := sets₂.holds (sets₁.holds_other (he.ne hx nofun) he).unfree
  have hv₂ : g₂.Holds v (.cons e t) :=
    sets₂.holds_other (hv.ne he nofun) (sets₁.holds_other (hv.ne hx nofun) hv)
  obtain ⟨g₃, failed, sets₃⟩ := rewriteFail_sets (m := m₃.setGraph g₂) sets₂.sound
    (Graph.content_lt hv₂.content)
  have listed : m.signature.symbol? Prelude.standard.ensureNotFree = _ :=
    (hσ.prelude Prelude.standard.ensureNotFree (by decide)).trans rfl
  have tag : (m₃.setGraph g₂).tag e = .ok .failure :=
    TermGraph.tag_content (t := (m₃.setGraph g₂).toTermGraph) he₂.content
  have head : headNormalize (F + 2) e m₂ = .ok e (m₃.setGraph g₂) := by
    refine (headNormalize_call room₂.goes (TermGraph.skip_self he.content nofun) he.content rfl listed
      rfl).trans ((bind_ok step).trans ?_)
    exact headNormalize_idle (TermGraph.skip_self (t := (m₃.setGraph g₂).toTermGraph) he₂.content nofun)
      he₂.content nofun
  have item : normalize (F + 3) e m₁ = .ok () (m₃.setGraph g₂) :=
    (normalize_called room₁.goes he.content listed rfl).trans ((bind_ok head).trans
      (bind_ok (look_ok (r := fun m => m.tag e) tag)))
  have read : m₁.successor v 0 = .ok (some e) :=
    successor_reads (m := m₁) hσ hv (Content.cons_fits hσ e t) rfl
  have passed : passField (reducer (F + 3)) v 1 0 e (m₃.setGraph g₂) =
      .ok () ((m₃.setGraph g₂).setGraph g₃) :=
    (bind_ok (look_ok (r := fun m => m.tag e) tag)).trans failed
  refine ⟨(m₃.setGraph g₂).setGraph g₃, ?_, rfl, sets₃.holds hv₂.unfree,
    sets₃.capacity.trans (sets₂.capacity.trans sets₁.capacity), fun i j hi => ?_⟩
  · exact (normalize_data (F := F + 3) room.goes hσ hv.content (Content.cons_fits hσ e t)
      (Content.cons_isData e t)).trans ((field_taken (m := m₁) 1 read item).trans
        ((field_passed v 1 0 he₂.content (show Tag.failure ≠ .forward by decide)).trans passed))
  · exact sets₃.holds_other (hi.ne hv nofun) (sets₂.holds_other (hi.ne he nofun)
      (sets₁.holds_other (hi.ne hx nofun) hi))

end ChoiceGraph.Reduction
