import ChoiceGraph.Proofs.Issuing
import ChoiceGraph.Proofs.Reduction

/-! # Identifiers along reductions

Both reductions have a history, at every depth of nesting. A step is taken at a node that carries no
identifier, so that whatever it writes there is told by the content that it writes. -/
namespace ChoiceGraph.Reduction

open Eff Machine

variable {m : Machine} {ρ : Rank} {root i j t u x y : NodeId} {c d : Content} {k : Nat} {s : Scope}
  {r : Reducer} {e : Eff Unit} {id : SymbolId} {sym : Symbol}

/-- Reductions of other nodes have a history. -/
structure Reducer.Traces (r : Reducer) : Prop where
  sound : r.Sound
  normal : ∀ m ρ i, m.Inv [] ρ → m.Live [] i → m.Issued → (r.normal i).Goes Traced m
  head : ∀ m ρ i, m.Inv [] ρ → m.Live [] i → m.Issued → (r.head i).Goes Traced m

theorem tick_tacit : tick.Moves Tacit := by
  intro m
  unfold tick
  split
  · next run =>
    split at run
    · cases run
    · cases run
      exact tacit_of_same rfl rfl rfl
  · next run =>
    split at run
    · cases run
      exact refl_of Tacit m
    · cases run

/-! ## At a site -/

/-- Only the site is written. -/
theorem traced_at (w : m.Site s ρ root c) (h : e.Moves (Charts (Eq root))) : e.Goes Traced m := by
  refine (h.charted w.inv.storage w.inv.signature ?_).charted_traced
  rintro i rfl
  exact w.inv.lt w.live

theorem settle_goes (w : m.Site s ρ root c) (issued : m.Issued) (ordinary : c.tag ≠ .choice)
    (hk : c.links[k]? = some t) (leads : m.graph.Leads t j) (hd : m.graph.content? j = some d)
    (ht : d.tag ≠ .forward) : (settle root k j).Goes Traced m := by
  have fits := w.inv.fitsAt (w.below hk leads).1 hd
  unfold settle
  refine goes_read (TermGraph.tag_content hd) ?_
  cases tag : d.tag with
  | failure =>
    exact (traced_at w (rewriteFail_charts rfl)).bind fun _ _ _ _ => goes_pure _
  | choice =>
    obtain ⟨symbol, id, left, right, rfl, choice⟩ := fits.of_choice tag
    exact (pull_goes w.inv issued w.live w.content ordinary ⟨⟨t, hk, leads⟩, hd, choice⟩ w.loose).bind
      fun _ _ _ _ => goes_pure _
  | free => exact goes_read (TermGraph.aux_content hd) (goes_throw _)
  | forward => exact absurd tag ht
  | unassigned below => exact absurd tag (fits.tag_ne_unassigned below)
  | operation => exact goes_pure _
  | constructor index => exact goes_pure _

/-- The site links to what an argument was reduced to, whether it did so already or not. -/
theorem relink_goes {α : Type} {e : Eff α} {p : Prop} [Decidable p] (w : m.Site s ρ root c)
    (issued : m.Issued) (ordinary : c.tag ≠ .choice) (hk : c.links[k]? = some t)
    (leads : m.graph.Leads t x) (same : ¬ p → t = x)
    (go_on : ∀ m' ρ', m'.Site s ρ' root (c.setLink k x) → m'.Issued → e.Goes Traced m') :
    (do
      if p then setSuccessor root k (some x)
      e).Goes Traced m := by
  dsimp only
  split
  · have bound := (List.getElem?_eq_some_iff.mp hk).1
    have unnamed : ¬ (c.setLink k x).Named :=
      Content.setLink_named.not.mpr (w.fits.not_named hk ordinary)
    have writes := setSuccessor_writes w.inv.storage w.inv.signature w.content w.fits bound x
    refine (writes.unnamed unnamed).traced.bind_keeps
      (setSuccessor_keeps w hk leads) ?_
    rintro _ m' ρ' - ⟨w', -⟩ tr
    exact go_on m' ρ' w' (tr.issued issued)
  · next unchanged =>
    refine go_on m ρ ?_ issued
    rw [← same unchanged, Content.setLink_eq w.fits hk]
    exact w

theorem headArg_goes (traces : r.Traces) (w : m.Site s ρ root c) (issued : m.Issued)
    (ordinary : c.tag ≠ .choice) (hk : c.links[k]? = some t) : (headArg r root k).Goes Traced m := by
  have below := w.link hk
  unfold headArg
  refine goes_read (w.inv.read_successor w.live w.content hk) (goes_read rfl ?_)
  refine (traces.head m ρ t w.inv below.1 issued).bind_keeps
    ((traces.sound.head m ρ t w.inv below.1).within (w.within below.2)) ?_
  rintro arg m₁ ρ₁ ev₁ ⟨fine₁, leads₁⟩ tr₁
  obtain ⟨w₁, -⟩ := w.spare below.2 hk fine₁
  refine relink_goes w₁ (tr₁.issued issued) ordinary hk leads₁ (fun same => by simpa using same)
    fun m₂ ρ₂ w₂ issued₂ => ?_
  have hk₂ := Content.setLink_self (i := arg) hk
  have below₂ := w₂.link hk₂
  obtain ⟨d, hd, -⟩ := w₂.inv.fits arg below₂.1
  refine goes_read (TermGraph.tag_content hd) ?_
  -- whatever a variable was narrowed to, the site stays as it is
  have finish : ∀ (m₃ : Machine) (ρ₃ : Rank), m₃.Site s ρ₃ root (c.setLink k arg) → m₃.Issued →
      (look (·.skip arg) >>= settle root k).Goes Traced m₃ := by
    intro m₃ ρ₃ w₃ issued₃
    obtain ⟨j, dj, skip, leads, hj, tag⟩ := w₃.inv.read_skip (w₃.link hk₂).1
    exact goes_read skip (settle_goes w₃ issued₃ ordinary hk₂ leads hj tag)
  dsimp only
  split
  · next tag =>
    refine (narrow_goes w₂.inv issued₂ below₂.1 hd tag).bind_keeps
      ((narrow_keeps w₂.inv below₂.1 hd tag).within (w₂.within below₂.2)) ?_
    rintro _ m₃ ρ₃ - ⟨fine₃, -⟩ tr₃
    exact finish m₃ ρ₃ (w₂.spare below₂.2 hk₂ fine₃).1 (tr₃.issued issued₂)
  · exact finish m₂ ρ₂ w₂ issued₂

theorem normalArg_goes (traces : r.Traces) (w : m.Site s ρ root c) (issued : m.Issued)
    (ordinary : c.tag ≠ .choice) (hk : c.links[k]? = some t) : (normalArg r root k).Goes Traced m := by
  unfold normalArg
  refine (headArg_goes traces w issued ordinary hk).bind_keeps (headArg_keeps traces.sound w hk) ?_
  rintro a m₁ ρ₁ ev₁ forced tr₁
  cases a with
  | taken => exact goes_pure _
  | value x =>
    obtain ⟨⟨a, w₁, leads₁⟩, -⟩ := forced x rfl
    have issued₁ := tr₁.issued issued
    have hk₁ := Content.setLink_self (i := a) hk
    have below₁ := w₁.below hk₁ leads₁
    refine (traces.normal m₁ ρ₁ x w₁.inv below₁.1 issued₁).bind_keeps
      ((traces.sound.normal m₁ ρ₁ x w₁.inv below₁.1).within (w₁.within below₁.2)) ?_
    rintro _ m₂ ρ₂ - ⟨fine₂, -⟩ tr₂
    obtain ⟨w₂, kept₂⟩ := w₁.spare below₁.2 hk₁ fine₂
    have leads₂ := kept₂ a (List.mem_of_getElem? hk₁) x leads₁
    obtain ⟨j, dj, skip, leads, hj, tag⟩ := w₂.inv.read_skip (w₂.below hk₁ leads₂).1
    exact goes_read skip (settle_goes w₂ (tr₂.issued issued₁) ordinary hk₁ (leads₂.trans leads) hj tag)

theorem withHead_goes {body : NodeId → Eff Unit} (traces : r.Traces) (w : m.Site s ρ root c)
    (issued : m.Issued) (ordinary : c.tag ≠ .choice) (hk : c.links[k]? = some t)
    (go_on : ∀ x m' ρ', m.Forced m' s ρ' root c k x → m'.Issued → (body x).Goes Traced m') :
    (withHead r root k body).Goes Traced m := by
  unfold withHead
  refine (headArg_goes traces w issued ordinary hk).bind_keeps (headArg_keeps traces.sound w hk) ?_
  rintro a m₁ ρ₁ - forced tr₁
  cases a with
  | taken => exact goes_pure _
  | value x => exact go_on x m₁ ρ₁ (forced x rfl) (tr₁.issued issued)

theorem withNormal_goes {body : NodeId → Eff Unit} (traces : r.Traces) (w : m.Site s ρ root c)
    (issued : m.Issued) (ordinary : c.tag ≠ .choice) (hk : c.links[k]? = some t)
    (go_on : ∀ x m' ρ', m.Forced m' s ρ' root c k x → m'.Issued → (body x).Goes Traced m') :
    (withNormal r root k body).Goes Traced m := by
  unfold withNormal
  refine (normalArg_goes traces w issued ordinary hk).bind_keeps (normalArg_keeps traces.sound w hk) ?_
  rintro a m₁ ρ₁ - forced tr₁
  cases a with
  | taken => exact goes_pure _
  | value x => exact go_on x m₁ ρ₁ (forced x rfl) (tr₁.issued issued)

/-! ## Steps of the prelude -/

/-- A call is no choice. -/
theorem ordinary_of_plain (plain : ¬ c.Inert) : c.tag ≠ .choice :=
  fun choice => plain (.inr (.inl choice))

theorem withHeads_goes {body : NodeId → NodeId → Eff Unit} (traces : r.Traces)
    (w : m.Call s ρ root c) (issued : m.Issued) (ht : c.links[0]? = some t) (hu : c.links[1]? = some u)
    (go_on : ∀ x y m' ρ' c', Operands m' s ρ' root x y c' → m'.Issued → (body x y).Goes Traced m') :
    (withHead r root 0 fun x => withHead r root 1 fun y => body x y).Goes Traced m := by
  have ordinary := ordinary_of_plain w.plain
  refine withHead_goes traces w.site issued ordinary ht fun x m₁ ρ₁ forced issued₁ => ?_
  obtain ⟨⟨a, w₁, leads⟩, -⟩ := forced
  have hu₁ : (c.setLink 0 a).links[1]? = some u := (Content.setLink_other (by decide)).trans hu
  refine withHead_goes traces w₁ issued₁ ordinary hu₁ fun y m₂ ρ₂ forced issued₂ => ?_
  obtain ⟨c', operands⟩ := operands_of_forced w.plain ht hu leads forced
  exact go_on x y m₂ ρ₂ c' operands issued₂

theorem withNormals_goes {body : NodeId → NodeId → Eff Unit} (traces : r.Traces)
    (w : m.Call s ρ root c) (issued : m.Issued) (ht : c.links[0]? = some t) (hu : c.links[1]? = some u)
    (go_on : ∀ x y m' ρ' c', Operands m' s ρ' root x y c' → m'.Issued → (body x y).Goes Traced m') :
    (withNormal r root 0 fun x => withNormal r root 1 fun y => body x y).Goes Traced m := by
  have ordinary := ordinary_of_plain w.plain
  refine withNormal_goes traces w.site issued ordinary ht fun x m₁ ρ₁ forced issued₁ => ?_
  obtain ⟨⟨a, w₁, leads⟩, -⟩ := forced
  have hu₁ : (c.setLink 0 a).links[1]? = some u := (Content.setLink_other (by decide)).trans hu
  refine withNormal_goes traces w₁ issued₁ ordinary hu₁ fun y m₂ ρ₂ forced issued₂ => ?_
  obtain ⟨c', operands⟩ := operands_of_forced w.plain ht hu leads forced
  exact go_on x y m₂ ρ₂ c' operands issued₂

/-- The site becomes a node with a symbol that is not built in. -/
theorem rewriteTo_proper (root : NodeId) (le : 10 ≤ id) (links : List Link) :
    (rewriteTo root id links).Moves (Charts (Eq root)) :=
  rewriteTo_charts rfl (Builtin.other_of_proper le) links

theorem stepArithmetic_goes (traces : r.Traces) (w : m.Call s ρ root c) (issued : m.Issued)
    (ht : c.links[0]? = some t) (hu : c.links[1]? = some u) (op : Arithmetic) :
    (stepArithmetic r op root).Goes Traced m := by
  refine withHeads_goes traces w issued ht hu fun x y m' ρ' c' operands _ => ?_
  refine traced_at operands.call.site ((moves_look _).bind fun v => (moves_look _).bind fun w => ?_)
  split
  · split
    · exact rewriteInt_charts rfl _
    · exact rewriteFail_charts rfl
  · exact rewriteFail_charts rfl

theorem stepEquals_goes (traces : r.Traces) (w : m.Call s ρ root c) (issued : m.Issued)
    (ht : c.links[0]? = some t) (hu : c.links[1]? = some u) : (stepEquals r root).Goes Traced m := by
  refine withNormals_goes traces w issued ht hu fun x y m' ρ' c' operands _ => ?_
  refine traced_at operands.call.site ((moves_look _).bind fun same => ?_)
  cases same
  · exact rewriteTo_proper root (by decide) _
  · exact rewriteTo_proper root (by decide) _

theorem stepCompare_goes (traces : r.Traces) (w : m.Call s ρ root c) (issued : m.Issued)
    (ht : c.links[0]? = some t) (hu : c.links[1]? = some u) : (stepCompare r root).Goes Traced m := by
  refine withNormals_goes traces w issued ht hu fun x y m' ρ' c' operands _ => ?_
  refine traced_at operands.call.site ((moves_look _).bind fun order => ?_)
  cases order
  · exact rewriteTo_proper root (by decide) _
  · exact rewriteTo_proper root (by decide) _
  · exact rewriteTo_proper root (by decide) _

theorem stepChoose_goes (w : m.Call s ρ root c) (ht : c.links[0]? = some t)
    (hu : c.links[1]? = some u) : (stepChoose root).Goes Traced m := by
  unfold stepChoose
  refine goes_read (w.site.inv.read_successor w.site.live w.site.content ht)
    (goes_read (w.site.inv.read_successor w.site.live w.site.content hu) ?_)
  exact traced_at w.site (freshChoice_charts rfl t u)

theorem stepConjunction_goes (traces : r.Traces) (w : m.Call s ρ root c) (issued : m.Issued)
    (ht : c.links[0]? = some t) (hu : c.links[1]? = some u) : (stepConjunction r root).Goes Traced m :=
  withHeads_goes traces w issued ht hu fun _ _ _ _ _ operands _ =>
    traced_at operands.call.site (rewriteTo_proper root (by decide) _)

theorem stepGuard_goes (traces : r.Traces) (w : m.Call s ρ root c) (issued : m.Issued)
    (ht : c.links[0]? = some t) : (stepGuard r root).Goes Traced m := by
  refine withHead_goes traces w.site issued (ordinary_of_plain w.plain) ht fun x m₁ ρ₁ forced _ => ?_
  obtain ⟨⟨a, w₁, -⟩, -⟩ := forced
  exact traced_at w₁ ((moves_look _).bind fun l => rewriteForward_charts rfl l)

theorem stepEnsureNotFree_goes (traces : r.Traces) (w : m.Call s ρ root c) (issued : m.Issued)
    (ht : c.links[0]? = some t) : (stepEnsureNotFree r root).Goes Traced m := by
  refine withHead_goes traces w.site issued (ordinary_of_plain w.plain) ht fun x m₁ ρ₁ forced _ => ?_
  obtain ⟨⟨a, w₁, -⟩, -⟩ := forced
  exact traced_at w₁ (rewriteForward_charts rfl (some x))

theorem stepStrictApply_goes (traces : r.Traces) (w : m.Call s ρ root c) (issued : m.Issued)
    (hu : c.links[1]? = some u) : (stepStrictApply r root).Goes Traced m := by
  refine withHead_goes traces w.site issued (ordinary_of_plain w.plain) hu fun x m₁ ρ₁ forced _ => ?_
  obtain ⟨⟨a, w₁, -⟩, -⟩ := forced
  exact traced_at w₁ ((moves_look _).bind fun f => (moves_look _).bind fun a =>
    rewriteTo_proper root (by decide) _)

/-! ## Unification -/

theorem unifyPairs_charts {S : NodeId → Prop} : ∀ (nodes : List NodeId) (pairs : List (Link × Link)),
    (∀ i ∈ nodes, S i) → (unifyPairs nodes pairs).Moves (Charts S)
  | [], _, _ => moves_pure _
  | _ :: _, [], _ => moves_pure _
  | node :: nodes, (x, y) :: pairs, own => by
    have rest := unifyPairs_charts nodes pairs fun i hi => own i (List.mem_cons_of_mem _ hi)
    have first : (rewriteTo node Prelude.standard.unify [x, y]).Moves (Charts S) :=
      rewriteTo_charts (own node List.mem_cons_self) (by decide) _
    exact first.bind fun _ => rest

theorem conjoin_charts {S : NodeId → Prop} : ∀ nodes fresh : List NodeId, (∀ i ∈ fresh, S i) →
    (conjoin nodes fresh).Moves (Charts S)
  | [], _, _ => moves_throw _
  | [last], _, _ => moves_pure last
  | _ :: _ :: _, [], _ => moves_throw _
  | node :: next :: nodes, conjunction :: fresh, own => by
    have rest := conjoin_charts (next :: nodes) fresh fun i hi => own i (List.mem_cons_of_mem _ hi)
    refine rest.bind fun below => ?_
    have joined : (rewriteTo conjunction Prelude.standard.conjunction [some node, some below]).Moves
        (Charts S) :=
      rewriteTo_charts (own conjunction List.mem_cons_self) (by decide) _
    exact joined.bind fun _ => moves_pure conjunction

theorem unifySuccessors_goes (w : m.Site s ρ root c) (pairs : List (Link × Link)) :
    (unifySuccessors root pairs).Goes Traced m := by
  have h := w.inv
  refine Goes.bind (allocate_rooted_tacit h w.live.rooted _).traced fun ids m₁ requested _ => ?_
  obtain ⟨quiet, -, blank⟩ := (allocate_rooted_meets h w.live.rooted _).ok requested
  have h₁ := quiet.inv h
  have live₁ := (quiet.live h).mpr w.live
  -- the new nodes are written, and then the site
  have written : (do
      unifyPairs (ids.take pairs.length) pairs
      rewriteForward root (some (← conjoin (ids.take pairs.length) (ids.drop pairs.length))) :
      Eff Unit).Moves (Charts fun i => i = root ∨ i ∈ ids) := by
    refine (unifyPairs_charts _ pairs fun i hi => .inr (List.mem_of_mem_take hi)).bind fun _ => ?_
    refine (conjoin_charts _ _ fun i hi => .inr (List.mem_of_mem_drop hi)).bind fun top => ?_
    exact rewriteForward_charts (.inl rfl) (some top)
  refine (written.charted h₁.storage h₁.signature ?_).charted_traced
  rintro i (rfl | hi)
  · exact h₁.lt live₁
  · exact blank.lt i hi

theorem unifyHeads_goes (w : m.Site s ρ root c) (x y : NodeId) : (unifyHeads root x y).Goes Traced m := by
  have failed := traced_at w (rewriteFail_charts rfl)
  have done : (succeed root).Goes Traced m := traced_at w (rewriteTo_proper root (by decide) _)
  unfold unifyHeads
  refine goes_look_bind fun a _ => goes_look_bind fun b _ => ?_
  split
  · exact failed
  refine goes_look_bind fun sym _ => ?_
  split
  · exact failed
  split
  · split
    · exact done
    · exact failed
  refine goes_look_bind fun xs _ => goes_look_bind fun ys _ => ?_
  split
  · exact done
  split
  · exact unifySuccessors_goes w _
  · exact goes_throw _

theorem stepUnify_goes (traces : r.Traces) (w : m.Call s ρ root c) (issued : m.Issued)
    (ht : c.links[0]? = some t) (hu : c.links[1]? = some u) : (stepUnify r root).Goes Traced m := by
  obtain ⟨a, ca, skip, leads, ha, -⟩ := w.site.inv.read_successorSkip w.site.live w.site.content ht
  obtain ⟨b, cb, skip', leads', hb, -⟩ :=
    w.site.inv.read_successorSkip w.site.live w.site.content hu
  have succeeded : ∀ {m' : Machine} {ρ' : Rank}, m'.Site s ρ' root c → (succeed root).Goes Traced m' :=
    fun w' => traced_at w' (rewriteTo_proper root (by decide) _)
  unfold stepUnify
  refine goes_read skip (goes_read skip' (goes_read (TermGraph.tag_content ha)
    (goes_read (TermGraph.tag_content hb) ?_)))
  split
  · next free =>
    refine goes_look_bind fun _ _ => goes_look_bind fun _ _ => ?_
    dsimp only
    split
    · refine (bindVars_goes w.site.inv ha hb free.1 free.2 false).bind_keeps (s := s)
        (bindVars_keeps w.site.inv (w.site.below ht leads).1 (w.site.below hu leads').1 false) ?_
      rintro _ m₁ ρ₁ ev ⟨graph, rfl⟩ -
      exact succeeded (w.site.after ev (graph ▸ w.site.content) Iff.rfl)
    · exact succeeded w.site
  · exact withHeads_goes traces w issued ht hu fun x y _ _ _ operands _ =>
      unifyHeads_goes operands.call.site x y

/-! ## Application -/

theorem stepApply_goes (traces : r.Traces) (w : m.Call s ρ root c) (issued : m.Issued)
    (ht : c.links[0]? = some t) : (stepApply r root).Goes Traced m := by
  refine withHead_goes traces w.site issued (ordinary_of_plain w.plain) ht fun f m₁ ρ₁ forced _ => ?_
  obtain ⟨⟨a, w₁, leads⟩, -⟩ := forced
  have failed := traced_at w₁ (rewriteFail_charts rfl)
  have hf := w₁.below (Content.setLink_self ht) leads
  obtain ⟨d, hd, -⟩ := w₁.inv.fits f hf.1
  obtain ⟨sym, found, symbol⟩ := w₁.inv.read_symbol hf.1 hd
  refine goes_look_bind fun argument _ => goes_read (TermGraph.aux_content hd) (goes_read symbol ?_)
  split
  · exact failed
  next proper =>
  obtain ⟨kind, -⟩ := not_or.mp proper
  have misses := misses_of_partialKind w₁.inv hf.1 hd found (not_not.mp kind)
  split
  · have unnamed : Tag.operation ≠ .free ∧ Tag.operation ≠ .choice := ⟨nofun, nofun⟩
    exact traced_at w₁ (rewrite_charts rfl unnamed _ _ _)
  · rcases w₁.inv.read_spine hf.1 misses with run | ⟨target, args, run, spine⟩
    · exact goes_read run failed
    · exact goes_read run (traced_at w₁ (rewriteTo_proper root spine.proper _))

/-! ## New nodes -/

/-- A node is asked for and written. -/
theorem made_goes {a : Eff NodeId} {e : NodeId → Eff Unit} (h : m.Inv [] ρ) (request : a.Goes Tacit m)
    (meets : a.Meets m (fun i m' => m.Quiet m' ∧ m'.Blank [] [i]) fun m' => m.Quiet m')
    (write : ∀ i (m' : Machine), m'.graph.Sound → m'.signature.Sound → i < m'.graph.capacity →
      (e i).Goes Traced m') : (do let i ← a; e i; return i : Eff NodeId).Goes Traced m := by
  refine request.traced.bind fun i m₁ requested _ => ?_
  obtain ⟨quiet, blank⟩ := meets.ok requested
  have h₁ := quiet.inv h
  have written := write i m₁ h₁.storage h₁.signature (blank.lt i List.mem_cons_self)
  exact written.bind fun _ _ _ _ => goes_pure i

theorem makeData_goes (h : m.Inv [] ρ)
    (other : id ≠ Builtin.choice ∧ id ≠ Builtin.narrowed ∧ id ≠ Builtin.free) (aux : Nat) (l : Literal) :
    (makeData id aux l).Goes Traced m :=
  made_goes h (allocateOne_tacit h) (allocateOne_meets h) fun _ _ sound signature lt =>
    rewriteData_traced sound signature lt other aux l

theorem makeFunctionValue_goes (h : m.Inv [] ρ) (id : SymbolId) : (makeFunctionValue id).Goes Traced m := by
  unfold makeFunctionValue
  refine goes_get ?_
  split
  · exact goes_throw _
  · exact makeData_goes h (by decide) _ _

theorem make_goes (h : m.Inv [] ρ) {ls : List NodeId} (live : ∀ j ∈ ls, m.Live [] j)
    (other : id ≠ Builtin.choice ∧ id ≠ Builtin.narrowed ∧ id ≠ Builtin.free) :
    (make id (ls.map some)).Goes Traced m := by
  have rooted : ∀ i, some i ∈ ls.map some → m.Live [] i := fun i hi => live i (by simpa using hi)
  refine made_goes h (allocateFor_tacit h rooted) (allocateFor_meets h rooted)
    fun i m' sound signature lt => ?_
  refine ((rewriteTo_charts (S := Eq i) rfl other _).charted sound signature ?_).charted_traced
  rintro _ rfl
  exact lt

theorem makeChoice_goes {l r : NodeId} (h : m.Inv [] ρ) (hl : m.Live [] l) (hr : m.Live [] r) :
    (makeChoice (some l) (some r)).Goes Traced m := by
  have rooted : ∀ i, some i ∈ [some l, some r] → m.Live [] i := by
    intro i hi
    rcases List.mem_cons.mp hi with same | hi
    · exact Option.some.inj same ▸ hl
    · exact Option.some.inj (List.mem_singleton.mp hi) ▸ hr
  exact made_goes (e := fun i => freshId >>= fun id =>
    rewrite i .choice Builtin.choice id [some l, some r]) h (allocateFor_tacit h rooted)
    (allocateFor_meets h rooted) fun _ _ sound _ lt => freshChoice_traced sound lt l r

theorem makeFree_goes (h : m.Inv [] ρ) (type : Option TypeId) : (makeFree type).Goes Traced m :=
  made_goes (e := fun i => freshId >>= fun id => rewriteFree i id type) h (allocateOne_tacit h)
    (allocateOne_meets h) fun _ _ sound _ lt => freshFree_traced sound lt type

/-! ## Head steps -/

/-- The step is charged before anything else is done. -/
theorem charged_goes {f : Eff Unit} (s : Scope) (h : m.Inv [] ρ) (issued : m.Issued)
    (go_on : ∀ slice, m.Evolves s ρ { m with slice := slice } [] ρ →
      Issued { m with slice := slice } → f.Goes Traced { m with slice := slice }) :
    (tick >>= fun _ => f).Goes Traced m := by
  have charged : tick.Goes Tacit m := tick_tacit m
  refine charged.traced.bind_keeps (s := s) (tick_keeps h) ?_
  rintro _ _ ρ₁ ev ⟨rfl, slice, rfl⟩ tr
  exact go_on slice ev (tr.issued issued)

/-- A call has the arguments that its step reads. -/
theorem call_goes (traces : r.Traces) (w : m.Call s ρ root c) (issued : m.Issued) (call : sym.IsCall)
    (symbol : m.symbol root = .ok sym) (length : c.links.length = sym.arity) :
    (headStep r root).Goes Traced m := by
  obtain ⟨_, reads, le⟩ := call.reads
  have argument : ∀ k n, sym.head.reads? = some n → k < n → ∃ t, c.links[k]? = some t := by
    intro k n' reads' lt
    cases reads.symm.trans reads'
    exact ⟨_, List.getElem?_eq_getElem (length ▸ Nat.lt_of_lt_of_le lt le)⟩
  have pair : sym.head.reads? = some 2 → ∃ t u, c.links[0]? = some t ∧ c.links[1]? = some u :=
    fun reads => by
      obtain ⟨t, ht⟩ := argument 0 2 reads (by decide)
      obtain ⟨u, hu⟩ := argument 1 2 reads (by decide)
      exact ⟨t, u, ht, hu⟩
  unfold headStep
  refine charged_goes s w.site.inv issued fun slice ev issued₁ => ?_
  have w₁ : Machine.Call { m with slice := slice } s ρ root c :=
    ⟨w.site.after ev w.site.content Iff.rfl, w.plain⟩
  refine goes_read symbol ?_
  cases head : sym.head with
  | none => exact goes_pure _
  | fail => exact traced_at w₁.site (rewriteFail_charts rfl)
  | spin => exact (makeData_goes w₁.site.inv (by decide) _ _).bind fun _ _ _ _ => goes_pure _
  | rule rule =>
    rw [head] at reads
    cases reads
  | forward =>
    obtain ⟨t, ht⟩ := argument 0 1 (head ▸ rfl) (by decide)
    refine goes_read (w₁.site.inv.read_successor w₁.site.live w₁.site.content ht) (goes_read rfl ?_)
    exact (traces.head _ _ t w₁.site.inv (w₁.site.link ht).1 issued₁).bind fun _ _ _ _ => goes_pure _
  | ensureNotFree =>
    obtain ⟨t, ht⟩ := argument 0 1 (head ▸ rfl) (by decide)
    exact stepEnsureNotFree_goes traces w₁ issued₁ ht
  | arithmetic op =>
    obtain ⟨t, u, ht, hu⟩ := pair (head ▸ rfl)
    exact stepArithmetic_goes traces w₁ issued₁ ht hu op
  | equals =>
    obtain ⟨t, u, ht, hu⟩ := pair (head ▸ rfl)
    exact stepEquals_goes traces w₁ issued₁ ht hu
  | compare =>
    obtain ⟨t, u, ht, hu⟩ := pair (head ▸ rfl)
    exact stepCompare_goes traces w₁ issued₁ ht hu
  | choose =>
    obtain ⟨t, u, ht, hu⟩ := pair (head ▸ rfl)
    exact stepChoose_goes w₁ ht hu
  | unify =>
    obtain ⟨t, u, ht, hu⟩ := pair (head ▸ rfl)
    exact stepUnify_goes traces w₁ issued₁ ht hu
  | conjunction =>
    obtain ⟨t, u, ht, hu⟩ := pair (head ▸ rfl)
    exact stepConjunction_goes traces w₁ issued₁ ht hu
  | guard =>
    obtain ⟨t, u, ht, -⟩ := pair (head ▸ rfl)
    exact stepGuard_goes traces w₁ issued₁ ht
  | strictApply =>
    obtain ⟨t, u, -, hu⟩ := pair (head ▸ rfl)
    exact stepStrictApply_goes traces w₁ issued₁ hu
  | apply =>
    obtain ⟨t, u, ht, -⟩ := pair (head ▸ rfl)
    exact stepApply_goes traces w₁ issued₁ ht

/-- One head step at any live node. -/
theorem headStep_goes (traces : r.Traces) (h : m.Inv [] ρ) (issued : m.Issued) (live : m.Live [] i) :
    (headStep r i).Goes Traced m := by
  obtain ⟨c, hc, fits⟩ := h.fits i live
  obtain ⟨sym, found, -, length⟩ := h.symbolAt live hc
  have symbol := TermGraph.symbol_content (t := m.toTermGraph) hc found
  have idle : sym.head = .none → (headStep r i).Goes Traced m := by
    intro head
    unfold headStep
    refine charged_goes (.below 0) h issued fun slice _ _ => goes_read symbol ?_
    rw [head]
    exact goes_pure _
  cases fits.steps h.signature found with
  | still head => exact idle head
  | constructor plain head => exact idle head
  | call plain call => exact call_goes traces (site_below h live hc plain) issued call symbol length
  | forward tag head =>
    obtain ⟨aux, next, rfl⟩ := fits.of_forward tag
    have below := h.below live hc List.mem_cons_self (.refl next)
    unfold headStep
    refine charged_goes (.below 0) h issued fun slice ev issued₁ => goes_read symbol ?_
    rw [head]
    refine goes_read (h.read_successor (k := 0) live hc rfl) (goes_read rfl ?_)
    exact (traces.head _ _ next ev.inv below.1 issued₁).bind fun _ _ _ _ => goes_pure _

/-! ## Normal forms -/

theorem normalizeFields_goes (traces : r.Traces) : ∀ (count k : Nat) (m : Machine) (ρ : Rank)
    (c : Content), m.Site s ρ root c → m.Issued → c.tag ≠ .choice → k + count ≤ c.links.length →
    (normalizeFields r root count k).Goes Traced m := by
  intro count
  induction count with
  | zero => exact fun k m ρ c _ _ _ _ => goes_pure (m := m) ()
  | succ count ih =>
    intro k m ρ c w issued ordinary enough
    have lt : k < c.links.length := by omega
    have hk := List.getElem?_eq_getElem lt
    have below := w.link hk
    unfold normalizeFields
    refine goes_read (w.inv.read_successor w.live w.content hk) (goes_read rfl ?_)
    refine (traces.normal m ρ _ w.inv below.1 issued).bind_keeps
      ((traces.sound.normal m ρ _ w.inv below.1).within (w.within below.2)) ?_
    rintro _ m₁ ρ₁ ev₁ ⟨fine₁, -⟩ tr₁
    obtain ⟨w₁, -⟩ := w.spare below.2 hk fine₁
    obtain ⟨j, d, skip, leads, -, -⟩ := w₁.inv.read_skip (w₁.link hk).1
    refine goes_read skip ?_
    refine relink_goes w₁ (tr₁.issued issued) ordinary hk leads (fun same => (not_not.mp same).symm)
      fun m₂ ρ₂ w₂ issued₂ => ?_
    have hk₂ := Content.setLink_self (i := j) hk
    obtain ⟨d, hd, fits⟩ := w₂.inv.fits j (w₂.link hk₂).1
    refine goes_read (TermGraph.tag_content hd) ?_
    have go_on : (normalizeFields r root count (k + 1)).Goes Traced m₂ := by
      refine ih (k + 1) m₂ ρ₂ _ w₂ issued₂ ordinary ?_
      rw [Content.setLink_links, List.length_set]
      omega
    cases tag : d.tag with
    | failure => exact traced_at w₂ (rewriteFail_charts rfl)
    | choice =>
      obtain ⟨symbol, id, left, right, rfl, choice⟩ := fits.of_choice tag
      exact pull_goes w₂.inv issued₂ w₂.live w₂.content ordinary ⟨⟨j, hk₂, .refl j⟩, hd, choice⟩
        w₂.loose
    | unassigned below => exact absurd tag (fits.tag_ne_unassigned below)
    | _ => exact go_on

theorem normalStep_goes (traces : r.Traces) (h : m.Inv [] ρ) (issued : m.Issued) (live : m.Live [] i) :
    (normalStep r i).Goes Traced m := by
  obtain ⟨c, hc, fits⟩ := h.fits i live
  obtain ⟨sym, found, -, length⟩ := h.symbolAt live hc
  unfold normalStep
  refine charged_goes (.below 0) h issued fun slice ev issued₁ => ?_
  refine goes_read (TermGraph.symbol_content (t := m.toTermGraph) hc found) ?_
  cases fits.steps h.signature found with
  | still _ normal =>
    rw [normal]
    exact goes_pure _
  | forward tag _ normal =>
    rw [normal]
    obtain ⟨aux, next, rfl⟩ := fits.of_forward tag
    have below := h.below live hc List.mem_cons_self (.refl next)
    refine goes_read (h.read_successor (k := 0) live hc rfl) (goes_read rfl ?_)
    exact traces.normal _ _ next ev.inv below.1 issued₁
  | constructor plain _ normal =>
    rw [normal]
    refine goes_read (TermGraph.arity_content (t := m.toTermGraph) hc found) ?_
    exact normalizeFields_goes traces sym.arity 0 _ _ c (site_below ev.inv live hc plain).site issued₁
      (ordinary_of_plain plain) (by rw [Nat.zero_add, length])
  | call plain call =>
    rw [call.normal]
    refine (traces.head _ _ i ev.inv live issued₁).bind_keeps (traces.sound.head _ _ i ev.inv live) ?_
    rintro j m₁ ρ₂ ev₁ leads tr₁
    have live₁ : m₁.Live [] i := ev₁.live (ev.inv.steady (s := .below _) live le_rfl)
    obtain ⟨d, hd, fits⟩ := ev₁.inv.fits j (live₁.leads leads)
    refine goes_read (TermGraph.tag_content hd) ?_
    cases tag : d.tag with
    | constructor index => exact traces.normal _ _ j ev₁.inv (live₁.leads leads) (tr₁.issued issued₁)
    | unassigned below => exact absurd tag (fits.tag_ne_unassigned below)
    | _ => exact goes_pure _

/-! ## Nested reductions -/

theorem headNormalize_goes {fuel : Nat} (traces : (reducer fuel).Traces) (h : m.Inv [] ρ)
    (issued : m.Issued) (live : m.Live [] i) : (headNormalize (fuel + 1) i).Goes Traced m := by
  obtain ⟨p, c, skip, leads, hc, -⟩ := h.read_skip live
  have livep := live.leads leads
  unfold headNormalize
  refine goes_read skip (goes_look_bind fun reducible _ => ?_)
  cases reducible with
  | false => exact goes_pure p
  | true =>
    refine (headStep_goes traces h issued livep).bind_keeps (headStep_keeps traces.sound h livep) ?_
    rintro _ m₁ ρ₁ ev₁ - tr₁
    exact traces.head m₁ ρ₁ p ev₁.inv (ev₁.live (h.steady livep le_rfl)) (tr₁.issued issued)

/-- Every bound on the depth of nesting will do. -/
theorem reducer_traces : ∀ fuel : Nat, (reducer fuel).Traces := by
  intro fuel
  induction fuel with
  | zero =>
    refine ⟨reducer_sound 0, fun m ρ i _ _ _ => ?_, fun m ρ i _ _ _ => ?_⟩
    · change (normalize 0 i).Goes Traced m
      unfold normalize
      exact goes_throw _
    · change (headNormalize 0 i).Goes Traced m
      unfold headNormalize
      exact goes_throw _
  | succ fuel ih =>
    refine ⟨reducer_sound (fuel + 1), fun m ρ i h live issued => ?_,
      fun m ρ i h live issued => headNormalize_goes ih h issued live⟩
    change (normalize (fuel + 1) i).Goes Traced m
    unfold normalize
    exact normalStep_goes ih h issued live

end ChoiceGraph.Reduction
