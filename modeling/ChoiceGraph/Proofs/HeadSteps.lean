import ChoiceGraph.Proofs.Forcing
import ChoiceGraph.Reduction.PreludeStep

/-! # Head steps keep the machine

One lemma for each step of the prelude: it forces the arguments it is strict in and then rewrites
the call. A call is no kind of node that others rely on, so it may become anything whose links
rank below it. -/
namespace ChoiceGraph

namespace Signature

variable {s : Signature} {id : SymbolId} {sym : Symbol}

/-- A node that has as many links as its proper symbol has arguments fits. -/
theorem Sound.fits (h : s.Sound) (le : 10 ≤ id) (found : s.symbol? id = some sym) (aux : Nat)
    (ls : List NodeId) (length : ls.length = sym.arity) :
    ∃ tag, s.tagFor id = .ok tag ∧ Content.Fits s ⟨tag, id, aux, .links ls⟩ := by
  rcases h.proper id sym le found with ⟨type, index, hc⟩ | hc
  · exact ⟨_, Symbol.IsConstructor.tagFor found hc,
      .constructor id sym type index aux ls le found hc length⟩
  · exact ⟨_, Symbol.IsCall.tagFor found hc, .call id sym aux ls le found hc length⟩

/-- The symbols of the prelude have the arities they had from the start. -/
theorem Sound.preludeArity (h : s.Sound) (id : SymbolId) {n : Nat} (lt : id < preludeEnd)
    (arity : (standard.symbol? id).map Symbol.arity = some n) :
    ∃ sym, s.symbol? id = some sym ∧ sym.arity = n := by
  obtain ⟨sym, found, rfl⟩ := Option.map_eq_some_iff.mp arity
  exact ⟨sym, (h.prelude id lt).trans found, rfl⟩

end Signature

namespace Content

variable {s : Signature} {c : Content} {sym : Symbol}

theorem spined_of_proper {P : NodeId → Nat → Prop} {tag : Tag} {id : SymbolId} {aux : Nat}
    {cargo : Cargo} (le : 10 ≤ id) : Spined ⟨tag, id, aux, cargo⟩ P := by
  refine spined_of_ne ?_
  rintro rfl
  exact absurd le (by decide)

/-- Only partial applications and functions are of the kind of partial applications. -/
theorem Fits.of_partialKind (fits : c.Fits s) (h : s.Sound) (found : s.symbol? c.symbol = some sym)
    (kind : sym.kind = .partialApplication) :
    c.symbol = Builtin.partialApplication ∨ c.symbol = Builtin.function := by
  have builtin : ∀ id : SymbolId, id < 8 → s.symbol? id ≠ some sym := by
    intro id lt found
    rw [h.prelude id (Nat.lt_trans lt (by decide))] at found
    have table : ∀ id < 8, (Signature.standard.symbol? id).map Symbol.kind = some .builtin := by
      decide
    have := table id lt
    rw [found, Option.map_some, kind] at this
    cases this
  have proper : 10 ≤ c.symbol → False := by
    intro le
    rcases h.proper _ sym le found with ⟨type, index, hc⟩ | hc
    · cases kind.symm.trans hc.kind
    · cases kind.symm.trans hc.kind
  cases fits with
  | partialApplication => exact .inl rfl
  | function => exact .inr rfl
  | constructor id sym' type index aux ls le => exact (proper le).elim
  | call id sym' aux ls le => exact (proper le).elim
  | _ =>
    dsimp only at found
    exact absurd found (builtin _ (by decide))

end Content

namespace Machine

variable {m m' : Machine} {ρ ρ' : Rank} {root x y : NodeId} {c d : Content} {k : Nat} {s : Scope}

/-- A site that is a call, or a constructor: nothing relies on what it is. -/
structure Call (m : Machine) (s : Scope) (ρ : Rank) (root : NodeId) (c : Content) : Prop where
  site : m.Site s ρ root c
  plain : ¬ c.Inert

theorem Call.unmissed (w : m.Call s ρ root c) : ¬ m.graph.Misses root k :=
  fun hm => w.plain (hm.by w.site.content).inert

end Machine

namespace Reduction

open Eff Machine

variable {m : Machine} {ρ : Rank} {root x y t u : NodeId} {c d : Content} {s : Scope}
  {r : Reducer} {e : Eff Unit} {id : SymbolId} {sym : Symbol}

/-! ## Rewriting the call -/

theorem rewrite_keeps (w : m.Call s ρ root c) (hw : e.Writes root d m) (fits : d.Fits m.signature)
    (links : ∀ j ∈ d.links, m.Live [] j ∧ ρ j < ρ root) (spine : d.Spined m.graph.Misses) :
    e.Keeps s m ρ fun _ _ _ => True :=
  (hw.keeps w.site.inv w.site.live fits links spine (fun _ hm => (w.unmissed hm).elim)
    w.site.loose).mono fun _ _ _ _ _ => trivial

theorem rewriteTo_keeps (ls : List NodeId) (w : m.Call s ρ root c) (le : 10 ≤ id)
    (found : m.signature.symbol? id = some sym) (length : ls.length = sym.arity)
    (links : ∀ j ∈ ls, m.Live [] j ∧ ρ j < ρ root) :
    (rewriteTo root id (ls.map some)).Keeps s m ρ fun _ _ _ => True := by
  obtain ⟨tag, ht, fits⟩ := w.site.inv.signature.fits le found 0 ls length
  refine rewrite_keeps w (rewriteTo_writes w.site.inv.storage (w.site.inv.lt w.site.live) ht ls) fits
    links (Content.spined_of_proper le)

/-- The call becomes a constant of the prelude. -/
theorem rewriteConstant_keeps (w : m.Call s ρ root c) (le : 10 ≤ id)
    (lt : id < Signature.preludeEnd)
    (arity : (Signature.standard.symbol? id).map Symbol.arity = some 0) :
    (rewriteTo root id []).Keeps s m ρ fun _ _ _ => True := by
  obtain ⟨sym, found, length⟩ := w.site.inv.signature.preludeArity id lt arity
  exact rewriteTo_keeps [] w le found length.symm fun _ hj => absurd hj List.not_mem_nil

theorem succeed_keeps (w : m.Call s ρ root c) : (succeed root).Keeps s m ρ fun _ _ _ => True :=
  rewriteConstant_keeps w (by decide) (by decide) rfl

theorem rewriteInt_keeps (w : m.Call s ρ root c) (v : Int64) :
    (rewriteInt root v).Keeps s m ρ fun _ _ _ => True := by
  have ht : m.signature.tagFor Builtin.int = .ok (.constructor 0) :=
    (Signature.tagFor_builtin w.site.inv.signature (by decide)).trans rfl
  exact rewrite_keeps w (rewriteData_writes w.site.inv.storage (w.site.inv.lt w.site.live) ht 0 _)
    (.int 0 v) (fun _ hj => absurd hj List.not_mem_nil) (Content.spined_of_tag nofun)

theorem rewriteForward_keeps (w : m.Call s ρ root c) (live : m.Live [] x) (lt : ρ x < ρ root) :
    (rewriteForward root (some x)).Keeps s m ρ fun _ _ _ => True := by
  refine rewrite_keeps w (rewriteForward_writes w.site.inv.storage (w.site.inv.lt w.site.live) x)
    (.forward 0 x) (fun j hj => ?_) (Content.spined_of_tag nofun)
  rw [List.mem_singleton.mp hj]
  exact ⟨live, lt⟩

/-! ## Forcing two arguments -/

/-- Both arguments of a call were forced: what they are now lies below the call. -/
structure Operands (m : Machine) (s : Scope) (ρ : Rank) (root x y : NodeId) (c : Content) :
    Prop where
  call : m.Call s ρ root c
  first : m.Live [] x ∧ ρ x < ρ root
  second : m.Live [] y ∧ ρ y < ρ root

theorem operands_of_forced {m₁ m₂ : Machine} {ρ₂ : Rank} {a : NodeId} (plain : ¬ c.Inert)
    (ht : c.links[0]? = some t) (hu : c.links[1]? = some u)
    (leads : m₁.graph.Leads a x)
    (forced : m₁.Forced m₂ s ρ₂ root (c.setLink 0 a) 1 y) :
    ∃ c', Operands m₂ s ρ₂ root x y c' := by
  obtain ⟨⟨b, w₂, leads₂⟩, others⟩ := forced
  have h₀ : (c.setLink 0 a).links[0]? = some a := Content.setLink_self ht
  have h₁ : (c.setLink 0 a).links[1]? = some u := (Content.setLink_other (by decide)).trans hu
  refine ⟨_, ⟨w₂, fun h => plain (Content.setLink_inert.mp (Content.setLink_inert.mp h))⟩, ?_, ?_⟩
  · exact w₂.below ((Content.setLink_other (by decide)).trans h₀)
      (others 0 a x (by decide) h₀ leads)
  · exact w₂.below (Content.setLink_self h₁) leads₂

theorem withHeads_keeps {body : NodeId → NodeId → Eff Unit} (sound : r.Sound)
    (w : m.Call s ρ root c) (ht : c.links[0]? = some t) (hu : c.links[1]? = some u)
    (go_on : ∀ x y m' ρ' c', Operands m' s ρ' root x y c' →
      (body x y).Keeps s m' ρ' fun _ _ _ => True) :
    (withHead r root 0 fun x => withHead r root 1 fun y => body x y).Keeps s m ρ
      fun _ _ _ => True := by
  refine withHead_keeps sound w.site ht fun x m₁ ρ₁ forced => ?_
  obtain ⟨⟨a, w₁, leads⟩, -⟩ := forced
  have hu₁ : (c.setLink 0 a).links[1]? = some u := (Content.setLink_other (by decide)).trans hu
  refine withHead_keeps sound w₁ hu₁ fun y m₂ ρ₂ forced => ?_
  obtain ⟨c', operands⟩ := operands_of_forced w.plain ht hu leads forced
  exact go_on x y m₂ ρ₂ c' operands

theorem withNormals_keeps {body : NodeId → NodeId → Eff Unit} (sound : r.Sound)
    (w : m.Call s ρ root c) (ht : c.links[0]? = some t) (hu : c.links[1]? = some u)
    (go_on : ∀ x y m' ρ' c', Operands m' s ρ' root x y c' →
      (body x y).Keeps s m' ρ' fun _ _ _ => True) :
    (withNormal r root 0 fun x => withNormal r root 1 fun y => body x y).Keeps s m ρ
      fun _ _ _ => True := by
  refine withNormal_keeps sound w.site ht fun x m₁ ρ₁ forced => ?_
  obtain ⟨⟨a, w₁, leads⟩, -⟩ := forced
  have hu₁ : (c.setLink 0 a).links[1]? = some u := (Content.setLink_other (by decide)).trans hu
  refine withNormal_keeps sound w₁ hu₁ fun y m₂ ρ₂ forced => ?_
  obtain ⟨c', operands⟩ := operands_of_forced w.plain ht hu leads forced
  exact go_on x y m₂ ρ₂ c' operands

/-! ## The steps -/

theorem stepArithmetic_keeps (sound : r.Sound) (w : m.Call s ρ root c)
    (ht : c.links[0]? = some t) (hu : c.links[1]? = some u) (op : Arithmetic) :
    (stepArithmetic r op root).Keeps s m ρ fun _ _ _ => True := by
  refine withHeads_keeps sound w ht hu fun x y m' ρ' c' operands => ?_
  have w' := operands.call
  obtain ⟨cx, hx, -⟩ := w'.site.inv.fits x operands.first.1
  obtain ⟨cy, hy, -⟩ := w'.site.inv.fits y operands.second.1
  refine keeps_look_bind (TermGraph.literal_content hx)
    (keeps_look_bind (TermGraph.literal_content hy) ?_)
  split
  · split
    · exact rewriteInt_keeps w' _
    · exact rewriteFail_keeps w'.site
  · exact rewriteFail_keeps w'.site

theorem stepEquals_keeps (sound : r.Sound) (w : m.Call s ρ root c) (ht : c.links[0]? = some t)
    (hu : c.links[1]? = some u) : (stepEquals r root).Keeps s m ρ fun _ _ _ => True := by
  refine withNormals_keeps sound w ht hu fun x y m' ρ' c' operands => ?_
  obtain ⟨same, run⟩ := operands.call.site.inv.read_equals operands.first.1 operands.second.1
  refine keeps_look_bind run ?_
  cases same
  · exact rewriteConstant_keeps operands.call (by decide) (by decide) rfl
  · exact rewriteConstant_keeps operands.call (by decide) (by decide) rfl

theorem stepCompare_keeps (sound : r.Sound) (w : m.Call s ρ root c) (ht : c.links[0]? = some t)
    (hu : c.links[1]? = some u) : (stepCompare r root).Keeps s m ρ fun _ _ _ => True := by
  refine withNormals_keeps sound w ht hu fun x y m' ρ' c' operands => ?_
  obtain ⟨order, run⟩ := operands.call.site.inv.read_order operands.first.1 operands.second.1
  refine keeps_look_bind run ?_
  cases order
  · exact rewriteConstant_keeps operands.call (by decide) (by decide) rfl
  · exact rewriteConstant_keeps operands.call (by decide) (by decide) rfl
  · exact rewriteConstant_keeps operands.call (by decide) (by decide) rfl

theorem freshId_keeps (w : m.Site s ρ root c) : freshId.Keeps s m ρ fun _ m' ρ' =>
    ρ' = ρ ∧ m'.Site s ρ' root c :=
  meets_of_ok rfl
    ⟨ρ, quiet_count w.inv _ m.slice, rfl, w.after (quiet_count w.inv _ m.slice) w.content Iff.rfl⟩

theorem stepChoose_keeps (w : m.Call s ρ root c) (ht : c.links[0]? = some t)
    (hu : c.links[1]? = some u) : (stepChoose root).Keeps s m ρ fun _ _ _ => True := by
  unfold stepChoose
  refine keeps_look_bind (w.site.inv.read_successor w.site.live w.site.content ht)
    (keeps_look_bind (w.site.inv.read_successor w.site.live w.site.content hu) ?_)
  refine Keeps.bind (freshId_keeps w.site) ?_
  rintro id m₁ ρ₁ - ⟨rfl, w₁⟩
  refine rewrite_keeps ⟨w₁, w.plain⟩ (rewrite_writes w₁.inv.storage (w₁.inv.lt w₁.live) .choice
    Builtin.choice id [t, u]) (.choice id t u) (fun j hj => ?_) (Content.spined_of_tag nofun)
  rcases List.mem_cons.mp hj with rfl | hj
  · exact w₁.link ht
  · rw [List.mem_singleton.mp hj]
    exact w₁.link hu

theorem stepConjunction_keeps (sound : r.Sound) (w : m.Call s ρ root c)
    (ht : c.links[0]? = some t) (hu : c.links[1]? = some u) :
    (stepConjunction r root).Keeps s m ρ fun _ _ _ => True :=
  withHeads_keeps sound w ht hu fun _ _ _ _ _ operands => succeed_keeps operands.call

theorem stepGuard_keeps (sound : r.Sound) (w : m.Call s ρ root c) (ht : c.links[0]? = some t)
    (hu : c.links[1]? = some u) : (stepGuard r root).Keeps s m ρ fun _ _ _ => True := by
  refine withHead_keeps sound w.site ht fun x m₁ ρ₁ forced => ?_
  obtain ⟨⟨a, w₁, -⟩, -⟩ := forced
  have hu₁ : (c.setLink 0 a).links[1]? = some u := (Content.setLink_other (by decide)).trans hu
  refine keeps_look_bind (w₁.inv.read_successor w₁.live w₁.content hu₁) ?_
  exact rewriteForward_keeps ⟨w₁, w.plain⟩ (w₁.link hu₁).1 (w₁.link hu₁).2

theorem stepEnsureNotFree_keeps (sound : r.Sound) (w : m.Call s ρ root c)
    (ht : c.links[0]? = some t) : (stepEnsureNotFree r root).Keeps s m ρ fun _ _ _ => True := by
  refine withHead_keeps sound w.site ht fun x m₁ ρ₁ forced => ?_
  obtain ⟨⟨a, w₁, leads⟩, -⟩ := forced
  have below := w₁.below (Content.setLink_self ht) leads
  exact rewriteForward_keeps ⟨w₁, w.plain⟩ below.1 below.2

theorem stepStrictApply_keeps (sound : r.Sound) (w : m.Call s ρ root c)
    (ht : c.links[0]? = some t) (hu : c.links[1]? = some u) :
    (stepStrictApply r root).Keeps s m ρ fun _ _ _ => True := by
  refine withHead_keeps sound w.site hu fun x m₁ ρ₁ forced => ?_
  obtain ⟨⟨a, w₁, -⟩, -⟩ := forced
  have ht₁ : (c.setLink 1 a).links[0]? = some t := (Content.setLink_other (by decide)).trans ht
  have hu₁ : (c.setLink 1 a).links[1]? = some a := Content.setLink_self hu
  refine keeps_look_bind (w₁.inv.read_successor w₁.live w₁.content ht₁)
    (keeps_look_bind (w₁.inv.read_successor w₁.live w₁.content hu₁) ?_)
  obtain ⟨sym, found, arity⟩ := w₁.inv.signature.preludeArity Prelude.standard.apply
    (by decide) rfl
  refine rewriteTo_keeps [t, a] ⟨w₁, w.plain⟩ (by decide) found arity.symm fun j hj => ?_
  rcases List.mem_cons.mp hj with rfl | hj
  · exact w₁.link ht₁
  · rw [List.mem_singleton.mp hj]
    exact w₁.link hu₁

/-! ## Unification -/

theorem unifyPairs_drafts {m₀ : Machine} {ρ₀ : Rank} {rest : List NodeId} {b : ℚ} :
    ∀ (nodes : List NodeId) (pairs : List (NodeId × NodeId)) (m : Machine) (held : List NodeId)
      (ρ : Rank), nodes.length = pairs.length → m₀.Evolves s ρ₀ m held ρ →
    m.Blank held (nodes ++ rest) →
    (∀ p ∈ pairs, (m.Live held p.1 ∧ ρ p.1 < b) ∧ m.Live held p.2 ∧ ρ p.2 < b) →
    (unifyPairs nodes (pairs.map fun p => (some p.1, some p.2))).Meets m
      (fun _ m' => ∃ held' ρ', Drafts s m₀ ρ₀ m held ρ m' held' ρ' rest ∧
        ∀ i ∈ nodes, i ∈ held' ∧ ρ' i < b) (Stopped s m₀ ρ₀) := by
  intro nodes
  induction nodes with
  | nil =>
    intro pairs m held ρ length ev blank _
    have none : pairs = [] := List.length_eq_zero_iff.mp length.symm
    subst none
    exact meets_pure ⟨held, ρ, .refl ev blank, fun i hi => absurd hi List.not_mem_nil⟩
  | cons node nodes ih =>
    intro pairs m held ρ length ev blank live
    cases pairs with
    | nil => cases length
    | cons p pairs =>
      obtain ⟨sym, found, arity⟩ := ev.inv.signature.preludeArity Prelude.standard.unify
        (by decide) rfl
      obtain ⟨tag, ht, fits⟩ := ev.inv.signature.fits (by decide) found 0 [p.1, p.2]
        arity.symm
      obtain ⟨first, second⟩ := live p List.mem_cons_self
      unfold unifyPairs
      refine ((rewriteTo_writes ev.inv.storage (blank.lt node List.mem_cons_self) ht
        [p.1, p.2]).draft (b := b) ev blank fits (fun j hj => ?_)
        (Content.spined_of_proper (by decide))).bind ?_
      · rcases List.mem_cons.mp hj with rfl | hj
        · exact first
        · rw [List.mem_singleton.mp hj]
          exact second
      rintro _ m₁ ⟨ρ₁, d₁, lt₁, -⟩
      have moved : ∀ j, m.Live held j ∧ ρ j < b → m₁.Live (node :: held) j ∧ ρ₁ j < b :=
        fun j hj => ⟨d₁.adds.live ev.inv hj.1, (d₁.adds.rank j hj.1).trans_lt hj.2⟩
      refine (ih pairs m₁ (node :: held) ρ₁ (Nat.succ.inj length) d₁.evolves d₁.blank
        fun q hq => ?_).mono ?_ fun _ h => h
      · obtain ⟨first, second⟩ := live q (List.mem_cons_of_mem _ hq)
        exact ⟨moved _ first, moved _ second⟩
      rintro _ m₂ ⟨held₂, ρ₂, d₂, below⟩
      refine ⟨held₂, ρ₂, d₁.trans ev.inv d₂, fun i hi => ?_⟩
      rcases List.mem_cons.mp hi with rfl | hi
      · exact ⟨d₂.adds.more i List.mem_cons_self,
          (d₂.adds.rank i (live_held List.mem_cons_self)).trans_lt lt₁⟩
      · exact below i hi

theorem conjoin_drafts {m₀ : Machine} {ρ₀ : Rank} {b : ℚ} :
    ∀ (nodes fresh rest : List NodeId) (m : Machine) (held : List NodeId) (ρ : Rank),
    nodes.length = fresh.length + 1 → m₀.Evolves s ρ₀ m held ρ → m.Blank held (fresh ++ rest) →
    (∀ i ∈ nodes, i ∈ held ∧ ρ i < b) →
    (conjoin nodes fresh).Meets m (fun i m' => ∃ held' ρ',
      Drafts s m₀ ρ₀ m held ρ m' held' ρ' rest ∧ i ∈ held' ∧ ρ' i < b) (Stopped s m₀ ρ₀) := by
  intro nodes
  induction nodes with
  | nil => exact fun fresh rest m held ρ length => absurd length (Nat.succ_ne_zero _).symm
  | cons node nodes ih =>
    intro fresh rest m held ρ length ev blank below
    cases nodes with
    | nil =>
      have none : fresh = [] := List.length_eq_zero_iff.mp (Nat.succ.inj length).symm
      subst none
      exact meets_pure ⟨held, ρ, .refl ev blank, below node List.mem_cons_self⟩
    | cons next nodes =>
      cases fresh with
      | nil => cases length
      | cons conjunction fresh =>
        -- the conjunctions below are drafted while this one stays blank
        have order : (conjunction :: fresh ++ rest).Perm (fresh ++ conjunction :: rest) :=
          List.perm_middle.symm
        unfold conjoin
        refine (ih fresh (conjunction :: rest) m held ρ (Nat.succ.inj length) ev
          (blank.perm order) fun i hi => below i (List.mem_cons_of_mem _ hi)).bind ?_
        rintro i m₁ ⟨held₁, ρ₁, d₁, hi, lti⟩
        have h₁ := d₁.evolves.inv
        obtain ⟨sym, found, arity⟩ := h₁.signature.preludeArity
          Prelude.standard.conjunction (by decide) rfl
        obtain ⟨tag, ht, fits⟩ := h₁.signature.fits (by decide) found 0 [node, i]
          arity.symm
        obtain ⟨first, ltf⟩ := below node List.mem_cons_self
        refine ((rewriteTo_writes h₁.storage (d₁.blank.lt conjunction List.mem_cons_self) ht
          [node, i]).draft (b := b) d₁.evolves d₁.blank fits (fun j hj => ?_)
          (Content.spined_of_proper (by decide))).bind ?_
        · rcases List.mem_cons.mp hj with rfl | hj
          · exact ⟨d₁.adds.live ev.inv (live_held first),
              (d₁.adds.rank j (live_held first)).trans_lt ltf⟩
          · rw [List.mem_singleton.mp hj]
            exact ⟨live_held hi, lti⟩
        rintro _ m₂ ⟨ρ₂, d₂, lt₂, -⟩
        exact meets_pure ⟨_, ρ₂, d₁.trans ev.inv d₂, List.mem_cons_self, lt₂⟩

theorem unifySuccessors_keeps (w : m.Call s ρ root c) {pairs : List (NodeId × NodeId)}
    (filled : pairs ≠ [])
    (live : ∀ p ∈ pairs, (m.Live [] p.1 ∧ ρ p.1 < ρ root) ∧ m.Live [] p.2 ∧ ρ p.2 < ρ root) :
    (unifySuccessors root (pairs.map fun p => (some p.1, some p.2))).Keeps s m ρ
      fun _ _ _ => True := by
  have h := w.site.inv
  have count : 1 ≤ pairs.length := List.length_pos_iff.mpr filled
  unfold unifySuccessors allocateBeside
  simp only [List.length_map]
  refine Meets.bind (Q := fun ids m' => m.Quiet m' ∧ ids.length = 2 * pairs.length - 1 ∧
    m'.Blank [] ids) ((allocate_rooted_meets h w.site.live.rooted _).mono (fun _ _ h => h)
      fun _ q => ⟨ρ, q.evolves h⟩) ?_
  rintro ids m₁ ⟨quiet, length, blank⟩
  have h₁ := quiet.inv h
  have live₁ := (quiet.live h).mpr w.site.live
  have hc₁ := (quiet.kept root w.site.live).trans w.site.content
  rw [← List.take_append_drop pairs.length ids] at blank
  refine (unifyPairs_drafts (s := s) (b := ρ root) (ids.take pairs.length) pairs m₁ [] ρ
    (by rw [List.length_take]; omega) (quiet.evolves h) blank fun p hp => ?_).bind ?_
  · obtain ⟨first, second⟩ := live p hp
    exact ⟨⟨(quiet.live h).mpr first.1, first.2⟩, (quiet.live h).mpr second.1, second.2⟩
  rintro _ m₂ ⟨held₂, ρ₂, d₂, below⟩
  have blank₂ := d₂.blank
  rw [← List.append_nil (ids.drop pairs.length)] at blank₂
  refine (conjoin_drafts (b := ρ root) (ids.take pairs.length) (ids.drop pairs.length) [] m₂
    held₂ ρ₂ (by rw [List.length_take, List.length_drop]; omega) d₂.evolves blank₂ below).bind ?_
  rintro i m₃ ⟨held₃, ρ₃, d₃, hi, lti⟩
  have h₃ := d₃.evolves.inv
  have d := d₂.trans h₁ d₃
  have live₃ := d.adds.live h₁ live₁
  have rank₃ : ρ₃ root = ρ root := d.adds.rank root live₁
  have hc₃ := d.adds.content live₁ hc₁
  refine ((rewriteForward_writes h₃.storage (h₃.lt live₃) i).revise d₃.evolves live₃
    (.forward 0 i) (fun j hj => ?_) (Content.spined_of_tag nofun)
    (fun k hm => (w.plain (hm.by hc₃).inert).elim) w.site.loose).mono ?_ fun _ h => h
  · rw [List.mem_singleton.mp hj, rank₃]
    exact ⟨live_held hi, lti⟩
  · rintro _ m₄ ⟨g', -, -, ev⟩
    exact ⟨ρ₃, ev, trivial⟩

theorem unifyHeads_keeps (operands : Operands m s ρ root x y c) :
    (unifyHeads root x y).Keeps s m ρ fun _ _ _ => True := by
  have w := operands.call
  have h := w.site.inv
  obtain ⟨cx, hx, -⟩ := h.fits x operands.first.1
  obtain ⟨cy, hy, -⟩ := h.fits y operands.second.1
  obtain ⟨sx, nodex, -⟩ := TermGraph.node_content (t := m.toTermGraph) hx
  obtain ⟨sy, nodey, -⟩ := TermGraph.node_content (t := m.toTermGraph) hy
  obtain ⟨sym, found, symbol⟩ := h.read_symbol operands.first.1 hx
  unfold unifyHeads
  refine keeps_look_bind nodex (keeps_look_bind nodey ?_)
  dsimp only
  split
  · exact rewriteFail_keeps w.site
  next same =>
  refine keeps_look_bind symbol ?_
  split
  · exact rewriteFail_keeps w.site
  split
  · split
    · exact succeed_keeps w
    · exact rewriteFail_keeps w.site
  refine keeps_look_bind (h.read_successors operands.first.1 hx)
    (keeps_look_bind (h.read_successors operands.second.1 hy) ?_)
  have length : cx.links.length = cy.links.length := by
    obtain ⟨sym₁, found₁, -, length₁⟩ := h.symbolAt operands.first.1 hx
    obtain ⟨sym₂, found₂, -, length₂⟩ := h.symbolAt operands.second.1 hy
    rw [not_not.mp same] at found₁
    rw [length₁, length₂, Option.some.inj (found₁.symm.trans found₂)]
  split
  · exact succeed_keeps w
  next filled =>
  split
  · have pairs : (cx.links.map some).zip (cy.links.map some) =
        (cx.links.zip cy.links).map fun p => (some p.1, some p.2) := by
      rw [List.zip_map]
      rfl
    rw [pairs]
    refine unifySuccessors_keeps w (fun none => filled ?_) fun p hp => ?_
    · have : (cx.links.zip cy.links).length = 0 := by rw [none, List.length_nil]
      rw [List.length_zip, ← length, Nat.min_self] at this
      rw [List.length_eq_zero_iff.mp this]
      rfl
    · have first := (List.of_mem_zip hp).1
      have second := (List.of_mem_zip hp).2
      exact ⟨⟨operands.first.1.link hx first,
          (h.ranked x p.1 cx operands.first.1 hx first).trans operands.first.2⟩,
        operands.second.1.link hy second,
        (h.ranked y p.2 cy operands.second.1 hy second).trans operands.second.2⟩
  · next longer =>
    simp only [List.length_map] at longer
    omega

theorem stepUnify_keeps (sound : r.Sound) (w : m.Call s ρ root c) (ht : c.links[0]? = some t)
    (hu : c.links[1]? = some u) : (stepUnify r root).Keeps s m ρ fun _ _ _ => True := by
  obtain ⟨a, ca, skip, leads, ha, -⟩ := w.site.inv.read_successorSkip w.site.live w.site.content ht
  obtain ⟨b, cb, skip', leads', hb, -⟩ :=
    w.site.inv.read_successorSkip w.site.live w.site.content hu
  unfold stepUnify
  refine keeps_look_bind skip (keeps_look_bind skip' (keeps_look_bind (TermGraph.tag_content ha)
    (keeps_look_bind (TermGraph.tag_content hb) ?_)))
  split
  · refine keeps_look_bind (TermGraph.aux_content ha)
      (keeps_look_bind (TermGraph.aux_content hb) ?_)
    dsimp only
    split
    · refine Keeps.bind (bindVars_keeps w.site.inv (w.site.below ht leads).1
        (w.site.below hu leads').1 false) ?_
      rintro _ m₁ ρ₁ ev ⟨graph, rfl⟩
      exact succeed_keeps ⟨w.site.after ev (graph ▸ w.site.content) Iff.rfl, w.plain⟩
    · exact succeed_keeps w
  · exact withHeads_keeps sound w ht hu fun x y m' ρ' c' operands => unifyHeads_keeps operands

/-! ## Application -/

/-- A node of the kind of partial applications misses as many arguments as it says. -/
theorem misses_of_partialKind (h : m.Inv [] ρ) (live : m.Live [] x) (hd : m.graph.content? x = some d)
    (found : m.signature.symbol? d.symbol = some sym) (kind : sym.kind = .partialApplication) :
    m.graph.Misses x d.aux := by
  have fits := h.fitsAt live hd
  rcases fits.of_partialKind h.signature found kind with hs | hs
  · obtain ⟨missing, g, y, rfl⟩ := fits.of_partialApplication hs
    exact .argument hd (h.spines x _ live hd missing g y rfl)
  · obtain ⟨g, sym, le, hs, rfl⟩ := fits.of_function hs
    exact .function hd

theorem stepApply_keeps (sound : r.Sound) (w : m.Call s ρ root c) (ht : c.links[0]? = some t)
    (hu : c.links[1]? = some u) : (stepApply r root).Keeps s m ρ fun _ _ _ => True := by
  refine withHead_keeps sound w.site ht fun f m₁ ρ₁ forced => ?_
  obtain ⟨⟨a, w₁, leads⟩, -⟩ := forced
  have hu₁ : (c.setLink 0 a).links[1]? = some u := (Content.setLink_other (by decide)).trans hu
  have call₁ : m₁.Call s ρ₁ root (c.setLink 0 a) := ⟨w₁, w.plain⟩
  have hf := w₁.below (Content.setLink_self ht) leads
  obtain ⟨d, hd, -⟩ := w₁.inv.fits f hf.1
  obtain ⟨sym, found, symbol⟩ := w₁.inv.read_symbol hf.1 hd
  refine keeps_look_bind (w₁.inv.read_successor w₁.live w₁.content hu₁)
    (keeps_look_bind (TermGraph.aux_content hd) (keeps_look_bind symbol ?_))
  split
  · exact rewriteFail_keeps w₁
  next proper =>
  obtain ⟨kind, some_⟩ := not_or.mp proper
  have misses := misses_of_partialKind w₁.inv hf.1 hd found (not_not.mp kind)
  have argument := w₁.link hu₁
  split
  · next more =>
    refine rewrite_keeps call₁ (rewrite_writes w₁.inv.storage (w₁.inv.lt w₁.live) .operation
      Builtin.partialApplication (d.aux - 1) [f, u]) (.partialApplication _ f u) (fun j hj => ?_) ?_
    · rcases List.mem_cons.mp hj with rfl | hj
      · exact hf
      · rw [List.mem_singleton.mp hj]
        exact argument
    · intro missing g x same
      cases same
      rwa [Nat.sub_add_cancel (Nat.le_of_lt more)]
  · next last =>
    have one : d.aux = 1 := Nat.le_antisymm (Nat.le_of_not_lt last) (Nat.pos_of_ne_zero some_)
    rcases w₁.inv.read_spine hf.1 misses with run | ⟨target, args, run, spine⟩
    · exact keeps_look_bind run (rewriteFail_keeps w₁)
    · obtain ⟨sym, found, count⟩ := spine.symbol
      refine keeps_look_bind run ?_
      have links : args.map some ++ [some u] = (args ++ [u]).map some := by
        rw [List.map_append]
        rfl
      dsimp only
      rw [links]
      refine rewriteTo_keeps (args ++ [u]) call₁ spine.proper found ?_ fun j hj => ?_
      · rw [List.length_append, List.length_singleton, ← one, count]
      · rcases List.mem_append.mp hj with hj | hj
        · exact ⟨(spine.args j hj).1, (spine.args j hj).2.trans hf.2⟩
        · rw [List.mem_singleton.mp hj]
          exact argument

end Reduction

end ChoiceGraph
