import ChoiceGraph.Proofs.Construction
import ChoiceGraph.Reduction.Reduce

/-! # Reduction keeps the machine

Both reductions keep to what ranks no higher than their node, at every depth of nesting. A head
reduction ends where the indirections of its node lead. -/
namespace ChoiceGraph

/-- What the symbol of a content says about its reduction. -/
inductive Content.Steps (c : Content) (sym : Symbol) : Prop where
  | forward (tag : c.tag = .forward) (head : sym.head = .forward) (normal : sym.normal = .forward)
  | still (head : sym.head = .none) (normal : sym.normal = .none)
  | constructor (plain : ¬ c.Inert) (head : sym.head = .none) (normal : sym.normal = .constructor)
  | call (plain : ¬ c.Inert) (call : sym.IsCall)

theorem Content.Fits.steps {c : Content} {s : Signature} {sym : Symbol} (fits : c.Fits s)
    (hs : s.Sound) (found : s.symbol? c.symbol = some sym) : c.Steps sym := by
  have builtin : ∀ {n : SymbolId} {sym' : Symbol}, s.symbol? n = some sym →
      Signature.standard.symbol? n = some sym' → n < 10 → sym = sym' :=
    fun found standard lt => Option.some.inj
      (found.symm.trans ((hs.prelude _ (Nat.lt_trans lt (by decide))).trans standard))
  have still : ∀ {n : SymbolId} {sym' : Symbol}, s.symbol? n = some sym →
      Signature.standard.symbol? n = some sym' → n < 10 → sym'.head = .none →
      sym'.normal = .none → c.Steps sym := by
    intro n sym' found standard lt head normal
    rw [builtin found standard lt]
    exact .still head normal
  have plain : ∀ {c : Content}, 10 ≤ c.symbol → c.tag ≠ .forward → c.tag ≠ .choice →
      c.tag ≠ .failure → ¬ c.Inert := by
    rintro c le hf hc hx (h | h | h | h | h)
    · exact hf h
    · exact hc h
    · exact hx h
    · exact absurd (h ▸ le) (by decide)
    · exact absurd (h ▸ le) (by decide)
  cases fits with
  | failure => exact still (n := Builtin.fail) found rfl (by decide) rfl rfl
  | forward =>
    have same := builtin (n := Builtin.forward) found rfl (by decide)
    exact .forward rfl (same ▸ rfl) (same ▸ rfl)
  | choice => exact still (n := Builtin.choice) found rfl (by decide) rfl rfl
  | narrowed => exact still (n := Builtin.narrowed) found rfl (by decide) rfl rfl
  | untyped => exact still (n := Builtin.free) found rfl (by decide) rfl rfl
  | typed => exact still (n := Builtin.free) found rfl (by decide) rfl rfl
  | int => exact still (n := Builtin.int) found rfl (by decide) rfl rfl
  | float => exact still (n := Builtin.float) found rfl (by decide) rfl rfl
  | char => exact still (n := Builtin.char) found rfl (by decide) rfl rfl
  | partialApplication => exact still (n := Builtin.partialApplication) found rfl (by decide) rfl rfl
  | function => exact still (n := Builtin.function) found rfl (by decide) rfl rfl
  | constructor id sym' type index aux ls le hs' hc =>
    cases hs'.symm.trans found
    exact .constructor (plain le nofun nofun nofun) hc.head hc.normal
  | call id sym' aux ls le hs' hc =>
    cases hs'.symm.trans found
    exact .call (plain le nofun nofun nofun) hc

namespace Reduction

open Eff Machine

variable {m : Machine} {ρ : Rank} {root i t : NodeId} {c : Content} {s : Scope} {r : Reducer}

theorem tick_keeps (h : m.Inv [] ρ) : tick.Keeps s m ρ fun _ m' ρ' =>
    ρ' = ρ ∧ ∃ slice, m' = { m with slice := slice } := by
  unfold tick
  by_cases spent : m.slice.isOver = true
  · have run : tick m = .error .preempted m := if_pos spent
    unfold Keeps Meets
    simp only [spent, if_true]
    exact ⟨ρ, .refl h⟩
  · exact meets_of_ok (if_neg spent) ⟨ρ, quiet_count h m.nextId _, rfl, _, rfl⟩

theorem stepSpin_keeps (h : m.Inv [] ρ) : stepSpin.Keeps s m ρ fun _ _ _ => True :=
  Keeps.bind (makeInt_makes h 0).keeps fun _ _ _ ev _ => keeps_pure ev.inv trivial

/-- A call has the arguments that its step reads. -/
theorem call_keeps (sound : r.Sound) (w : m.Call s ρ root c) {sym : Symbol} (call : sym.IsCall)
    (symbol : m.symbol root = .ok sym) (length : c.links.length = sym.arity) :
    (headStep r root).Keeps s m ρ fun _ _ _ => True := by
  obtain ⟨_, reads, le⟩ := call.reads
  unfold headStep
  refine Keeps.bind (tick_keeps w.site.inv) ?_
  rintro _ _ ρ₁ ev ⟨rfl, slice, rfl⟩
  have w₁ : Call { m with slice := slice } s ρ₁ root c :=
    ⟨w.site.after ev w.site.content Iff.rfl, w.plain⟩
  refine keeps_look_bind symbol ?_
  have argument : ∀ k n, sym.head.reads? = some n → k < n → ∃ t, c.links[k]? = some t := by
    intro k n' reads' lt
    cases reads.symm.trans reads'
    exact ⟨_, List.getElem?_eq_getElem (length ▸ Nat.lt_of_lt_of_le lt le)⟩
  have pair : sym.head.reads? = some 2 → ∃ t u, c.links[0]? = some t ∧ c.links[1]? = some u :=
    fun reads => by
      obtain ⟨t, ht⟩ := argument 0 2 reads (by decide)
      obtain ⟨u, hu⟩ := argument 1 2 reads (by decide)
      exact ⟨t, u, ht, hu⟩
  cases head : sym.head with
  | none => exact keeps_pure w₁.site.inv trivial
  | fail => exact rewriteFail_keeps w₁.site
  | spin => exact stepSpin_keeps w₁.site.inv
  | rule rule =>
    rw [head] at reads
    cases reads
  | forward =>
    obtain ⟨t, ht⟩ := argument 0 1 (head ▸ rfl) (by decide)
    have below := w₁.site.link ht
    refine keeps_look_bind (w₁.site.inv.read_successor w₁.site.live w₁.site.content ht)
      (keeps_look_bind rfl ?_)
    refine Keeps.bind ((sound.head _ _ t w₁.site.inv below.1).within (w₁.site.within below.2)) ?_
    exact fun _ _ _ ev _ => keeps_pure ev.inv trivial
  | ensureNotFree =>
    obtain ⟨t, ht⟩ := argument 0 1 (head ▸ rfl) (by decide)
    exact stepEnsureNotFree_keeps sound w₁ ht
  | arithmetic op =>
    obtain ⟨t, u, ht, hu⟩ := pair (head ▸ rfl)
    exact stepArithmetic_keeps sound w₁ ht hu op
  | equals =>
    obtain ⟨t, u, ht, hu⟩ := pair (head ▸ rfl)
    exact stepEquals_keeps sound w₁ ht hu
  | compare =>
    obtain ⟨t, u, ht, hu⟩ := pair (head ▸ rfl)
    exact stepCompare_keeps sound w₁ ht hu
  | choose =>
    obtain ⟨t, u, ht, hu⟩ := pair (head ▸ rfl)
    exact stepChoose_keeps w₁ ht hu
  | unify =>
    obtain ⟨t, u, ht, hu⟩ := pair (head ▸ rfl)
    exact stepUnify_keeps sound w₁ ht hu
  | conjunction =>
    obtain ⟨t, u, ht, hu⟩ := pair (head ▸ rfl)
    exact stepConjunction_keeps sound w₁ ht hu
  | guard =>
    obtain ⟨t, u, ht, hu⟩ := pair (head ▸ rfl)
    exact stepGuard_keeps sound w₁ ht hu
  | strictApply =>
    obtain ⟨t, u, ht, hu⟩ := pair (head ▸ rfl)
    exact stepStrictApply_keeps sound w₁ ht hu
  | apply =>
    obtain ⟨t, u, ht, hu⟩ := pair (head ▸ rfl)
    exact stepApply_keeps sound w₁ ht hu

theorem site_below (h : m.Inv [] ρ) (live : m.Live [] i) (hc : m.graph.content? i = some c)
    (plain : ¬ c.Inert) : m.Call (.below (ρ i)) ρ i c :=
  ⟨⟨h, live, hc, rfl, .inl plain⟩, plain⟩

/-- One head step at any live node. -/
theorem headStep_keeps (sound : r.Sound) (h : m.Inv [] ρ) (live : m.Live [] i) :
    (headStep r i).Keeps (.below (ρ i)) m ρ fun _ _ _ => True := by
  obtain ⟨c, hc, fits⟩ := h.fits i live
  obtain ⟨sym, found, -, length⟩ := h.symbolAt live hc
  have symbol := TermGraph.symbol_content (t := m.toTermGraph) hc found
  have idle : sym.head = .none → (headStep r i).Keeps (.below (ρ i)) m ρ fun _ _ _ => True := by
    intro head
    unfold headStep
    refine Keeps.bind (tick_keeps h) ?_
    rintro _ _ ρ₁ ev ⟨rfl, slice, rfl⟩
    refine keeps_look_bind symbol ?_
    rw [head]
    exact keeps_pure ev.inv trivial
  cases fits.steps h.signature found with
  | still head => exact idle head
  | constructor plain head => exact idle head
  | call plain call => exact call_keeps sound (site_below h live hc plain) call symbol length
  | forward tag head =>
    obtain ⟨aux, next, rfl⟩ := fits.of_forward tag
    have below := h.below live hc List.mem_cons_self (.refl next)
    unfold headStep
    refine Keeps.bind (tick_keeps h) ?_
    rintro _ _ ρ₁ ev ⟨rfl, slice, rfl⟩
    refine keeps_look_bind symbol ?_
    rw [head]
    refine keeps_look_bind (h.read_successor (k := 0) live hc rfl) (keeps_look_bind rfl ?_)
    refine Keeps.bind ((sound.head _ _ next ev.inv below.1).within
      (Scope.below_within below.2.le)) ?_
    exact fun _ _ _ ev _ => keeps_pure ev.inv trivial

/-! ## Normal forms -/

theorem normalizeFields_keeps (sound : r.Sound) : ∀ (count k : Nat) (m : Machine) (ρ : Rank)
    (c : Content), m.Call s ρ root c → k + count ≤ c.links.length →
    (normalizeFields r root count k).Keeps s m ρ fun _ _ _ => True := by
  intro count
  induction count with
  | zero => exact fun k m ρ c w _ => keeps_pure w.site.inv trivial
  | succ count ih =>
    intro k m ρ c w enough
    have lt : k < c.links.length := by omega
    have hk := List.getElem?_eq_getElem lt
    have below := w.site.link hk
    unfold normalizeFields
    refine keeps_look_bind (w.site.inv.read_successor w.site.live w.site.content hk)
      (keeps_look_bind rfl ?_)
    refine Keeps.bind ((sound.normal m ρ _ w.site.inv below.1).within (w.site.within below.2)) ?_
    rintro _ m₁ ρ₁ ev₁ ⟨fine₁, -⟩
    obtain ⟨w₁, -⟩ := w.site.spare below.2 hk fine₁
    obtain ⟨j, d, skip, leads, -, -⟩ := w₁.inv.read_skip (w₁.link hk).1
    refine keeps_look_bind skip ?_
    refine relink_keeps w₁ hk leads (fun same => (not_not.mp same).symm) fun m₂ ρ₂ w₂ _ => ?_
    have hk₂ := Content.setLink_self (i := j) hk
    obtain ⟨d, hd, fits⟩ := w₂.inv.fits j (w₂.link hk₂).1
    refine keeps_look_bind (TermGraph.tag_content hd) ?_
    have go_on : (normalizeFields r root count (k + 1)).Keeps s m₂ ρ₂ fun _ _ _ => True := by
      refine ih (k + 1) m₂ ρ₂ _ ⟨w₂, w.plain⟩ ?_
      rw [Content.setLink_links, List.length_set]
      omega
    cases tag : d.tag with
    | failure => exact rewriteFail_keeps w₂
    | choice =>
      obtain ⟨symbol, id, left, right, rfl, choice⟩ := fits.of_choice tag
      exact pull_keeps w₂.inv w₂.live w₂.content ⟨⟨j, hk₂, .refl j⟩, hd, choice⟩ w₂.loose
    | unassigned below => exact absurd tag (fits.tag_ne_unassigned below)
    | _ => exact go_on

theorem normalStep_keeps (sound : r.Sound) (h : m.Inv [] ρ) (live : m.Live [] i) :
    (normalStep r i).Keeps (.below (ρ i)) m ρ fun _ _ _ => True := by
  obtain ⟨c, hc, fits⟩ := h.fits i live
  obtain ⟨sym, found, -, length⟩ := h.symbolAt live hc
  unfold normalStep
  refine Keeps.bind (tick_keeps h) ?_
  rintro _ _ ρ₁ ev ⟨rfl, slice, rfl⟩
  refine keeps_look_bind (TermGraph.symbol_content (t := m.toTermGraph) hc found) ?_
  cases fits.steps h.signature found with
  | still _ normal =>
    rw [normal]
    exact keeps_pure ev.inv trivial
  | forward tag _ normal =>
    rw [normal]
    obtain ⟨aux, next, rfl⟩ := fits.of_forward tag
    have below := h.below live hc List.mem_cons_self (.refl next)
    refine keeps_look_bind (h.read_successor (k := 0) live hc rfl) (keeps_look_bind rfl ?_)
    exact ((sound.normal _ _ next ev.inv below.1).within (Scope.below_within below.2.le)).mono
      fun _ _ _ _ _ => trivial
  | constructor plain _ normal =>
    rw [normal]
    refine keeps_look_bind (TermGraph.arity_content (t := m.toTermGraph) hc found) ?_
    exact normalizeFields_keeps sound sym.arity 0 _ _ c (site_below ev.inv live hc plain)
      (by rw [Nat.zero_add, length])
  | call plain call =>
    rw [call.normal]
    refine Keeps.bind (sound.head _ _ i ev.inv live) ?_
    rintro j m₁ ρ₂ ev₁ leads
    have steady := ev.inv.steady (s := .below _) live le_rfl
    have live₁ : m₁.Live [] i := ev₁.live steady
    have rank := ev₁.inv.rank_leads live₁ leads
    obtain ⟨d, hd, fits⟩ := ev₁.inv.fits j (live₁.leads leads)
    refine keeps_look_bind (TermGraph.tag_content hd) ?_
    cases tag : d.tag with
    | constructor index =>
      refine ((sound.normal _ _ j ev₁.inv (live₁.leads leads)).within
        (Scope.below_within ?_)).mono fun _ _ _ _ _ => trivial
      exact rank.trans (ev₁.rank i steady).le
    | unassigned below => exact absurd tag (fits.tag_ne_unassigned below)
    | _ => exact keeps_pure ev₁.inv trivial

/-! ## Nested reductions -/

theorem isReducible_ok (h : m.Inv [] ρ) (live : m.Live [] i) : ∃ b, isReducible m i = .ok b := by
  obtain ⟨c, hc, -⟩ := h.fits i live
  obtain ⟨sym, -, symbol⟩ := h.read_symbol live hc
  unfold isReducible
  simp only [TermGraph.tag_content hc, symbol, bind, Except.bind]
  split <;> exact ⟨_, rfl⟩

theorem headNormalize_keeps {fuel : Nat} (sound : (reducer fuel).Sound) (h : m.Inv [] ρ)
    (live : m.Live [] i) : (headNormalize (fuel + 1) i).Keeps (.below (ρ i)) m ρ
      fun j m' _ => m'.graph.Leads i j := by
  obtain ⟨p, c, skip, leads, hc, -⟩ := h.read_skip live
  have le := h.rank_leads live leads
  obtain ⟨b, reducible⟩ := isReducible_ok h (live.leads leads)
  unfold headNormalize
  refine keeps_look_bind skip (keeps_look_bind reducible ?_)
  cases b with
  | false => exact keeps_pure h leads
  | true =>
    -- the indirections that led to the call are none that its reduction rewrites
    have start := h.steady (s := .below (ρ p)) live le
    refine Keeps.bind ((headStep_keeps sound h (live.leads leads)).within
      (Scope.below_within le)) ?_
    rintro _ m₁ ρ₁ ev₁ ⟨fine₁, -⟩
    have leads₁ := fine₁.leads start leads
    have steady := h.steady (s := .below (ρ p)) (live.leads leads) le_rfl
    have rank : ρ₁ p = ρ p := fine₁.rank p steady
    refine ((sound.head m₁ ρ₁ p ev₁.inv (fine₁.live steady)).within
      (Scope.below_within (rank.trans_le le))).mono ?_
    rintro j m₂ ρ₂ - ⟨fine₂, leads₂⟩
    exact (fine₂.leads ((fine₁.steady start).within ⟨rank.le, fun _ h => h⟩) leads₁).trans leads₂

/-- Every bound on the depth of nesting will do. -/
theorem reducer_sound : ∀ fuel : Nat, (reducer fuel).Sound := by
  intro fuel
  induction fuel with
  | zero =>
    refine ⟨fun m ρ i h _ => ?_, fun m ρ i h _ => ?_⟩
    · change (normalize 0 i).Keeps _ m ρ _
      unfold normalize
      exact keeps_throw h nofun
    · change (headNormalize 0 i).Keeps _ m ρ _
      unfold headNormalize
      exact keeps_throw h nofun
  | succ fuel ih =>
    refine ⟨fun m ρ i h live => ?_, fun m ρ i h live => headNormalize_keeps ih h live⟩
    change (normalize (fuel + 1) i).Keeps _ m ρ _
    unfold normalize
    exact normalStep_keeps ih h live

end Reduction

end ChoiceGraph
