import ChoiceGraph.Proofs.RenderedSteps

/-! # Reductions keep meanings

However deep it may nest, a reduction comes to a choice, to a failure if its node could not mean what was
asked for, or to what was asked for; and then whatever a node has meant it still means. -/
namespace ChoiceGraph

/-- Nothing but a constructor, a choice or a failure is a simple node that is not reduced. -/
theorem Content.Simple.final {c : Content} (simple : c.Simple) (forward : c.tag ≠ .forward) (call : ¬ c.IsCall) :
    c.tag = .failure ∨ c.tag = .choice ∨ ∃ index, c.tag = .constructor index := by
  unfold Content.Simple at simple
  cases tag : c.tag with
  | failure => exact .inl rfl
  | choice => exact .inr (.inl rfl)
  | constructor index => exact .inr (.inr ⟨index, rfl⟩)
  | forward => exact absurd tag forward
  | operation =>
    rw [tag] at simple
    obtain ⟨h, head, simple⟩ := simple
    exact absurd (Content.isCall_of_simple tag head simple) call
  | _ =>
    rw [tag] at simple
    exact simple.elim

namespace Reduction

open Eff Machine

variable {m m' : Machine} {s : Scope} {ρ : Rank} {root i j t x : NodeId} {c d : Content} {k : Nat} {q : ℚ}
  {r : Reducer} {log log' : CallLog} {asked : Report → Prop}

/-- A step is charged, or there is none left. -/
theorem tick_renders : tick.Renders s m ρ fun _ m' log => log = [] ∧ ∃ slice, m' = { m with slice := slice } := by
  unfold Renders tick
  cases m.slice.isOver with
  | true => exact ⟨nofun, [], .refl m⟩
  | false => exact ⟨[], rendered_of_graph rfl rfl le_rfl, rfl, _, rfl⟩

/-! ## Head normal forms -/

theorem headStep_renders (renders : r.Renders) (h : m.Inv [] ρ) (live : m.Live [] i) (simple : m.graph.SimpleFrom i)
    (hc : m.graph.content? i = some c) (call : c.IsCall) : (headStep r i).Renders (.below (ρ i)) m ρ fun _ m' log =>
      m.Clean (.below (ρ i)) ρ log m' ∨ m.Halts Report.Any i m' i log := by
  have here := (simple.content hc).1
  unfold Content.Simple at here
  rw [call.1] at here
  obtain ⟨f, head, -⟩ := here
  rw [headStep_eq]
  refine tick_renders.bind (tick_keeps h) ?_
  rintro _ _ ρ₁ _ - ev ⟨rfl, -⟩ - ⟨rfl, slice, rfl⟩
  have site := (site_below ev.inv live hc call.2).site
  have calls : SimpleCall { m with slice := slice } (.below (ρ₁ i)) ρ₁ i c f := ⟨site, call.1, head, simple⟩
  obtain ⟨name, found⟩ := calls.symbol
  have same : m.Clean (.below (ρ₁ i)) ρ₁ [] { m with slice := slice } := clean_of_graph rfl
  refine renders_read (TermGraph.symbol_content hc found) ((runHead_renders renders calls).mono ?_)
  rintro _ m' log - - (clean | halts)
  · exact .inl (same.trans ev clean)
  · exact .inr (halts.before same (h.steady live le_rfl))

theorem headNormalize_renders {F : Nat} (renders : (reducer F).Renders) (h : m.Inv [] ρ) (live : m.Live [] i)
    (simple : m.graph.SimpleFrom i) : (headNormalize (F + 1) i).Renders (.below (ρ i)) m ρ fun j m' log =>
      m.Halts Report.Any i m' j log ∨ m'.graph.Built j ∧ m.Clean (.below (ρ i)) ρ log m' := by
  obtain ⟨p, c, skip, leads, hc, tag⟩ := h.read_skip live
  have within : (Scope.below (ρ p)).Within (.below (ρ i)) := Scope.below_within (h.rank_leads live leads)
  have livep := live.leads leads
  have simplep := simple.leads leads
  rw [headNormalize_eq]
  refine renders_read skip ?_
  by_cases call : c.IsCall
  · obtain ⟨sym, found, -⟩ := h.read_symbol livep hc
    refine renders_read (isReducible_call h ⟨h.unfree p livep, hc, call, found⟩ livep) ?_
    rw [if_pos rfl]
    have steady := h.steady (s := .below (ρ p)) livep le_rfl
    refine ((headStep_renders renders h livep simplep hc call).within within).bind
      ((headStep_keeps renders.sound h livep).within within) ?_
    rintro _ m₁ ρ₁ log₁ - ev₁ ⟨fine, -⟩ - ⟨rendered₁, stepped⟩
    have live₁ : m₁.Live [] p := fine.live steady
    have simple₁ := rendered₁.simple p steady simplep
    have within₁ : (Scope.below (ρ₁ p)).Within (.below (ρ i)) := by rwa [fine.rank p steady]
    refine ((renders.head m₁ ρ₁ p ev₁.inv live₁ simple₁).within within₁).mono ?_
    rintro j m' log₂ run₂ - ⟨-, ends⟩
    have lift : ∀ {log}, m.Halts Report.Any p m' j log → m.Halts Report.Any i m' j log := fun halts =>
      halts.lift fun κ w any means => ⟨w, any, leads.means.mp means⟩
    rcases stepped with clean₁ | halts
    · rcases ends with halts | ⟨built, clean₂⟩
      · exact .inl (lift (halts.before clean₁ steady))
      · exact .inr ⟨built, (clean₁.within within).trans ev₁ (clean₂.within within₁)⟩
    · -- a choice or a failure is not reduced any more
      obtain ⟨d, hd, tag⟩ := halts.content
      obtain ⟨rfl, rfl⟩ := spoiled_stays ev₁.inv live₁ (.of_content hd tag.symm) run₂
      exact .inl (lift (halts.passed hd hd rfl))
  · refine renders_read (isReducible_idle h livep hc call) ?_
    rw [if_neg Bool.false_ne_true]
    refine renders_pure ?_
    rcases (simplep.content hc).1.final tag call with failure | choice | data
    · exact .inl (.failure hc failure fun κ _ w _ means =>
        Graph.not_means_failure hc failure (leads.means.mp means))
    · exact .inl (.choice hc choice)
    · exact .inr ⟨⟨c, data.choose, hc, data.choose_spec⟩, .refl m⟩

/-! ## Normal forms -/

/-- A constructor whose arguments are evaluated is evaluated. -/
theorem evaluated_of_links (hc : m.graph.content? i = some c) {index : Nat} (tag : c.tag = .constructor index)
    (each : ∀ t ∈ c.links, m.graph.Evaluated t) : m.graph.Evaluated i := by
  obtain ⟨ss, below⟩ : ∃ ss, List.Forall₂ (fun l s => m.graph.UnfoldsTo l s ∧ s.Data) c.links ss := by
    choose! tree unfolds using each
    exact ⟨c.links.map tree, List.forall₂_map_right_iff.mpr (List.forall₂_same.mpr unfolds)⟩
  refine ⟨.node c.head ss, .of_below (.refl i) hc (Content.not_forward_of_constructor tag)
    (below.imp fun _ _ => And.left), .node ⟨index, tag⟩ fun s hs => ?_⟩
  obtain ⟨n, lt, rfl⟩ := List.getElem_of_mem hs
  exact (below.get (below.length_eq ▸ lt) lt).2

/-- The arguments of a constructor are normalized from left to right; those that have been are so still. -/
theorem normalizeFields_renders (renders : r.Renders) : ∀ (count k : Nat) (m : Machine) (ρ : Rank) (c : Content),
    m.Site (.below q) ρ root c → c.IsData → m.graph.SimpleFrom root → k + count = c.links.length →
    (∀ n t, n < k → c.links[n]? = some t → m.graph.Evaluated t) →
    (normalizeFields r root count k).Renders (.below q) m ρ fun _ m' log =>
      m.Halts Report.IsValue root m' root log ∨ m'.graph.Evaluated root ∧ m.Clean (.below q) ρ log m' := by
  intro count
  induction count with
  | zero =>
    intro k m ρ c w data simple length ready
    obtain ⟨⟨index, tag⟩, -⟩ := data
    refine renders_pure (.inr ⟨evaluated_of_links w.content tag fun t ht => ?_, .refl m⟩)
    obtain ⟨n, lt, hn⟩ := List.getElem_of_mem ht
    exact ready n t (by omega) (hn ▸ List.getElem?_eq_getElem lt)
  | succ count ih =>
    intro k m ρ c w data simple length ready
    have hk := List.getElem?_eq_getElem (show k < c.links.length by omega)
    have below := w.link hk
    obtain ⟨⟨index, constructor_⟩, -⟩ := id data
    have chooses : ∀ {x : NodeId}, ¬ (c.setLink k x).Chooses := Content.not_chooses_of_constructor constructor_
    unfold normalizeFields
    refine renders_read (w.inv.read_successor w.live w.content hk) (renders_read rfl ?_)
    refine ((renders.normal m ρ _ w.inv below.1 ((simple.content w.content).2 _ (List.mem_of_getElem? hk))).within
      (w.within below.2)).bind ((renders.sound.normal m ρ _ w.inv below.1).within (w.within below.2)) ?_
    rintro - m₁ ρ₁ log₁ - ev₁ ⟨fine, -⟩ rendered₁ ⟨rendered, ends⟩
    obtain ⟨w₁, kept₁⟩ := w.spare below.2 hk fine
    have simple₁ := rendered₁.simple root w.steady simple
    obtain ⟨j, d, skip, leads, hd, tag⟩ := w₁.inv.read_skip (w₁.link hk).1
    refine renders_read skip ?_
    refine relink_renders w₁ simple₁ (Content.not_chooses_of_constructor constructor_) (.inr data) hk leads
      (fun same => (not_not.mp same).symm) fun m₂ ρ₂ re clean₂ simple₂ unhurt₂ => ?_
    have w₂ := re.site
    have hk₂ := Content.setLink_self (i := j) hk
    have apart : j ≠ root := by
      rintro rfl
      exact lt_irrefl _ (w₂.link hk₂).2
    have hd₂ : m₂.graph.content? j = some d := (re.others j apart).trans hd
    refine renders_read (TermGraph.tag_content hd₂) ?_
    rcases ends with ⟨j', toward, halts⟩ | ⟨value, clean⟩
    · obtain ⟨d', hd', tag'⟩ := halts.content
      obtain rfl := leads_unique leads toward hd tag hd' (Content.not_forward_of_halt tag')
      cases hd.symm.trans hd'
      -- a value of the constructor takes a value of the argument
      have passed : ∀ {m' : Machine} {log' : CallLog} {e : Content}, m'.graph.content? root = some e →
          e.tag = d.tag → m.Halts Report.IsValue root m' root (log₁ ++ log') := by
        refine fun he same => (halts.passed hd he same).lift fun κ v value means => ?_
        cases v with
        | head => exact value.elim
        | value s =>
          obtain ⟨ss, -, each⟩ := means.landed (.refl root) w.content constructor_
          have lt : k < ss.length := each.length_eq ▸ (List.getElem?_eq_some_iff.mp hk).1
          exact ⟨.value ss[k], trivial, each.get (List.getElem?_eq_some_iff.mp hk).1 lt⟩
      rcases tag' with choice | failure
      · rw [choice]
        refine (pull_renders w₂ simple₂ chooses (.inr ⟨index, constructor_⟩) hk₂ (.refl j) hd₂ choice).mono ?_
        rintro _ m' log' - - ⟨e, he, taken⟩
        exact .inl (passed he (taken.trans choice.symm))
      · rw [failure]
        refine (rewriteFail_renders w₂ fun κ e v strict reports => ?_).mono ?_
        · obtain ⟨ss, each, -⟩ := ((reports_data (c := c.setLink k j) constructor_).mp reports).resolve_left
            fun lazy => strict lazy.1
          have lt := (List.getElem?_eq_some_iff.mp hk₂).1
          have means := each.get lt (each.length_eq ▸ lt)
          rw [List.get_eq_getElem, (List.getElem?_eq_some_iff.mp hk₂).2] at means
          exact Graph.not_means_failure hd₂ failure means
        · rintro _ m' log' - - ⟨e, he, taken⟩
          exact .inl (passed he (taken.trans failure.symm))
    · obtain ⟨j', d', toward, hd', ⟨index', data'⟩, value'⟩ := value.landed
      obtain rfl := leads_unique leads toward hd tag hd' (Content.not_forward_of_constructor data')
      cases hd.symm.trans hd'
      rw [data']
      have clean₁ : m.Clean (.below q) ρ log₁ m₂ := by
        simpa only [List.append_nil] using (clean.within (w.within below.2)).trans ev₁ clean₂
      refine (ih (k + 1) m₂ ρ₂ _ w₂ data simple₂ ?_ fun n t lt hn => ?_).mono ?_
      · rw [Content.setLink_links, List.length_set]
        omega
      · by_cases here : n = k
        · subst here
          cases hk₂.symm.trans hn
          exact (unhurt₂ j (w₁.below hk leads)).evaluated value'
        · have hn := (Content.setLink_other here).symm.trans hn
          have mem := List.mem_of_getElem? hn
          refine (unhurt₂ t (w₁.link hn)).evaluated ?_
          exact (w.unhurt below.2 hk rendered clean mem (.refl t)).evaluated (ready n t (by omega) hn)
      · rintro _ m' log' - - (halts | ⟨value, clean₃⟩)
        · exact .inl (halts.before clean₁ w.steady)
        · exact .inr ⟨value, clean₁.trans (ev₁.trans re.evolves) clean₃⟩

/-- A call is brought into head normal form; a constructor is normalized further. -/
theorem normalizeCall_renders (renders : r.Renders) (h : m.Inv [] ρ) (live : m.Live [] i)
    (simple : m.graph.SimpleFrom i) : (r.head i >>= takeHead r).Renders (.below (ρ i)) m ρ fun _ m' log =>
      (∃ j, m'.graph.Leads i j ∧ m.Halts Report.IsValue i m' j log) ∨
        m'.graph.Evaluated i ∧ m.Clean (.below (ρ i)) ρ log m' := by
  refine (renders.head m ρ i h live simple).bind (renders.sound.head m ρ i h live) ?_
  rintro j m₁ ρ₁ log₁ - ev₁ leads rendered₁ ends
  have steady := h.steady (s := .below (ρ i)) live le_rfl
  have live₁ : m₁.Live [] i := ev₁.live steady
  have livej := live₁.leads leads
  unfold takeHead
  rcases ends with halts | ⟨⟨d, index, hd, tag⟩, clean₁⟩
  · obtain ⟨d, hd, tag⟩ := halts.content
    refine renders_read (TermGraph.tag_content hd) ?_
    have stop : (∃ j, m₁.graph.Leads i j ∧ m.Halts Report.IsValue i m₁ j (log₁ ++ [])) :=
      ⟨j, leads, (halts.passed hd hd rfl).lift fun κ w _ means => ⟨w, trivial, means⟩⟩
    rcases tag with tag | tag
    · rw [tag]
      exact renders_pure (.inl stop)
    · rw [tag]
      exact renders_pure (.inl stop)
  · refine renders_read (TermGraph.tag_content hd) ?_
    rw [tag]
    have rank := ev₁.inv.rank_leads live₁ leads
    have within : (Scope.below (ρ₁ j)).Within (.below (ρ i)) :=
      Scope.below_within (rank.trans (ev₁.rank i steady).le)
    refine ((renders.normal m₁ ρ₁ j ev₁.inv livej ((rendered₁.simple i steady simple).leads leads)).within
      within).mono ?_
    rintro _ m' log₂ run₂ - ⟨-, ends₂⟩
    obtain ⟨ρ₂, ev₂, -⟩ := (renders.sound.normal m₁ ρ₁ j ev₁.inv livej).ok run₂
    have leads₂ := ev₂.leads (ev₁.inv.steady live₁ rank) leads
    rcases ends₂ with ⟨p, toward, halts⟩ | ⟨value, clean₂⟩
    · refine .inl ⟨p, leads₂.trans toward, Halts.before clean₁ steady (halts.lift fun κ w value means => ?_)⟩
      exact ⟨w, value, leads.means.mp means⟩
    · exact .inr ⟨value.before leads₂, clean₁.trans ev₁ (clean₂.within within)⟩

theorem normalWork_renders (renders : r.Renders) (h : m.Inv [] ρ) (live : m.Live [] i)
    (simple : m.graph.SimpleFrom i) : (normalWork r i).Renders (.below (ρ i)) m ρ fun _ m' log =>
      (∃ j, m'.graph.Leads i j ∧ m.Halts Report.IsValue i m' j log) ∨
        m'.graph.Evaluated i ∧ m.Clean (.below (ρ i)) ρ log m' := by
  obtain ⟨c, hc, fits⟩ := h.fits i live
  obtain ⟨sym, found, -, length⟩ := h.symbolAt live hc
  unfold normalWork
  refine renders_read (TermGraph.symbol_content (t := m.toTermGraph) hc found) ?_
  by_cases forward : c.tag = .forward
  · rw [fits.of_forward_symbol h.signature found forward]
    obtain ⟨aux, p, rfl⟩ := fits.of_forward forward
    have below := h.below live hc List.mem_cons_self (.refl p)
    have within : (Scope.below (ρ p)).Within (.below (ρ i)) := Scope.below_within below.2.le
    refine renders_read (h.read_successor (k := 0) live hc rfl) (renders_read rfl ?_)
    refine ((renders.normal m ρ p h below.1 ((simple.content hc).2 p List.mem_cons_self)).within within).mono ?_
    rintro _ m' log run - ⟨-, ends⟩
    obtain ⟨ρ', ev, -⟩ := (renders.sound.normal m ρ p h below.1).ok run
    have leads := ev.leads (h.steady live below.2.le) (.step hc (.refl p))
    rcases ends with ⟨j, toward, halts⟩ | ⟨value, clean⟩
    · refine .inl ⟨j, leads.trans toward, halts.lift fun κ w value means => ⟨w, value, ?_⟩⟩
      exact (Graph.Leads.step hc (.refl p)).means.mp means
    · exact .inr ⟨value.before leads, clean.within within⟩
  by_cases call : c.IsCall
  · rw [(fits.of_isCall found call).normal]
    exact normalizeCall_renders renders h live simple
  rcases (simple.content hc).1.final forward call with failure | choice | ⟨index, tag⟩
  · rw [fits.of_still h.signature found forward call (by rintro ⟨⟨_, tag⟩, -⟩; cases failure.symm.trans tag)]
    exact renders_pure (.inl ⟨i, .refl i, .failure hc failure fun κ _ w _ => Graph.not_means_failure hc failure⟩)
  · rw [fits.of_still h.signature found forward call (by rintro ⟨⟨_, tag⟩, -⟩; cases choice.symm.trans tag)]
    exact renders_pure (.inl ⟨i, .refl i, .choice hc choice⟩)
  by_cases data : c.IsData
  · rw [fits.of_isData found data]
    refine renders_read (TermGraph.arity_content (t := m.toTermGraph) hc found) ?_
    rw [← length]
    have w := (site_below h live hc data.plain).site
    refine (normalizeFields_renders renders c.links.length 0 m ρ c w data simple (Nat.zero_add _)
      fun n t lt => absurd lt (Nat.not_lt_zero n)).mono ?_
    exact fun _ m' log _ _ ends => ends.imp_left fun halts => ⟨i, .refl i, halts⟩
  · rw [fits.of_still h.signature found forward call data]
    refine renders_pure (.inr ⟨evaluated_of_links hc tag fun t ht => ?_, .refl m⟩)
    rcases (simple.content hc).1.of_constructor fits tag with ⟨aux, a, rfl⟩ | ⟨le, -⟩
    · exact absurd ht List.not_mem_nil
    · exact absurd ⟨⟨index, tag⟩, le⟩ data

/-- However deep it may nest, a reducer keeps meanings. -/
theorem reducer_renders : ∀ F : Nat, (reducer F).Renders := by
  intro F
  induction F with
  | zero =>
    refine ⟨reducer_sound 0, fun m ρ i _ _ _ => ?_, fun m ρ i _ _ _ => ?_⟩
    · exact renders_throw nofun
    · exact renders_throw nofun
  | succ F ih =>
    refine ⟨reducer_sound (F + 1), fun m ρ i h live simple => headNormalize_renders ih h live simple,
      fun m ρ i h live simple => ?_⟩
    show (normalize (F + 1) i).Renders _ m ρ _
    rw [normalize_eq]
    refine tick_renders.bind (tick_keeps h) ?_
    rintro _ _ ρ₁ _ - ev ⟨rfl, -⟩ - ⟨rfl, slice, rfl⟩
    have same : m.Clean (.below (ρ₁ i)) ρ₁ [] { m with slice := slice } := clean_of_graph rfl
    refine (normalWork_renders ih ev.inv live simple).mono ?_
    rintro _ m' log - - (⟨j, leads, halts⟩ | ⟨value, clean⟩)
    · exact .inl ⟨j, leads, halts.before same (h.steady live le_rfl)⟩
    · exact .inr ⟨value, same.trans ev clean⟩

end Reduction

end ChoiceGraph
