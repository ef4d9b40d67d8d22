import ChoiceGraph.Proofs.EchoedSteps

/-! # Reductions that echo each other

By induction on how deep the calls nest in the first machine. There the reductions of other nodes are
echoed already. What the second machine does besides is to follow indirections that only it has, of which
there are finitely many in front of each node. -/
namespace ChoiceGraph.Reflection

open Eff Machine Reduction

variable {ν : Numbering} {W W₁ : Reflection ν} {i i' p p' x x' : NodeId} {c c' d d' : Content} {k F : Nat}
  {sym : Symbol}

/-! ## Paying changes no graph -/

theorem Alive.paidLeft (h : W.Alive i i') : W.paidLeft.Alive i i' := by
  obtain ⟨related, ⟨ρ, inv, live⟩, right⟩ := h
  exact ⟨related, ⟨ρ, inv.spent, live⟩, right⟩

theorem Alive.paidRight (h : W.Alive i i') : W.paidRight.Alive i i' := by
  obtain ⟨related, left, ρ, inv, live⟩ := h
  exact ⟨related, left, ρ, inv.spent, live⟩

theorem Twins.paidLeft (w : W.Twins i i' c c') : W.paidLeft.Twins i i' c c' :=
  ⟨w.related, w.content, w.content', w.plain, w.fits, w.fits', w.mirrors⟩

theorem Twins.paidRight (w : W.Twins i i' c c') : W.paidRight.Twins i i' c c' :=
  ⟨w.related, w.content, w.content', w.plain, w.fits, w.fits', w.mirrors⟩

/-! ## Head normal forms -/

/-- Corresponding nodes are driven to corresponding head normal forms. -/
theorem echoes_head (ih : Reflects ν F) (alive : W.Alive i i') :
    W.Echoes ((reducer (F + 1)).head i) (fun G => (reducer G).head i') fun W₁ j j' => W₁.rel j j' := by
  refine Echoes.later ?_
  show W.Echoes (Reduction.headNormalize (F + 1) i) (fun G => Reduction.headNormalize (G + 1) i') _
  simp only [headNormalize_eq]
  have known := reducer_known F
  obtain ⟨p, p', c, c', skip, skip', leads, leads', w⟩ := alive.skips
  have below := alive.leads leads leads' w.related
  obtain ⟨ρ, inv, live⟩ := below.left
  obtain ⟨ρ', inv', live'⟩ := below.right
  refine echoes_look skip skip' ?_
  by_cases call : c.IsCall
  · have call' := w.mirrors.isCall.mpr call
    obtain ⟨sym, found, -⟩ := inv.read_symbol live w.content
    obtain ⟨sym', found', -⟩ := inv'.read_symbol live' w.content'
    refine echoes_look (isReducible_call inv ⟨inv.unfree p live, w.content, call, found⟩ live)
      (isReducible_call inv' ⟨inv'.unfree p' live', w.content', call', found'⟩ live') ?_
    simp only [if_true, headStep_eq, bind_assoc]
    refine echoes_paid ?_
    have pair := below.paidLeft.paidRight.pair w.paidLeft.paidRight call.2
    refine (echoes_headWork ih pair call).bind (headWork_moves known.moves p)
      (fun _ => known.moves.head p) (fun G _ => (reducer_known G).moves.head p') ?_
    rintro W₁ _ _ grows ends ⟨G, ends'⟩ -
    refine ih.head W₁ p p' ⟨grows.rel p p' w.related, ?_, ?_⟩
    · obtain ⟨ρ₁, ev, -⟩ := (headStep_keeps (reducer_sound F) inv live).ok
        ((bind_ok (tick_paid W.unhindered.1)).trans ends.run)
      exact ⟨ρ₁, ev.inv, ev.live (inv.steady live le_rfl)⟩
    · obtain ⟨ρ₁, ev, -⟩ := (headStep_keeps (reducer_sound G) inv' live').ok
        ((bind_ok (tick_paid W.unhindered.2)).trans ends'.run)
      exact ⟨ρ₁, ev.inv, ev.live (inv'.steady live' le_rfl)⟩
  · have other' : ¬ c'.IsCall := fun call' => call (w.mirrors.isCall.mp call')
    refine echoes_look (isReducible_idle inv live w.content call)
      (isReducible_idle inv' live' w.content' other') ?_
    exact echoes_pure w.related

/-! ## Normal forms -/

/-- What is done with corresponding head normal forms. -/
theorem echoes_takeHead (ih : Reflects ν F) (value : W.Value x x') :
    W.Echoes (takeHead (reducer F) x) (fun G => takeHead (reducer G) x') fun _ _ _ => True := by
  obtain ⟨d, d', v⟩ := value.twins
  refine echoes_look (TermGraph.tag_content v.content) (TermGraph.tag_content v.content') ?_
  rw [← v.mirrors.tag]
  cases tag : d.tag with
  | constructor index => exact ih.normal W x x' value.alive
  | unassigned below => exact absurd tag (v.fits.tag_ne_unassigned below)
  | _ => exact echoes_pure trivial

/-- What is done with corresponding calls. -/
theorem echoes_call (ih : Reflects ν F) (alive : W.Alive i i') :
    W.Echoes ((reducer F).head i >>= takeHead (reducer F))
      (fun G => (reducer G).head i' >>= takeHead (reducer G)) fun _ _ _ => True := by
  have known := reducer_known F
  obtain ⟨ρ, inv, live⟩ := alive.left
  obtain ⟨ρ', inv', live'⟩ := alive.right
  refine (ih.head W i i' alive).bind (known.moves.head i) (takeHead_moves known.moves)
    (fun G => takeHead_moves (reducer_known G).moves) ?_
  rintro W₁ x x' grows ends ⟨G, ends'⟩ hx
  obtain ⟨ρ₁, ev, leads⟩ := ((reducer_sound F).head W.left ρ i inv live).ok ends.run
  obtain ⟨ρ₁', ev', leads'⟩ := ((reducer_sound G).head W.right ρ' i' inv' live').ok ends'.run
  have alive₁ : W₁.Alive i i' := ⟨grows.rel i i' alive.related, ⟨ρ₁, ev.inv, ev.live (inv.steady live le_rfl)⟩,
    ρ₁', ev'.inv, ev'.live (inv'.steady live' le_rfl)⟩
  exact echoes_takeHead ih ⟨alive₁.leads leads leads' hx, head_idle F _ _ ρ i x inv live ends.run,
    head_idle G _ _ ρ' i' x' inv' live' ends'.run⟩

/-- The arguments of corresponding constructors are normalized. -/
theorem echoes_fields (ih : Reflects ν F) : ∀ (count k : Nat) (W : Reflection ν) (c c' : Content),
    W.Pair i i' c c' → k + count ≤ c.links.length →
    W.Echoes (normalizeFields (reducer F) i count k) (fun G => normalizeFields (reducer G) i' count k)
      fun _ _ _ => True := by
  have known := reducer_known F
  intro count
  induction count with
  | zero => exact fun _ _ _ _ _ _ => echoes_pure trivial
  | succ count ihc =>
    intro k W c c' w enough
    have hk : c.links[k]? = some c.links[k] := List.getElem?_eq_getElem (by omega)
    obtain ⟨p', hk', alive⟩ := w.link hk
    obtain ⟨read, read'⟩ := reads_link w.twins hk hk'
    have more := fun G i => normalizeFields_moves (reducer_known G).moves i count (k + 1)
    refine echoes_look read read' (echoes_look (v := c.links[k]) (b := p') rfl rfl ?_)
    refine (ih.normal W _ p' alive).bind (known.moves.normal _) (fun _ => takeField_moves (more F i) _)
      (fun G _ => takeField_moves (more G i') _) ?_
    rintro W₁ _ _ grows ends ⟨G, ends'⟩ -
    obtain ⟨w₁, -, -⟩ := w.spare hk hk' grows (fun ρ => (reducer_sound F).normal W.left ρ _)
      (fun ρ => (reducer_sound G).normal W.right ρ p') ends.run ends'.run
    obtain ⟨p'', hk'', alive₁⟩ := w₁.link hk
    cases hk'.symm.trans hk''
    obtain ⟨x, x', d, d', skip, skip', leads, leads', v⟩ := alive₁.skips
    refine echoes_look skip skip' ?_
    refine echoes_relink_left w₁ hk leads (fun same => (not_not.mp same).symm)
      fun W₂ grows₂ kept₂ right₂ w₂ => ?_
    refine echoes_relink_right w₂ hk' (right₂ ▸ leads') (fun same => (not_not.mp same).symm)
      fun W₃ grows₃ kept₃ w₃ => ?_
    obtain ⟨e, e', v₃, tag₃⟩ := (kept₂.trans kept₃) x x' d d' v
    refine echoes_look (TermGraph.tag_content v₃.content) (TermGraph.tag_content v₃.content') ?_
    rw [← v₃.mirrors.tag]
    have go_on : W₃.Echoes (normalizeFields (reducer F) i count (k + 1))
        (fun G => normalizeFields (reducer G) i' count (k + 1)) fun _ _ _ => True := by
      refine ihc (k + 1) W₃ _ _ w₃ ?_
      rw [Content.setLink_links, List.length_set]
      omega
    cases tag : e.tag with
    | failure => exact W₃.echoes_rewriteFail w₃.twins
    | choice => exact echoes_pull w₃.twins (Content.setLink_self hk) (Content.setLink_self hk') v₃ tag
    | unassigned below => exact absurd tag (v₃.fits.tag_ne_unassigned below)
    | _ => exact go_on

/-- Twins take corresponding steps toward normal form. -/
theorem echoes_normalWork (ih : Reflects ν F) (alive : W.Alive i i') (w : W.Twins i i' c c') :
    W.Echoes (normalWork (reducer F) i) (fun G => normalWork (reducer G) i') fun _ _ _ => True := by
  obtain ⟨sym, found, symbol, symbol'⟩ := w.symbol W.mirrors
  obtain ⟨_, found', -, length⟩ := w.fits.symbol W.mirrors.sound
  obtain ⟨_, found₁, -, -⟩ := w.fits'.symbol W.mirrors.sound
  cases found.symm.trans found'
  rw [← w.mirrors.symbol] at found₁
  cases found.symm.trans found₁
  refine echoes_look symbol symbol' ?_
  cases w.fits.steps W.mirrors.sound found with
  | forward tag => exact absurd tag w.plain
  | still _ normal =>
    rw [normal]
    exact echoes_pure trivial
  | call plain call =>
    rw [call.normal]
    exact echoes_call ih alive
  | constructor plain _ normal =>
    rw [normal]
    have found' : W.right.signature.symbol? c'.symbol = some sym := by
      rw [← w.mirrors.symbol]
      exact (congrArg (·.symbol? c.symbol) W.mirrors.signature).trans found
    refine echoes_look (TermGraph.arity_content (t := W.left.toTermGraph) w.content found)
      (TermGraph.arity_content (t := W.right.toTermGraph) w.content' found') ?_
    exact echoes_fields ih sym.arity 0 W c c' (alive.pair w plain) (by rw [Nat.zero_add, length])

/-- The second machine follows the indirections in front of its node first. -/
theorem echoes_through {g : Graph} (ih : Reflects ν F) (leads' : g.Leads i' p') : ∀ W : Reflection ν,
    W.right.graph = g → W.Alive i i' → W.Twins i p' c c' →
    W.Echoes (normalWork (reducer F) i) (fun G => (reducer G).normal i') fun _ _ _ => True := by
  induction leads' with
  | refl =>
    intro W _ alive w
    refine Echoes.later ?_
    show W.Echoes _ (fun G => Reduction.normalize (G + 1) _) _
    simp only [normalize_eq]
    exact echoes_paidRight (echoes_normalWork ih alive.paidRight w.paidRight)
  | @step i' j p' symbol aux h _ through =>
    rintro W rfl alive w
    have before := alive
    obtain ⟨related, left, ρ', inv', live'⟩ := before
    have next : W.Alive i j := ⟨W.mirrors.next' i i' _ j related h rfl List.mem_cons_self, left,
      ρ', inv', live'.link h List.mem_cons_self⟩
    obtain ⟨sym, found, reads⟩ := inv'.read_symbol live' h
    have normal := (inv'.fitsAt live' h).of_forward_symbol inv'.signature found rfl
    refine Echoes.later ?_
    show W.Echoes _ (fun G => Reduction.normalize (G + 1) _) _
    simp only [normalize_eq]
    refine echoes_paidRight (echoes_look_right reads ?_)
    rw [normal]
    refine echoes_look_right (inv'.read_successor (k := 0) live' h rfl) (echoes_look_right (b := j) rfl ?_)
    exact through W.paidRight rfl next.paidRight w.paidRight

/-- Corresponding nodes are driven to normal form alike. -/
theorem echoes_normal (ih : Reflects ν F) (alive : W.Alive i i') :
    W.Echoes ((reducer (F + 1)).normal i) (fun G => (reducer G).normal i') fun _ _ _ => True := by
  show W.Echoes (Reduction.normalize (F + 1) i) _ _
  rw [normalize_eq]
  refine echoes_paidLeft ?_
  have before := alive
  obtain ⟨related, ⟨ρ, inv, live⟩, right⟩ := before
  obtain ⟨c, hc, fits⟩ := inv.fits i live
  by_cases tag : c.tag = .forward
  · obtain ⟨aux, next, rfl⟩ := fits.of_forward tag
    obtain ⟨sym, found, reads⟩ := inv.read_symbol live hc
    refine echoes_look_left reads ?_
    rw [fits.of_forward_symbol inv.signature found tag]
    refine echoes_look_left (inv.read_successor (k := 0) live hc rfl) (echoes_look_left (v := next) rfl ?_)
    have below : W.Alive next i' := ⟨W.mirrors.next i i' _ next related hc rfl List.mem_cons_self,
      ⟨ρ, inv, live.link hc List.mem_cons_self⟩, right⟩
    exact ih.normal W.paidLeft next i' below.paidLeft
  · obtain ⟨x, p', d, d', skip, -, -, leads', w⟩ := alive.skips
    cases (TermGraph.skip_self hc tag).symm.trans skip
    exact echoes_through ih leads' W.paidLeft rfl alive.paidLeft w.paidLeft

/-- However deep the calls nest, reductions at corresponding live nodes echo each other. -/
theorem reflects (ν : Numbering) (F : Nat) : Reflects ν F := by
  induction F with
  | zero =>
    refine ⟨fun W i i' _ => echoes_starved ?_, fun W i i' _ => echoes_starved ?_⟩
    · show Reduction.headNormalize 0 i W.left = _
      rw [Reduction.headNormalize]
      rfl
    · show Reduction.normalize 0 i W.left = _
      rw [Reduction.normalize]
      rfl
  | succ F ih => exact ⟨fun W i i' alive => echoes_head ih alive, fun W i i' alive => echoes_normal ih alive⟩

end ChoiceGraph.Reflection
