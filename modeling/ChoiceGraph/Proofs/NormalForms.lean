import ChoiceGraph.Proofs.Conclusions
import ChoiceGraph.Proofs.Enumeration

/-! # Reductions end in normal forms

A reduction that comes to neither a failure nor a choice leaves every value what it is, as long as
variables are bound to variables of their type only. So what a constructor has accepted as a value is
one still when its last argument has been normalized, although that may have narrowed variables
anywhere. -/
namespace ChoiceGraph

namespace Machine

/-- The step that was paid for. -/
theorem Calm.unspent {m m' : Machine} {ρ : Rank} {q : ℚ} {slice : Slice} (h : m.Inv [] ρ)
    (c : Carries { m with slice := slice } m') (calm : Calm { m with slice := slice } q ρ m') :
    m.Calm q ρ m' := by
  have sliced : m.Calm q ρ { m with slice := slice } := calm_of_kept fun _ _ value => value
  exact sliced.trans (quiet_count h m.nextId slice) (carries_sliced m slice) c calm

variable {m m' : Machine} {ρ ρ' : Rank} {root t x : NodeId} {c : Content} {k : Nat} {s : Scope}
  {g : Graph}

/-- A node has come to skip the indirections on the way to an argument. -/
structure Relinked (m : Machine) (s : Scope) (ρ : Rank) (root : NodeId) (c : Content) (m' : Machine)
    (ρ' : Rank) : Prop where
  evolves : m.Evolves s ρ m' [] ρ'
  site : m'.Site s ρ' root c
  carries : m.Carries m'
  values : ∀ i, m.graph.Value i → m'.graph.Value i
  others : ∀ i, i ≠ root → m'.graph.content? i = m.graph.content? i

theorem Relinked.kept (w : m.Site s ρ root c) (hk : c.links[k]? = some x) :
    m.Relinked s ρ root (c.setLink k x) m ρ := by
  rw [Content.setLink_eq w.fits hk]
  exact ⟨.refl w.inv, w, .refl m, fun _ value => value, fun _ _ => rfl⟩

/-- A call or a constructor gets another link. -/
theorem relinked_of_sets (w : m.Site s ρ root c) (kind : c.IsCall ∨ c.IsData)
    (hk : c.links[k]? = some t) (leads : m.graph.Leads t x)
    (sets : m.graph.Sets root (c.setLink k x) g) (ev : m.Evolves s ρ (m.setGraph g) [] ρ')
    (site : Site (m.setGraph g) s ρ' root (c.setLink k x)) :
    m.Relinked s ρ root (c.setLink k x) (m.setGraph g) ρ' := by
  have types : m.graph.KeepsTypes g := by
    intro i d type hd literal
    by_cases here : i = root
    · subst here
      cases sets.same.symm.trans hd
      cases literal
    · exact (sets.others i here).symm.trans hd
  refine ⟨ev, site, carries_of_bare rfl rfl (.refl _) ⟨rfl, types⟩ fun y i _ anchors => ?_,
    fun i value => ?_, sets.others⟩
  · rcases kind with call | data
    · refine anchors.carry (S := fun _ => True) trivial (fun _ _ _ _ _ _ => trivial)
        (fun p z _ free => (sets.others p ?_).trans free)
        fun p d _ hd anchors => .inl ((sets.others p ?_).trans hd)
      · rintro rfl
        exact Graph.not_anchors_of_call w.content call (.free free rfl rfl)
      · rintro rfl
        exact Graph.not_anchors_of_call w.content call anchors
    · exact anchors.relink w.content data w.fits hk leads sets
  · rcases kind with call | data
    · refine value.carry (S := fun _ => True) trivial (fun _ _ _ _ _ _ => trivial)
        fun p d _ hd value _ => .inl ((sets.others p ?_).trans hd)
      rintro rfl
      exact Graph.not_value_of_call w.content call value
    · exact value.relink w.content data hk leads sets

end Machine

theorem TermGraph.Spoiled.not_filled {t : TermGraph} {i j : NodeId} (h : t.Spoiled i)
    (leads : t.graph.Leads i j) : ¬ t.Filled j := by
  intro filled
  cases leads with
  | refl => exact h.not_determinate filled.determinate
  | step hc _ => rcases h.content hc with tag | tag <;> cases tag

namespace Reduction

open Eff Machine

variable {m m' : Machine} {ρ : Rank} {root i t x : NodeId} {c d : Content} {k : Nat} {s : Scope}
  {q : ℚ} {r : Reducer}

/-! ## Forcing an argument -/

theorem relink_tends {α : Type} {e : Eff α} {P : α → Machine → Prop} {p : Prop} [Decidable p]
    (w : m.Site s ρ root c) (kind : c.IsCall ∨ c.IsData) (hk : c.links[k]? = some t)
    (leads : m.graph.Leads t x) (same : ¬ p → t = x)
    (go_on : ∀ m' ρ', m.Relinked s ρ root (c.setLink k x) m' ρ' → e.Tends m' P) :
    (do
      if p then setSuccessor root k (some x)
      e).Tends m P := by
  dsimp only
  split
  · refine Tends.bind (P := fun _ m' => ∃ ρ', m.Relinked s ρ root (c.setLink k x) m' ρ') ?_
      fun _ m' _ _ ⟨ρ', relinked⟩ => go_on m' ρ' relinked
    have bound := (List.getElem?_eq_some_iff.mp hk).1
    unfold Tends
    rcases setSuccessor_writes w.inv.storage w.inv.signature w.content w.fits bound x with
      ⟨g, run, sets⟩ | ⟨err, run⟩
    · obtain ⟨ρ', ev, site, -⟩ := (setSuccessor_keeps w hk leads).ok run
      have relinked := relinked_of_sets w kind hk leads sets ev site
      rw [run]
      exact ⟨relinked.carries, ρ', relinked⟩
    · rw [run]
      exact .refl m
  · next unchanged =>
    obtain rfl := same unchanged
    exact go_on m ρ (.kept w hk)

/-- An argument in head normal form is a value, or takes over a node that anchors no variable. -/
theorem settle_tends {j : NodeId} (w : m.Site s ρ root c) (secure : m.Secure)
    (loose : ∀ y, ¬ m.graph.Anchors y root) (hk : c.links[k]? = some t) (leads : m.graph.Leads t j)
    (hd : m.graph.content? j = some d) : (settle root k j).Tends m fun a m' =>
      a = .taken ∧ m'.toTermGraph.Spoiled root ∨
        a = .value j ∧ m' = m ∧ m.toTermGraph.Filled j := by
  refine Tends.mono (P := fun _ _ => True) ?_ fun a m' run _ _ => settle_returns w hk leads hd run
  unfold settle
  refine tends_read (TermGraph.tag_content hd) ?_
  cases tag : d.tag with
  | failure =>
    exact ((rewriteFail_edits root).tends w.inv w.live loose).bind fun _ _ _ _ _ => tends_pure trivial
  | choice =>
    exact (pull_tends w secure loose hk leads hd tag).bind fun _ _ _ _ _ => tends_pure trivial
  | free => exact tends_look_bind fun _ _ => tends_throw _
  | operation => exact tends_pure trivial
  | constructor index => exact tends_pure trivial
  | forward => exact tends_throw _
  | unassigned below => exact tends_throw _

/-- Once indirections lead to a failure or a choice, they lead to nothing else. -/
theorem spoiled_leads {p j : NodeId} (h : m.Inv [] ρ) (live : m.Live [] p)
    (toward : m.graph.Leads p x) (spoiled : m.toTermGraph.Spoiled x) (leads : m.graph.Leads p j)
    (hc : m.graph.content? j = some c) (tag : c.tag ≠ .forward) :
    c.tag = .failure ∨ c.tag = .choice := by
  obtain ⟨d, hd, -⟩ := h.fits x (live.leads toward)
  have final := spoiled.content hd
  have landed : d.tag ≠ .forward := by
    rcases final with final | final <;> rw [final] <;> nofun
  cases leads_unique toward leads hd landed hc tag
  cases hc.symm.trans hd
  exact final

/-- A reducer that keeps values. Whatever comes to neither a failure nor a choice has not touched
them, and a normal form is one. -/
structure Reducer.Tame (r : Reducer) : Prop where
  sound : r.Sound
  head : ∀ m ρ i, m.Inv [] ρ → m.Live [] i → m.Secure → (r.head i).Tends m fun j m' =>
    m'.toTermGraph.Idle j ∧ (m'.toTermGraph.Spoiled j ∨ m.Calm (ρ i) ρ m')
  normal : ∀ m ρ i, m.Inv [] ρ → m.Live [] i → m.Secure → (r.normal i).Tends m fun _ m' =>
    (∃ j, m'.graph.Leads i j ∧ m'.toTermGraph.Spoiled j) ∨
      m.Calm (ρ i) ρ m' ∧ (m.Uniform m' → m'.graph.Value i)

/-- An argument of a call is brought into head normal form. -/
theorem headArg_tends (tame : r.Tame) (w : m.Site (.below q) ρ root c) (call : c.IsCall)
    (secure : m.Secure) (hk : c.links[k]? = some t) : (headArg r root k).Tends m fun a m' =>
      a = .taken ∧ m'.toTermGraph.Spoiled root ∨ (∃ x, a = .value x) ∧ m.Calm q ρ m' := by
  have below := w.link hk
  have top : ρ root = q := w.top.symm
  unfold headArg
  refine tends_read (w.inv.read_successor w.live w.content hk) (tends_read rfl ?_)
  refine (tame.head m ρ t w.inv below.1 secure).bind ?_
  rintro arg m₁ run₁ c₁ ⟨idle, head⟩
  obtain ⟨ρ₁, ev₁, leads₁⟩ := (tame.sound.head m ρ t w.inv below.1).ok run₁
  obtain ⟨w₁, -⟩ := w.spare below.2 hk ev₁
  obtain ⟨-, d, hd, tag, -⟩ := idle
  refine relink_tends w₁ (.inl call) hk leads₁ (fun same => by simpa using same) fun m₂ ρ₂ re => ?_
  have w₂ := re.site
  have hk₂ := Content.setLink_self (i := arg) hk
  have below₂ := w₂.link hk₂
  have apart : arg ≠ root := by
    rintro rfl
    exact lt_irrefl _ below₂.2
  have hd₂ : m₂.graph.content? arg = some d := (re.others arg apart).trans hd
  have ev₂ : m.Evolves (.below q) ρ m₂ [] ρ₂ := (ev₁.within (w.within below.2)).trans re.evolves
  have c₂ := c₁.trans re.carries
  have calm₂ : m₂.toTermGraph.Spoiled arg ∨ m.Calm q ρ m₂ := by
    rcases head with spoiled | calm
    · exact .inl (.of_content hd₂ (spoiled.content hd))
    · exact .inr ((calm.within (top ▸ below.2.le)).trans (ev₁.within (w.within below.2)) c₁
        re.carries (calm_of_kept fun i _ => re.values i))
  refine tends_read (TermGraph.tag_content hd₂) ?_
  -- the argument is a value now, unless it takes the call over
  have finish : ∀ (m₃ : Machine) (ρ₃ : Rank), m₃.Site (.below q) ρ₃ root (c.setLink k arg) →
      m₃.Secure → m₃.toTermGraph.Spoiled arg ∨ m.Calm q ρ m₃ →
      (look (·.skip arg) >>= settle root k).Tends m₃ fun a m' =>
        a = .taken ∧ m'.toTermGraph.Spoiled root ∨ (∃ x, a = .value x) ∧ m.Calm q ρ m' := by
    intro m₃ ρ₃ w₃ secure₃ calm₃
    obtain ⟨j, e, skip, leads, he, -⟩ := w₃.inv.read_skip (w₃.link hk₂).1
    have loose : ∀ y, ¬ m₃.graph.Anchors y root := fun y => Graph.not_anchors_of_call w₃.content call
    refine tends_read skip ((settle_tends w₃ secure₃ loose hk₂ leads he).mono ?_)
    rintro a m' - - (taken | ⟨rfl, rfl, filled⟩)
    · exact .inl taken
    · exact .inr ⟨⟨j, rfl⟩, calm₃.resolve_left fun spoiled => spoiled.not_filled leads filled⟩
  dsimp only
  split
  · next free =>
    refine (narrow_tends w₂.inv (c₂.secure secure) below₂.1 hd₂ free q).bind
      fun _ m₃ run₃ c₃ narrowed => ?_
    obtain ⟨ρ₃, ev₃, -⟩ := (narrow_keeps (s := .below (ρ₂ arg)) w₂.inv below₂.1 hd₂ free).ok run₃
    obtain ⟨w₃, -⟩ := w₂.spare below₂.2 hk₂ ev₃
    refine finish m₃ ρ₃ w₃ ((c₂.trans c₃).secure secure) ?_
    rcases calm₂ with spoiled | calm
    · rcases spoiled.content hd₂ with tag | tag <;> cases free.symm.trans tag
    · exact narrowed.imp_right fun calm₃ => calm.trans ev₂ c₂ c₃ calm₃
  · exact finish m₂ ρ₂ w₂ (c₂.secure secure) calm₂

/-- An argument of a call is brought into normal form. -/
theorem normalArg_tends (tame : r.Tame) (w : m.Site (.below q) ρ root c) (call : c.IsCall)
    (secure : m.Secure) (hk : c.links[k]? = some t) : (normalArg r root k).Tends m fun a m' =>
      a = .taken ∧ m'.toTermGraph.Spoiled root ∨ (∃ x, a = .value x) ∧ m.Calm q ρ m' := by
  unfold normalArg
  refine (headArg_tends tame w call secure hk).bind ?_
  rintro a m₁ run₁ c₁ (⟨rfl, spoiled⟩ | ⟨⟨x, rfl⟩, calm₁⟩)
  · exact tends_pure (.inl ⟨rfl, spoiled⟩)
  obtain ⟨ρ₁, ev₁, forced⟩ := (headArg_keeps tame.sound w hk).ok run₁
  obtain ⟨⟨a, w₁, leads₁⟩, -⟩ := forced x rfl
  have hk₁ := Content.setLink_self (i := a) hk
  have below₁ := w₁.below hk₁ leads₁
  refine (tame.normal m₁ ρ₁ x w₁.inv below₁.1 (c₁.secure secure)).bind fun _ m₂ run₂ c₂ normal => ?_
  obtain ⟨ρ₂, ev₂, -⟩ := (tame.sound.normal m₁ ρ₁ x w₁.inv below₁.1).ok run₂
  obtain ⟨w₂, kept₂⟩ := w₁.spare below₁.2 hk₁ ev₂
  have leads₂ := kept₂ a (List.mem_of_getElem? hk₁) x leads₁
  obtain ⟨j, e, skip, leads, he, tag⟩ := w₂.inv.read_skip (w₂.below hk₁ leads₂).1
  have loose : ∀ y, ¬ m₂.graph.Anchors y root := fun y => Graph.not_anchors_of_call w₂.content call
  refine tends_read skip ((settle_tends w₂ ((c₁.trans c₂).secure secure) loose hk₁
    (leads₂.trans leads) he).mono ?_)
  rintro a m' - - (taken | ⟨rfl, rfl, filled⟩)
  · exact .inl taken
  refine .inr ⟨⟨j, rfl⟩, ?_⟩
  rcases normal with ⟨p, toward, spoiled⟩ | ⟨calm₂, -⟩
  · have final := spoiled_leads w₂.inv (w₂.below hk₁ leads₂).1 toward spoiled leads he tag
    exact absurd filled (TermGraph.Spoiled.not_filled (.of_content he final) (.refl _))
  · exact calm₁.trans ev₁ c₁ c₂ (calm₂.within (below₁.2.le.trans w₁.top.ge))

/-! ## Head steps -/

theorem tends_congr {α : Type} {e e' : Eff α} {P : α → Machine → Prop} (same : e m = e' m)
    (h : e'.Tends m P) : e.Tends m P := by
  unfold Tends at *
  rwa [same]

/-- What a step does to a call of its node, which is neither a value nor an anchor. -/
theorem edits_tends {e : Eff Unit} (h : e.Moves (Edits root)) (w : m.Site s ρ root c)
    (call : c.IsCall) : e.Tends m fun _ m' => m.Calm q ρ m' :=
  (h.tends w.inv w.live fun _ => Graph.not_anchors_of_call w.content call).mono
    fun _ _ _ _ edited => edited.calm w.content call

/-- An argument that is not there is not read either. -/
theorem headArg_absent (w : m.Site s ρ root c) (absent : c.links[k]? = none) :
    (headArg r root k).Tends m fun _ _ => False := by
  unfold headArg
  refine tends_look_bind fun l read => ?_
  have lt := successor_lt w.inv w.live w.content read
  rw [List.getElem?_eq_getElem lt] at absent
  cases absent

theorem meet_tends (tame : r.Tame) (w : m.Site (.below q) ρ root c) (call : c.IsCall)
    (secure : m.Secure) (demand : Demand) : (demand.meet r root).Tends m fun a m' =>
      a = .taken ∧ m'.toTermGraph.Spoiled root ∨
        (∃ x ρ' y, a = .value x ∧ m.Evolves (.below q) ρ m' [] ρ' ∧
          m'.Site (.below q) ρ' root (c.setLink demand.index y)) ∧ m.Calm q ρ m' := by
  cases demand with
  | head k =>
    cases hk : c.links[k]? with
    | none => exact (headArg_absent w hk).mono fun _ _ _ _ never => never.elim
    | some t =>
      refine (headArg_tends tame w call secure hk).mono ?_
      rintro a m' run - (taken | ⟨⟨x, rfl⟩, calm⟩)
      · exact .inl taken
      · obtain ⟨ρ', ev, forced⟩ := (headArg_keeps tame.sound w hk).ok run
        obtain ⟨⟨y, site, -⟩, -⟩ := forced x rfl
        exact .inr ⟨⟨x, ρ', y, rfl, ev, site⟩, calm⟩
  | normal k =>
    cases hk : c.links[k]? with
    | none => exact (headArg_absent w hk).bind fun _ _ _ _ never => never.elim
    | some t =>
      refine (normalArg_tends tame w call secure hk).mono ?_
      rintro a m' run - (taken | ⟨⟨x, rfl⟩, calm⟩)
      · exact .inl taken
      · obtain ⟨ρ', ev, forced⟩ := (normalArg_keeps tame.sound w hk).ok run
        obtain ⟨⟨y, site, -⟩, -⟩ := forced x rfl
        exact .inr ⟨⟨x, ρ', y, rfl, ev, site⟩, calm⟩

/-- The arguments that a step needs are forced one after the other, and it acts on them. -/
theorem force_tends (tame : r.Tame) : ∀ (demands : List Demand) (act : List NodeId → Eff Unit)
    (m : Machine) (ρ : Rank) (c : Content), m.Site (.below q) ρ root c → c.IsCall → m.Secure →
      (∀ xs, (act xs).Moves (Edits root)) →
      (force r root demands act).Tends m fun _ m' => m'.toTermGraph.Spoiled root ∨ m.Calm q ρ m' := by
  intro demands
  induction demands with
  | nil =>
    intro act m ρ c w call secure edits
    exact (edits_tends (edits []) w call).mono fun _ _ _ _ calm => .inr calm
  | cons d demands ih =>
    intro act m ρ c w call secure edits
    unfold force
    refine (meet_tends tame w call secure d).bind ?_
    rintro a m₁ - c₁ (⟨rfl, spoiled⟩ | ⟨⟨x, ρ₁, y, rfl, ev₁, w₁⟩, calm₁⟩)
    · exact tends_pure (.inl spoiled)
    refine (ih (fun xs => act (x :: xs)) m₁ ρ₁ _ w₁ call (c₁.secure secure)
      fun xs => edits (x :: xs)).mono ?_
    exact fun _ m' _ c₂ rest => rest.imp_right fun calm₂ => calm₁.trans ev₁ c₁ c₂ calm₂

/-- Two variables are bound to each other, anything else is forced. -/
theorem stepUnify_tends (tame : r.Tame) (w : m.Site (.below q) ρ root c) {sym : Symbol}
    (calls : m.toTermGraph.Calls root c sym) (head : sym.head = .unify) (secure : m.Secure) :
    (stepUnify r root).Tends m fun _ m' => m'.toTermGraph.Spoiled root ∨ m.Calm q ρ m' := by
  obtain ⟨sym', found, -, length⟩ := w.inv.symbolAt w.live w.content
  cases found.symm.trans calls.symbol
  obtain ⟨count, reads, le⟩ := (w.fits.of_isCall calls.symbol calls.call).reads
  rw [head] at reads
  cases reads
  have hp := List.getElem?_eq_getElem (l := c.links) (i := 0) (by omega)
  have hq := List.getElem?_eq_getElem (l := c.links) (i := 1) (by omega)
  obtain ⟨a, d, skip, leads, ha, -⟩ := w.inv.read_successorSkip w.live w.content hp
  obtain ⟨b, e, skip', leads', hb, -⟩ := w.inv.read_successorSkip w.live w.content hq
  unfold stepUnify
  refine tends_read skip (tends_read skip' (tends_read (TermGraph.tag_content ha)
    (tends_read (TermGraph.tag_content hb) ?_)))
  split
  · next free =>
    refine tends_read (TermGraph.aux_content ha) (tends_read (TermGraph.aux_content hb) ?_)
    have live := (w.below hp leads).1
    have live' := (w.below hq leads').1
    dsimp only
    split
    · refine (bindVars_tends w.inv live live' ha hb free.1 free.2).bind fun _ m₁ run₁ c₁ graph => ?_
      obtain ⟨ρ₁, ev₁, -⟩ := (bindVars_keeps (s := .below q) w.inv live live' false).ok run₁
      have w₁ := w.after ev₁ (graph ▸ w.content) Iff.rfl
      have calm₁ : m.Calm q ρ m₁ := calm_of_kept fun i _ value => graph ▸ value
      refine (edits_tends (q := q) (succeed_edits root) w₁ calls.call).mono ?_
      exact fun _ m' _ c₂ calm₂ => .inr (calm₁.trans ev₁ c₁ c₂ calm₂)
    · exact (edits_tends (succeed_edits root) w calls.call).mono fun _ _ _ _ calm => .inr calm
  · exact force_tends tame [.head 0, .head 1] (onPair (unifyHeads root)) m ρ c w calls.call secure
      fun xs => by
        unfold onPair
        split
        · exact unifyHeads_edits root _ _
        · exact edits_pure ()

/-- What a head step does to a call, unless it only follows its argument. -/
theorem runHead_tends (tame : r.Tame) (w : m.Site (.below q) ρ root c) {sym : Symbol}
    (calls : m.toTermGraph.Calls root c sym) (secure : m.Secure) :
    (runHead r root sym.head).Tends m fun _ m' =>
      sym.head = .forward ∨ m'.toTermGraph.Spoiled root ∨ m.Calm q ρ m' := by
  obtain ⟨count, reads, -⟩ := (w.fits.of_isCall calls.symbol calls.call).reads
  by_cases forward : sym.head = .forward
  · rw [forward]
    refine tends_look_bind fun l read => ?_
    obtain ⟨t, hk⟩ : ∃ t, c.links[0]? = some t :=
      ⟨_, List.getElem?_eq_getElem (successor_lt w.inv w.live w.content read)⟩
    cases (w.inv.read_successor w.live w.content hk).symm.trans read
    refine tends_read rfl ((tame.head m ρ t w.inv (w.link hk).1 secure).bind ?_)
    exact fun _ _ _ _ _ => tends_pure (.inl rfl)
  by_cases unify : sym.head = .unify
  · rw [unify]
    exact (stepUnify_tends tame w calls unify secure).mono fun _ _ _ _ rest => .inr rest
  obtain ⟨demands, act, eq, edits⟩ := forcesEdits_of_reads root (by rw [reads]; nofun) unify forward
  rw [eq]
  exact (force_tends tame demands act m ρ c w calls.call secure edits).mono
    fun _ _ _ _ rest => .inr rest

theorem headNormalize_tends {F : Nat} (tame : (reducer F).Tame) (h : m.Inv [] ρ) (live : m.Live [] i)
    (secure : m.Secure) : (headNormalize (F + 1) i).Tends m fun j m' =>
      m'.toTermGraph.Idle j ∧ (m'.toTermGraph.Spoiled j ∨ m.Calm (ρ i) ρ m') := by
  obtain ⟨p, c, skip, leads, hc, tag⟩ := h.read_skip live
  have le := h.rank_leads live leads
  have livep := live.leads leads
  suffices reduced : (headNormalize (F + 1) i).Tends m fun j m' =>
      m'.toTermGraph.Spoiled j ∨ m.Calm (ρ i) ρ m' from
    reduced.mono fun j m' run _ rest => ⟨head_idle (F + 1) m m' ρ i j h live run, rest⟩
  by_cases call : c.IsCall
  · obtain ⟨sym, found, symbol⟩ := h.read_symbol livep hc
    have calls : m.toTermGraph.Calls p c sym := ⟨h.unfree p livep, hc, call, found⟩
    have reducible := isReducible_call h calls livep
    -- a call that only follows its argument never returns
    refine Tends.mono (P := fun j m' => sym.head = .forward ∨
      m'.toTermGraph.Spoiled j ∨ m.Calm (ρ i) ρ m') ?_ fun j m' run _ rest => rest.resolve_left ?_
    · rw [headNormalize_eq]
      refine tends_read skip (tends_read reducible ?_)
      rw [if_pos rfl, headStep_eq]
      have w := site_below h.spent livep hc call.2
      have step : (tick >>= fun _ => headWork (reducer F) p).Tends m fun _ m' =>
          sym.head = .forward ∨ m'.toTermGraph.Spoiled p ∨ m.Calm (ρ p) ρ m' := by
        refine tick_tends.bind ?_
        rintro _ _ - c₀ rfl
        refine tends_read symbol ((runHead_tends tame w.site calls (c₀.secure secure)).mono ?_)
        exact fun _ _ _ c rest => rest.imp_right (Or.imp_right fun calm => calm.unspent h c)
      refine step.bind fun _ m₁ run₁ c₁ stepped => ?_
      obtain ⟨ρ₁, ev₁, -⟩ := (headStep_keeps tame.sound h livep).ok run₁
      have steady := h.steady (s := .below (ρ p)) livep le_rfl
      have live₁ : m₁.Live [] p := ev₁.live steady
      refine (tame.head m₁ ρ₁ p ev₁.inv live₁ (c₁.secure secure)).mono ?_
      rintro j m' run₂ c₂ ⟨-, rest⟩
      refine stepped.imp_right fun stepped => ?_
      rcases stepped with spoiled | calm₁
      · obtain ⟨rfl, rfl⟩ := spoiled_stays ev₁.inv live₁ spoiled run₂
        exact .inl spoiled
      · refine rest.imp_right fun calm₂ => (calm₁.trans ev₁ c₁ c₂ ?_).within le
        exact calm₂.within (ev₁.rank p steady).le
    · intro forward
      have circles := forward_runs_out (j := j) forward (F + 1) m m' ρ c h livep calls
      refine circles (Eq.trans ?_ run)
      rw [headNormalize_eq, headNormalize_eq]
      refine (bind_ok (look_ok (h.skip_eq livep (.refl p) hc tag))).trans (Eq.symm ?_)
      exact bind_ok (look_ok skip)
  · rw [headNormalize_eq]
    refine tends_read skip (tends_read (isReducible_idle h livep hc call) ?_)
    exact tends_pure (.inr .refl)

/-! ## Normal forms -/

/-- The arguments of a constructor are normalized from left to right. Those that have been accepted
stay values, whatever the later ones narrow. -/
theorem normalizeFields_tends (tame : r.Tame) : ∀ (count k : Nat) (m : Machine) (ρ : Rank)
    (c : Content), m.Site (.below q) ρ root c → c.IsData → k + count = c.links.length → m.Secure →
    (normalizeFields r root count k).Tends m fun _ m' => m'.toTermGraph.Spoiled root ∨
      m.Calm q ρ m' ∧ (m.Uniform m' →
        (∀ n t, n < k → c.links[n]? = some t → m.graph.Value t) → m'.graph.Value root) := by
  intro count
  induction count with
  | zero =>
    intro k m ρ c w data length secure
    refine tends_pure (.inr ⟨.refl, fun _ ready => .data w.content data fun t ht => ?_⟩)
    obtain ⟨n, lt, hn⟩ := List.getElem_of_mem ht
    exact ready n t (by omega) (hn ▸ List.getElem?_eq_getElem lt)
  | succ count ih =>
    intro k m ρ c w data length secure
    have hk := List.getElem?_eq_getElem (show k < c.links.length by omega)
    have below := w.link hk
    have top : ρ root = q := w.top.symm
    unfold normalizeFields
    refine tends_read (w.inv.read_successor w.live w.content hk) (tends_read rfl ?_)
    refine (tame.normal m ρ _ w.inv below.1 secure).bind fun _ m₁ run₁ c₁ normal => ?_
    obtain ⟨ρ₁, ev₁, -⟩ := (tame.sound.normal m ρ _ w.inv below.1).ok run₁
    obtain ⟨w₁, -⟩ := w.spare below.2 hk ev₁
    obtain ⟨j, d, skip, leads, hd, tag⟩ := w₁.inv.read_skip (w₁.link hk).1
    refine tends_read skip ?_
    refine relink_tends w₁ (.inr data) hk leads (fun same => (not_not.mp same).symm)
      fun m₂ ρ₂ re => ?_
    have w₂ := re.site
    have hk₂ := Content.setLink_self (i := j) hk
    have apart : j ≠ root := by
      rintro rfl
      exact lt_irrefl _ (w₂.link hk₂).2
    have hd₂ : m₂.graph.content? j = some d := (re.others j apart).trans hd
    have c₂ := c₁.trans re.carries
    have ev := (ev₁.within (w.within below.2)).trans re.evolves
    -- a constructor that a failure or a choice takes over anchors nothing
    have loose : d.tag = .failure ∨ d.tag = .choice → ∀ y, ¬ m₂.graph.Anchors y root := by
      intro final y anchors
      obtain ⟨z, free⟩ := anchors.fields w₂.content data j (List.mem_of_getElem? hk₂)
      cases hd₂.symm.trans free
      rcases final with final | final <;> cases final
    have pass : d.tag ≠ .failure → d.tag ≠ .choice →
        (normalizeFields r root count (k + 1)).Tends m₂ fun _ m' => m'.toTermGraph.Spoiled root ∨
          m.Calm q ρ m' ∧ (m.Uniform m' →
            (∀ n t, n < k → c.links[n]? = some t → m.graph.Value t) → m'.graph.Value root) := by
      intro failure choice
      have accepted : m.Calm (ρ c.links[k]) ρ m₁ ∧ (m.Uniform m₁ → m₁.graph.Value c.links[k]) := by
        refine normal.resolve_left ?_
        rintro ⟨p, toward, spoiled⟩
        exact (spoiled_leads w₁.inv (w₁.link hk).1 toward spoiled leads hd tag).elim failure choice
      obtain ⟨calm₁, value⟩ := accepted
      have calm₂ : m.Calm q ρ m₂ := (calm₁.within (top ▸ below.2.le)).trans
        (ev₁.within (w.within below.2)) c₁ re.carries (calm_of_kept fun i _ => re.values i)
      refine (ih (k + 1) m₂ ρ₂ _ w₂ data ?_ (c₂.secure secure)).mono ?_
      · rw [Content.setLink_links, List.length_set]
        omega
      intro _ m' _ c₃ rest
      refine rest.imp_right ?_
      rintro ⟨calm₃, whole⟩
      refine ⟨calm₂.trans ev c₂ c₃ calm₃, fun uniform ready => ?_⟩
      have early : m.Uniform m₁ := uniform.before (re.carries.trans c₃)
      refine whole (uniform.after c₂) fun n t lt hn => re.values t ?_
      by_cases here : n = k
      · subst here
        cases hk₂.symm.trans hn
        exact (value early).leads leads
      · have hn := (Content.setLink_other here).symm.trans hn
        have fixed : (Scope.below (ρ c.links[k])).Fixed ρ root c :=
          Scope.fixed_above below.2 fun free => by
            obtain ⟨⟨index, tag⟩, -⟩ := data
            cases tag.symm.trans free
        exact calm₁ early t (.link (w.inv.steady w.live below.2.le) w.content fixed
          (List.mem_of_getElem? hn)) (ready n t (by omega) hn)
    refine tends_read (TermGraph.tag_content hd₂) ?_
    cases final : d.tag with
    | failure =>
      refine ((rewriteFail_edits root).tends w₂.inv w₂.live (loose (.inl final))).mono ?_
      exact fun _ m' run _ _ => .inl (rewriteFail_spoils run)
    | choice =>
      refine (pull_tends w₂ (c₂.secure secure) (loose (.inr final)) hk₂ (.refl j) hd₂ final).mono ?_
      exact fun _ m' _ _ spoiled => .inl spoiled
    | unassigned missing => exact tends_throw _
    | _ =>
      rw [final] at pass
      exact pass (by simp) (by simp)

/-- A call is brought into head normal form; only a constructor is normalized further. -/
theorem normalizeCall_tends (tame : r.Tame) (h : m.Inv [] ρ) (live : m.Live [] i)
    (secure : m.Secure) : (r.head i >>= takeHead r).Tends m fun _ m' =>
      (∃ j, m'.graph.Leads i j ∧ m'.toTermGraph.Spoiled j) ∨
        m.Calm (ρ i) ρ m' ∧ (m.Uniform m' → m'.graph.Value i) := by
  refine (tame.head m ρ i h live secure).bind ?_
  rintro j m₁ run₁ c₁ ⟨⟨-, d, hd, tag, call⟩, head⟩
  obtain ⟨ρ₁, ev₁, leads⟩ := (tame.sound.head m ρ i h live).ok run₁
  have steady := h.steady (s := .below (ρ i)) live le_rfl
  have live₁ : m₁.Live [] i := ev₁.live steady
  have livej := live₁.leads leads
  have fits := ev₁.inv.fitsAt livej hd
  -- what is no constructor is a value at once, or it is spoiled
  have stop : (∀ index, d.tag ≠ .constructor index) → (∃ j, m₁.graph.Leads i j ∧
      m₁.toTermGraph.Spoiled j) ∨ m.Calm (ρ i) ρ m₁ ∧ (m.Uniform m₁ → m₁.graph.Value i) := by
    intro none
    by_cases failure : d.tag = .failure
    · exact .inl ⟨j, leads, .of_content hd (.inl failure)⟩
    by_cases choice : d.tag = .choice
    · exact .inl ⟨j, leads, .of_content hd (.inr choice)⟩
    refine head.imp (fun spoiled => ⟨j, leads, spoiled⟩) fun calm => ⟨calm, fun _ => leads.value ?_⟩
    exact .atom hd (fits.atom tag failure choice call fun ⟨⟨index, data⟩, _⟩ => none index data)
  unfold takeHead
  refine tends_read (TermGraph.tag_content hd) ?_
  cases final : d.tag with
  | constructor index =>
    have calm₁ : m.Calm (ρ i) ρ m₁ := head.resolve_left fun spoiled => by
      rcases spoiled.content hd with other | other <;> cases final.symm.trans other
    refine (tame.normal m₁ ρ₁ j ev₁.inv livej (c₁.secure secure)).mono fun _ m' run₂ c₂ rest => ?_
    obtain ⟨ρ₂, ev₂, -⟩ := (tame.sound.normal m₁ ρ₁ j ev₁.inv livej).ok run₂
    have rank := ev₁.inv.rank_leads live₁ leads
    have leads₂ := ev₂.leads (ev₁.inv.steady live₁ rank) leads
    refine rest.imp ?_ ?_
    · rintro ⟨p, toward, spoiled⟩
      exact ⟨p, leads₂.trans toward, spoiled⟩
    · rintro ⟨calm₂, value⟩
      refine ⟨calm₁.trans ev₁ c₁ c₂ (calm₂.within (rank.trans (ev₁.rank i steady).le)), ?_⟩
      exact fun uniform => leads₂.value (value (uniform.after c₁))
  | unassigned missing => exact tends_throw _
  | _ =>
    rw [final] at stop
    exact tends_pure (stop nofun)

theorem normalWork_tends (tame : r.Tame) (h : m.Inv [] ρ) (live : m.Live [] i) (secure : m.Secure) :
    (normalWork r i).Tends m fun _ m' => (∃ j, m'.graph.Leads i j ∧ m'.toTermGraph.Spoiled j) ∨
      m.Calm (ρ i) ρ m' ∧ (m.Uniform m' → m'.graph.Value i) := by
  obtain ⟨c, hc, fits⟩ := h.fits i live
  obtain ⟨sym, found, -, length⟩ := h.symbolAt live hc
  unfold normalWork
  refine tends_read (TermGraph.symbol_content (t := m.toTermGraph) hc found) ?_
  by_cases forward : c.tag = .forward
  · rw [fits.of_forward_symbol h.signature found forward]
    obtain ⟨aux, p, rfl⟩ := fits.of_forward forward
    have below := h.below live hc List.mem_cons_self (.refl p)
    refine tends_read (h.read_successor (k := 0) live hc rfl) (tends_read rfl ?_)
    refine (tame.normal m ρ p h below.1 secure).mono fun _ m' run c rest => ?_
    obtain ⟨ρ', ev, -⟩ := (tame.sound.normal m ρ p h below.1).ok run
    have leads := ev.leads (h.steady live below.2.le) (.step hc (.refl p))
    refine rest.imp ?_ ?_
    · rintro ⟨j, toward, spoiled⟩
      exact ⟨j, leads.trans toward, spoiled⟩
    · rintro ⟨calm, value⟩
      exact ⟨calm.within below.2.le, fun uniform => leads.value (value uniform)⟩
  by_cases call : c.IsCall
  · rw [(fits.of_isCall found call).normal]
    exact normalizeCall_tends tame h live secure
  by_cases data : c.IsData
  · rw [fits.of_isData found data]
    refine tends_read (TermGraph.arity_content (t := m.toTermGraph) hc found) ?_
    rw [← length]
    have w := site_below h live hc data.plain
    refine (normalizeFields_tends tame c.links.length 0 m ρ c w.site data (Nat.zero_add _) secure).mono
      fun _ m' _ _ rest => ?_
    refine rest.imp (fun spoiled => ⟨i, .refl i, spoiled⟩) ?_
    rintro ⟨calm, value⟩
    exact ⟨calm, fun uniform => value uniform fun n t lt => absurd lt (Nat.not_lt_zero n)⟩
  · rw [fits.of_still h.signature found forward call data]
    refine tends_pure ?_
    by_cases failure : c.tag = .failure
    · exact .inl ⟨i, .refl i, .of_content hc (.inl failure)⟩
    by_cases choice : c.tag = .choice
    · exact .inl ⟨i, .refl i, .of_content hc (.inr choice)⟩
    exact .inr ⟨.refl, fun _ => .atom hc (fits.atom forward failure choice call data)⟩

/-- However deep it may nest, a reducer keeps values and ends in normal forms. -/
theorem reducer_tame : ∀ F : Nat, (reducer F).Tame := by
  intro F
  induction F with
  | zero => exact ⟨reducer_sound 0, fun m _ _ _ _ _ => .refl m, fun m _ _ _ _ _ => .refl m⟩
  | succ F ih =>
    refine ⟨reducer_sound (F + 1), fun m ρ i h live secure => headNormalize_tends ih h live secure,
      fun m ρ i h live secure => ?_⟩
    show (normalize (F + 1) i).Tends m _
    rw [normalize_eq]
    refine tick_tends.bind ?_
    rintro _ _ - c₀ rfl
    refine (normalWork_tends ih h.spent live (c₀.secure secure)).mono fun _ m' _ c rest => ?_
    exact rest.imp_right fun ⟨calm, value⟩ => ⟨calm.unspent h c, fun uniform => value (uniform.after c₀)⟩

end Reduction

end ChoiceGraph
