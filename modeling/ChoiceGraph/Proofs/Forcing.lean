import ChoiceGraph.Proofs.Narrowing
import ChoiceGraph.Reduction.Argument

/-! # Forcing an argument keeps the machine

A step works on a site: a live node, in a scope that ends there. Reducing what lies below a link
of the site leaves the site and the indirections below its links as they are. Once the argument is
forced, the site links to what it was reduced to, unless the site itself was rewritten. -/
namespace ChoiceGraph

namespace Content

variable {c : Content} {k n : Nat} {i : NodeId}

theorem setLink_inert : (c.setLink k i).Inert ↔ c.Inert := Iff.rfl

theorem setLink_other (h : n ≠ k) : (c.setLink k i).links[n]? = c.links[n]? := by
  simp only [setLink_links]
  exact List.getElem?_set_ne h.symm

theorem setLink_self {j : NodeId} (hk : c.links[k]? = some j) :
    (c.setLink k i).links[k]? = some i := by
  simp only [setLink_links]
  exact List.getElem?_set_self (List.getElem?_eq_some_iff.mp hk).1

/-- Links that are there already need no change. -/
theorem setLink_stored (stored : c.cargo = .links c.links) (hk : c.links[k]? = some i) :
    c.setLink k i = c := by
  obtain ⟨lt, same⟩ := List.getElem?_eq_some_iff.mp hk
  have links : c.links.set k i = c.links := by rw [← same, List.set_getElem_self]
  unfold setLink
  rw [links, ← stored]

theorem setLink_eq {s : Signature} (fits : c.Fits s) (hk : c.links[k]? = some i) :
    c.setLink k i = c := by
  have lt := (List.getElem?_eq_some_iff.mp hk).1
  refine setLink_stored ?_ hk
  cases fits <;> first | rfl | exact absurd lt (Nat.not_lt_zero k)

end Content

namespace Machine

variable {m m' : Machine} {ρ ρ' : Rank} {root i j t : NodeId} {c c' d : Content} {k n : Nat}
  {s : Scope} {q : ℚ} {held : List NodeId}

theorem Evolves.leads (e : m.Evolves (.below q) ρ m' held ρ') (hi : m.Steady (.below q) ρ i)
    (leads : m.graph.Leads i j) : m'.graph.Leads i j :=
  (leads.congr (S := m.Steady (.below q) ρ) hi
    (fun _ _ hp hc ht _ hl => .link hp hc (Scope.fixed_inert (.inl ht)) hl)
    fun _ _ hp hc ht => e.fixed _ _ hp hc (Scope.fixed_inert (.inl ht))).1

/-- A live node that a step works on: its scope ends there. -/
structure Site (m : Machine) (s : Scope) (ρ : Rank) (root : NodeId) (c : Content) : Prop where
  inv : m.Inv [] ρ
  live : m.Live [] root
  content : m.graph.content? root = some c
  top : s.top = ρ root
  open_ : ¬ c.Inert ∨ s.exempt root

theorem Site.loose (w : m.Site s ρ root c) : m.Loose s ρ root :=
  loose_of_content w.content w.top.ge w.open_

theorem Site.fits (w : m.Site s ρ root c) : c.Fits m.signature := w.inv.fitsAt w.live w.content

theorem Site.steady (w : m.Site s ρ root c) : m.Steady s ρ root := w.inv.steady w.live w.top.le

theorem Site.link (w : m.Site s ρ root c) (hk : c.links[k]? = some t) :
    m.Live [] t ∧ ρ t < ρ root :=
  ⟨w.live.link w.content (List.mem_of_getElem? hk),
    w.inv.ranked root t c w.live w.content (List.mem_of_getElem? hk)⟩

theorem Site.below (w : m.Site s ρ root c) (hk : c.links[k]? = some t)
    (leads : m.graph.Leads t j) : m.Live [] j ∧ ρ j < ρ root :=
  w.inv.below w.live w.content (List.mem_of_getElem? hk) leads

theorem Site.within (w : m.Site s ρ root c) (lt : q < ρ root) : (Scope.below q).Within s :=
  Scope.below_within (lt.le.trans w.top.ge)

/-- The site after a step that ends with a content for it. -/
theorem Site.after (w : m.Site s ρ root c) (e : m.Evolves s ρ m' [] ρ')
    (hc : m'.graph.content? root = some c') (inert : c'.Inert ↔ c.Inert) :
    m'.Site s ρ' root c' :=
  ⟨e.inv, e.live w.steady, hc, w.top.trans (e.rank root w.steady).symm,
    w.open_.imp_left fun h => inert.not.mpr h⟩

/-- Reductions below a site do not touch it. -/
theorem Site.spare (w : m.Site s ρ root c) (lt : q < ρ root) (hk : c.links[k]? = some t)
    (e : m.Evolves (.below q) ρ m' [] ρ') : m'.Site s ρ' root c ∧
      ∀ b ∈ c.links, ∀ x, m.graph.Leads b x → m'.graph.Leads b x := by
  have steady := w.inv.steady (s := .below q) w.live lt.le
  have filled : c.tag ≠ .free := by
    intro ht
    rw [w.fits.links_of_free ht] at hk
    cases hk
  have fixed := Scope.fixed_above lt filled
  refine ⟨w.after (e.within (w.within lt)) (e.fixed root c steady w.content fixed) Iff.rfl, ?_⟩
  intro b hb x leads
  exact e.leads (.link steady w.content fixed hb) leads

/-- The site links to what its argument was reduced to; what its other links lead to is as
before. -/
structure Forced (m : Machine) (m' : Machine) (s : Scope) (ρ' : Rank) (root : NodeId)
    (c : Content) (k : Nat) (j : NodeId) : Prop where
  found : ∃ a, m'.Site s ρ' root (c.setLink k a) ∧ m'.graph.Leads a j
  others : ∀ n b x, n ≠ k → c.links[n]? = some b → m.graph.Leads b x → m'.graph.Leads b x

end Machine

namespace Reduction

open Eff Machine

variable {m : Machine} {ρ : Rank} {root i j t x : NodeId} {c d : Content} {k n : Nat} {s : Scope}
  {r : Reducer} {P : Unit → Machine → Rank → Prop}

/-- Reductions of other nodes keep to what ranks no higher; indirections lead to a head normal
form. -/
structure Reducer.Sound (r : Reducer) : Prop where
  normal : ∀ m ρ i, m.Inv [] ρ → m.Live [] i →
    (r.normal i).Keeps (.below (ρ i)) m ρ fun _ _ _ => True
  head : ∀ m ρ i, m.Inv [] ρ → m.Live [] i →
    (r.head i).Keeps (.below (ρ i)) m ρ fun j m' _ => m'.graph.Leads i j

theorem rewriteFail_keeps (w : m.Site s ρ root c) :
    (rewriteFail root).Keeps s m ρ fun _ _ _ => True :=
  ((rewriteFail_writes w.inv.storage (w.inv.lt w.live)).keeps w.inv w.live Content.blank_fits
    (fun _ hj => absurd hj List.not_mem_nil) (Content.spined_of_tag nofun)
    (fun _ _ => .failure rfl) w.loose).mono fun _ _ _ _ _ => trivial

theorem settle_keeps (w : m.Site s ρ root c) (hk : c.links[k]? = some t)
    (leads : m.graph.Leads t j) (hd : m.graph.content? j = some d) (ht : d.tag ≠ .forward) :
    (settle root k j).Keeps s m ρ fun a m' ρ' => ∀ x, a = .value x → x = j ∧ m' = m ∧ ρ' = ρ := by
  have fits := w.inv.fitsAt (w.below hk leads).1 hd
  unfold settle
  refine keeps_look_bind (TermGraph.tag_content hd) ?_
  cases tag : d.tag with
  | failure =>
    exact Keeps.bind (rewriteFail_keeps w) fun _ _ _ ev _ => keeps_pure ev.inv nofun
  | choice =>
    obtain ⟨symbol, id, left, right, rfl, choice⟩ := fits.of_choice tag
    exact Keeps.bind (pull_keeps w.inv w.live w.content ⟨⟨t, hk, leads⟩, hd, choice⟩ w.loose)
      fun _ _ _ ev _ => keeps_pure ev.inv nofun
  | free => exact keeps_look_bind (TermGraph.aux_content hd) (keeps_throw w.inv nofun)
  | forward => exact absurd tag ht
  | unassigned below => exact absurd tag (fits.tag_ne_unassigned below)
  | operation =>
    refine keeps_pure w.inv fun x hx => ?_
    cases hx
    exact ⟨rfl, rfl, rfl⟩
  | constructor index =>
    refine keeps_pure w.inv fun x hx => ?_
    cases hx
    exact ⟨rfl, rfl, rfl⟩

/-- The site skips indirections on the way to an argument. -/
theorem setSuccessor_keeps (w : m.Site s ρ root c) (hk : c.links[k]? = some t)
    (leads : m.graph.Leads t x) :
    (setSuccessor root k (some x)).Keeps s m ρ fun _ m' ρ' => m'.Site s ρ' root (c.setLink k x) ∧
      ∀ i j, m.Live [] i → ρ i < ρ root → m.graph.Leads i j → m'.graph.Leads i j := by
  have bound := (List.getElem?_eq_some_iff.mp hk).1
  have misses : ∀ n, m.graph.Misses t n → m.graph.Misses x n := fun n hn => leads.misses hn
  refine ((setSuccessor_writes w.inv.storage w.inv.signature w.content w.fits bound x).keeps w.inv
    w.live (w.fits.setLink bound x) (fun j hj => ?_)
    ((w.inv.spines root c w.live w.content).setLink w.fits hk misses)
    (fun n hn => (hn.by w.content).setLink hk misses) w.loose).mono ?_
  · rcases mem_setLink hj with hj | rfl
    · exact ⟨w.live.link w.content hj, w.inv.ranked root j c w.live w.content hj⟩
    · exact w.below hk leads
  · rintro _ m' ρ' ev ⟨rfl, g', rfl, sets⟩
    refine ⟨w.after ev sets.same Content.setLink_inert, fun i j live lt leads => ?_⟩
    -- the indirections on the way rank below the site, which alone was written
    refine (leads.congr (S := fun p => m.Live [] p ∧ ρ' p < ρ' root) ⟨live, lt⟩
      (fun p cp hp hcp _ q hq => ⟨hp.1.link hcp hq,
        (w.inv.ranked p q cp hp.1 hcp hq).trans hp.2⟩) fun p cp hp hcp _ => ?_).1
    exact (sets.others p fun e => lt_irrefl _ (e ▸ hp.2)).trans hcp

/-- The site links to what an argument was reduced to, whether it did so already or not. -/
theorem relink_keeps {α : Type} {e : Eff α} {P : α → Machine → Rank → Prop} {p : Prop}
    [Decidable p] (w : m.Site s ρ root c) (hk : c.links[k]? = some t)
    (leads : m.graph.Leads t x) (same : ¬ p → t = x)
    (go_on : ∀ m' ρ', m'.Site s ρ' root (c.setLink k x) →
      (∀ i j, m.Live [] i → ρ i < ρ root → m.graph.Leads i j → m'.graph.Leads i j) →
      e.Keeps s m' ρ' P) :
    (do
      if p then setSuccessor root k (some x)
      e).Keeps s m ρ P := by
  dsimp only
  split
  · refine Keeps.bind (setSuccessor_keeps w hk leads) ?_
    rintro _ m' ρ' - ⟨w', kept⟩
    exact go_on m' ρ' w' kept
  · next unchanged =>
    refine go_on m ρ ?_ fun _ _ _ _ leads => leads
    rw [← same unchanged, Content.setLink_eq w.fits hk]
    exact w

theorem headArg_keeps (sound : r.Sound) (w : m.Site s ρ root c) (hk : c.links[k]? = some t) :
    (headArg r root k).Keeps s m ρ fun a m' ρ' =>
      ∀ x, a = .value x → m.Forced m' s ρ' root c k x := by
  have below := w.link hk
  unfold headArg
  refine keeps_look_bind (w.inv.read_successor w.live w.content hk) (keeps_look_bind rfl ?_)
  refine Keeps.bind ((sound.head m ρ t w.inv below.1).within (w.within below.2)) ?_
  rintro arg m₁ ρ₁ ev₁ ⟨fine₁, leads₁⟩
  obtain ⟨w₁, kept₁⟩ := w.spare below.2 hk fine₁
  refine relink_keeps w₁ hk leads₁ (fun same => by simpa using same) fun m₂ ρ₂ w₂ moved => ?_
  have kept₂ : ∀ n b x, n ≠ k → c.links[n]? = some b → m.graph.Leads b x →
      m₂.graph.Leads b x := fun n b x _ hb leads =>
    moved b x (w₁.link hb).1 (w₁.link hb).2 (kept₁ b (List.mem_of_getElem? hb) x leads)
  have hk₂ := Content.setLink_self (i := arg) hk
  have below₂ := w₂.link hk₂
  obtain ⟨d, hd, -⟩ := w₂.inv.fits arg below₂.1
  refine keeps_look_bind (TermGraph.tag_content hd) ?_
  -- whatever a variable was narrowed to, the site stays as it is
  have finish : ∀ (m₃ : Machine) (ρ₃ : Rank), m₃.Site s ρ₃ root (c.setLink k arg) →
      (∀ n b x, n ≠ k → c.links[n]? = some b → m.graph.Leads b x → m₃.graph.Leads b x) →
      (look (·.skip arg) >>= settle root k).Keeps s m₃ ρ₃ fun a m' ρ' =>
        ∀ x, a = .value x → m.Forced m' s ρ' root c k x := by
    intro m₃ ρ₃ w₃ kept₃
    obtain ⟨j, dj, skip, leads, hj, tag⟩ := w₃.inv.read_skip (w₃.link hk₂).1
    refine keeps_look_bind skip ((settle_keeps w₃ hk₂ leads hj tag).mono ?_)
    rintro a m' ρ' - ha x hx
    obtain ⟨rfl, rfl, rfl⟩ := ha x hx
    exact ⟨⟨arg, w₃, leads⟩, kept₃⟩
  dsimp only
  split
  · next tag =>
    refine Keeps.bind ((narrow_keeps w₂.inv below₂.1 hd tag).within (w₂.within below₂.2)) ?_
    rintro _ m₃ ρ₃ - ⟨fine₃, -⟩
    obtain ⟨w₃, kept₃⟩ := w₂.spare below₂.2 hk₂ fine₃
    refine finish m₃ ρ₃ w₃ fun n b x hn hb leads => ?_
    exact kept₃ b (List.mem_of_getElem? ((Content.setLink_other hn).trans hb)) x
      (kept₂ n b x hn hb leads)
  · exact finish m₂ ρ₂ w₂ kept₂

theorem normalArg_keeps (sound : r.Sound) (w : m.Site s ρ root c) (hk : c.links[k]? = some t) :
    (normalArg r root k).Keeps s m ρ fun a m' ρ' =>
      ∀ x, a = .value x → m.Forced m' s ρ' root c k x := by
  unfold normalArg
  refine Keeps.bind (headArg_keeps sound w hk) ?_
  rintro a m₁ ρ₁ ev₁ forced
  cases a with
  | taken => exact keeps_pure ev₁.inv nofun
  | value x =>
    obtain ⟨⟨a, w₁, leads₁⟩, kept₁⟩ := forced x rfl
    have hk₁ := Content.setLink_self (i := a) hk
    have below₁ := w₁.below hk₁ leads₁
    refine Keeps.bind ((sound.normal m₁ ρ₁ x w₁.inv below₁.1).within (w₁.within below₁.2)) ?_
    rintro _ m₂ ρ₂ - ⟨fine₂, -⟩
    obtain ⟨w₂, kept₂⟩ := w₁.spare below₁.2 hk₁ fine₂
    have leads₂ := kept₂ a (List.mem_of_getElem? hk₁) x leads₁
    obtain ⟨j, dj, skip, leads, hj, tag⟩ := w₂.inv.read_skip (w₂.below hk₁ leads₂).1
    refine keeps_look_bind skip ((settle_keeps w₂ hk₁ (leads₂.trans leads) hj tag).mono ?_)
    rintro b m' ρ' - hb y hy
    obtain ⟨rfl, rfl, rfl⟩ := hb y hy
    refine ⟨⟨a, w₂, leads₂.trans leads⟩, fun n b y hn hb leads => ?_⟩
    exact kept₂ b (List.mem_of_getElem? ((Content.setLink_other hn).trans hb)) y
      (kept₁ n b y hn hb leads)

/-- A step that goes on with a forced argument. -/
theorem withHead_keeps {body : NodeId → Eff Unit} (sound : r.Sound) (w : m.Site s ρ root c)
    (hk : c.links[k]? = some t)
    (go_on : ∀ x m' ρ', m.Forced m' s ρ' root c k x →
      (body x).Keeps s m' ρ' fun _ _ _ => True) :
    (withHead r root k body).Keeps s m ρ fun _ _ _ => True := by
  unfold withHead
  refine Keeps.bind (headArg_keeps sound w hk) ?_
  rintro a m₁ ρ₁ ev₁ forced
  cases a with
  | taken => exact keeps_pure ev₁.inv trivial
  | value x => exact go_on x m₁ ρ₁ (forced x rfl)

theorem withNormal_keeps {body : NodeId → Eff Unit} (sound : r.Sound) (w : m.Site s ρ root c)
    (hk : c.links[k]? = some t)
    (go_on : ∀ x m' ρ', m.Forced m' s ρ' root c k x →
      (body x).Keeps s m' ρ' fun _ _ _ => True) :
    (withNormal r root k body).Keeps s m ρ fun _ _ _ => True := by
  unfold withNormal
  refine Keeps.bind (normalArg_keeps sound w hk) ?_
  rintro a m₁ ρ₁ ev₁ forced
  cases a with
  | taken => exact keeps_pure ev₁.inv trivial
  | value x => exact go_on x m₁ ρ₁ (forced x rfl)

end Reduction

end ChoiceGraph
