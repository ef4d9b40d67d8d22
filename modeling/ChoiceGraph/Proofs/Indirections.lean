import ChoiceGraph.Proofs.Attempts
import ChoiceGraph.Proofs.EchoedReductions
import ChoiceGraph.Proofs.Unfoldings

/-! # Indirections cannot be seen

A graph is copied, and chains of indirections are put in front of any of the copied nodes: links to such a
node lead to it through a chain. Whatever is read at a node is read at a copy as well. And if a node comes to
an end without a collection, then its copy comes to the same end, unless it needs a collection for it. -/
namespace ChoiceGraph

namespace Machine

open Eff Reduction

/-! ## Copies behind indirections -/

/-- The second machine holds, at their places, the nodes that the first one reaches, with links that lead
to the places of what they linked to. -/
structure Padding (m m' : Machine) (place : NodeId → NodeId) : Prop where
  sound : m.Sound
  sound' : m'.Sound
  signature : m'.signature = m.signature
  apart : ∀ i j, m.Reachable i → m.Reachable j → place i = place j → i = j
  copied : ∀ i c, m.Reachable i → m.graph.content? i = some c →
    ∃ c', m'.graph.content? (place i) = some c' ∧ c.Mirrors .plain (fun j j' => m'.graph.Leads j' (place j)) c'

/-- A node, and one that leads to its place. -/
structure Copies (m m' : Machine) (place : NodeId → NodeId) (i i' : NodeId) : Prop where
  reachable : m.Reachable i
  reachable' : m'.Reachable i'
  leads : m'.graph.Leads i' (place i)

/-- What is read at two nodes is read at two others. The arguments of partial applications are the same but
for indirections. -/
structure ReadAlike (m m' : Machine) (place : NodeId → NodeId) (i i' j j' : NodeId) : Prop where
  shown : ∃ text, m.showTerm i = .ok text ∧ m'.showTerm i' = .ok text
  same : ∃ b, m.equals i j = .ok b ∧ m'.equals i' j' = .ok b
  ordered : ∃ o, m.order i j = .ok o ∧ m'.order i' j' = .ok o
  value : ∃ v, m.intValue? i = .ok v ∧ m'.intValue? i' = .ok v
  spine : ∃ found found', m.partialSpine i = .ok found ∧ m'.partialSpine i' = .ok found' ∧
    Option.Rel (fun a b => a.1 = b.1 ∧ List.Forall₂ (Option.Rel fun x x' =>
      ∃ p, m.skip x = .ok p ∧ m'.skip x' = .ok (place p)) a.2 b.2) found found'

/-- If the first node comes to an end without a collection, then so does the second, if it is given enough
room to nest and collects nothing either. The texts of normal forms differ in the numbers of choices only. -/
def NormalizeAlike (ν : Numbering) (m m' : Machine) (i i' : NodeId) : Prop :=
  ∀ fuel v m₁, Machine.normalize fuel i { m with slice := .unbounded } = outcome v m₁ →
    v ≠ .error .outOfFuel → m₁.collections = m.collections →
    ∃ bound, ∀ fuel' ≥ bound, ∀ v' m₁',
      Machine.normalize fuel' i' { m' with slice := .unbounded } = outcome v' m₁' →
      m₁'.collections = m'.collections →
        v' = v ∧ (v = .ok () → ∃ text text', m₁.showTerm i = .ok text ∧ m₁'.showTerm i' = .ok text' ∧
          ν.Texts text text')

/-- Below the node there are no variables, and nothing is called that spins. The choices there have been
numbered by both machines, unless these number alike. -/
structure Normalizable (m m' : Machine) (i : NodeId) : Prop where
  tame : ∀ x c, Relation.ReflTransGen m.graph.Edge i x → m.graph.content? x = some c → c.Tame m.signature
  numbered : ∀ x c, Relation.ReflTransGen m.graph.Edge i x → m.graph.content? x = some c → c.tag = .choice →
    c.aux < m.nextId ∧ c.aux < m'.nextId ∨ m.nextId = m'.nextId
  outside : m.computations = [] ∧ m'.computations = []
  pools : m.graph.pools.size = m'.graph.pools.size

variable {m m' : Machine} {place : NodeId → NodeId} {ν : Numbering} {S : NodeId → Prop}
  {i i' j j' p x x' : NodeId} {c c' : Content}

/-! ## What corresponds -/

/-- Nodes of `S` and nodes of the other machine that lead to a node and to its place. -/
def Padding.Paired (m m' : Machine) (place : NodeId → NodeId) (S : NodeId → Prop) (x x' : NodeId) : Prop :=
  S x ∧ m'.Reachable x' ∧ ∃ p c, m.graph.Leads x p ∧ m.graph.content? p = some c ∧ c.tag ≠ .forward ∧
    m'.graph.Leads x' (place p)

/-- What is reached, and goes on to what it links to. -/
structure Region (m : Machine) (S : NodeId → Prop) : Prop where
  reachable : ∀ x, S x → m.Reachable x
  link : ∀ x c j, S x → m.graph.content? x = some c → j ∈ c.links → S j

theorem Region.leads (h : m.Region S) (hx : S x) (leads : m.graph.Leads x p) : S p := by
  induction leads with
  | refl => exact hx
  | step hc _ ih => exact ih (h.link _ _ _ hx hc List.mem_cons_self)

theorem Reachable.leads (h : m.Reachable x) (leads : m.graph.Leads x p) : m.Reachable p :=
  live_iff.mp ((live_iff.mpr h).leads leads)

theorem leads_self {g : Graph} (hc : g.content? x = some c) (tag : c.tag ≠ .forward) (leads : g.Leads x p) :
    x = p := by
  cases leads with
  | refl => rfl
  | step hs _ =>
    cases hc.symm.trans hs
    exact absurd rfl tag

namespace Padding

theorem fits (h : m.Padding m' place) (hx : m.Reachable x) :
    ∃ c, m.graph.content? x = some c ∧ c.Fits m.signature := by
  obtain ⟨ρ, inv⟩ := h.sound
  exact inv.fits x (live_iff.mpr hx)

theorem fits' (h : m.Padding m' place) (hx : m'.Reachable x') :
    ∃ c', m'.graph.content? x' = some c' ∧ c'.Fits m.signature := by
  obtain ⟨ρ, inv⟩ := h.sound'
  obtain ⟨c', hc', fits⟩ := inv.fits x' (live_iff.mpr hx)
  exact ⟨c', hc', h.signature ▸ fits⟩

/-- Where a copied indirection leads is copied as well. -/
theorem place_leads (h : m.Padding m' place) (leads : m.graph.Leads i p) : m.Reachable i →
    m'.Reachable (place i) → m'.graph.Leads (place i) (place p) := by
  induction leads with
  | refl => exact fun _ _ => .refl _
  | @step i j p symbol aux hc _ ih =>
    intro hi hi'
    obtain ⟨c', hc', mirrors⟩ := h.copied i _ hi hc
    obtain ⟨d', hd', fits⟩ := h.fits' hi'
    cases hc'.symm.trans hd'
    obtain ⟨aux', next, rfl⟩ := fits.of_forward mirrors.tag.symm
    have further : m'.graph.Leads next (place j) := by
      cases mirrors.links with
      | cons first => exact first
    have below : m'.graph.Leads (place i) (place j) := .step hc' further
    have hj : m.Reachable j := Graph.Reach.step hi ((Graph.edge_of_content hc).mpr List.mem_cons_self)
    exact below.trans (ih hj (hi'.leads below))

/-- A copied node and its copy, links included. -/
theorem twins (h : m.Padding m' place) (hi : m.Reachable i) (hi' : m'.Reachable (place i))
    (hc : m.graph.content? i = some c) (hc' : m'.graph.content? (place i) = some c')
    (region : m.Region S) (member : S i) : c.Mirrors .plain (Paired m m' place S) c' := by
  obtain ⟨d', hd', mirrors⟩ := h.copied i c hi hc
  cases hc'.symm.trans hd'
  refine { mirrors with links := ?_ }
  have each : ∀ j j', j ∈ c.links → j' ∈ c'.links → m'.graph.Leads j' (place j) →
      Paired m m' place S j j' := by
    intro j j' hj hj' leads
    have reached : m.Reachable j := Graph.Reach.step hi ((Graph.edge_of_content hc).mpr hj)
    have reached' : m'.Reachable j' := Graph.Reach.step hi' ((Graph.edge_of_content hc').mpr hj')
    obtain ⟨ρ, inv⟩ := h.sound
    obtain ⟨p, d, -, through, hd, tag⟩ := inv.read_skip (live_iff.mpr reached)
    exact ⟨region.link i c j member hc hj, reached', p, d, through, hd, tag,
      leads.trans (h.place_leads through reached (reached'.leads leads))⟩
  rw [List.forall₂_iff_get]
  refine ⟨mirrors.links.length_eq, fun n lt lt' => ?_⟩
  exact each _ _ (List.get_mem _ _) (List.get_mem _ _) (mirrors.links.get lt lt')

/-- A graph and its copy mirror each other, whatever numbers its choices have. -/
theorem mirrors (h : m.Padding m' place) (region : m.Region S)
    (numbers : ∀ x c, S x → m.graph.content? x = some c → c.tag = .choice → ν.Same c.aux c.aux) :
    TermGraph.Mirrors ν (Paired m m' place S) m.toTermGraph m'.toTermGraph := by
  have plain : ∀ {x x' c'}, Paired m m' place S x x' → m'.graph.content? x' = some c' → c'.tag ≠ .forward →
      ∃ p c, S p ∧ m.graph.Leads x p ∧ m.graph.content? p = some c ∧ c.tag ≠ .forward ∧ x' = place p := by
    rintro x x' c' ⟨member, -, p, c, leads, hc, tag, leads'⟩ hc' tag'
    exact ⟨p, c, region.leads member leads, leads, hc, tag, leads_self hc' tag' leads'⟩
  constructor
  case sound =>
    obtain ⟨ρ, inv⟩ := h.sound
    exact inv.signature
  case signature => exact h.signature
  case fits => exact fun x x' hx => h.fits (region.reachable x hx.1)
  case fits' => exact fun x x' hx => h.fits' hx.2.1
  case next =>
    rintro x x' c j ⟨member, reached', p, d, leads, hd, tag, leads'⟩ hc forward hj
    cases leads with
    | refl =>
      cases hc.symm.trans hd
      exact absurd forward tag
    | step hs through =>
      cases hc.symm.trans hs
      obtain rfl := List.mem_singleton.mp hj
      exact ⟨region.link x _ j member hc hj, reached', p, d, through, hd, tag, leads'⟩
  case next' =>
    rintro x x' c' j' ⟨member, reached', p, d, leads, hd, tag, leads'⟩ hc' forward hj
    cases leads' with
    | refl =>
      obtain ⟨d', hd', mirrors⟩ := h.copied p d (region.reachable p (region.leads member leads)) hd
      cases hc'.symm.trans hd'
      exact absurd (mirrors.tag.trans forward) tag
    | step hs through =>
      cases hc'.symm.trans hs
      obtain rfl := List.mem_singleton.mp hj
      exact ⟨member, Graph.Reach.step reached' ((Graph.edge_of_content hc').mpr hj), p, d, leads, hd, tag,
        through⟩
  case same =>
    intro x x' c c' hx hc hc' tag tag'
    obtain ⟨p, d, member, leads, hd, -, rfl⟩ := plain hx hc' tag'
    cases leads_self hc tag leads
    have twins := h.twins (region.reachable x member) hx.2.1 hc hc' region member
    refine { twins with number := fun choice => ?_ }
    rw [← (twins.number choice : c.aux = c'.aux)]
    exact numbers x c member hc choice
  case one =>
    rintro x y x' c d ⟨hx, -, p, -, through, -, -, leads⟩ ⟨hy, -, q, -, through', -, -, leads'⟩ hc hd tag tag'
    cases leads_self hc tag through
    cases leads_self hd tag' through'
    obtain ⟨c', hc', mirrors⟩ := h.copied x c (region.reachable x hx) hc
    obtain ⟨d', hd', mirrors'⟩ := h.copied y d (region.reachable y hy) hd
    exact h.apart x y (region.reachable x hx) (region.reachable y hy)
      (leads_unique leads leads' hc' (mirrors.tag ▸ tag) hd' (mirrors'.tag ▸ tag'))
  case one' =>
    intro x x' y' c' d' hx hy hc' hd' tag tag'
    obtain ⟨p, c, -, leads, hc, plain_, rfl⟩ := plain hx hc' tag
    obtain ⟨q, d, -, leads', hd, plain', rfl⟩ := plain hy hd' tag'
    rw [leads_unique leads leads' hc plain_ hd plain']

/-! ## What is read -/

theorem everything (m : Machine) : m.Region m.Reachable where
  reachable _ hx := hx
  link _ _ _ hx hc hj := Graph.Reach.step hx ((Graph.edge_of_content hc).mpr hj)

theorem paired (h : m.Padding m' place) (hi : S i) (copies : m.Copies m' place i i') :
    Paired m m' place S i i' := by
  obtain ⟨ρ, inv⟩ := h.sound
  obtain ⟨p, c, -, leads, hc, tag⟩ := inv.read_skip (live_iff.mpr copies.reachable)
  exact ⟨hi, copies.reachable', p, c, leads, hc, tag, copies.leads.trans
    (h.place_leads leads copies.reachable (copies.reachable'.leads copies.leads))⟩

theorem paired_skips (h : m.Padding m' place) (hx : Paired m m' place m.Reachable x x') :
    ∃ p, m.skip x = .ok p ∧ m'.skip x' = .ok (place p) := by
  obtain ⟨hx, hx', p, c, leads, hc, tag, leads'⟩ := hx
  obtain ⟨c', hc', mirrors⟩ := h.copied p c (hx.leads leads) hc
  obtain ⟨ρ, inv⟩ := h.sound
  obtain ⟨ρ', inv'⟩ := h.sound'
  exact ⟨p, inv.skip_eq (live_iff.mpr hx) leads hc tag,
    inv'.skip_eq (live_iff.mpr hx') leads' hc' (mirrors.tag ▸ tag)⟩

end Padding

theorem Inv.read_intValue {ρ : Rank} (inv : m.Inv [] ρ) (live : m.Live [] i) :
    ∃ v, m.intValue? i = .ok v := by
  obtain ⟨p, c, skip, -, hc, -⟩ := inv.read_skip live
  have literal : m.literal? p = .ok _ := TermGraph.literal_content hc
  unfold TermGraph.intValue?
  simp only [skip, literal, bind, Except.bind]
  split <;> exact ⟨_, rfl⟩

namespace Padding

theorem readAlike (h : m.Padding m' place) (hi : m.Copies m' place i i') (hj : m.Copies m' place j j') :
    m.ReadAlike m' place i i' j j' := by
  have mirrors := h.mirrors (ν := .plain) (everything m) fun _ _ _ _ _ => rfl
  have related := h.paired (S := m.Reachable) hi.reachable hi
  have related' := h.paired (S := m.Reachable) hj.reachable hj
  have live := live_iff.mpr hi.reachable
  have live' := live_iff.mpr hi.reachable'
  obtain ⟨ρ, inv⟩ := h.sound
  obtain ⟨ρ', inv'⟩ := h.sound'
  constructor
  case shown =>
    obtain ⟨text, run⟩ := inv.read_showTerm live
    obtain ⟨text', run'⟩ := inv'.read_showTerm live'
    cases (mirrors.showTerm_agrees related text text' run run').eq
    exact ⟨text, run, run'⟩
  case same =>
    obtain ⟨b, run⟩ := inv.read_equals live (live_iff.mpr hj.reachable)
    obtain ⟨b', run'⟩ := inv'.read_equals live' (live_iff.mpr hj.reachable')
    cases mirrors.equals_agrees related related' b b' run run'
    exact ⟨b, run, run'⟩
  case ordered =>
    obtain ⟨o, run⟩ := inv.read_order live (live_iff.mpr hj.reachable)
    obtain ⟨o', run'⟩ := inv'.read_order live' (live_iff.mpr hj.reachable')
    cases mirrors.order_agrees related related' o o' run run'
    exact ⟨o, run, run'⟩
  case value =>
    obtain ⟨v, run⟩ := inv.read_intValue live
    obtain ⟨v', run'⟩ := inv'.read_intValue live'
    cases mirrors.intValue_agrees related v v' run run'
    exact ⟨v, run, run'⟩
  case spine =>
    obtain ⟨found, run, -⟩ := inv.read_partialSpine live
    obtain ⟨found', run', -⟩ := inv'.read_partialSpine live'
    have agree := mirrors.partialSpine_agrees (T := fun _ => True) (fun _ _ _ _ _ _ _ => trivial) related
    refine ⟨found, found', run, run', ?_⟩
    cases agree found found' run run' with
    | none => exact .none
    | some same =>
      obtain ⟨target, -, args⟩ := same
      refine .some ⟨target, args.imp fun _ _ arg => ?_⟩
      cases arg with
      | some paired => exact .some (h.paired_skips paired)
      | none => exact .none

end Padding

/-! ## What nodes come to -/

/-- The machine as it starts to normalize a node. -/
def started (m : Machine) (i : NodeId) : Machine := Machine.push { m with slice := .unbounded } [some i]

theorem started_inv (sound : m.Sound) (hi : m.Reachable i) :
    ∃ ρ, (m.started i).Inv [] ρ ∧ (m.started i).Live [] i := by
  obtain ⟨ρ, inv⟩ := sound
  have live := live_iff.mpr hi
  exact ⟨ρ, (quiet_count (s := .below 0) (inv.pushed live) m.nextId .unbounded).inv, live_pushed live⟩

/-- A run of the reducer in a sound machine neither faults nor makes the machine unsound. -/
theorem started_run {F : Nat} {v : Except Stop Unit} {m₁ : Machine} (sound : m.Sound) (hi : m.Reachable i)
    (run : (reducer F).normal i (m.started i) = outcome v m₁) :
    (∀ x, v ≠ .error (.fault x)) ∧ (v = .ok () → ∃ ρ, m₁.Inv [] ρ ∧ m₁.Live [] i) := by
  obtain ⟨ρ, inv, live⟩ := started_inv sound hi
  have kept := (reducer_sound F).normal (m.started i) ρ i inv live
  constructor
  · rintro x rfl
    unfold Keeps Meets at kept
    rw [run] at kept
    exact kept
  · rintro rfl
    obtain ⟨ρ₁, ev, -⟩ := kept.ok run
    exact ⟨ρ₁, ev.inv, ev.live (inv.steady live le_rfl)⟩

theorem final_of_sound {F : Nat} {v : Except Stop Unit} {m₁ : Machine} (sound : m.Sound)
    (hi : m.Reachable i) (run : (reducer F).normal i (m.started i) = outcome v m₁)
    (ended : v ≠ .error .outOfFuel) : ∀ stop, v = .error stop → stop.Final := by
  rintro stop rfl
  cases stop with
  | fault x => exact absurd rfl ((started_run sound hi run).1 x)
  | outOfFuel => exact absurd rfl ended
  | _ => trivial

/-- Machines that reflect each other normalize alike. -/
theorem normalizeAlike_of_reflection (W : Reflection ν) (left : W.left = m.started i)
    (right : W.right = m'.started i') (sound : m.Sound) (sound' : m'.Sound) (hi : m.Reachable i)
    (hi' : m'.Reachable i') (related : W.rel i i') : NormalizeAlike ν m m' i i' := by
  intro F v m₁ run ended same
  obtain ⟨m₂, inner, rfl⟩ := withRoots_outcome run
  have ends : ((reducer F).normal i).Ends W.left v m₂ := by
    rw [left]
    exact ⟨inner, same, final_of_sound sound hi inner ended⟩
  have alive : W.Alive i i' := ⟨related, left ▸ started_inv sound hi, right ▸ started_inv sound' hi'⟩
  have echoes := (Reflection.reflects ν F).normal W i i' alive
  by_cases collects : Reflection.Collects (fun G => (reducer G).normal i') W.right
  · obtain ⟨N, collects⟩ := collects
    refine ⟨N, fun G enough v' m₁' run' same' => ?_⟩
    obtain ⟨m₂', inner', rfl⟩ := withRoots_outcome run'
    rw [right] at collects
    rcases collects G enough v' m₂' inner' with counted | ⟨x, faulted⟩
    · exact absurd same' (Nat.ne_of_gt counted)
    · exact absurd faulted ((started_run sound' hi' inner').1 x)
  cases v with
  | ok _ =>
    obtain ⟨N, b, W₁, grows, rfl, right', -⟩ := echoes.returns () m₂ ends collects
    refine ⟨N, fun G enough v' m₁' run' _ => ?_⟩
    obtain ⟨m₂', inner', rfl⟩ := withRoots_outcome run'
    have ran := (right' G enough).run
    rw [right] at ran
    have landed := ran.symm.trans inner'
    cases v' with
    | error stop => cases landed
    | ok _ =>
      cases landed
      refine ⟨rfl, fun _ => ?_⟩
      obtain ⟨ρ, inv, live⟩ := (started_run sound hi inner).2 rfl
      obtain ⟨ρ', inv', live'⟩ := (started_run sound' hi' inner').2 rfl
      obtain ⟨text, shown⟩ := inv.read_showTerm live
      obtain ⟨text', shown'⟩ := inv'.read_showTerm live'
      exact ⟨text, text', shown, shown',
        W₁.mirrors.showTerm_agrees (grows.rel i i' related) text text' shown shown'⟩
  | error stop =>
    obtain ⟨N, m₂', right'⟩ := echoes.stops stop m₂ ends collects
    refine ⟨N, fun G enough v' m₁' run' _ => ?_⟩
    obtain ⟨m₃', inner', rfl⟩ := withRoots_outcome run'
    have ran := (right' G enough).run
    rw [right] at ran
    have landed := ran.symm.trans inner'
    cases v' with
    | ok _ => cases landed
    | error stop' =>
      cases landed
      exact ⟨rfl, nofun⟩

theorem below_region (hi : m.Reachable i) : m.Region (Relation.ReflTransGen m.graph.Edge i) where
  reachable x hx := by
    induction hx with
    | refl => exact hi
    | tail _ edge ih => exact Graph.Reach.step ih edge
  link _ _ _ hx hc hj := hx.tail ((Graph.edge_of_content hc).mpr hj)

/-- What differs from something tame in its links only is tame. -/
theorem tame_of_mirrors {σ : Signature} {R : NodeId → NodeId → Prop} (tame : c.Tame σ)
    (mirrors : c.Mirrors ν R c') : c'.Tame σ where
  bound := mirrors.tag ▸ tame.bound
  numbered := mirrors.symbol ▸ tame.numbered
  call call := mirrors.symbol ▸ tame.call (mirrors.isCall.mp call)
  function f cargo := by
    have literal := mirrors.literal
    rw [cargo] at literal
    cases held : c.cargo with
    | links ls =>
      rw [held] at literal
      cases literal
    | literal value =>
      rw [held] at literal
      cases literal
      exact tame.function f held

namespace Padding

variable (h : m.Padding m' place) (hi : m.Copies m' place i i') (ready : m.Normalizable m' i)
include h

include hi ready in
/-- The copy is as tame as the graph. -/
theorem tame' (hx : Paired m m' place (Relation.ReflTransGen m.graph.Edge i) x x')
    (hc' : m'.graph.content? x' = some c') : c'.Tame m.signature := by
  obtain ⟨d', hd', fits⟩ := h.fits' hx.2.1
  cases hc'.symm.trans hd'
  obtain ⟨member, -, p, c, leads, hc, tag, leads'⟩ := hx
  have region := below_region hi.reachable
  cases leads' with
  | refl =>
    obtain ⟨d', hd', mirrors⟩ := h.copied p c (region.reachable p (region.leads member leads)) hc
    cases hc'.symm.trans hd'
    exact tame_of_mirrors (ready.tame p c (region.leads member leads) hc) mirrors
  | step hs _ =>
    cases hc'.symm.trans hs
    obtain ⟨aux, next, same⟩ := fits.of_forward rfl
    cases same
    exact ⟨nofun, (by decide : Builtin.forward ≠ Builtin.narrowed), nofun, nofun⟩

include hi in
theorem unfree (hx : Paired m m' place (Relation.ReflTransGen m.graph.Edge i) x x') :
    x ∉ m.graph.free ∧ x' ∉ m'.graph.free := by
  obtain ⟨ρ, inv⟩ := h.sound
  obtain ⟨ρ', inv'⟩ := h.sound'
  exact ⟨inv.unfree x (live_iff.mpr ((below_region hi.reachable).reachable x hx.1)),
    inv'.unfree x' (live_iff.mpr hx.2.1)⟩

theorem storage : m.graph.Sound ∧ m'.graph.Sound := by
  obtain ⟨ρ, inv⟩ := h.sound
  obtain ⟨ρ', inv'⟩ := h.sound'
  exact ⟨inv.storage, inv'.storage⟩

include hi ready

/-- The machine is reflected by the copy. -/
theorem normalizeAlike (numbers : ∀ a, a < m.nextId ∧ a < m'.nextId ∨ m.nextId = m'.nextId → ν.Same a a)
    (fresh : ∀ k, ν.Same (m.nextId + k) (m'.nextId + k)) : NormalizeAlike ν m m' i i' :=
  normalizeAlike_of_reflection
    { rel := Paired m m' place (Relation.ReflTransGen m.graph.Edge i)
      left := m.started i
      right := m'.started i'
      mirrors := h.mirrors (below_region hi.reachable) fun x c hx hc choice =>
        numbers _ (ready.numbered x c hx hc choice)
      unfree := fun _ _ hx => h.unfree hi hx
      tame := fun x _ c hx hc => ready.tame x c hx.1 hc
      sound := h.storage
      pools := ready.pools
      fresh := fresh
      unhindered := ⟨⟨ready.outside.1, rfl, rfl⟩, ⟨ready.outside.2, rfl, rfl⟩⟩ }
    rfl rfl h.sound h.sound' hi.reachable hi.reachable' (h.paired .refl hi)

/-- The copy is reflected by the machine. -/
theorem normalizeAlike' (numbers : ∀ a, a < m.nextId ∧ a < m'.nextId ∨ m.nextId = m'.nextId → ν.Same a a)
    (fresh : ∀ k, ν.Same (m'.nextId + k) (m.nextId + k)) : NormalizeAlike ν m' m i' i :=
  normalizeAlike_of_reflection
    { rel := fun x' x => Paired m m' place (Relation.ReflTransGen m.graph.Edge i) x x'
      left := m'.started i'
      right := m.started i
      mirrors := (h.mirrors (ν := ν.flip) (below_region hi.reachable) fun x c hx hc choice =>
        numbers _ (ready.numbered x c hx hc choice)).flip
      unfree := fun _ _ hx => (h.unfree hi hx).symm
      tame := fun _ _ _ hx hc' => h.signature.symm ▸ h.tame' hi ready hx hc'
      sound := h.storage.symm
      pools := ready.pools.symm
      fresh := fresh
      unhindered := ⟨⟨ready.outside.2, rfl, rfl⟩, ⟨ready.outside.1, rfl, rfl⟩⟩ }
    rfl rfl h.sound' h.sound hi.reachable' hi.reachable (h.paired .refl hi)

end Padding

/-- Indirections in front of nodes, and in front of the nodes that these link to, make no difference to what
is read there, nor to what the nodes come to outside of a search and without a collection. -/
theorem indirections_invisible (h : m.Padding m' place) (hi : m.Copies m' place i i')
    (hj : m.Copies m' place j j') : m.ReadAlike m' place i i' j j' ∧
      (m.Normalizable m' i → NormalizeAlike (.shifted m.nextId m'.nextId) m m' i i' ∧
        NormalizeAlike (.shifted m'.nextId m.nextId) m' m i' i) := by
  refine ⟨h.readAlike hi hj, fun ready => ⟨h.normalizeAlike hi ready ?_ ?_, h.normalizeAlike' hi ready ?_ ?_⟩⟩
  · exact fun a old => .inl ⟨rfl, old⟩
  · exact fun k => .inr ⟨k, rfl, rfl⟩
  · exact fun a old => .inl ⟨rfl, old.imp And.symm Eq.symm⟩
  · exact fun k => .inr ⟨k, rfl, rfl⟩

/-- `((1 ?0 2) ? 3) + 1`, where `?` is a call. -/
def sharedSum : List Operation :=
  let p := Prelude.standard
  [.int 1, .int 2, .choice 0 1, .int 3, .make p.choose [2, 3], .make p.add [4, 0]]

/-- The same with indirections in front of the sum, of the call, of the choice, and of one of the two links
to `1`. One more choice has been made. -/
def paddedSum : List Operation :=
  let p := Prelude.standard
  [.int 1, .forward 0, .int 2, .choice 1 2, .forward 3, .forward 4, .int 3, .make p.choose [5, 6], .forward 7,
    .make p.add [8, 0], .forward 9, .choice 0 2]

theorem signature_sharedSum : (Operation.script (.ofConfig (.fixedPool 16)) sharedSum).map (·.signature) =
    some Signature.standard := rfl

theorem signature_paddedSum : (Operation.script (.ofConfig (.fixedPool 16)) paddedSum).map (·.signature) =
    some Signature.standard := rfl

/-- Both sums become the same choice of two sums, but for the number that the call is given. -/
theorem indirections_invisible_sum : ∃ m m' place m₁ bound, Operation.Run (.ofConfig (.fixedPool 16)) m ∧
    Operation.Run (.ofConfig (.fixedPool 16)) m' ∧ m.Padding m' place ∧ m.Copies m' place 5 10 ∧
    m.Copies m' place 2 5 ∧ m.Normalizable m' 5 ∧ m.ReadAlike m' place 5 10 2 5 ∧
    Machine.normalize 50 5 { m with slice := .unbounded } = .ok () m₁ ∧
    (m₁.showTerm 5).toOption = some "(+ (1 ?0 2) 1) ?1 (+ 3 1)" ∧
    (∀ fuel ≥ bound, ∀ v m₁', Machine.normalize fuel 10 { m' with slice := .unbounded } = outcome v m₁' →
      m₁'.collections = m'.collections → v = .ok () ∧ ∃ text, m₁'.showTerm 10 = .ok text ∧
        (Numbering.shifted 1 2).Texts "(+ (1 ?0 2) 1) ?1 (+ 3 1)" text) ∧
    NormalizeAlike (.shifted 2 1) m' m 10 5 := by
  let p := Prelude.standard
  let table : List Content := [.int 1, .int 2, .alternative false 0 0 1, .int 3, .binary p.choose 0 2 3,
    .binary p.add 0 4 0]
  let forward (j : NodeId) : Content := ⟨.forward, Builtin.forward, 0, .links [j]⟩
  let table' : List Content := [.int 1, forward 0, .int 2, .alternative false 0 1 2, forward 3, forward 4, .int 3,
    .binary p.choose 0 5 6, forward 7, .binary p.add 0 8 0, forward 9, .alternative false 1 0 2]
  let start : Machine := .ofConfig (.fixedPool 16)
  let lands (m : Machine) : Bool :=
    (Eff.returned? (Machine.normalize 50 5 { m with slice := .unbounded })).any fun r =>
      r.2.collections = m.collections ∧ (r.2.showTerm 5).toOption = some "(+ (1 ?0 2) 1) ?1 (+ 3 1)"
  have result : (Operation.script start sharedSum).map (fun m => (m.tabled table, m.roots.contains (some 5),
      m.roots.contains (some 2), m.nextId, m.graph.pools.size, lands m)) =
      some (true, true, true, 1, start.graph.pools.size, true) := by decide +kernel
  have result' : (Operation.script start paddedSum).map (fun m => (m.tabled table',
      m.roots.contains (some 10), m.roots.contains (some 5), m.nextId, m.graph.pools.size)) =
      some (true, true, true, 2, start.graph.pools.size) := by decide +kernel
  have signed := signature_sharedSum
  have signed' := signature_paddedSum
  obtain ⟨m, ran, facts⟩ := Option.map_eq_some_iff.mp result
  obtain ⟨m', ran', facts'⟩ := Option.map_eq_some_iff.mp result'
  rw [ran] at signed
  rw [ran'] at signed'
  simp only [Prod.mk.injEq] at facts facts'
  obtain ⟨tabled, rooted, rooted₁, next, pools, landed⟩ := facts
  obtain ⟨tabled', rooted', rooted₁', next', pools'⟩ := facts'
  have new : Machine.new (.fixedPool 16) = .ok start := rfl
  have run : Operation.Run start m := Operation.Run.start.script ran
  have run' : Operation.Run start m' := Operation.Run.start.script ran'
  have holds : ∀ (k : Nat) (c : Content), table[k]? = some c → m.graph.content? k = some c := fun _ _ =>
    content_of_tabled tabled
  have holds' : ∀ (k : Nat) (c : Content), table'[k]? = some c → m'.graph.content? k = some c := fun _ _ =>
    content_of_tabled tabled'
  have further : ∀ (k j : Nat), table'[k]? = some (forward j) → m'.graph.Leads k j := fun k j hc =>
    .step (holds' k _ hc) (.refl j)
  let place (k : NodeId) : NodeId := [0, 2, 3, 6, 7, 9].getD k 0
  have padding : m.Padding m' place := by
    refine ⟨run.sound new, run'.sound new, (Option.some.inj signed').trans (Option.some.inj signed).symm,
      fun i j hi hj => ?_, fun i c hi hc => ?_⟩
    · have lt : i < 6 := within_of_tabled tabled hi
      have lt' : j < 6 := within_of_tabled tabled hj
      exact (by decide : ∀ i < 6, ∀ j < 6, place i = place j → i = j) i lt j lt'
    · have lt : i < 6 := within_of_tabled tabled hi
      have copied : ∀ c', table'[place i]? = some c' →
          c.Mirrors .plain (fun j j' => m'.graph.Leads j' (place j)) c' →
            ∃ c', m'.graph.content? (place i) = some c' ∧
              c.Mirrors .plain (fun j j' => m'.graph.Leads j' (place j)) c' := fun c' hc' mirrors =>
        ⟨c', holds' _ c' hc', mirrors⟩
      interval_cases i
      · cases hc.symm.trans (holds 0 _ rfl)
        exact copied _ rfl ⟨rfl, rfl, fun _ => rfl, fun _ => rfl, rfl, .nil⟩
      · cases hc.symm.trans (holds 1 _ rfl)
        exact copied _ rfl ⟨rfl, rfl, fun _ => rfl, fun _ => rfl, rfl, .nil⟩
      · cases hc.symm.trans (holds 2 _ rfl)
        exact copied _ rfl ⟨rfl, rfl, fun _ => rfl, fun _ => rfl, rfl,
          .cons (further 1 0 rfl) (.cons (.refl 2) .nil)⟩
      · cases hc.symm.trans (holds 3 _ rfl)
        exact copied _ rfl ⟨rfl, rfl, fun _ => rfl, fun _ => rfl, rfl, .nil⟩
      · cases hc.symm.trans (holds 4 _ rfl)
        exact copied _ rfl ⟨rfl, rfl, fun _ => rfl, fun _ => rfl, rfl,
          .cons ((further 5 4 rfl).trans (further 4 3 rfl)) (.cons (.refl 6) .nil)⟩
      · cases hc.symm.trans (holds 5 _ rfl)
        exact copied _ rfl ⟨rfl, rfl, fun _ => rfl, fun _ => rfl, rfl,
          .cons (further 8 7 rfl) (.cons (.refl 0) .nil)⟩
  have sums : m.Copies m' place 5 10 :=
    ⟨Operation.reachable_of_contains rooted, Operation.reachable_of_contains rooted', further 10 9 rfl⟩
  have choices : m.Copies m' place 2 5 := ⟨Operation.reachable_of_contains rooted₁,
    Operation.reachable_of_contains rooted₁', (further 5 4 rfl).trans (further 4 3 rfl)⟩
  have ready : m.Normalizable m' 5 := by
    obtain ⟨ρ, inv⟩ := run.sound new
    have below : ∀ x, Relation.ReflTransGen m.graph.Edge 5 x → x < 6 := fun x hx =>
      within_of_tabled tabled ((below_region sums.reachable).reachable x hx)
    have data : ∀ v, Content.Tame m.signature (.int v) := fun v =>
      ⟨nofun, (by decide : Builtin.int ≠ Builtin.narrowed), nofun, nofun⟩
    refine ⟨fun x c hx hc => ?_, fun x c hx hc choice => ?_, ⟨run.outside new, run'.outside new⟩,
      pools.trans pools'.symm⟩
    · have lt := below x hx
      interval_cases x
      · cases hc.symm.trans (holds 0 _ rfl)
        exact data 1
      · cases hc.symm.trans (holds 1 _ rfl)
        exact data 2
      · cases hc.symm.trans (holds 2 _ rfl)
        exact ⟨nofun, (by decide : Builtin.choice ≠ Builtin.narrowed), nofun, nofun⟩
      · cases hc.symm.trans (holds 3 _ rfl)
        exact data 3
      · cases hc.symm.trans (holds 4 _ rfl)
        exact ⟨nofun, (by decide : p.choose ≠ Builtin.narrowed),
          fun _ => inv.signature.tame (by decide) (by decide) (by decide), nofun⟩
      · cases hc.symm.trans (holds 5 _ rfl)
        exact ⟨nofun, (by decide : p.add ≠ Builtin.narrowed),
          fun _ => inv.signature.tame (by decide) (by decide) (by decide), nofun⟩
    · obtain ⟨c', mem, hc'⟩ := reachable_tabled tabled ((below_region sums.reachable).reachable x hx)
      cases hc.symm.trans hc'
      rw [next, next']
      exact .inl ((by decide : ∀ c ∈ table, c.tag = .choice → c.aux < 1 ∧ c.aux < 2) c mem choice)
  obtain ⟨read, normalized⟩ := indirections_invisible padding sums choices
  obtain ⟨alike, alike'⟩ := normalized ready
  rw [next, next'] at alike alike'
  obtain ⟨⟨_, m₁⟩, once, landed⟩ := (Option.any_eq_true _ _).mp landed
  obtain ⟨uncollected, shown⟩ := of_decide_eq_true landed
  have once := Eff.of_returned once
  obtain ⟨bound, agrees⟩ := alike 50 (.ok ()) m₁ once (by simp) uncollected
  refine ⟨m, m', place, m₁, bound, run, run', padding, sums, choices, ready, read, once, shown,
    fun fuel enough v m₁' ran same => ?_, alike'⟩
  obtain ⟨ok, texts⟩ := agrees fuel enough v m₁' ran same
  obtain ⟨text, text', printed, printed', related⟩ := texts rfl
  rw [printed] at shown
  cases shown
  exact ⟨ok, text', printed', related⟩

end Machine

end ChoiceGraph
