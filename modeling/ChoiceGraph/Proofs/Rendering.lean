import ChoiceGraph.Proofs.Meanings
import ChoiceGraph.Proofs.Settling

/-! # Reductions keep meanings

Graphs without variables and functions mean the same after a reduction as before, for every way to take
sides, as far as they mean anything in both readings. A reduction never adds a meaning to the lazy reading,
and never takes one from the others. It may take one from the lazy reading: a constructor one of whose
arguments fails is made a failure, although it has a head. Calls of the choice function become choices
under new identifiers, which a log tells. -/
namespace ChoiceGraph

/-- The functions of the prelude that take no functions and do not loop. -/
def HeadStep.Simple : HeadStep → Prop
  | arithmetic _ | equals | compare | choose | fail | unify | conjunction | guard | ensureNotFree => True
  | _ => False

namespace Content

/-- The node is no variable and no function, and holds no literal but an integer. -/
def Simple (c : Content) : Prop :=
  match c.tag with
  | .failure | .forward => True
  | .choice => c.symbol = Builtin.choice
  | .constructor _ => ∀ v ∈ c.cargo.literal?, ∃ a, v = .int a
  | .operation => ∃ h, HeadStep.ofSymbol? c.symbol = some h ∧ h.Simple
  | _ => False

/-- It does not matter what a call or a constructor links to. -/
theorem Simple.setLink {c : Content} {k : Nat} {x : NodeId} (here : c.Simple)
    (kind : c.tag = .operation ∨ ∃ index, c.tag = .constructor index) : (c.setLink k x).Simple := by
  unfold Simple at here ⊢
  rcases kind with tag | ⟨index, tag⟩
  · simpa only [Content.setLink, tag] using here
  · simp only [Content.setLink, tag]
    exact fun v none => absurd none (Option.not_mem_none v)

end Content

namespace Graph

variable {g g' : Graph} {i j root : NodeId} {c c' : Content}

/-- All that hangs from the node is simple. -/
def SimpleFrom (g : Graph) (i : NodeId) : Prop :=
  ∃ S : NodeId → Prop, S i ∧ ∀ p, S p → ∃ c, g.content? p = some c ∧ c.Simple ∧ ∀ q ∈ c.links, S q

theorem SimpleFrom.content (h : g.SimpleFrom i) (hc : g.content? i = some c) :
    c.Simple ∧ ∀ q ∈ c.links, g.SimpleFrom q := by
  obtain ⟨S, hi, closed⟩ := h
  obtain ⟨d, hd, plain, links⟩ := closed i hi
  cases hc.symm.trans hd
  exact ⟨plain, fun q hq => ⟨S, links q hq, closed⟩⟩

theorem SimpleFrom.leads (h : g.SimpleFrom i) (leads : g.Leads i j) : g.SimpleFrom j := by
  induction leads with
  | refl => exact h
  | step hc _ ih => exact ih ((h.content hc).2 _ List.mem_cons_self)

theorem SimpleFrom.congr {S : NodeId → Prop} (h : g.SimpleFrom i) (hi : S i)
    (closed : ∀ p c, S p → g.content? p = some c → ∀ q ∈ c.links, S q)
    (same : ∀ p, S p → g'.content? p = g.content? p) : g'.SimpleFrom i := by
  obtain ⟨T, hi', kept⟩ := h
  refine ⟨fun p => S p ∧ T p, ⟨hi, hi'⟩, fun p hp => ?_⟩
  obtain ⟨c, hc, here, links⟩ := kept p hp.2
  exact ⟨c, (same p hp.1).trans hc, here, fun q hq => ⟨closed p c hp.1 hc q hq, links q hq⟩⟩

/-- A node is written, and so are others that were not there before. -/
theorem SimpleFrom.edited {S new : NodeId → Prop} (h : g.SimpleFrom i) (hi : S i)
    (closed : ∀ p c, S p → g.content? p = some c → ∀ q ∈ c.links, S q)
    (others : ∀ p, S p → p ≠ root → g'.content? p = g.content? p)
    (written : ∀ p, (p = root ∧ g.SimpleFrom root) ∨ new p → ∃ d, g'.content? p = some d ∧ d.Simple ∧
      ∀ q ∈ d.links, (S q ∧ g.SimpleFrom q) ∨ new q) : g'.SimpleFrom i := by
  refine ⟨fun p => (S p ∧ g.SimpleFrom p) ∨ new p, .inl ⟨hi, h⟩, ?_⟩
  rintro p (⟨hp, plain⟩ | hp)
  · by_cases at_root : p = root
    · exact written p (.inl ⟨at_root, at_root ▸ plain⟩)
    · obtain ⟨T, ht, kept⟩ := plain
      obtain ⟨c, hc, here, links⟩ := kept p ht
      exact ⟨c, (others p hp at_root).trans hc, here,
        fun q hq => .inl ⟨closed p c hp hc q hq, T, links q hq, kept⟩⟩
  · exact written p (.inr hp)

end Graph

/-- The calls of the choice function that have become choices, each with its identifier. -/
abbrev CallLog := List (NodeId × ChoiceId)

/-- A choice goes to the side that is taken of the call that it comes from. -/
def Sides.Heeds (κ : Sides) (log : CallLog) : Prop := ∀ p ∈ log, κ.choice p.2 = κ.call p.1

namespace Sides

variable {κ : Sides} {log log' : CallLog}

@[simp] theorem heeds_nil : κ.Heeds [] := fun _ hp => absurd hp List.not_mem_nil

@[simp] theorem heeds_append : κ.Heeds (log ++ log') ↔ κ.Heeds log ∧ κ.Heeds log' :=
  List.forall_mem_append

end Sides

namespace Machine

variable {m m' m'' : Machine} {ρ ρ' : Rank} {s s' : Scope} {log log' : CallLog} {i root : NodeId}
  {c d : Content} {g' : Graph}

/-- Each call of the log was there, and has been given an identifier of its own; the calls that are left
were there too. -/
structure Spends (m : Machine) (log : CallLog) (m' : Machine) : Prop where
  nextId : m.nextId ≤ m'.nextId
  ids : (log.map Prod.snd).Nodup
  issued : ∀ p ∈ log, m.nextId ≤ p.2 ∧ p.2 < m'.nextId
  nodes : (log.map Prod.fst).Nodup
  calls : ∀ p ∈ log, ∃ c, m.graph.content? p.1 = some c ∧ c.Chooses
  left : ∀ i c, m'.graph.content? i = some c → c.Chooses →
    m.graph.content? i = some c ∧ i ∉ log.map Prod.fst

/-- No call was reduced, and none has come up. -/
theorem spends_nil (nextId : m.nextId ≤ m'.nextId)
    (left : ∀ i c, m'.graph.content? i = some c → c.Chooses → m.graph.content? i = some c) :
    m.Spends [] m' where
  nextId := nextId
  ids := .nil
  issued _ hp := absurd hp List.not_mem_nil
  nodes := .nil
  calls _ hp := absurd hp List.not_mem_nil
  left i c hc chooses := ⟨left i c hc chooses, List.not_mem_nil⟩

theorem Spends.trans (h : m.Spends log m') (h' : m'.Spends log' m'') : m.Spends (log ++ log') m'' where
  nextId := h.nextId.trans h'.nextId
  ids := by
    rw [List.map_append]
    refine h.ids.append h'.ids fun id hid hid' => ?_
    obtain ⟨p, hp, rfl⟩ := List.mem_map.mp hid
    obtain ⟨q, hq, same⟩ := List.mem_map.mp hid'
    exact absurd (same ▸ (h.issued p hp).2) (Nat.not_lt.mpr (h'.issued q hq).1)
  issued p hp := by
    rcases List.mem_append.mp hp with hp | hp
    · exact ⟨(h.issued p hp).1, (h.issued p hp).2.trans_le h'.nextId⟩
    · exact ⟨h.nextId.trans (h'.issued p hp).1, (h'.issued p hp).2⟩
  nodes := by
    rw [List.map_append]
    refine h.nodes.append h'.nodes fun i hi hi' => ?_
    obtain ⟨p, hp, rfl⟩ := List.mem_map.mp hi'
    obtain ⟨c, hc, chooses⟩ := h'.calls p hp
    exact (h.left _ c hc chooses).2 hi
  calls p hp := by
    rcases List.mem_append.mp hp with hp | hp
    · exact h.calls p hp
    · obtain ⟨c, hc, chooses⟩ := h'.calls p hp
      exact ⟨c, (h.left _ c hc chooses).1, chooses⟩
  left i c hc chooses := by
    obtain ⟨hc, out'⟩ := h'.left i c hc chooses
    obtain ⟨hc, out⟩ := h.left i c hc chooses
    refine ⟨hc, ?_⟩
    rw [List.map_append, List.mem_append]
    exact not_or.mpr ⟨out, out'⟩

/-- What the machine has become means no more than before, read lazily, and no less, read otherwise. -/
structure Rendered (m : Machine) (s : Scope) (ρ : Rank) (log : CallLog) (m' : Machine) : Prop where
  spends : m.Spends log m'
  views : m'.views = m.views
  simple : ∀ i, m.Steady s ρ i → m.graph.SimpleFrom i → m'.graph.SimpleFrom i
  reflects : ∀ κ : Sides, κ.Heeds log → ∀ i w, m.Steady s ρ i →
    m'.graph.Means κ .lazy i w → m.graph.Means κ .lazy i w
  upholds : ∀ κ : Sides, κ.Heeds log → ∀ e i w, e ≠ .lazy → m.Steady s ρ i →
    m.graph.Means κ e i w → m'.graph.Means κ e i w

/-- It means no less in the lazy reading either, and constructors have kept their heads. -/
structure Clean (m : Machine) (s : Scope) (ρ : Rank) (log : CallLog) (m' : Machine) : Prop where
  upholds : ∀ κ : Sides, κ.Heeds log → ∀ i w, m.Steady s ρ i →
    m.graph.Means κ .lazy i w → m'.graph.Means κ .lazy i w
  data : ∀ i c index, m.Steady s ρ i → m.graph.content? i = some c → c.tag = .constructor index →
    ∃ c', m'.graph.content? i = some c' ∧ c'.head = c.head

/-- Only the count of identifiers, or of steps, has gone on. -/
theorem rendered_of_graph (graph : m'.graph = m.graph) (views : m'.views = m.views)
    (nextId : m.nextId ≤ m'.nextId) : m.Rendered s ρ [] m' where
  spends := spends_nil nextId fun _ _ hc _ => graph ▸ hc
  views := views
  simple _ _ simple := graph ▸ simple
  reflects _ _ _ _ _ means := graph ▸ means
  upholds _ _ _ _ _ _ _ means := graph ▸ means

theorem clean_of_graph (graph : m'.graph = m.graph) : m.Clean s ρ [] m' where
  upholds _ _ _ _ _ means := graph ▸ means
  data _ c _ _ hc _ := ⟨c, graph ▸ hc, rfl⟩

theorem Rendered.refl (m : Machine) : m.Rendered s ρ [] m := rendered_of_graph rfl rfl le_rfl

theorem Clean.refl (m : Machine) : m.Clean s ρ [] m := clean_of_graph rfl

theorem Rendered.within (h : m.Rendered s ρ log m') (hs : s.Within s') : m.Rendered s' ρ log m' where
  spends := h.spends
  views := h.views
  simple i hi := h.simple i (hi.within hs)
  reflects κ heeds i w hi := h.reflects κ heeds i w (hi.within hs)
  upholds κ heeds e i w strict hi := h.upholds κ heeds e i w strict (hi.within hs)

theorem Clean.within (h : m.Clean s ρ log m') (hs : s.Within s') : m.Clean s' ρ log m' where
  upholds κ heeds i w hi := h.upholds κ heeds i w (hi.within hs)
  data i c index hi := h.data i c index (hi.within hs)

theorem Rendered.trans (h : m.Rendered s ρ log m') (ev : m.Evolves s ρ m' [] ρ')
    (h' : m'.Rendered s ρ' log' m'') : m.Rendered s ρ (log ++ log') m'' where
  spends := h.spends.trans h'.spends
  views := h'.views.trans h.views
  simple i hi simple := h'.simple i (ev.steady hi) (h.simple i hi simple)
  reflects κ heeds i w hi means := by
    obtain ⟨early, late⟩ := Sides.heeds_append.mp heeds
    exact h.reflects κ early i w hi (h'.reflects κ late i w (ev.steady hi) means)
  upholds κ heeds e i w strict hi means := by
    obtain ⟨early, late⟩ := Sides.heeds_append.mp heeds
    exact h'.upholds κ late e i w strict (ev.steady hi) (h.upholds κ early e i w strict hi means)

theorem Clean.trans (h : m.Clean s ρ log m') (ev : m.Evolves s ρ m' [] ρ')
    (h' : m'.Clean s ρ' log' m'') : m.Clean s ρ (log ++ log') m'' where
  upholds κ heeds i w hi means := by
    obtain ⟨early, late⟩ := Sides.heeds_append.mp heeds
    exact h'.upholds κ late i w (ev.steady hi) (h.upholds κ early i w hi means)
  data i c index hi hc tag := by
    obtain ⟨c', hc', head⟩ := h.data i c index hi hc tag
    have tag' : c'.tag = .constructor index := (congrArg Head.tag head).trans tag
    obtain ⟨c'', hc'', head'⟩ := h'.data i c' index (ev.steady hi) hc' tag'
    exact ⟨c'', hc'', head'.trans head⟩

/-! ## One node is rewritten -/

/-- Node `root` holds `d` where it held `c`; whatever else was live is as it was. -/
structure Rewritten (m : Machine) (log : CallLog) (root : NodeId) (c d : Content) (m' : Machine) : Prop where
  spends : m.Spends log m'
  views : m'.views = m.views
  before : m.graph.content? root = some c
  after : m'.graph.content? root = some d
  others : ∀ i, m.Live [] i → i ≠ root → m'.graph.content? i = m.graph.content? i

namespace Rewritten

variable (h : m.Rewritten log root c d m')

include h

/-- There may be new nodes below the one that is rewritten. -/
theorem rendered (new : NodeId → Prop)
    (written : ∀ p, p = root ∨ new p → ∃ d, m'.graph.content? p = some d ∧ d.Simple ∧
      ∀ q ∈ d.links, (m.Live [] q ∧ m.graph.SimpleFrom q) ∨ new q)
    (back : ∀ κ : Sides, κ.Heeds log → ∀ n,
      (∀ j w, m.Live [] j → m'.graph.MeansWithin κ .lazy n j w → m.graph.Means κ .lazy j w) →
      ∀ w, d.Reports κ .lazy (m'.graph.MeansWithin κ .lazy n) root w →
        c.Reports κ .lazy (m.graph.Means κ .lazy) root w)
    (kept : ∀ κ : Sides, κ.Heeds log → ∀ e, e ≠ .lazy → ∀ w,
      c.Reports κ e (m'.graph.Means κ e) root w → d.Reports κ e (m'.graph.Means κ e) root w) :
    m.Rendered s ρ log m' where
  spends := h.spends
  views := h.views
  simple _ hi here := here.edited hi.live (fun _ _ hp hc _ hq => hp.link hc hq) h.others fun p hp =>
    written p (hp.imp_left And.left)
  reflects κ heeds _ _ hi means := means.reflected (S := m.Live [])
    (fun _ _ hp hc _ hq => hp.link hc hq) h.others h.before h.after hi.live (back κ heeds)
  upholds κ heeds e _ _ strict hi means := means.upheld (S := m.Live [])
    (fun _ _ hp hc _ hq => hp.link hc hq) h.others h.before h.after hi.live (kept κ heeds e strict)

theorem clean (kept : ∀ κ : Sides, κ.Heeds log → ∀ w,
      c.Reports κ .lazy (m'.graph.Means κ .lazy) root w → d.Reports κ .lazy (m'.graph.Means κ .lazy) root w)
    (head : ∀ index, c.tag = .constructor index → d.head = c.head) : m.Clean s ρ log m' where
  upholds κ heeds _ _ hi means := means.upheld (S := m.Live [])
    (fun _ _ hp hc _ hq => hp.link hc hq) h.others h.before h.after hi.live (kept κ heeds)
  data i e index hi he tag := by
    by_cases at_root : i = root
    · subst at_root
      cases h.before.symm.trans he
      exact ⟨d, h.after, head index tag⟩
    · exact ⟨e, (h.others i hi.live at_root).trans he, rfl⟩

/-- What lies below the node means the same. -/
theorem means_below {κ : Sides} {e : Reading} {j : NodeId} {w : Report} (inv : m.Inv [] ρ)
    (live : m.Live [] j) (below : ρ j < ρ root) : m'.graph.Means κ e j w ↔ m.graph.Means κ e j w := by
  have same : ∀ p, (m.Live [] p ∧ ρ p < ρ root) → m'.graph.content? p = m.graph.content? p :=
    fun p hp => h.others p hp.1 fun same => lt_irrefl _ (same ▸ hp.2)
  have closed : ∀ p c, (m.Live [] p ∧ ρ p < ρ root) → m.graph.content? p = some c → ∀ q ∈ c.links,
      m.Live [] q ∧ ρ q < ρ root :=
    fun p c hp hc q hq => ⟨hp.1.link hc hq, (inv.ranked p q c hp.1 hc hq).trans hp.2⟩
  exact ⟨fun means => means.congr ⟨live, below⟩ (fun p c hp hc => closed p c hp ((same p hp).symm.trans hc))
    fun p hp => (same p hp).symm, fun means => means.congr ⟨live, below⟩ closed same⟩

/-- Without new nodes, the two contents are compared on the nodes below. -/
theorem rendered_direct (inv : m.Inv [] ρ) (live : m.Live [] root)
    (here : d.Simple) (links : ∀ q ∈ d.links, (m.Live [] q ∧ ρ q < ρ root) ∧ m.graph.SimpleFrom q)
    (back : ∀ κ : Sides, κ.Heeds log → ∀ w, d.Reports κ .lazy (m.graph.Means κ .lazy) root w →
      c.Reports κ .lazy (m.graph.Means κ .lazy) root w)
    (kept : ∀ κ : Sides, κ.Heeds log → ∀ e, e ≠ .lazy → ∀ w,
      c.Reports κ e (m.graph.Means κ e) root w → d.Reports κ e (m.graph.Means κ e) root w) :
    m.Rendered s ρ log m' := by
  refine h.rendered (fun _ => False) ?_ ?_ ?_
  · rintro p (rfl | never)
    · exact ⟨d, h.after, here, fun q hq => .inl ⟨(links q hq).1.1, (links q hq).2⟩⟩
    · exact never.elim
  · exact fun κ heeds n below w reports => back κ heeds w
      (reports.mono fun q hq w means => below q w (links q hq).1.1 means)
  · intro κ heeds e strict w reports
    refine (kept κ heeds e strict w (reports.mono fun q hq w means => ?_)).mono fun q hq w means => ?_
    · exact (h.means_below inv (live.link h.before hq) (inv.ranked root q c live h.before hq)).mp means
    · exact (h.means_below inv (links q hq).1.1 (links q hq).1.2).mpr means

theorem clean_direct (inv : m.Inv [] ρ) (live : m.Live [] root)
    (links : ∀ q ∈ d.links, m.Live [] q ∧ ρ q < ρ root)
    (kept : ∀ κ : Sides, κ.Heeds log → ∀ w, c.Reports κ .lazy (m.graph.Means κ .lazy) root w →
      d.Reports κ .lazy (m.graph.Means κ .lazy) root w)
    (head : ∀ index, c.tag = .constructor index → d.head = c.head) : m.Clean s ρ log m' := by
  refine h.clean (fun κ heeds w reports => ?_) head
  refine (kept κ heeds w (reports.mono fun q hq w means => ?_)).mono fun q hq w means => ?_
  · exact (h.means_below inv (live.link h.before hq) (inv.ranked root q c live h.before hq)).mp means
  · exact (h.means_below inv (links q hq).1 (links q hq).2).mpr means

end Rewritten

theorem rewritten_of_sets (hc : m.graph.content? root = some c) (sets : m.graph.Sets root d g')
    (chooses : ¬ d.Chooses) : m.Rewritten [] root c d (m.setGraph g') where
  spends := by
    refine spends_nil le_rfl fun i e he call => ?_
    by_cases at_root : i = root
    · subst at_root
      cases sets.same.symm.trans he
      exact absurd call chooses
    · exact (sets.others i at_root).symm.trans he
  views := rfl
  before := hc
  after := sets.same
  others i _ ne := sets.others i ne

end Machine

namespace Eff

open Machine

variable {α β : Type} {e : Eff α} {f : α → Eff β} {m : Machine} {s s' : Scope} {ρ : Rank} {a : α}
  {P P' : α → Machine → CallLog → Prop} {Q : β → Machine → CallLog → Prop} {log : CallLog}

/-- However it ends, the effect keeps meanings, and it does not wait for a variable. If it returns, the
condition holds. -/
def Renders (s : Scope) (e : Eff α) (m : Machine) (ρ : Rank) (P : α → Machine → CallLog → Prop) : Prop :=
  match e m with
  | .ok a m' => ∃ log, m.Rendered s ρ log m' ∧ P a m' log
  | .error stop m' => (∀ x, stop ≠ .suspended x) ∧ ∃ log, m.Rendered s ρ log m'

theorem Renders.ok {m' : Machine} (h : e.Renders s m ρ P) (run : e m = .ok a m') :
    ∃ log, m.Rendered s ρ log m' ∧ P a m' log := by
  unfold Renders at h
  rwa [run] at h

theorem Renders.error {stop : Stop} {m' : Machine} (h : e.Renders s m ρ P)
    (run : e m = .error stop m') : (∀ x, stop ≠ .suspended x) ∧ ∃ log, m.Rendered s ρ log m' := by
  unfold Renders at h
  rwa [run] at h

theorem Renders.mono (h : e.Renders s m ρ P)
    (le : ∀ a m' log, e m = .ok a m' → m.Rendered s ρ log m' → P a m' log → P' a m' log) :
    e.Renders s m ρ P' := by
  unfold Renders
  cases run : e m with
  | ok a m' =>
    obtain ⟨log, rendered, p⟩ := h.ok run
    exact ⟨log, rendered, le a m' log run rendered p⟩
  | error stop m' => exact h.error run

theorem Renders.within (h : e.Renders s m ρ P) (hs : s.Within s') :
    e.Renders s' m ρ fun a m' log => m.Rendered s ρ log m' ∧ P a m' log := by
  unfold Renders
  cases run : e m with
  | ok a m' =>
    obtain ⟨log, rendered, p⟩ := h.ok run
    exact ⟨log, rendered.within hs, rendered, p⟩
  | error stop m' =>
    obtain ⟨stops, log, rendered⟩ := h.error run
    exact ⟨stops, log, rendered.within hs⟩

/-- What a first effect has done, another one goes on from. -/
theorem Renders.after {m' : Machine} {ρ' : Rank} (run : e m = .ok a m') (rendered : m.Rendered s ρ log m')
    (ev : m.Evolves s ρ m' [] ρ')
    (h : (f a).Renders s m' ρ' fun b m'' log' => Q b m'' (log ++ log')) : (e >>= f).Renders s m ρ Q := by
  unfold Renders
  rw [bind_ok run]
  cases run' : f a m' with
  | ok b m'' =>
    obtain ⟨log', rendered', q⟩ := h.ok run'
    exact ⟨log ++ log', rendered.trans ev rendered', q⟩
  | error stop m'' =>
    obtain ⟨stops, log', rendered'⟩ := h.error run'
    exact ⟨stops, log ++ log', rendered.trans ev rendered'⟩

/-- What is known of the machine on the way, if the effect also keeps it. -/
theorem Renders.bind {K : α → Machine → Rank → Prop} (h : e.Renders s m ρ P) (keeps : e.Keeps s m ρ K)
    (hf : ∀ a m' ρ' log, e m = .ok a m' → m.Evolves s ρ m' [] ρ' → K a m' ρ' → m.Rendered s ρ log m' →
      P a m' log → (f a).Renders s m' ρ' fun b m'' log' => Q b m'' (log ++ log')) :
    (e >>= f).Renders s m ρ Q := by
  cases run : e m with
  | ok a m' =>
    obtain ⟨log, rendered, p⟩ := h.ok run
    obtain ⟨ρ', ev, k⟩ := keeps.ok run
    exact .after run rendered ev (hf a m' ρ' log run ev k rendered p)
  | error stop m' =>
    unfold Renders
    rw [bind_error run]
    exact h.error run

/-- The effect is followed by nothing but a value. -/
theorem Renders.returns {f : α → β} (h : e.Renders s m ρ P)
    (q : ∀ a m' log, P a m' log → Q (f a) m' log) : (e >>= fun a => pure (f a)).Renders s m ρ Q := by
  unfold Renders
  cases run : e m with
  | ok a m' =>
    rw [bind_ok run]
    obtain ⟨log, rendered, p⟩ := h.ok run
    exact ⟨log, rendered, q a m' log p⟩
  | error stop m' =>
    rw [bind_error run]
    exact h.error run

theorem renders_pure (h : P a m []) : (pure a : Eff α).Renders s m ρ P := ⟨[], .refl m, h⟩

theorem renders_throw {stop : Stop} (stops : ∀ x, stop ≠ .suspended x) :
    (throw stop : Eff α).Renders s m ρ P := ⟨stops, [], .refl m⟩

theorem renders_read {r : Machine → Except Fault α} (run : r m = .ok a) (h : (f a).Renders s m ρ Q) :
    (look r >>= f).Renders s m ρ Q := by
  unfold Renders
  rw [bind_ok (look_ok run)]
  exact h

/-- One node is written, or there is no space for that. -/
theorem Writes.renders {e : Eff Unit} {P : Unit → Machine → CallLog → Prop} {root : NodeId} {c d : Content}
    (h : e.Writes root d m) (hc : m.graph.content? root = some c) (chooses : ¬ d.Chooses)
    (go_on : ∀ m', m.Rewritten [] root c d m' → m.Rendered s ρ [] m' ∧ P () m' []) : e.Renders s m ρ P := by
  unfold Renders
  rcases h with ⟨g, run, sets⟩ | ⟨err, run⟩
  · rw [run]
    exact ⟨[], go_on _ (rewritten_of_sets hc sets chooses)⟩
  · rw [run]
    exact ⟨nofun, [], .refl m⟩

theorem renders_congr {e' : Eff α} (same : e m = e' m) (h : e'.Renders s m ρ P) : e.Renders s m ρ P := by
  unfold Renders at *
  rwa [same]

end Eff

end ChoiceGraph
