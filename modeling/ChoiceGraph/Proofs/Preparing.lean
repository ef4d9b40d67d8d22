import ChoiceGraph.Proofs.Edits
import ChoiceGraph.Proofs.PullingTabs
import ChoiceGraph.Proofs.Rendering
import ChoiceGraph.Proofs.Unification

/-! # New nodes below a rewritten one

A choice is pulled above a node, and the arguments of two equal constructors are unified, by nodes that
are asked for and written before the node itself is. Until then nothing that is live has changed, so the
effect may also stop there. -/
namespace ChoiceGraph

theorem Content.blank_not_chooses : ¬ Content.blank.Chooses := fun h => nomatch h.1

namespace Machine

variable {m m' : Machine} {ρ : Rank} {s : Scope} {root a : NodeId} {c d : Content} {g : Graph}

/-- Nothing that is live has changed, and no call of the choice function has come up. -/
structure Poised (m m' : Machine) : Prop where
  views : m'.views = m.views
  nextId : m.nextId ≤ m'.nextId
  kept : ∀ i, m.Live [] i → m'.graph.content? i = m.graph.content? i
  calls : ∀ i c, m'.graph.content? i = some c → c.Chooses → m.graph.content? i = some c

namespace Poised

theorem refl (m : Machine) : m.Poised m := ⟨rfl, le_rfl, fun _ _ => rfl, fun _ _ hc _ => hc⟩

/-- A node that is not live is written. -/
theorem sets (h : m.Poised m') (sets : m'.graph.Sets a d g) (dead : ¬ m.Live [] a) (chooses : ¬ d.Chooses) :
    m.Poised (m'.setGraph g) where
  views := h.views
  nextId := h.nextId
  kept i hi := (sets.others i fun same => dead (same ▸ hi)).trans (h.kept i hi)
  calls i e he call := by
    by_cases here : i = a
    · subst here
      cases sets.same.symm.trans he
      exact absurd call chooses
    · exact h.calls i e ((sets.others i here).symm.trans he) call

theorem rendered (h : m.Poised m') : m.Rendered s ρ [] m' where
  spends := spends_nil h.nextId h.calls
  views := h.views
  simple _ hi simple := simple.congr (S := m.Live []) hi.live (fun _ _ hp hc _ hq => hp.link hc hq) h.kept
  reflects _ _ _ _ hi means := means.congr (S := m.Live []) hi.live
    (fun p _ hp hc _ hq => hp.link ((h.kept p hp).symm.trans hc) hq) fun p hp => (h.kept p hp).symm
  upholds _ _ _ _ _ _ hi means := means.congr (S := m.Live []) hi.live
    (fun _ _ hp hc _ hq => hp.link hc hq) h.kept

theorem rewritten (h : m.Poised m') (hc : m.graph.content? root = some c)
    (sets : m'.graph.Sets root d g) (chooses : ¬ d.Chooses) : m.Rewritten [] root c d (m'.setGraph g) where
  spends := spends_nil h.nextId fun i e he call => by
    by_cases here : i = root
    · subst here
      cases sets.same.symm.trans he
      exact absurd call chooses
    · exact h.calls i e ((sets.others i here).symm.trans he) call
  views := h.views
  before := hc
  after := sets.same
  others i hi ne := (sets.others i ne).trans (h.kept i hi)

end Poised

end Machine

namespace Eff

open Machine

variable {α β : Type} {e : Eff α} {f : α → Eff β} {m m₀ : Machine} {ρ : Rank} {root : NodeId} {n : Nat}
  {a : α} {P : α → Machine → Prop} {Q : β → Machine → Prop}

/-- The effect returns, or there is no space for it; then nothing that was live at the start has changed. -/
def Prepares (e : Eff α) (m₀ m : Machine) (P : α → Machine → Prop) : Prop :=
  match e m with
  | .ok a m' => P a m'
  | .error (.fatal _) m' => m₀.Poised m'
  | .error _ _ => False

theorem Prepares.bind (h : e.Prepares m₀ m P) (hf : ∀ a m', P a m' → (f a).Prepares m₀ m' Q) :
    (e >>= f).Prepares m₀ m Q := by
  unfold Prepares at h
  cases run : e m with
  | ok a m' =>
    rw [run] at h
    unfold Prepares
    rw [bind_ok run]
    exact hf a m' h
  | error stop m' =>
    rw [run] at h
    unfold Prepares
    rw [bind_error run]
    cases stop <;> exact h

theorem prepares_read {r : Machine → Except Fault α} (run : r m = .ok a) (h : (f a).Prepares m₀ m Q) :
    (look r >>= f).Prepares m₀ m Q := by
  unfold Prepares
  rw [bind_ok (look_ok run)]
  exact h

theorem Writes.prepares {e : Eff Unit} {i : NodeId} {c : Content} {P : Unit → Machine → Prop}
    (h : e.Writes i c m) (poised : m₀.Poised m)
    (hP : ∀ g, m.graph.Sets i c g → P () (m.setGraph g)) : e.Prepares m₀ m P := by
  unfold Prepares
  rcases h with ⟨g, run, sets⟩ | ⟨err, run⟩
  · rw [run]
    exact hP g sets
  · rw [run]
    exact poised

/-- An effect that either has done its work or has left things as they were. -/
theorem Prepares.renders {s : Scope} {P' : α → Machine → CallLog → Prop} (h : e.Prepares m m P)
    (rendered : ∀ a m', P a m' → ∃ log, m.Rendered s ρ log m' ∧ P' a m' log) : e.Renders s m ρ P' := by
  unfold Prepares at h
  unfold Renders
  cases run : e m with
  | ok a m' =>
    rw [run] at h
    exact rendered a m' h
  | error stop m' =>
    rw [run] at h
    cases stop with
    | fatal err => exact ⟨nofun, [], Poised.rendered h⟩
    | _ => exact h.elim

theorem allocate_fatal (h : m.Inv [] ρ) {stop : Stop} {m' : Machine} (run : allocate n m = .error stop m') :
    ∃ err, stop = .fatal err := by
  have closed : m.graph.Closed m.rootSet := by simpa using h.closed
  obtain ⟨g, collects, -⟩ := Graph.collect_exact h.storage.tenancy closed
  rw [allocate_eq (n := n) collects] at run
  split at run
  · cases run
  split at run
  · cases run
  split at run
  · cases run
    exact ⟨_, rfl⟩
  split at run
  · cases run
  · cases run
    exact ⟨_, rfl⟩

/-- A request serves nodes that are not live, beside the node that is being worked on. -/
theorem allocateBeside_prepares (h : m.Inv [] ρ) (live : m.Live [] root) (n : Nat) :
    (Reduction.allocateBeside root n).Prepares m m fun ids m' =>
      m.Poised m' ∧ m.Quiet m' ∧ ids.length = n ∧ m'.Blank [] ids := by
  have rooted := live.rooted
  have meets := allocate_rooted_meets h rooted n
  have blanks := allocate_blanks (h.push rooted) n
  have poised : ∀ m' : Machine, m.Quiet (m'.pop 1) → m'.views = (m.push [some root]).views →
      (m.push [some root]).graph.Blanks m'.graph → m.Poised (m'.pop 1) := by
    refine fun m' quiet views blanks => ⟨views, quiet.nextId.ge, quiet.kept, fun i c hc call => ?_⟩
    rcases blanks i c hc with same | rfl
    · exact same
    · exact absurd call Content.blank_not_chooses
  unfold Meets at meets
  unfold Prepares Reduction.allocateBeside
  unfold withRoots at *
  rw [show { m with roots := [some root].reverse ++ m.roots } = m.push [some root] from rfl] at *
  cases run : allocate n (m.push [some root]) with
  | ok ids m' =>
    rw [run] at meets blanks
    exact ⟨poised m' meets.1 blanks.1 blanks.2, meets⟩
  | error stop m' =>
    obtain ⟨err, rfl⟩ := allocate_fatal (h.push rooted) run
    rw [run] at meets blanks
    exact poised m' meets blanks.1 blanks.2

end Eff

namespace Content

variable {c : Content} {k : Nat} {t x : NodeId}

theorem setLink_head (stored : c.cargo = .links c.links) : (c.setLink k x).head = c.head := by
  unfold head
  rw [stored]
  rfl

/-- The links of two contents that differ at one link. -/
theorem links_setLink {P : NodeId → NodeId → Prop} (hk : c.links[k]? = some t) (here : P t x)
    (others : ∀ l ∈ c.links, P l l) : List.Forall₂ P c.links (c.setLink k x).links := by
  refine List.forall₂_iff_get.mpr ⟨by rw [setLink_links, List.length_set], fun n lt lt' => ?_⟩
  have there : (c.setLink k x).links[n]? = some (c.setLink k x).links[n] := List.getElem?_eq_getElem lt'
  by_cases same : n = k
  · subst same
    obtain ⟨_, same⟩ := List.getElem?_eq_some_iff.mp hk
    show P c.links[n] (c.setLink n x).links[n]
    rw [same, ← Option.some.inj ((setLink_self hk).symm.trans there)]
    exact here
  · have kept := (setLink_other same).symm.trans there
    rw [List.getElem?_eq_getElem lt] at kept
    show P c.links[n] (c.setLink k x).links[n]
    rw [← Option.some.inj kept]
    exact others _ (List.getElem_mem lt)

/-- With a link that has no settled value, nothing is settled. -/
theorem Reports.unsettled {κ : Sides} {e : Reading} {R : NodeId → Report → Prop} {i : NodeId} {w : Report}
    (reports : c.Reports κ e R i w) (kind : c.tag = .operation ∨ ∃ index, c.tag = .constructor index)
    (ht : t ∈ c.links) (link : ∀ w, R t w → e ≠ .settled) : e ≠ .settled := by
  rcases kind with tag | ⟨index, tag⟩
  · unfold Reports at reports
    rw [tag] at reports
    exact reports.1
  · rcases (reports_data tag).mp reports with ⟨rfl, -⟩ | ⟨ss, each, -⟩
    · nofun
    · obtain ⟨n, lt, rfl⟩ := List.getElem_of_mem ht
      exact link _ (each.get lt (each.length_eq ▸ lt))

end Content

namespace Reduction

open Eff Machine Content

variable {m : Machine} {ρ : Rank} {s : Scope} {root p left right : NodeId} {c : Content} {k : Nat}
  {symbol : SymbolId} {id : ChoiceId}

/-! ## Pulling a choice above a node -/

theorem pullTab_prepares (w : m.Site s ρ root c) (chooses : ¬ c.Chooses)
    (below : m.ChoiceBelow root c k p symbol id left right) :
    (pullTab root k).Prepares m m fun _ m' => ∃ a b,
      m.Rewritten [] root c ⟨.choice, symbol, id, .links [a, b]⟩ m' ∧
      m'.graph.content? a = some (c.setLink k left) ∧ m'.graph.content? b = some (c.setLink k right) := by
  obtain ⟨j, hk, leads⟩ := below.link
  have h := w.inv
  have hj : j ∈ c.links := List.mem_of_getElem? hk
  refine (allocateBeside_prepares h w.live 2).bind ?_
  rintro ids m₁ ⟨poised, quiet, length, blank⟩
  rcases ids with _ | ⟨a, _ | ⟨b, _ | ⟨_, _⟩⟩⟩ <;> cases length
  have h₁ := quiet.inv h
  have live₁ := (quiet.live h).mpr w.live
  have hc₁ := (quiet.kept root w.live).trans w.content
  have livep := (h.below w.live w.content hj leads).1
  have below₁ : m₁.ChoiceBelow root c k p symbol id left right :=
    ⟨⟨j, hk, quiet.leads (w.live.link w.content hj) leads⟩,
      (quiet.kept p livep).trans below.content, below.symbol⟩
  have livep₁ := (quiet.live h).mpr livep
  have apart : a ≠ b := by simpa using blank.nodup
  have dead : ∀ i ∈ [a, b], ¬ m.Live [] i := fun i hi live => blank.dead i hi ((quiet.live h).mpr live)
  have deada := dead a List.mem_cons_self
  have deadb := dead b (List.mem_cons_of_mem _ List.mem_cons_self)
  obtain ⟨_, nodep, -⟩ := TermGraph.node_content (t := m₁.toTermGraph) below₁.content
  obtain ⟨_, node, -⟩ := TermGraph.node_content (t := m₁.toTermGraph) hc₁
  have set : ∀ l : NodeId, (c.links.map some).set k (some l) = (c.links.set k l).map some :=
    fun l => by rw [List.map_set]
  refine prepares_read (choiceBelow_skip h₁ live₁ hc₁ below₁) (prepares_read nodep (prepares_read
    (h₁.read_successor (k := 0) livep₁ below₁.content rfl) (prepares_read
    (h₁.read_successor (k := 1) livep₁ below₁.content rfl) (prepares_read node
    (prepares_read (h₁.read_successors live₁ hc₁) ?_)))))
  simp only [set]
  -- the two copies
  refine ((rewrite_writes h₁.storage (blank.lt a List.mem_cons_self) c.tag c.symbol c.aux
    (c.links.set k left)).prepares (P := fun _ m' => ∃ g, m₁.graph.Sets a (c.setLink k left) g ∧
      m' = m₁.setGraph g) poised fun g sets => ⟨g, sets, rfl⟩).bind ?_
  rintro _ _ ⟨g₂, s₂, rfl⟩
  have poised₂ := poised.sets s₂ deada chooses
  have lt₂ : b < g₂.capacity := s₂.capacity.symm ▸ blank.lt b (List.mem_cons_of_mem _ List.mem_cons_self)
  refine ((rewrite_writes (m := m₁.setGraph g₂) s₂.sound lt₂ c.tag c.symbol c.aux
    (c.links.set k right)).prepares (P := fun _ m' => ∃ g, g₂.Sets b (c.setLink k right) g ∧
      m' = m₁.setGraph g) poised₂ fun g sets => ⟨g, sets, rfl⟩).bind ?_
  rintro _ _ ⟨g₃, s₃, rfl⟩
  have poised₃ : m.Poised (m₁.setGraph g₃) := poised₂.sets s₃ deadb chooses
  -- the node itself
  have lt₃ : root < g₃.capacity := (s₃.capacity.trans s₂.capacity).symm ▸ Graph.content_lt hc₁
  refine (rewrite_writes (m := m₁.setGraph g₃) s₃.sound lt₃ .choice symbol id [a, b]).prepares poised₃
    fun g₄ s₄ => ⟨a, b, poised₃.rewritten w.content s₄ (fun h => nomatch h.1), ?_, ?_⟩
  · have outside : a ≠ root := fun same => deada (same ▸ w.live)
    exact ((s₄.others a outside).trans (s₃.others a apart)).trans s₂.same
  · have outside : b ≠ root := fun same => deadb (same ▸ w.live)
    exact (s₄.others b outside).trans s₃.same

/-- Each copy means what the node means if the choice is taken to its side. -/
theorem pullTab_renders (w : m.Site s ρ root c) (simple : m.graph.SimpleFrom root) (chooses : ¬ c.Chooses)
    (kind : c.tag = .operation ∨ ∃ index, c.tag = .constructor index)
    (below : m.ChoiceBelow root c k p symbol id left right) :
    (pullTab root k).Renders s m ρ fun _ m' _ =>
      ∃ d, m'.graph.content? root = some d ∧ d.tag = .choice := by
  refine (pullTab_prepares w chooses below).renders fun _ m' => ?_
  rintro ⟨a, b, rewritten, ha, hb⟩
  refine ⟨[], ?_, _, rewritten.after, rfl⟩
  obtain ⟨t, hk, leads⟩ := below.link
  have lt := (List.getElem?_eq_some_iff.mp hk).1
  have ht : t ∈ c.links := List.mem_of_getElem? hk
  have stored := (w.fits.linked w.inv.signature lt).stored
  have belowp := w.below hk leads
  have belowt := w.link hk
  obtain ⟨here, links⟩ := simple.content w.content
  have simplep := (links t ht).leads leads
  obtain ⟨choice, ends⟩ := simplep.content below.content
  have ends_below : ∀ q ∈ [left, right], m.Live [] q ∧ ρ q < ρ root := fun q hq =>
    ⟨belowp.1.link below.content hq, (w.inv.ranked p q _ belowp.1 below.content hq).trans belowp.2⟩
  have pick : ∀ (side : Side) (l r : NodeId), side.pick l r ∈ [l, r] := by
    rintro (_ | _) l r
    · exact List.mem_cons_self
    · exact List.mem_cons_of_mem _ List.mem_cons_self
  have copy : ∀ side : Side, m'.graph.content? (side.pick a b) = some (c.setLink k (side.pick left right)) := by
    rintro (_ | _)
    · exact ha
    · exact hb
  have means : ∀ (κ : Sides) e w, m.graph.Means κ e t w ↔
      e ≠ .settled ∧ m.graph.Means κ e ((κ.choice id).pick left right) w := fun κ e w =>
    leads.means.trans ((Graph.means_content below.content).trans reports_choice)
  refine rewritten.rendered (fun i => i = a ∨ i = b) ?_ ?_ ?_
  · -- the copies link to what the node linked to, and to the alternatives
    have copied : ∀ x ∈ [left, right], (c.setLink k x).Simple ∧ ∀ q ∈ (c.setLink k x).links,
        (m.Live [] q ∧ m.graph.SimpleFrom q) ∨ q = a ∨ q = b := by
      refine fun x hx => ⟨here.setLink kind, fun q hq => .inl ?_⟩
      rcases mem_setLink hq with hq | rfl
      · exact ⟨w.live.link w.content hq, links q hq⟩
      · exact ⟨(ends_below q hx).1, ends q hx⟩
    rintro i (rfl | rfl | rfl)
    · refine ⟨_, rewritten.after, choice, fun q hq => .inr ?_⟩
      exact (List.mem_cons.mp hq).imp_right List.mem_singleton.mp
    · exact ⟨_, ha, copied left List.mem_cons_self⟩
    · exact ⟨_, hb, copied right (List.mem_cons_of_mem _ List.mem_cons_self)⟩
  · intro κ heeds n within w' reports
    obtain ⟨-, taken⟩ := reports_choice.mp reports
    cases n with
    | zero => exact taken.elim
    | succ n =>
      obtain ⟨d, hd, reports⟩ := taken
      cases (copy _).symm.trans hd
      refine reports.replace (setLink_head stored).symm (links_setLink hk ?_ ?_).flip (.inr chooses)
      · exact fun w' means' => (means κ .lazy w').mpr ⟨nofun,
          within _ w' (ends_below _ (pick _ _ _)).1 means'.succ⟩
      · exact fun l hl w' means' => within l w' (w.live.link w.content hl) means'.succ
  · intro κ heeds e strict w' reports
    have below_iff : ∀ {q : NodeId} {w : Report}, m.Live [] q ∧ ρ q < ρ root →
        (m'.graph.Means κ e q w ↔ m.graph.Means κ e q w) := fun hq => rewritten.means_below w.inv hq.1 hq.2
    have open_ := reports.unsettled kind ht fun w' means' =>
      ((means κ e w').mp ((below_iff belowt).mp means')).1
    refine reports_choice.mpr ⟨open_, (Graph.means_content (copy _)).mpr ?_⟩
    refine reports.replace (setLink_head stored) (links_setLink hk ?_ fun _ _ _ means' => means') (.inr chooses)
    exact fun w' means' => (below_iff (ends_below _ (pick _ _ _))).mpr
      ((means κ e w').mp ((below_iff belowt).mp means')).2

/-! ## Unifying arguments -/

/-- Since `m₁`, only nodes of the list were written. -/
structure Drawn (m m₁ : Machine) (ns : List NodeId) (m' : Machine) : Prop where
  poised : m.Poised m'
  sound : m'.graph.Sound
  signature : m'.signature = m₁.signature
  capacity : m'.graph.capacity = m₁.graph.capacity
  others : ∀ i, i ∉ ns → m'.graph.content? i = m₁.graph.content? i

variable {m₁ m' : Machine} {ns : List NodeId} {i x y : NodeId} {pairs : List (NodeId × NodeId)} {f : SymbolId}
  {h : HeadStep}

theorem Drawn.refl (poised : m.Poised m') (sound : m'.graph.Sound) (ns : List NodeId) : Drawn m m' ns m' :=
  ⟨poised, sound, rfl, rfl, fun _ _ => rfl⟩

theorem Drawn.mono {ns' : List NodeId} (d : Drawn m m₁ ns m') (sub : ns ⊆ ns') : Drawn m m₁ ns' m' :=
  ⟨d.poised, d.sound, d.signature, d.capacity, fun i hi => d.others i fun mem => hi (sub mem)⟩

/-- A call that is no choice is put into one of the nodes. -/
theorem Drawn.write (d : Drawn m m₁ ns m') (binary : Prelude.Binary f h) (call : HeadStep.ofSymbol? f ≠ some .choose)
    (hσ : m₁.signature.Sound) (mem : i ∈ ns) (lt : i < m₁.graph.capacity) (dead : ¬ m.Live [] i) :
    ∃ g, rewriteTo i f [some x, some y] m' = .ok () (m'.setGraph g) ∧
      m'.graph.Sets i (.binary f 0 x y) g ∧ Drawn m m₁ ns (m'.setGraph g) := by
  have hσ' : m'.signature.Sound := d.signature.symm ▸ hσ
  obtain ⟨g, run, sets⟩ := rewriteTo_sets [x, y] d.sound (d.capacity.symm ▸ lt) (binary.tagFor hσ') (Nat.le_refl 2)
  refine ⟨g, run, sets, d.poised.sets sets dead fun chooses => call chooses.2, sets.sound, d.signature,
    sets.capacity.trans d.capacity, fun j hj => ?_⟩
  exact (sets.others j fun same => hj (same ▸ mem)).trans (d.others j hj)

theorem unifyPairs_draws : ∀ (ns : List NodeId) (pairs : List (NodeId × NodeId)) (m₁ : Machine),
    ns.length = pairs.length → ns.Nodup → (∀ i ∈ ns, i < m₁.graph.capacity ∧ ¬ m.Live [] i) →
    m.Poised m₁ → m₁.graph.Sound → m₁.signature.Sound →
    (unifyPairs ns (pairs.map fun p => (some p.1, some p.2))).Returns m₁ fun _ m' =>
      Drawn m m₁ ns m' ∧ Unify m'.graph ns pairs := by
  intro ns
  induction ns with
  | nil =>
    intro pairs m₁ length _ _ poised sound _
    obtain rfl := List.length_eq_zero_iff.mp length.symm
    exact ⟨(), m₁, rfl, .refl poised sound [], .nil⟩
  | cons i ns ih =>
    intro pairs m₁ length nodup room poised sound hσ
    cases pairs with
    | nil => cases length
    | cons p pairs =>
      obtain ⟨fresh, nodup⟩ := List.nodup_cons.mp nodup
      obtain ⟨lt, dead⟩ := room i List.mem_cons_self
      obtain ⟨g, run, sets, drawn⟩ := (Drawn.refl poised sound (i :: ns)).write (x := p.1) (y := p.2)
        Prelude.unify_binary nofun hσ List.mem_cons_self lt dead
      obtain ⟨_, m', rest, drawn', built⟩ := ih pairs (m₁.setGraph g) (Nat.succ.inj length) nodup
        (fun j hj => ⟨sets.capacity.symm ▸ (room j (List.mem_cons_of_mem _ hj)).1,
          (room j (List.mem_cons_of_mem _ hj)).2⟩) drawn.poised sets.sound hσ
      refine ⟨(), m', (bind_ok run).trans rest, ⟨drawn'.poised, drawn'.sound, drawn'.signature,
        drawn'.capacity.trans sets.capacity, fun j hj => ?_⟩, .cons ((drawn'.others i fresh).trans sets.same) built⟩
      exact (drawn'.others j (List.not_mem_of_not_mem_cons hj)).trans
        (sets.others j (List.ne_of_not_mem_cons hj))

theorem conjoin_draws : ∀ (ns : List NodeId) (pairs : List (NodeId × NodeId)) (cs : List NodeId) (m₁ : Machine),
    Unify m₁.graph ns pairs → ns.length = cs.length + 1 → (ns ++ cs).Nodup →
    (∀ i ∈ cs, i < m₁.graph.capacity ∧ ¬ m.Live [] i) → m.Poised m₁ → m₁.graph.Sound → m₁.signature.Sound →
    (conjoin ns cs).Returns m₁ fun top m' => Drawn m m₁ cs m' ∧
      ∃ used, Joined m'.graph pairs used top ∧ ∀ i ∈ used, i ∈ ns ++ cs := by
  intro ns
  induction ns with
  | nil => exact fun _ _ _ _ length => absurd length (Nat.succ_ne_zero _).symm
  | cons u ns ih =>
    intro pairs cs m₁ built length nodup room poised sound hσ
    cases built with
    | @cons _ p _ pairs hu built =>
    cases ns with
    | nil =>
      cases built
      cases cs with
      | cons => cases length
      | nil => exact ⟨u, m₁, rfl, .refl poised sound [], [u], .last hu, fun i hi => by simpa using hi⟩
    | cons u' ns =>
      cases cs with
      | nil => cases length
      | cons j cs =>
        obtain ⟨unlike, nodup⟩ := List.nodup_cons.mp nodup
        obtain ⟨unlike', nodup⟩ := List.nodup_middle.mp nodup |> List.nodup_cons.mp
        have mem : ∀ {i}, i ∈ u' :: ns ++ cs → i ∈ u' :: ns ++ j :: cs := fun hi =>
          (List.mem_append.mp hi).elim (List.mem_append_left _)
            fun hi => List.mem_append_right _ (List.mem_cons_of_mem _ hi)
        have inside : j ∈ u' :: ns ++ j :: cs := List.mem_append_right _ List.mem_cons_self
        have apart : j ≠ u := fun same => unlike (same ▸ inside)
        obtain ⟨top, m₂, run, drawn, used, joined, within⟩ := ih pairs cs m₁ built (Nat.succ.inj length) nodup
          (fun i hi => room i (List.mem_cons_of_mem _ hi)) poised sound hσ
        obtain ⟨lt, dead⟩ := room j List.mem_cons_self
        obtain ⟨g, written, sets, drawn'⟩ := (drawn.mono (List.subset_cons_self j cs)).write (x := u) (y := top)
          Prelude.conjunction_binary nofun hσ List.mem_cons_self lt dead
        have outside : u ∉ cs := fun hu => unlike (mem (List.mem_append_right _ hu))
        refine ⟨j, _, (bind_ok run).trans (bind_ok written), drawn', u :: j :: used,
          .cons ?_ sets.same ?_ ?_ ?_ apart, ?_⟩
        · exact ((sets.others u apart.symm).trans (drawn.others u outside)).trans hu
        · exact joined.congr fun i hi => sets.others i fun same => unlike' (same ▸ within i hi)
        · exact fun hi => unlike (mem (within u hi))
        · exact fun hi => unlike' (within j hi)
        · intro i hi
          rcases List.mem_cons.mp hi with rfl | hi
          · exact List.mem_cons_self
          · rcases List.mem_cons.mp hi with rfl | hi
            · exact List.mem_cons_of_mem _ inside
            · exact List.mem_cons_of_mem _ (mem (within i hi))

/-- The node leads to a conjunction of unifications, all of it in new nodes. -/
theorem unifySuccessors_prepares (w : m.Site s ρ root c) (some_ : pairs ≠ []) :
    (unifySuccessors root (pairs.map fun p => (some p.1, some p.2))).Prepares m m fun _ m' => ∃ used top,
      Joined m'.graph pairs used top ∧
      m.Rewritten [] root c ⟨.forward, Builtin.forward, 0, .links [top]⟩ m' := by
  have positive : 0 < pairs.length := List.length_pos_iff.mpr some_
  have inv := w.inv
  unfold unifySuccessors
  simp only [List.length_map]
  refine (allocateBeside_prepares inv w.live _).bind ?_
  rintro fresh m₁ ⟨poised, quiet, size, blank⟩
  have dead : ∀ i ∈ fresh, i < m₁.graph.capacity ∧ ¬ m.Live [] i := fun i hi =>
    ⟨blank.lt i hi, fun live => blank.dead i hi ((quiet.live inv).mpr live)⟩
  have hσ₁ : m₁.signature.Sound := quiet.signature.symm ▸ inv.signature
  have parts : fresh.take pairs.length ++ fresh.drop pairs.length = fresh := List.take_append_drop _ _
  have width : (fresh.take pairs.length).length = pairs.length := by
    rw [List.length_take, size, Nat.min_eq_left (by omega)]
  obtain ⟨_, m₂, paired, drawn₂, built⟩ := unifyPairs_draws (fresh.take pairs.length) pairs m₁ width
    (blank.nodup.sublist (List.take_sublist _ _)) (fun i hi => dead i (List.mem_of_mem_take hi)) poised
    quiet.storage hσ₁
  obtain ⟨top, m₃, joins, drawn₃, used, joined, within⟩ := conjoin_draws (fresh.take pairs.length) pairs
    (fresh.drop pairs.length) m₂ built (by rw [width, List.length_drop, size]; omega)
    (parts.symm ▸ blank.nodup)
    (fun i hi => ⟨drawn₂.capacity.symm ▸ (dead i (List.mem_of_mem_drop hi)).1, (dead i (List.mem_of_mem_drop hi)).2⟩)
    drawn₂.poised drawn₂.sound (drawn₂.signature.symm ▸ hσ₁)
  have capacity : m₃.graph.capacity = m₁.graph.capacity := drawn₃.capacity.trans drawn₂.capacity
  have lt : root < m₃.graph.capacity :=
    capacity.symm ▸ Graph.content_lt ((quiet.kept root w.live).trans w.content)
  obtain ⟨g, forwarded, sets⟩ := rewriteForward_sets drawn₃.sound lt top
  have outside : ∀ i ∈ used, i ≠ root := fun i hi same => (dead i (parts ▸ within i hi)).2 (same ▸ w.live)
  unfold Prepares
  rw [bind_ok paired, bind_ok joins, forwarded]
  exact ⟨used, top, joined.congr fun i hi => sets.others i (outside i hi),
    drawn₃.poised.rewritten w.content sets fun h => nomatch h.1⟩

/-- Two nodes have values that match. -/
def Unifiable (R : NodeId → Report → Prop) (p : NodeId × NodeId) : Prop :=
  ∃ s t, R p.1 (.value s) ∧ R p.2 (.value t) ∧ s.Matches t

section Unified

variable {κ : Sides} {e : Reading} {R R' : NodeId → Report → Prop} {v : Report} {n : Nat} {g : Graph}
  {used : List NodeId} {top t u : NodeId} {cx cy : Content} {p : NodeId × NodeId}

theorem Unifiable.mono (agree : Unifiable R p) (le₁ : ∀ w, R p.1 w → R' p.1 w) (le₂ : ∀ w, R p.2 w → R' p.2 w) :
    Unifiable R' p := by
  obtain ⟨s, t, hs, ht, same⟩ := agree
  exact ⟨s, t, le₁ _ hs, le₂ _ ht, same⟩

theorem reports_unify (tag : c.tag = .operation) (head : HeadStep.ofSymbol? c.symbol = some .unify)
    (links : c.links = [t, u]) : c.Reports κ e R i v ↔ e ≠ .settled ∧ v.Tells .success ∧ Unifiable R (t, u) := by
  rw [reports_call tag head, links]
  refine and_congr_right fun _ => ⟨fun reports => ?_, ?_⟩
  · cases reports with
    | computed links left right computes tells =>
      cases links
      cases computes with
      | unified same => exact ⟨tells, _, _, left, right, same⟩
  · rintro ⟨tells, s, t, left, right, same⟩
    exact .computed rfl left right (.unified same) tells

theorem reports_conjunction {aux : Nat} : (Content.binary Prelude.standard.conjunction aux t u).Reports κ e R i v ↔
    e ≠ .settled ∧ v.Tells .success ∧ R t .head ∧ R u .head := by
  rw [reports_call rfl (h := .conjunction) rfl]
  refine and_congr_right fun _ => ⟨fun reports => ?_, ?_⟩
  · cases reports with
    | conjunction links left right tells =>
      cases links
      exact ⟨tells, left, right⟩
    | computed _ _ _ computes => cases computes
  · exact fun ⟨tells, left, right⟩ => .conjunction rfl left right tells

/-- The conjunction says that all pairs agree. -/
theorem Joined.within (joined : Joined g pairs used top) (means : g.MeansWithin κ e n top v) :
    v.Tells .success ∧ ∀ p ∈ pairs, Unifiable (g.MeansWithin κ e n) p := by
  have unified : ∀ {n : Nat} {u a b : NodeId} {v : Report},
      g.content? u = some (.binary Prelude.standard.unify 0 a b) → g.MeansWithin κ e n u v →
      v.Tells .success ∧ Unifiable (g.MeansWithin κ e n) (a, b) := by
    rintro (_ | n) u a b v hu means
    · exact means.elim
    obtain ⟨d, hd, reports⟩ := means
    cases hu.symm.trans hd
    obtain ⟨-, tells, agree⟩ := (reports_unify rfl rfl rfl).mp reports
    exact ⟨tells, agree.mono (fun _ => Graph.MeansWithin.succ) fun _ => Graph.MeansWithin.succ⟩
  induction joined generalizing n v with
  | last hu =>
    obtain ⟨tells, agree⟩ := unified hu means
    exact ⟨tells, fun p hp => List.mem_singleton.mp hp ▸ agree⟩
  | cons hu hj _ _ _ _ ih =>
    cases n with
    | zero => exact means.elim
    | succ n =>
      obtain ⟨d, hd, reports⟩ := means
      cases hj.symm.trans hd
      obtain ⟨-, tells, first, rest⟩ := reports_conjunction.mp reports
      refine ⟨tells, fun p hp => ?_⟩
      rcases List.mem_cons.mp hp with rfl | hp
      · exact (unified hu first).2.mono (fun _ => Graph.MeansWithin.succ) fun _ => Graph.MeansWithin.succ
      · exact ((ih rest).2 p hp).mono (fun _ => Graph.MeansWithin.succ) fun _ => Graph.MeansWithin.succ

theorem Joined.means (joined : Joined g pairs used top) (open_ : e ≠ .settled) (tells : v.Tells .success)
    (agree : ∀ p ∈ pairs, Unifiable (g.Means κ e) p) : g.Means κ e top v := by
  induction joined generalizing v with
  | last hu =>
    exact (Graph.means_content hu).mpr
      ((reports_unify rfl rfl rfl).mpr ⟨open_, tells, agree _ List.mem_cons_self⟩)
  | cons hu hj _ _ _ _ ih =>
    refine (Graph.means_content hj).mpr (reports_conjunction.mpr ⟨open_, tells, ?_, ?_⟩)
    · exact (Graph.means_content hu).mpr
        ((reports_unify rfl rfl rfl).mpr ⟨open_, trivial, agree _ List.mem_cons_self⟩)
    · exact ih trivial fun p hp => agree p (List.mem_cons_of_mem _ hp)

theorem agree_zip : ∀ ls ls' : List NodeId, ls.length = ls'.length → (∀ p ∈ ls.zip ls', Unifiable R p) →
    ∃ ss ts : List Unfolding, List.Forall₂ (fun l s => R l (.value s)) ls ss ∧
      List.Forall₂ (fun l s => R l (.value s)) ls' ts ∧ List.Forall₂ Unfolding.Matches ss ts
  | [], [], _, _ => ⟨[], [], .nil, .nil, .nil⟩
  | l :: ls, l' :: ls', length, agree => by
    obtain ⟨s, t, hs, ht, same⟩ := agree (l, l') List.mem_cons_self
    obtain ⟨ss, ts, left, right, rest⟩ := agree_zip ls ls' (Nat.succ.inj length)
      fun p hp => agree p (List.mem_cons_of_mem _ hp)
    exact ⟨s :: ss, t :: ts, .cons hs left, .cons ht right, .cons same rest⟩

/-- Constructors of one kind have values that match if their arguments have. -/
theorem agree_data {index index' : Nat} (hx : g.content? x = some cx) (hy : g.content? y = some cy)
    (tx : cx.tag = .constructor index) (ty : cy.tag = .constructor index') (heads : cx.head.Matches cy.head)
    (length : cx.links.length = cy.links.length) :
    Unifiable (g.Means κ e) (x, y) ↔ ∀ p ∈ cx.links.zip cy.links, Unifiable (g.Means κ e) p := by
  constructor
  · rintro ⟨s, t, hs, ht, same⟩ p hp
    obtain ⟨ss, rfl, left⟩ := hs.landed (.refl x) hx tx
    obtain ⟨ts, rfl, right⟩ := ht.landed (.refl y) hy ty
    cases same with
    | node _ _ each =>
    obtain ⟨k, lt, rfl⟩ := List.getElem_of_mem hp
    rw [List.length_zip] at lt
    have ltx : k < cx.links.length := by omega
    have lty : k < cy.links.length := by omega
    have lts : k < ss.length := left.length_eq ▸ ltx
    have ltt : k < ts.length := right.length_eq ▸ lty
    rw [List.getElem_zip]
    exact ⟨ss[k], ts[k], left.get ltx lts, right.get lty ltt,
      each k _ _ (List.getElem?_eq_getElem lts) (List.getElem?_eq_getElem ltt)⟩
  · intro agree
    obtain ⟨ss, ts, left, right, same⟩ := agree_zip cx.links cy.links length agree
    refine ⟨_, _, (Graph.means_content hx).mpr ((reports_data tx).mpr (.inr ⟨ss, left, rfl⟩)),
      (Graph.means_content hy).mpr ((reports_data ty).mpr (.inr ⟨ts, right, rfl⟩)),
      .node heads same.length_eq fun k s t hs ht => ?_⟩
    obtain ⟨lts, rfl⟩ := List.getElem?_eq_some_iff.mp hs
    obtain ⟨ltt, rfl⟩ := List.getElem?_eq_some_iff.mp ht
    exact same.get lts ltt

/-- Unifying the arguments says the same as unifying the constructors. -/
theorem unifySuccessors_renders {index index' : Nat} (w : m.Site s ρ root c) (tag : c.tag = .operation)
    (head : HeadStep.ofSymbol? c.symbol = some .unify) (links : c.links = [t, u])
    (simple : m.graph.SimpleFrom root) (leads : m.graph.Leads t x) (leads' : m.graph.Leads u y)
    (hx : m.graph.content? x = some cx) (hy : m.graph.content? y = some cy)
    (tx : cx.tag = .constructor index) (ty : cy.tag = .constructor index') (heads : cx.head.Matches cy.head)
    (length : cx.links.length = cy.links.length) (some_ : cx.links.zip cy.links ≠ []) :
    (unifySuccessors root ((cx.links.zip cy.links).map fun p => (some p.1, some p.2))).Renders s m ρ
      fun _ m' log => m.Clean s ρ log m' := by
  refine (unifySuccessors_prepares w some_).renders fun _ m' => ?_
  rintro ⟨used, top, joined, rewritten⟩
  have ht : c.links[0]? = some t := by rw [links]; rfl
  have hu : c.links[1]? = some u := by rw [links]; rfl
  obtain ⟨-, below⟩ := simple.content w.content
  have simplex := (below t (List.mem_of_getElem? ht)).leads leads
  have simpley := (below u (List.mem_of_getElem? hu)).leads leads'
  have belowx := w.below ht leads
  have belowy := w.below hu leads'
  have pair : ∀ p ∈ cx.links.zip cy.links, ((m.Live [] p.1 ∧ ρ p.1 < ρ root) ∧ m.graph.SimpleFrom p.1) ∧
      (m.Live [] p.2 ∧ ρ p.2 < ρ root) ∧ m.graph.SimpleFrom p.2 := by
    intro p hp
    obtain ⟨hl, hr⟩ := List.of_mem_zip (show (p.1, p.2) ∈ _ from hp)
    exact ⟨⟨⟨belowx.1.link hx hl, (w.inv.ranked x _ _ belowx.1 hx hl).trans belowx.2⟩, (simplex.content hx).2 _ hl⟩,
      ⟨belowy.1.link hy hr, (w.inv.ranked y _ _ belowy.1 hy hr).trans belowy.2⟩, (simpley.content hy).2 _ hr⟩
  have iff_agree : ∀ (κ : Sides) (e : Reading) (v : Report), c.Reports κ e (m.graph.Means κ e) root v ↔
      e ≠ .settled ∧ v.Tells .success ∧ ∀ p ∈ cx.links.zip cy.links, Unifiable (m.graph.Means κ e) p := by
    intro κ e v
    rw [reports_unify tag head links, ← agree_data hx hy tx ty heads length]
    unfold Unifiable
    simp only [leads.means, leads'.means]
  have kept : ∀ (κ : Sides) (e : Reading) (v : Report), c.Reports κ e (m'.graph.Means κ e) root v →
      Content.Reports κ e (m'.graph.Means κ e) root ⟨.forward, Builtin.forward, 0, .links [top]⟩ v := by
    intro κ e v reports
    have before : c.Reports κ e (m.graph.Means κ e) root v := reports.mono fun q hq w' means =>
      (rewritten.means_below w.inv (w.live.link w.content hq)
        (w.inv.ranked root q c w.live w.content hq)).mp means
    obtain ⟨open_, tells, agree⟩ := (iff_agree κ e v).mp before
    refine reports_forward.mpr (joined.means open_ tells fun p hp => (agree p hp).mono ?_ ?_)
    · exact fun _ => (rewritten.means_below w.inv (pair p hp).1.1.1 (pair p hp).1.1.2).mpr
    · exact fun _ => (rewritten.means_below w.inv (pair p hp).2.1.1 (pair p hp).2.1.2).mpr
  refine ⟨[], rewritten.rendered (fun i => ∃ ps used, Joined m'.graph ps used i ∧
    ps ⊆ cx.links.zip cy.links) ?_ ?_ fun κ _ e _ => kept κ e,
    rewritten.clean (fun κ _ => kept κ .lazy) fun index data => nomatch tag.symm.trans data⟩
  · rintro i (rfl | ⟨ps, used, joined, sub⟩)
    · refine ⟨_, rewritten.after, trivial, fun q hq => .inr ⟨_, used, ?_, List.Subset.refl _⟩⟩
      rw [List.mem_singleton.mp hq]
      exact joined
    · have unified : ∀ {a b : NodeId}, (a, b) ∈ cx.links.zip cy.links →
          (Content.binary Prelude.standard.unify 0 a b).Simple ∧
          ∀ q ∈ (Content.binary Prelude.standard.unify 0 a b).links, (m.Live [] q ∧ m.graph.SimpleFrom q) ∨
            ∃ ps used, Joined m'.graph ps used q ∧ ps ⊆ cx.links.zip cy.links := by
        refine fun hp => ⟨⟨.unify, rfl, trivial⟩, fun q hq => .inl ?_⟩
        rcases List.mem_cons.mp hq with rfl | hq
        · exact ⟨(pair _ hp).1.1.1, (pair _ hp).1.2⟩
        · rw [List.mem_singleton.mp hq]
          exact ⟨(pair _ hp).2.1.1, (pair _ hp).2.2⟩
      cases joined with
      | last hu => exact ⟨_, hu, unified (sub List.mem_cons_self)⟩
      | @cons a b u' _ below _ used' hu hj rest =>
        refine ⟨_, hj, ⟨.conjunction, rfl, trivial⟩, fun q hq => .inr ?_⟩
        rcases List.mem_cons.mp hq with rfl | hq
        · exact ⟨[(a, b)], [q], .last hu, fun p hp => sub (List.mem_singleton.mp hp ▸ List.mem_cons_self)⟩
        · rw [List.mem_singleton.mp hq]
          exact ⟨_, used', rest, fun p hp => sub (List.mem_cons_of_mem _ hp)⟩
  · intro κ _ n within v reports
    obtain ⟨tells, agree⟩ := joined.within (reports_forward.mp reports)
    refine (iff_agree κ .lazy v).mpr ⟨nofun, tells, fun p hp => (agree p hp).mono ?_ ?_⟩
    · exact fun w' => within _ w' (pair p hp).1.1.1
    · exact fun w' => within _ w' (pair p hp).2.1.1

end Unified

end Reduction

end ChoiceGraph
