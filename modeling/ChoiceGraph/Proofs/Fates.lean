import ChoiceGraph.Proofs.Partition
import ChoiceGraph.Proofs.RenderedReductions
import ChoiceGraph.Proofs.Tasks

/-! # What becomes of frames

A search looks, for each way to take sides, at what its root comes to when choices are taken so. On graphs
without variables and functions a frame is at such a node for all ways that agree with its decisions. So
what is handed out for the frame is what the root means, read lazily, and when the frame is dropped the
root has come to mean nothing. -/
namespace ChoiceGraph

theorem Side.pick_mem (side : Side) {α : Type} (l r : α) : side.pick l r ∈ [l, r] := by
  cases side with
  | left => exact List.mem_cons_self
  | right => exact List.mem_cons_of_mem _ List.mem_cons_self

/-- An assignment that agrees with a fingerprint: what is not decided goes left. -/
def Fingerprint.sides (f : Fingerprint) (id : ChoiceId) : Side := (f.get? id).getD .left

theorem Fingerprint.agrees_sides (f : Fingerprint) : f.Agrees f.sides := by
  intro id side decided
  rw [sides, decided, Option.getD_some]

namespace Graph

variable {g : Graph} {σ : ChoiceId → Side} {κ : Sides} {i j l : NodeId} {w : Report}

/-- Indirections, and choices of which one side each is taken, lead from one node to another. -/
inductive Follows (g : Graph) (σ : ChoiceId → Side) : NodeId → NodeId → Prop where
  | refl (i : NodeId) : Follows g σ i i
  | forward {i l j : NodeId} {symbol aux : Nat} (hc : g.content? i = some ⟨.forward, symbol, aux, .links [l]⟩)
    (rest : Follows g σ l j) : Follows g σ i j
  | choice {i l r j : NodeId} {symbol id : Nat} (hc : g.content? i = some ⟨.choice, symbol, id, .links [l, r]⟩)
    (rest : Follows g σ ((σ id).pick l r) j) : Follows g σ i j

theorem Follows.trans (h : g.Follows σ i j) (h' : g.Follows σ j l) : g.Follows σ i l := by
  induction h with
  | refl => exact h'
  | forward hc _ ih => exact .forward hc (ih h')
  | choice hc _ ih => exact .choice hc (ih h')

theorem Leads.follows (h : g.Leads i j) : g.Follows σ i j := by
  induction h with
  | refl => exact .refl _
  | step hc _ ih => exact .forward hc ih

/-- What holds of a node, and of what hangs from an indirection or a choice of which it holds, holds of all that
follows. -/
theorem Follows.induct {P : NodeId → Prop} (h : g.Follows σ i j) (hi : P i)
    (step : ∀ p c, P p → g.content? p = some c → c.Inert → ∀ q ∈ c.links, P q) : P j := by
  induction h with
  | refl => exact hi
  | forward hc _ ih => exact ih (step _ _ hi hc (.inl rfl) _ List.mem_cons_self)
  | @choice i l r j symbol id hc _ ih =>
    exact ih (step _ _ hi hc (.inr (.inl rfl)) _ (Side.pick_mem _ l r))

/-- What follows a node means the same. -/
theorem Follows.means (h : g.Follows κ.choice i j) : g.Means κ .lazy i w ↔ g.Means κ .lazy j w := by
  induction h with
  | refl => exact .rfl
  | forward hc _ ih => exact (means_content hc).trans (reports_forward.trans ih)
  | choice hc _ ih =>
    exact (means_content hc).trans (reports_choice.trans ((and_iff_right nofun).trans ih))

theorem SimpleFrom.follows (h : g.SimpleFrom i) (follows : g.Follows σ i j) : g.SimpleFrom j :=
  follows.induct h fun _ _ hp hc _ q hq => (hp.content hc).2 q hq

/-- The node has been reduced, to a choice, a failure or a term. -/
def Ends (g : Graph) (i : NodeId) : Prop :=
  (∃ j c, g.Leads i j ∧ g.content? j = some c ∧ (c.tag = .choice ∨ c.tag = .failure)) ∨ g.Evaluated i

theorem Ends.next {symbol aux : Nat} (h : g.Ends i)
    (hc : g.content? i = some ⟨.forward, symbol, aux, .links [l]⟩) : g.Ends l := by
  rcases h with ⟨j, c, leads, hj, tag⟩ | ⟨_, ⟨leads, hd, plain, length, each⟩, data⟩
  · refine .inl ⟨j, c, ?_, hj, tag⟩
    cases leads with
    | refl =>
      cases hc.symm.trans hj
      rcases tag with tag | tag <;> cases tag
    | step hc' rest =>
      cases hc.symm.trans hc'
      exact rest
  · cases leads with
    | refl =>
      cases hc.symm.trans hd
      exact absurd rfl plain
    | step hc' rest =>
      cases hc.symm.trans hc'
      exact .inr ⟨_, .node rest hd plain length each, data⟩

/-- A node that is no indirection any more is a choice, a failure or a term itself. -/
theorem Ends.here {c : Content} (h : g.Ends i) (hc : g.content? i = some c) (tag : c.tag ≠ .forward) :
    c.tag = .choice ∨ c.tag = .failure ∨ ∃ index, c.tag = .constructor index := by
  rcases h with ⟨j, d, leads, hj, tag'⟩ | value
  · cases leads with
    | refl =>
      cases hc.symm.trans hj
      exact tag'.imp_right .inl
    | step hc' =>
      cases hc.symm.trans hc'
      exact absurd rfl tag
  · obtain ⟨j, d, leads, hj, data, -⟩ := value.landed
    cases leads with
    | refl =>
      cases hc.symm.trans hj
      exact .inr (.inr data)
    | step hc' =>
      cases hc.symm.trans hc'
      exact absurd rfl tag

theorem Ends.evaluated {c : Content} {index : Nat} (h : g.Ends i) (hc : g.content? i = some c)
    (tag : c.tag = .constructor index) : g.Evaluated i := by
  rcases h with ⟨j, d, leads, hj, tag'⟩ | value
  · obtain rfl := Machine.leads_unique (.refl i) leads hc (Content.not_forward_of_constructor tag) hj
      (Content.not_forward_of_halt tag')
    cases hc.symm.trans hj
    rcases tag' with tag' | tag' <;> cases tag.symm.trans tag'
  · exact value

end Graph

namespace Machine

variable {m m' : Machine} {ρ ρ' : Rank} {i j : NodeId} {σ : ChoiceId → Side} {held : List NodeId} {q : ℚ}

theorem Live.follows (h : m.Live held i) (follows : m.graph.Follows σ i j) : m.Live held j :=
  follows.induct h fun _ _ hp hc _ _ hq => hp.link hc hq

theorem Inv.rank_follows (h : m.Inv held ρ) (hi : m.Live held i) (follows : m.graph.Follows σ i j) :
    ρ j ≤ ρ i :=
  (follows.induct (P := fun p => m.Live held p ∧ ρ p ≤ ρ i) ⟨hi, le_rfl⟩ fun p c hp hc _ q hq =>
    ⟨hp.1.link hc hq, (h.ranked p q c hp.1 hc hq).le.trans hp.2⟩).2

/-- Indirections and choices stay. -/
theorem Evolves.follows (e : m.Evolves (.below q) ρ m' held ρ') (hi : m.Steady (.below q) ρ i)
    (h : m.graph.Follows σ i j) : m'.graph.Follows σ i j := by
  induction h with
  | refl => exact .refl _
  | @forward i l j symbol aux hc _ ih =>
    have fixed : (Scope.below q).Fixed ρ i ⟨.forward, symbol, aux, .links [l]⟩ := Scope.fixed_inert (.inl rfl)
    exact .forward (e.fixed _ _ hi hc fixed) (ih (.link hi hc fixed List.mem_cons_self))
  | @choice i l r j symbol id hc _ ih =>
    have fixed : (Scope.below q).Fixed ρ i ⟨.choice, symbol, id, .links [l, r]⟩ :=
      Scope.fixed_inert (.inr (.inl rfl))
    exact .choice (e.fixed _ _ hi hc fixed) (ih (.link hi hc fixed (Side.pick_mem _ l r)))

end Machine

/-- Nothing is bound, and the frame is at a node that follows the root, however its decisions are gone on with. -/
def Task.Tracks (g : Graph) (root : NodeId) (t : Task) : Prop :=
  t.view.bound = .empty ∧ ∃ i, t.node = some i ∧ ∀ σ, t.view.decided.Agrees σ → g.Follows σ root i

/-- A frame that has finished: what it had decided, and the node that was handed out for it with the graph at the
time, unless it was dropped. -/
structure Verdict where
  decided : Fingerprint
  value? : Option (NodeId × Graph)

namespace Verdict

/-- The value that was handed out. -/
def Yields (v : Verdict) (t : Unfolding) : Prop := ∃ i g, v.value? = some (i, g) ∧ g.UnfoldsTo i t

def Fails (v : Verdict) : Prop := v.value? = none

/-- A frame that yields a value has found a lazy meaning of the root. When one fails, nothing is left of what
the root meant. -/
inductive Just (start g : Graph) (root : NodeId) (κ : Sides) : Verdict → Prop where
  | yields {d : Fingerprint} {i : NodeId} {g' : Graph} {t : Unfolding} (unfolds : g'.UnfoldsTo i t)
    (data : t.Data) (means : start.Means κ .lazy root (.value t)) : Just start g root κ ⟨d, some (i, g')⟩
  | fails {d : Fingerprint} (barren : ∀ w, ¬ g.Means κ .lazy root w) : Just start g root κ ⟨d, none⟩

variable {start g g' : Graph} {root : NodeId} {κ : Sides} {v : Verdict}

theorem Just.mono (h : v.Just start g root κ)
    (reflects : ∀ w, g'.Means κ .lazy root w → g.Means κ .lazy root w) : v.Just start g' root κ := by
  cases h with
  | yields unfolds data means => exact .yields unfolds data means
  | fails barren => exact .fails fun w means => barren w (reflects w means)

end Verdict

namespace Machine

variable {start m m₁ : Machine} {root i : NodeId} {log log' : CallLog} {done done' : List Verdict} {ρ ρ₁ : Rank}
  {t : Task} {ts : List Task} {v : View}

/-- A search in which no frame has lost sight of its part of what the root means. -/
structure Faithful (start : Machine) (root : NodeId) (log : CallLog) (done : List Verdict) (m : Machine) : Prop where
  sound : m.Sound
  rooted : some root ∈ m.roots
  spends : start.Spends log m
  simple : m.graph.SimpleFrom root
  reflects : ∀ κ : Sides, κ.Heeds log → ∀ w, m.graph.Means κ .lazy root w → start.graph.Means κ .lazy root w
  upholds : ∀ κ : Sides, κ.Heeds log → ∀ w, start.graph.Means κ .eager root w → m.graph.Means κ .eager root w
  tasks : ∀ t ∈ m.tasks, t.Tracks m.graph root
  just : ∀ κ : Sides, κ.Heeds log → ∀ v ∈ done, v.decided.Agrees κ.choice → v.Just start.graph m.graph root κ

namespace Faithful

/-- The scheduler goes on in another way. -/
theorem reschedule (h : start.Faithful root log done m) (cs : List Computation) (slice : Slice)
    (sound : Machine.Sound { m with computations := cs, slice := slice })
    (tasks : ∀ t ∈ Machine.tasks { m with computations := cs, slice := slice }, t.Tracks m.graph root)
    (just : ∀ κ : Sides, κ.Heeds log → ∀ v ∈ done', v.decided.Agrees κ.choice →
      v.Just start.graph m.graph root κ) :
    start.Faithful root log done' { m with computations := cs, slice := slice } where
  sound := sound
  rooted := h.rooted
  spends := { h.spends with }
  simple := h.simple
  reflects := h.reflects
  upholds := h.upholds
  tasks := tasks
  just := just

/-- The innermost search goes on in another way. -/
theorem innermost (h : start.Faithful root log done m) {change : Computation → Computation}
    (sound : ∀ c, c.Sound (m.Live []) → (change c).Sound (m.Live []))
    (tasks : ∀ t ∈ (m.mapInnermost change).tasks, t.Tracks m.graph root)
    (just : ∀ κ : Sides, κ.Heeds log → ∀ v ∈ done', v.decided.Agrees κ.choice →
      v.Just start.graph m.graph root κ) :
    start.Faithful root log done' (m.mapInnermost change) := by
  obtain ⟨ρ, inv⟩ := h.sound
  have sound' : (m.mapInnermost change).Sound := ⟨ρ, inv.mapInnermost fun c _ => sound c⟩
  unfold mapInnermost at *
  split at sound' <;> rename_i hc
  · rw [hc] at tasks
    exact ⟨h.sound, h.rooted, h.spends, h.simple, h.reflects, h.upholds, tasks, just⟩
  · rw [hc] at tasks
    exact h.reschedule _ m.slice sound' tasks just

/-- Every fingerprint allows some way to take sides. -/
theorem follows (h : start.Faithful root log done m) (ht : t ∈ m.tasks) :
    ∃ σ i, t.node = some i ∧ m.graph.Follows σ root i := by
  obtain ⟨-, i, node, follows⟩ := h.tasks t ht
  exact ⟨_, i, node, follows _ t.view.decided.agrees_sides⟩

/-- What a frame looks at is live, and simple. -/
theorem task (h : start.Faithful root log done m) (ht : t ∈ m.tasks) (node : t.node = some i) :
    ∃ ρ, m.Inv [] ρ ∧ m.Live [] i ∧ m.graph.SimpleFrom i := by
  obtain ⟨ρ, inv⟩ := h.sound
  obtain ⟨σ, i', node', follows⟩ := h.follows ht
  cases node.symm.trans node'
  have live : m.Live [] root := live_root (List.mem_append_left _ h.rooted)
  exact ⟨ρ, inv, live.follows follows, h.simple.follows follows⟩

/-- A reduction of the node of a frame. -/
theorem rendered (h : start.Faithful root log done m) (inv : m.Inv [] ρ) (ht : t ∈ m.tasks) (node : t.node = some i)
    (ev : m.Evolves (.below (ρ i)) ρ m₁ [] ρ₁) (rendered : m.Rendered (.below (ρ i)) ρ log' m₁) :
    start.Faithful root (log ++ log') done m₁ ∧ m₁.tasks = m.tasks := by
  have live : m.Live [] root := live_root (List.mem_append_left _ h.rooted)
  obtain ⟨σ, i', node', follows⟩ := h.follows ht
  cases node.symm.trans node'
  have steady := inv.steady (s := .below (ρ i)) live (inv.rank_follows live follows)
  have same := ev.search.tasks rendered.views
  have back : ∀ κ : Sides, κ.Heeds log' → ∀ w, m₁.graph.Means κ .lazy root w → m.graph.Means κ .lazy root w :=
    fun κ late w means => rendered.reflects κ late root w steady means
  refine ⟨⟨⟨ρ₁, ev.inv⟩, ev.roots ▸ h.rooted, h.spends.trans rendered.spends,
    rendered.simple root steady h.simple, fun κ heeds w means => ?_, fun κ heeds w means => ?_, fun t ht => ?_,
    fun κ heeds v hv agrees => ?_⟩, same⟩
  · obtain ⟨early, late⟩ := Sides.heeds_append.mp heeds
    exact h.reflects κ early w (back κ late w means)
  · obtain ⟨early, late⟩ := Sides.heeds_append.mp heeds
    exact rendered.upholds κ late .eager root w nofun steady (h.upholds κ early w means)
  · obtain ⟨unbound, i, node, follows⟩ := h.tasks t (same ▸ ht)
    exact ⟨unbound, i, node, fun σ agrees => ev.follows steady (follows σ agrees)⟩
  · obtain ⟨early, late⟩ := Sides.heeds_append.mp heeds
    exact (h.just κ early v hv agrees).mono (back κ late)

end Faithful

end Machine

namespace Schedule

open Eff Machine

variable {start m m' m₁ : Machine} {root i : NodeId} {log log' : CallLog} {done : List Verdict} {ρ : Rank} {t : Task}
  {ts : List Task} {v : View} {st st' : Stats} {r : Stats × Outcome} {F : Nat}

/-- The node in front has been reduced. -/
theorem normalize_faithful (h : start.Faithful root log done m) (ht : t ∈ m.tasks) (node : t.node = some i)
    (run : Reduction.normalize F i m = .ok () m₁) :
    ∃ log', start.Faithful root (log ++ log') done m₁ ∧ m₁.tasks = m.tasks ∧ m₁.graph.Ends i := by
  obtain ⟨ρ, inv, live, simple⟩ := h.task ht node
  obtain ⟨log', rendered, ends⟩ := ((Reduction.reducer_renders F).normal m ρ i inv live simple).ok run
  obtain ⟨ρ₁, ev, -⟩ := ((Reduction.reducer_sound F).normal m ρ i inv live).ok run
  obtain ⟨faithful, same⟩ := h.rendered inv ht node ev rendered
  refine ⟨log', faithful, same, ends.imp ?_ And.left⟩
  rintro ⟨j, leads, halts⟩
  obtain ⟨d, hd, tag⟩ := halts.content
  exact ⟨j, d, leads, hd, tag⟩

/-- The reduction has been cut short. -/
theorem preempted_faithful (h : start.Faithful root log done m) (ht : t ∈ m.tasks) (node : t.node = some i)
    (run : Reduction.normalize F i m = .error .preempted m₁) :
    ∃ log', start.Faithful root (log ++ log') done m₁ ∧ m₁.tasks = m.tasks := by
  obtain ⟨ρ, inv, live, simple⟩ := h.task ht node
  obtain ⟨-, log', rendered⟩ := ((Reduction.reducer_renders F).normal m ρ i inv live simple).error run
  have keeps := (Reduction.reducer_sound F).normal m ρ i inv live
  unfold Keeps Meets at keeps
  rw [show (Reduction.reducer F).normal i m = .error .preempted m₁ from run] at keeps
  obtain ⟨ρ₁, ev⟩ := keeps
  exact ⟨log', h.rendered inv ht node ev rendered⟩

/-- No frame waits for a variable. -/
theorem normalize_not_suspended (h : start.Faithful root log done m) (ht : t ∈ m.tasks) (node : t.node = some i)
    (x : Nat) : Reduction.normalize F i m ≠ .error (.suspended x) m₁ := by
  intro run
  obtain ⟨ρ, inv, live, simple⟩ := h.task ht node
  exact (((Reduction.reducer_renders F).normal m ρ i inv live simple).error run).1 x rfl

/-! ## What the scheduler does -/

/-- The frame in front is let go of. -/
theorem dropped_faithful {verdict : Verdict} (h : start.Faithful root log done m) (ht : m.tasks = t :: ts)
    (just : ∀ κ : Sides, κ.Heeds log → verdict.decided.Agrees κ.choice →
      verdict.Just start.graph m.graph root κ) :
    start.Faithful root log (verdict :: done) (m.mapInnermost Computation.dropFront) := by
  obtain ⟨c, outer, hc, front⟩ := inner_of_tasks ht
  obtain ⟨ρ, inv⟩ := h.sound
  refine h.innermost (fun _ hc => hc.dropFront) (fun t ht' => h.tasks t ?_) fun κ heeds v hv agrees => ?_
  · rw [mapInnermost_tasks hc, (inv.counted c (hc ▸ List.mem_cons_self)).dropFront_tasks, front] at ht'
    exact ht ▸ List.mem_cons_of_mem _ ht'
  · rcases List.mem_cons.mp hv with rfl | hv
    · exact just κ heeds agrees
    · exact h.just κ heeds v hv agrees

/-- The frame in front goes to the back. -/
theorem requeued_faithful (h : start.Faithful root log done m) (ht : m.tasks = t :: ts) (suspended : Bool) :
    start.Faithful root log done (m.mapInnermost fun c => c.requeue m.config.timeAllotment suspended) := by
  obtain ⟨c, outer, hc, front⟩ := inner_of_tasks ht
  refine h.innermost (fun _ hc => hc.requeue _ _) (fun t ht' => h.tasks t ?_) h.just
  rw [mapInnermost_tasks hc, Computation.requeue_tasks front] at ht'
  rw [ht]
  exact (List.perm_append_singleton _ _).mem_iff.mp ht'

/-- The frame in front is at an indirection, and goes on at what it leads to. -/
theorem moved_faithful {u : Unit} {l : NodeId} {symbol aux : Nat} (h : start.Faithful root log done m)
    (ht : m.tasks = ⟨some i, v⟩ :: ts) (hc : m.graph.content? i = some ⟨.forward, symbol, aux, .links [l]⟩)
    (run : setFrontNode (some l) m = .ok u m₁) :
    start.Faithful root log done m₁ ∧ m₁.tasks = ⟨some l, v⟩ :: ts ∧ m₁.graph = m.graph := by
  obtain ⟨c, outer, inner, front⟩ := inner_of_tasks ht
  obtain ⟨f, rest, hq, here, there⟩ := Computation.tasks_cons front
  have mem : (⟨some i, v⟩ : Task) ∈ m.tasks := ht ▸ List.mem_cons_self
  obtain ⟨-, inv, live, -⟩ := h.task mem rfl
  obtain ⟨unbound, i', node, follows⟩ := h.tasks _ mem
  cases node
  obtain ⟨change, rfl, sound, tasks⟩ : ∃ change : Computation → Computation, m₁ = m.mapInnermost change ∧
      (∀ c, c.Sound (m.Live []) → (change c).Sound (m.Live [])) ∧
      (m.mapInnermost change).tasks = ⟨some l, v⟩ :: ts := by
    cases run
    refine ⟨_, rfl, fun c sound => ?_, ?_⟩
    · split
      · exact sound
      · next f rest hq => exact sound.setFront hq (live.link hc List.mem_cons_self) f.suspended
    · have view : c.view f = v := congrArg Task.view here
      rw [mapInnermost_tasks inner, hq, ← there, ← view]
      exact Computation.setFront_tasks hq (some l) f.suspended
  refine ⟨h.innermost sound (fun t ht' => ?_) h.just, tasks, mapInnermost_graph _⟩
  rw [tasks] at ht'
  rcases List.mem_cons.mp ht' with rfl | ht'
  · exact ⟨unbound, l, rfl, fun σ agrees => (follows σ agrees).trans (.forward hc (.refl l))⟩
  · exact h.tasks t (ht ▸ List.mem_cons_of_mem _ ht')

/-- The frame in front is at a choice. It goes on at the side that it has taken, or two frames go on, which take
one side each. -/
theorem forked_faithful {symbol id left right : Nat} (h : start.Faithful root log done m)
    (ht : m.tasks = ⟨some i, v⟩ :: ts)
    (hc : m.graph.content? i = some ⟨.choice, symbol, id, .links [left, right]⟩)
    (run : fork i st m = .ok st' m') : start.Faithful root log done m' ∧ st'.finished = st.finished ∧
      st'.floundered = st.floundered ∧ st'.stepLimitHit = st.stepLimitHit := by
  have mem : (⟨some i, v⟩ : Task) ∈ m.tasks := ht ▸ List.mem_cons_self
  obtain ⟨ρ, inv, live, -⟩ := h.task mem rfl
  obtain ⟨unbound, i', node, follows⟩ := h.tasks _ mem
  cases node
  have sound : m'.Sound := by
    have meets : (fork i st).Meets m (fun _ m' => Acts m ρ m') fun _ => True := fork_meets inv live hc
    unfold Meets at meets
    rw [run] at meets
    exact ⟨ρ, meets.inv⟩
  obtain ⟨c, outer, inner, front⟩ := inner_of_tasks ht
  have counted := inv.counted c (inner ▸ List.mem_cons_self)
  unfold fork at run
  rw [bind_ok (look_ok (TermGraph.aux_content hc)), bind_ok (look_ok (inv.read_successor (k := 0) live hc rfl)),
    bind_ok (look_ok (inv.read_successor (k := 1) live hc rfl))] at run
  obtain ⟨resolution, m₁, resolved, run⟩ := bind_eq_ok run
  have same : EStateM.Result.ok (resolveFront m id (some left) (some right)).1
      (resolveFront m id (some left) (some right)).2 = (.ok resolution m₁ : EStateM.Result Stop Machine _) := resolved
  simp only [resolveFront, inner] at same
  cases same
  -- wherever the frame goes on, it has taken the side that leads there
  have goes : ∀ cs, m'.Sound → m' = { m with computations := cs } →
      (∀ t ∈ m'.tasks, t.Tracks m.graph root) → start.Faithful root log done m' := by
    rintro cs sound rfl tasks
    exact h.reschedule _ m.slice sound tasks h.just
  have waits : ∀ t ∈ ts, t.Tracks m.graph root := fun t ht' => h.tasks t (ht ▸ List.mem_cons_of_mem _ ht')
  have decision := v.decided.decide_unbound id unbound
  cases taken : v.decided.get? id with
  | some side =>
    rw [taken] at decision
    obtain ⟨way, tasks⟩ := Computation.resolve_taken front (some left) (some right) m.config.timeAllotment
      decision
    rw [way] at run
    cases run
    refine ⟨goes _ sound rfl fun t ht' => ?_, rfl, rfl, rfl⟩
    rw [tasks_inner rfl, tasks] at ht'
    rcases List.mem_cons.mp ht' with rfl | ht'
    · refine ⟨unbound, side.pick left right, by cases side <;> rfl, fun σ agrees => ?_⟩
      have goes := (follows σ agrees).trans (.choice hc (.refl _))
      rwa [agrees id side taken] at goes
    · exact waits t ht'
  | none =>
    rw [taken] at decision
    obtain ⟨way, tasks⟩ := counted.resolve_undecided front (some left) (some right) m.config.timeAllotment
      decision
    rw [way] at run
    cases run
    have side : ∀ (side : Side) (l : NodeId), side.pick left right = l →
        Task.Tracks m.graph root ⟨some l, v.decided.set id side, v.bound⟩ := by
      rintro side _ rfl
      refine ⟨unbound, _, rfl, fun σ agrees => ?_⟩
      obtain ⟨agrees, here⟩ := (Fingerprint.agrees_set taken).mp agrees
      have goes := (follows σ agrees).trans (.choice hc (.refl _))
      rwa [here] at goes
    refine ⟨goes _ sound rfl fun t ht' => ?_, rfl, rfl, rfl⟩
    rw [tasks_inner rfl, tasks] at ht'
    rcases List.mem_append.mp ht' with ht' | ht'
    · exact waits t ht'
    · rcases List.mem_pair.mp ht' with rfl | rfl
      · exact side .left left rfl
      · exact side .right right rfl

/-- The node in front is handed out. -/
def Presenting (m : Machine) (i : NodeId) : Prop :=
  (∃ v ts, m.tasks = ⟨some i, v⟩ :: ts) ∧ m.graph.Evaluated i

/-- A turn has dealt with the frame in front: if the frame has finished, it has failed. -/
structure Dealt (start : Machine) (root : NodeId) (log : CallLog) (done : List Verdict) (m : Machine) (st : Stats)
    (r : Stats × Outcome) (m' : Machine) : Prop where
  floundered : r.1.floundered = st.floundered
  going : r.2 ≠ .over
  faithful : start.Faithful root log
    ((m.decisions.take (r.1.finished - st.finished)).map (⟨·, none⟩) ++ done) m'
  value : ∀ i, r.2 = .value i → Presenting m' i

/-- No frame has finished. -/
theorem unfinished_faithful {decisions : List Fingerprint} (h : start.Faithful root log done m')
    (finished : st'.finished = st.finished) : start.Faithful root log
      ((decisions.take (st'.finished - st.finished)).map (⟨·, none⟩) ++ done) m' := by
  rw [finished, Nat.sub_self, List.take_zero, List.map_nil, List.nil_append]
  exact h

theorem Dealt.again (floundered : st'.floundered = st.floundered) (faithful : start.Faithful root log
      ((m.decisions.take (st'.finished - st.finished)).map (⟨·, none⟩) ++ done) m') :
    Dealt start root log done m st (st', .again) m' :=
  ⟨floundered, nofun, faithful, nofun⟩

theorem Dealt.found (floundered : st'.floundered = st.floundered) (finished : st'.finished = st.finished)
    (faithful : start.Faithful root log done m') (presenting : Presenting m' i) :
    Dealt start root log done m st (st', .value i) m' := by
  refine ⟨floundered, nofun, unfinished_faithful faithful finished, ?_⟩
  rintro _ ⟨⟩
  exact presenting

/-- The node in front has been reduced, and is dealt with as what it has become. -/
theorem dispatch_dealt : ∀ (bound : Nat) (i : NodeId) (v : View) (m : Machine), start.Faithful root log done m →
    m.tasks = ⟨some i, v⟩ :: ts → m.graph.Ends i → dispatch bound i st m = .ok r m' →
    Dealt start root log done m st r m' := by
  intro bound
  induction bound with
  | zero => exact fun _ _ _ _ _ _ run => nomatch run
  | succ bound ih =>
    intro i v m h ht ends run
    have mem : (⟨some i, v⟩ : Task) ∈ m.tasks := ht ▸ List.mem_cons_self
    obtain ⟨ρ, inv, live, -⟩ := h.task mem rfl
    obtain ⟨c, hc, fits⟩ := inv.fits i live
    unfold dispatch at run
    rw [bind_ok (look_ok (TermGraph.tag_content hc))] at run
    by_cases forward : c.tag = .forward
    · obtain ⟨aux, l, rfl⟩ := fits.of_forward forward
      dsimp only at run
      rw [bind_ok (look_ok (inv.read_successor (k := 0) live hc rfl))] at run
      obtain ⟨_, m₁, moved, run⟩ := bind_eq_ok run
      obtain ⟨h₁, ht₁, graph⟩ := moved_faithful h ht hc moved
      obtain ⟨j, target, run⟩ := look_bind_eq_ok run
      cases target
      have same : m₁.decisions = m.decisions := by
        rw [tasks_decisions, tasks_decisions, ht, ht₁, List.map_cons, List.map_cons]
      have dealt := ih l v m₁ h₁ ht₁ (graph ▸ ends.next hc) run
      exact { dealt with faithful := same ▸ dealt.faithful }
    rcases ends.here hc forward with choice | failure | ⟨index, data⟩
    · obtain ⟨symbol, id, left, right, rfl, -⟩ := fits.of_choice choice
      obtain ⟨st', m₁, forked, run⟩ := bind_eq_ok run
      cases run
      obtain ⟨faithful, finished, floundered, -⟩ := forked_faithful h ht hc forked
      exact .again floundered (unfinished_faithful faithful finished)
    · rw [failure] at run
      cases run
      have one : ({ st with failures := st.failures + 1 } : Stats).finished - st.finished = 1 := by
        simp only [Stats.finished]
        omega
      obtain ⟨unbound, i', node, follows⟩ := h.tasks _ mem
      cases node
      refine .again rfl ?_
      rw [tasks_decisions, ht, one, List.map_cons, List.take_succ_cons, List.take_zero, List.map_cons, List.map_nil]
      refine dropped_faithful h ht fun κ _ agrees => .fails fun w means => ?_
      exact Graph.not_means_failure hc failure ((follows κ.choice agrees).means.mp means)
    · rw [data] at run
      cases run
      exact .found rfl rfl h ⟨⟨v, ts, ht⟩, ends.evaluated hc data⟩

/-- What a turn leaves. -/
theorem turn_dealt (h : start.Faithful root log done m)
    (run : turn (Reduction.normalize F) st m = .ok r m') :
    (m' = m ∧ r.2 = .over ∧ r.1.floundered = st.floundered ∧ r.1.finished = st.finished ∧
      (r.1.stepLimitHit = true ∨ m.tasks = [])) ∨
    ∃ log', Dealt start root (log ++ log') done m st r m' := by
  rcases turn_cases (Reduction.normalize F) st m with ⟨front, same⟩ | same | ⟨f, steps, front, slice, same⟩
  · cases same.symm.trans run
    exact .inl ⟨rfl, rfl, rfl, rfl, .inr (tasks_idle front)⟩
  · cases same.symm.trans run
    exact .inl ⟨rfl, rfl, rfl, rfl, .inl rfl⟩
  · have run := same.symm.trans run
    refine .inr ?_
    obtain ⟨ρ, inv⟩ := h.sound
    have sound : Machine.Sound { m with slice := .ofSteps steps } :=
      ⟨ρ, (quiet_count (s := .below 0) inv m.nextId (.ofSteps steps)).inv⟩
    have h₁ : start.Faithful root log done { m with slice := .ofSteps steps } :=
      h.reschedule m.computations _ sound h.tasks h.just
    obtain ⟨v, ts, ht⟩ := tasks_front front
    obtain ⟨-, i, node, -⟩ := h.tasks _ (ht ▸ List.mem_cons_self)
    have node : f.node = some i := node
    rw [node] at ht
    have mem : (⟨some i, v⟩ : Task) ∈ Machine.tasks { m with slice := .ofSteps steps } :=
      ht ▸ List.mem_cons_self
    unfold reduceFront at run
    rw [node] at run
    obtain ⟨_, target, run⟩ := look_bind_eq_ok run
    cases target
    obtain ⟨ending, m₁, reduced, run⟩ := bind_eq_ok run
    obtain ⟨_, m₂, read, run⟩ := bind_eq_ok run
    cases read
    unfold catching at reduced
    cases normal : Reduction.normalize F i { m with slice := .ofSteps steps } with
    | ok u m₂ =>
      rw [normal] at reduced
      cases reduced
      obtain ⟨log', h₂, tasks, ends⟩ := normalize_faithful h₁ mem rfl normal
      have same : m₁.decisions = m.decisions := by
        rw [tasks_decisions, tasks_decisions, tasks]
        rfl
      have dealt := dispatch_dealt _ i v m₁ h₂ (tasks.trans ht) ends run
      exact ⟨log', dealt.floundered, dealt.going, same ▸ dealt.faithful, dealt.value⟩
    | error stop m₂ =>
      rw [normal] at reduced
      cases stop with
      | preempted =>
        cases reduced
        obtain ⟨log', h₂, tasks⟩ := preempted_faithful h₁ mem rfl normal
        cases run
        exact ⟨log', .again rfl (unfinished_faithful (requeued_faithful h₂ (tasks.trans ht) false) rfl)⟩
      | suspended x => exact absurd normal (normalize_not_suspended h₁ mem rfl x)
      | _ => cases reduced

/-! ## Whole searches -/

variable {normal : NodeId → Eff Unit} {s s' : State} {finished : List Fingerprint} {κ : Sides}

/-- The verdicts on the frames that finish in a step: a frame that lets go of a value has yielded it. -/
def State.verdicts (s : State) (finished : List Fingerprint) : List Verdict :=
  finished.map fun d => ⟨d, match s.outcome with
    | .value i => some (i, s.machine.graph)
    | _ => none⟩

/-- The states of a scheduler, with the verdicts on all frames that have finished. -/
inductive Judged (normal : NodeId → Eff Unit) (start : Machine) : List Verdict → State → Prop
  | enter : Judged normal start [] ⟨{}, .again, start⟩
  | next {done : List Verdict} {finished : List Fingerprint} {s s' : State} (h : Judged normal start done s)
    (step : Next normal s finished s') : Judged normal start (s.verdicts finished ++ done) s'

theorem State.verdicts_decided : (s.verdicts finished).map Verdict.decided = finished := by
  rw [verdicts, List.map_map]
  exact List.map_id _

theorem Judged.recorded (h : Judged normal start done s) :
    Recorded normal start (done.map Verdict.decided) s := by
  induction h with
  | enter => exact .enter
  | next _ step ih =>
    rw [List.map_append, State.verdicts_decided]
    exact ih.next step

theorem Recorded.judged {decided : List Fingerprint} (h : Recorded normal start decided s) :
    ∃ done, done.map Verdict.decided = decided ∧ Judged normal start done s := by
  induction h with
  | enter => exact ⟨[], rfl, .enter⟩
  | next _ step ih =>
    obtain ⟨done, rfl, h⟩ := ih
    exact ⟨_, by rw [List.map_append, State.verdicts_decided], h.next step⟩

/-- The search is faithful, it has not given up, and a node that is handed out is a term. When it is over, no frame is
left, unless it was cut short. -/
structure Stands (start : Machine) (root : NodeId) (log : CallLog) (done : List Verdict) (s : State) : Prop where
  faithful : start.Faithful root log done s.machine
  floundered : s.stats.floundered = 0
  value : ∀ i, s.outcome = .value i → Presenting s.machine i
  ended : s.outcome = .over → s.stats.stepLimitHit = true ∨ s.machine.tasks = []

/-- A step of the scheduler. -/
theorem Next.stands (step : Next (Reduction.normalize F) s finished s') (h : Stands start root log done s) :
    ∃ log', Stands start root (log ++ log') (s.verdicts finished ++ done) s' := by
  cases step with
  | @turn st st' o m m' run =>
    rcases turn_dealt h.faithful run with ⟨rfl, rfl, floundered, finished, ended⟩ | ⟨log', dealt⟩
    · refine ⟨[], ?_, floundered.trans h.floundered, nofun, fun _ => ended⟩
      rw [List.append_nil, show st'.finished = st.finished from finished, Nat.sub_self, List.take_zero]
      exact h.faithful
    · exact ⟨log', dealt.faithful, dealt.floundered.trans h.floundered, dealt.value,
        fun ended => absurd ended dealt.going⟩
  | drop st i m =>
    obtain ⟨⟨v, ts, ht⟩, t, unfolds, data⟩ := h.value i rfl
    refine ⟨[], ?_, h.floundered, nofun, nofun⟩
    obtain ⟨unbound, i', node, follows⟩ := h.faithful.tasks _ (ht ▸ List.mem_cons_self)
    cases node
    rw [tasks_decisions, ht, List.map_cons, List.take_succ_cons, List.take_zero, List.append_nil]
    refine dropped_faithful h.faithful ht fun κ heeds agrees => .yields unfolds data ?_
    exact h.faithful.reflects κ heeds _ ((follows κ.choice agrees).means.mpr (unfolds.means data))

theorem enter_stands (sound : m.Sound) (live : m.Live [] root) (simple : m.graph.SimpleFrom root) :
    Stands (enter (some root) m) root [] [] ⟨{}, .again, enter (some root) m⟩ := by
  obtain ⟨ρ, inv⟩ := sound
  refine ⟨⟨⟨ρ, enter_sound inv live⟩, List.mem_cons_self, spends_nil le_rfl fun _ _ hc _ => hc, simple,
    fun _ _ _ means => means, fun _ _ _ means => means, fun t ht => ?_, fun _ _ v hv => absurd hv List.not_mem_nil⟩,
    rfl, nofun, nofun⟩
  cases List.mem_singleton.mp ht
  exact ⟨rfl, root, rfl, fun σ _ => .refl root⟩

/-- However a search comes to a state, it is faithful there. -/
theorem Judged.stands (h : Judged (Reduction.normalize F) (Schedule.enter (some root) m) done s) (sound : m.Sound)
    (live : m.Live [] root) (simple : m.graph.SimpleFrom root) :
    ∃ log, Stands (Schedule.enter (some root) m) root log done s := by
  induction h with
  | enter => exact ⟨[], enter_stands sound live simple⟩
  | next _ step ih =>
    obtain ⟨log, stands⟩ := ih
    obtain ⟨log', stands⟩ := step.stands stands
    exact ⟨log ++ log', stands⟩

/-- When the search is over and was not cut short, exactly one of the frames that have finished agrees with an
assignment. -/
theorem Judged.one (h : Judged (Reduction.normalize F) (Schedule.enter (some root) m) done s) {log : CallLog}
    (stands : Stands (Schedule.enter (some root) m) root log done s) (ended : s.outcome = .over)
    (whole : s.stats.stepLimitHit = false) (σ : ChoiceId → Side) :
    ∃ v, done.filter (fun v => v.decided.Agrees σ) = [v] := by
  have isolated := (Reduction.reducer_moves Undisturbed F).normal
  have one := (h.recorded.partitioned isolated).one stands.floundered σ
  have empty : s.machine.tasks = [] := (stands.ended ended).resolve_left (by rw [whole]; nofun)
  rw [tasks_decisions, empty, List.map_nil, List.nil_append, List.countP_map, List.countP_eq_length_filter] at one
  exact List.length_eq_one_iff.mp one

end Schedule

end ChoiceGraph
