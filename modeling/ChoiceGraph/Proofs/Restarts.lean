import ChoiceGraph.Proofs.Conclusions

/-! # Reductions that start again

A machine that stands where a conclusion starts comes to its end, unless its slice is over before.
Then the graph that it leaves has a conclusion with the same end. So whatever slices a reduction was
given, what it comes to in a slice without a limit is what it would have come to at once. -/
namespace ChoiceGraph

namespace Machine

variable {m m' m₁ : Machine} {t t₁ : TermGraph} {id id₁ n : Nat}

/-- The machine has come to this graph and this next identifier, and nothing else has changed but the
slice. -/
structure Lands (m : Machine) (t : TermGraph) (id : Nat) (m' : Machine) : Prop where
  graph : m'.toTermGraph = t
  id : m'.nextId = id
  rest : m' = { m with graph := m'.graph, nextId := m'.nextId, slice := m'.slice }

theorem Aside.still (h : m.Aside m') (outside : m.computations = []) :
    m' = { m with graph := m'.graph, slice := m'.slice } := by
  have rest := h.rest
  rwa [h.outside outside, ← outside] at rest

theorem Reaches.stands (h : m.Reaches n t₁ m') (stands : m.Stands t id) : m'.Stands t₁ id where
  graph := h.landed
  id := by
    rw [h.changes.aside.rest]
    exact stands.id
  outside := h.changes.aside.outside stands.outside

theorem Stands.spent (h : m.Stands t id) : Stands { m with slice := m.slice.spend } t id :=
  ⟨h.graph, h.id, h.outside⟩

theorem Lands.stands (h : m.Lands t id m') (outside : m.computations = []) : m'.Stands t id where
  graph := h.graph
  id := h.id
  outside := by
    rw [h.rest]
    exact outside

theorem Lands.after (h : m₁.Lands t id m') (aside : m.Aside m₁) (outside : m.computations = []) :
    m.Lands t id m' where
  graph := h.graph
  id := h.id
  rest := by
    rw [h.rest, aside.still outside]

theorem Lands.then (h : m₁.Lands t id m') (first : m.Lands t₁ id₁ m₁) : m.Lands t id m' where
  graph := h.graph
  id := h.id
  rest := by
    rw [h.rest, first.rest]

theorem Lands.paid (h : Lands { m with slice := m.slice.spend } t id m') : m.Lands t id m' :=
  ⟨h.graph, h.id, h.rest⟩

theorem Reaches.lands (h : m.Reaches n t₁ m') (stands : m.Stands t id) : m.Lands t₁ id m' where
  graph := h.landed
  id := (h.stands stands).id
  rest := by
    rw [h.changes.aside.still stands.outside]

theorem Stands.lands_place (h : m.Stands t id) (signature : t₁.signature = t.signature) :
    m.Lands t₁ id₁ (m.place t₁ id₁) :=
  ⟨(h.place signature).graph, rfl, rfl⟩

end Machine

namespace Reduction

open Eff Machine

variable {α β : Type} {e : Eff α} {f : α → Eff β} {r : Except Stop α} {m m₁ s : Machine} {ρ : Rank}
  {i j p x : NodeId} {c : Content} {sym : Symbol} {t t₁ t₂ t₃ t' : TermGraph} {F N k n : Nat}
  {id id₁ id' : Nat} {v w : Except Stop Unit} {job job₁ : Job} {stop : Stop} {demands : List Demand}
  {act : List NodeId → Eff Unit}

/-- What depends on the graph and on the next identifier alone ends as it did before. -/
theorem draws_obeys (h : e.Replays) (draws : e.Draws t id r t' id') (stands : m.Stands t id) :
    e.Obeys F N m (fun a m' => r = .ok a ∧ m.Lands t' id' m')
      fun stop m' => r = .error stop ∧ m.Lands t' id' m' := by
  obtain ⟨run, stands', paid⟩ := h.replay draws stands
  have lands : m.Lands t' id' (m.place t' id') := ⟨stands'.graph, rfl, rfl⟩
  obtain ⟨_, _, _, ends, _⟩ := draws
  cases r with
  | ok a => exact obeys_of_ok run paid ⟨rfl, lands⟩
  | error stop =>
    refine obeys_of_error run ?_ ⟨rfl, lands⟩
    rintro rfl
    exact ends.final _ rfl

/-! ## Conclusions through indirections -/

theorem Concludes.head_through (through : t.Through i p) (h : Concludes (.head p j) t id v t' id') :
    Concludes (.head i j) t id v t' id' := by
  cases h with
  | derived d => exact .derived (d.head_through through)
  | call through' calls step spoiled => exact .call (through.trans through') calls step spoiled
  | later through' calls step rest => exact .later (through.trans through') calls step rest

theorem Concludes.normal_through (through : t.Through i p) (h : Concludes (.normal p) t id v t' id') :
    Concludes (.normal i) t id v t' id' := by
  induction through with
  | refl => exact h
  | step unfree hc _ ih => exact .through unfree hc (ih h)

/-- Once a node has its head normal form, that is normalized. -/
theorem Concludes.normal_of_value {d : Content} {index : Nat} (head : Derives (.head i j) n t t₁)
    (hd : t₁.graph.content? j = some d) (tag : d.tag = .constructor index)
    (rest : Concludes (.normal j) t₁ id v t' id') : Concludes (.normal i) t id v t' id' := by
  cases head with
  | idle through _ => exact rest.normal_through through
  | call through calls step head =>
    exact (Concludes.value calls (.call (.refl _) calls step head) hd tag rest).normal_through through

/-- A node that comes to a failure or a choice is in normal form. -/
theorem Concludes.normal_of_spoiled (head : Concludes (.head i j) t id v t' id')
    (spoiled : v = .ok () → t'.Spoiled j) : Concludes (.normal i) t id v t' id' := by
  cases head with
  | derived d =>
    cases d with
    | idle through idle =>
      obtain ⟨unfree, d, hd, tag, call⟩ := idle
      have data : ¬ d.IsData := by
        rintro ⟨⟨index, constructor⟩, -⟩
        rcases (spoiled rfl).content hd with final | final <;> cases constructor.symm.trans final
      exact .derived ((Derives.still unfree hd tag call data).normal_through through)
    | call through calls step rest =>
      exact (Concludes.stuck calls (.derived (.call (.refl _) calls step rest)) spoiled).normal_through
        through
  | call through calls step taken =>
    exact (Concludes.stuck calls (.call (.refl _) calls step taken) spoiled).normal_through through
  | later through calls step rest =>
    exact (Concludes.stuck calls (.later (.refl _) calls step rest) spoiled).normal_through through

/-! ## Jobs that are pursued -/

/-- The first argument of a job that is interrupted while it forces its arguments is no variable. -/
def Job.Bound (s : TermGraph) : Job → Prop
  | force i (.head k :: _) _ => ∀ c p a e, s.graph.content? i = some c → c.links[k]? = some p →
    s.Through p a → s.graph.content? a = some e → e.tag ≠ .free
  | _ => True

theorem Derives.bound (d : Derives job n t t') : job.Bound t := by
  cases job with
  | force i demands act =>
    rcases demands with _ | ⟨k | k, rest⟩
    · trivial
    · exact fun c p a e hc hk through ha => d.forced_not_free hc hk through ha
    · trivial
  | _ => trivial

/-- Where an interrupted job has got to: it is to come to the same end. -/
structure Job.Restarts (job : Job) (id : Nat) (v : Except Stop Unit) (t' : TermGraph) (id' : Nat)
    (m s : Machine) : Prop where
  aside : m.Aside s
  settles : m.toTermGraph.Settles s.toTermGraph
  spares : job.Spares m.toTermGraph s.toTermGraph
  bound : job.Bound s.toTermGraph
  rest : Concludes job s.toTermGraph id v t' id'

/-- The job stops as it is to stop, or its slice is over. -/
def Job.Halts (job : Job) (id : Nat) (v : Except Stop Unit) (t' : TermGraph) (id' : Nat) (m : Machine)
    (stop : Stop) (s : Machine) : Prop :=
  v = .error stop ∧ m.Lands t' id' s ∨ Cut (job.Restarts id v t' id' m) stop s

/-- Every machine that stands there comes to the end of the job, and can be started again where its
slice is over. There is an amount of fuel that is enough for that. -/
def Job.Pursues (job : Job) (t : TermGraph) (id : Nat) (v : Except Stop Unit) (t' : TermGraph)
    (id' : Nat) : Prop :=
  ∃ N, ∀ (F : Nat) (m : Machine) (ρ : Rank), m.Inv [] ρ → m.Live [] job.node → m.Stands t id →
    job.Obeys F N m (fun m' => v = .ok () ∧ m.Lands t' id' m') (job.Halts id v t' id' m)

/-- Before anything is done, all of it is left to do. -/
theorem Job.Halts.start (spares : job.Spares m.toTermGraph m.toTermGraph)
    (bound : job.Bound m.toTermGraph) (whole : Concludes job m.toTermGraph id v t' id')
    (isOver : m.slice.isOver = true) : job.Halts id v t' id' m .preempted m :=
  .inr ⟨rfl, isOver, (OnlySpends.refl m).aside, .refl _, spares, bound, whole⟩

/-- A job stops in a part of it. -/
theorem Job.Halts.part (h : job₁.Halts id v t₁ id₁ m₁ stop s) (aside : m.Aside m₁)
    (settles : m.toTermGraph.Settles m₁.toTermGraph)
    (stopped : v = .error stop → m₁.Lands t₁ id₁ s → job.Halts id w t' id' m stop s)
    (go_on : m₁.toTermGraph.Settles s.toTermGraph → job₁.Spares m₁.toTermGraph s.toTermGraph →
      job₁.Bound s.toTermGraph → Concludes job₁ s.toTermGraph id v t₁ id₁ →
        job.Spares m.toTermGraph s.toTermGraph ∧ job.Bound s.toTermGraph ∧
          Concludes job s.toTermGraph id w t' id') : job.Halts id w t' id' m stop s := by
  rcases h with ⟨final, lands⟩ | ⟨same, isOver, restarts⟩
  · exact stopped final lands
  · obtain ⟨spares, bound, rest⟩ := go_on restarts.settles restarts.spares restarts.bound restarts.rest
    exact .inr ⟨same, isOver, aside.trans restarts.aside, settles.trans restarts.settles, spares, bound,
      rest⟩

/-- A job is interrupted in a part of it that has a derivation. -/
theorem Job.Halts.derived (h : Cut (job₁.Resumes n t₁ m₁) stop s)
    (d : Derives job₁ n m₁.toTermGraph t₁) (aside : m.Aside m₁)
    (settles : m.toTermGraph.Settles m₁.toTermGraph)
    (go_on : ∀ k, m₁.toTermGraph.Settles s.toTermGraph → job₁.Spares m₁.toTermGraph s.toTermGraph →
      Derives job₁ k s.toTermGraph t₁ → job.Spares m.toTermGraph s.toTermGraph ∧
        job.Bound s.toTermGraph ∧ Concludes job s.toTermGraph id v t' id') :
    job.Halts id v t' id' m stop s := by
  obtain ⟨same, isOver, resumes⟩ := h
  have settles' := resumes.settles
  have left : m₁.Aside s ∧ ∃ k, Derives job₁ k s.toTermGraph t₁ := by
    rcases resumes.nearer with idle | ⟨aside, -, k, -, rest⟩
    · exact ⟨idle.aside, n, idle.same ▸ d⟩
    · exact ⟨aside, k, rest⟩
  obtain ⟨aside', k, rest⟩ := left
  obtain ⟨spares, bound, rest⟩ := go_on k settles' resumes.spares rest
  exact .inr ⟨same, isOver, aside.trans aside', settles.trans settles', spares, bound, rest⟩

theorem pursues_derived (d : Derives job n t t') : job.Pursues t id (.ok ()) t' id := by
  obtain ⟨N, followed⟩ := d.followed
  refine ⟨N, fun F m ρ h live stands => ?_⟩
  obtain rfl := stands.graph
  refine (followed F m ρ h live rfl).mono (fun _ done => ⟨rfl, done.lands stands⟩) fun stop s cut => ?_
  exact .derived cut d (OnlySpends.refl m).aside (.refl _) fun k _ spares again =>
    ⟨spares, again.bound, .derived again⟩

/-! ## Head normal forms -/

theorem pursues_call (through : t.Through i p) (calls : t.Calls p c sym)
    (cstep : Concludes (.step p) t id v t' id') (spoiled : v = .ok () → j = p ∧ t'.Spoiled p)
    (step : Job.Pursues (.step p) t id v t' id') : Job.Pursues (.head i j) t id v t' id' := by
  obtain ⟨N, step⟩ := step
  refine ⟨max N 1 + 1, fun F m ρ h live stands => ?_⟩
  obtain rfl := stands.graph
  have stepped : ∀ F, (Job.step p).Obeys F (max N 1) { m with slice := m.slice.spend }
      (fun m' => v = .ok () ∧ m.Lands t' id' m') (Job.Halts (.head i j) id v t' id' m) := by
    intro F
    refine ((step F _ ρ h.spent (live.leads through.leads) stands.spent).more (le_max_left N 1)).mono
      (fun _ ⟨done, lands⟩ => ⟨done, lands.paid⟩) fun stop s halts => ?_
    refine halts.part (OnlySpends.spent m).aside (.refl _) (fun final lands => .inl ⟨final, lands.paid⟩)
      fun settles spares _ again => ?_
    obtain ⟨c', hc', alike⟩ := spares c calls.content
    have through' := settles.through through
    have calls' := calls.alike settles hc' alike
    exact ⟨⟨p, c', sym, through', calls'⟩, trivial, .call through' calls' again spoiled⟩
  refine head_call_obeys h live through calls (.start ⟨p, c, sym, through, calls⟩ trivial
    (.call through calls cstep spoiled)) stepped ?_
  rintro F m₁ ρ₁ h₁ live₁ ⟨done, lands⟩
  obtain ⟨rfl, taken⟩ := spoiled done
  have idle := (lands.graph.symm ▸ taken : m₁.toTermGraph.Spoiled j).idle h₁ live₁
  exact (head_idle_obeys (N := 0) h₁ live₁ (.refl j) idle ⟨done, lands⟩).more (le_max_right N 1)

theorem pursues_later (through : t.Through i p) (calls : t.Calls p c sym)
    (dstep : Derives (.step p) n t t₁) (crest : Concludes (.head p j) t₁ id v t' id')
    (rest : Job.Pursues (.head p j) t₁ id v t' id') : Job.Pursues (.head i j) t id v t' id' := by
  obtain ⟨N₁, step⟩ := dstep.followed
  obtain ⟨N₂, rest⟩ := rest
  refine ⟨max N₁ N₂ + 1, fun F m ρ h live stands => ?_⟩
  obtain rfl := stands.graph
  have stepped : ∀ F, (Job.step p).Obeys F (max N₁ N₂) { m with slice := m.slice.spend }
      (m.Reaches n t₁) (Job.Halts (.head i j) id v t' id' m) := by
    intro F
    refine ((step F _ ρ h.spent (live.leads through.leads) rfl).more (le_max_left N₁ N₂)).mono
      (fun _ done => done.paid) fun stop s cut => ?_
    refine .derived cut dstep (OnlySpends.spent m).aside (.refl _) fun k settles spares again => ?_
    obtain ⟨c', hc', alike⟩ := spares c calls.content
    have through' := settles.through through
    have calls' := calls.alike settles hc' alike
    exact ⟨⟨p, c', sym, through', calls'⟩, trivial, .later through' calls' again crest⟩
  refine head_call_obeys h live through calls (.start ⟨p, c, sym, through, calls⟩ trivial
    (.later through calls dstep crest)) stepped ?_
  intro F m₁ ρ₁ h₁ live₁ reached
  have aside := reached.changes.aside
  refine ((rest F m₁ ρ₁ h₁ live₁ (reached.stands stands)).more (le_max_right N₁ N₂)).mono
    (fun _ ⟨done, lands⟩ => ⟨done, lands.after aside stands.outside⟩) fun stop s halts => ?_
  obtain rfl := reached.landed
  refine halts.part aside dstep.settles
    (fun final lands => .inl ⟨final, lands.after aside stands.outside⟩)
    fun settles ⟨q, d, sym', leads, busy⟩ _ again => ?_
  have through' := settles.through (dstep.settles.through through)
  exact ⟨⟨q, d, sym', through'.trans leads, busy⟩, trivial, again.head_through through'⟩

/-! ## Head steps -/

theorem pursues_choose (calls : t.Calls i c sym) (head : sym.head = .choose)
    (draws : (stepChoose i).Draws t id v t' id') : Job.Pursues (.step i) t id v t' id' := by
  refine ⟨0, fun F m ρ h live stands => ?_⟩
  obtain rfl := stands.graph
  refine obeys_look_bind (TermGraph.symbol_content calls.content calls.symbol) ?_
  rw [head]
  exact (draws_obeys (stepChoose_replays i) draws stands).mono (fun _ _ done => done)
    fun _ _ stopped => .inl stopped

theorem pursues_forward (calls : t.Calls i c sym) (head : sym.head = .forward)
    (hk : c.links[0]? = some p) (rest : Job.Pursues (.head p x) t id (.error stop) t' id') :
    Job.Pursues (.step i) t id (.error stop) t' id' := by
  obtain ⟨N, rest⟩ := rest
  refine ⟨N, fun F m ρ h live stands => ?_⟩
  obtain rfl := stands.graph
  have w := (site_below h live calls.content calls.call.2).site
  have below := w.link hk
  refine obeys_look_bind (TermGraph.symbol_content calls.content calls.symbol) ?_
  rw [head]
  refine obeys_look_bind (h.read_successor live calls.content hk) (obeys_look_bind rfl ?_)
  refine Obeys.bind ((Eff.Obeys.meets (rest F m ρ h below.1 stands)
    ((reducer_sound F).head m ρ p h below.1)).mono (fun _ _ done => done) ?_) ?_
  · rintro stop' s ⟨halts, ρ', ev⟩
    refine halts.part (OnlySpends.refl m).aside (.refl _) (fun final lands => .inl ⟨final, lands⟩)
      fun settles _ _ again => ?_
    have kept := (w.spare below.2 hk ev).1.content
    have calls' := calls.alike settles kept (.refl (fun _ => True) c)
    exact ⟨spares_step calls.content kept (.refl (fun _ => True) c), trivial,
      .forward calls' head hk again⟩
  · rintro _ m₁ - ⟨⟨-, done, -⟩, -⟩
    cases done

theorem pursues_strict (calls : t.Calls i c sym) (strict : Strict i sym.head demands act)
    (unbound : sym.head = .unify → ¬ t.BothFree c)
    (force : Job.Pursues (.force i demands act) t id v t' id') : Job.Pursues (.step i) t id v t' id' := by
  obtain ⟨N, force⟩ := force
  refine ⟨N, fun F m ρ h live stands => ?_⟩
  obtain rfl := stands.graph
  refine step_strict_obeys h live calls strict unbound ?_
  refine (force F m ρ h live stands).mono (fun _ done => done) fun stop s halts => ?_
  refine halts.part (OnlySpends.refl m).aside (.refl _) (fun final lands => .inl ⟨final, lands⟩)
    fun settles spares bound again => ?_
  obtain ⟨c', calls', alike⟩ := calls_spared calls settles spares
  refine ⟨spares_step calls.content calls'.content alike, trivial,
    .strict calls' strict (fun head => ?_) again⟩
  obtain ⟨rest, rfl⟩ := (head ▸ strict).unifies
  rintro ⟨p, q, a, b, d, e, hp, -, through, -, ha, -, free, -⟩
  exact bound c' p a d calls'.content hp through ha free

/-! ## Forced arguments -/

theorem pursues_fails (confined : (act []).Confined (Only i))
    (draws : (act []).Draws t id (.error stop) t' id') :
    Job.Pursues (.force i [] act) t id (.error stop) t' id' := by
  refine ⟨0, fun F m ρ h live stands => ?_⟩
  refine (draws_obeys confined.toLocal.replays draws stands).mono (fun _ _ ⟨done, _⟩ => ?_)
    fun stop' _ ⟨final, lands⟩ => .inl ⟨?_, lands⟩
  · cases done
  · cases final
    rfl

theorem Ensues.halts {e : Eff α} {a : α} (h : Ensues e a v t₁ id₁ w t' id') (final : v = .error stop)
    (lands : m.Lands t₁ id₁ s) : job.Halts id w t' id' m stop s := by
  cases h with
  | draws => cases final
  | stopped =>
    cases final
    exact .inl ⟨rfl, lands⟩

/-- What is done with an argument after its part of the job is the end of the job. -/
theorem Ensues.obeys {e : Eff α} {a : α} {K : α → Eff Unit} (h : Ensues e a v t₁ id₁ w t' id')
    (replays : e.Replays) (done : v = .ok ()) (lands : m.Lands t₁ id₁ m₁)
    (outside : m.computations = []) (last : K a = pure ()) :
    (e >>= K).Obeys F N m₁ (fun _ m' => w = .ok () ∧ m.Lands t' id' m') (job.Halts id w t' id' m) := by
  cases h with
  | stopped => cases done
  | draws draws =>
    refine Obeys.bind ((draws_obeys replays draws (lands.stands outside)).mono (fun _ _ done => done)
      fun stop s ⟨final, lands'⟩ => .inl ⟨?_, lands'.then lands⟩) ?_
    · cases w with
      | ok _ => cases final
      | error stop' =>
        cases final
        rfl
    · intro b m₂ _ ⟨final, lands'⟩
      cases w with
      | error stop' => cases final
      | ok _ =>
        cases final
        rw [last]
        exact obeys_pure ⟨rfl, lands'.then lands⟩

variable {d : Demand}

theorem bound_of_busy (hc : t.graph.content? i = some c) (hk : c.links[d.index]? = some p)
    (busy : (Job.head p x).Spares t₁ t) : (Job.force i (d :: demands) act).Bound t := by
  cases d with
  | normal => trivial
  | head k =>
    obtain ⟨q, c', sym, through, calls⟩ := busy
    intro c₁ p₁ a e hc₁ hk₁ through' ha free
    cases hc.symm.trans hc₁
    cases hk.symm.trans hk₁
    have tag : e.tag ≠ .forward := by
      rw [free]
      nofun
    cases leads_unique through'.leads through.leads ha tag calls.content calls.call.not_forward
    cases ha.symm.trans calls.content
    exact nomatch free.symm.trans calls.call.1

theorem bound_of_filled (hc : t.graph.content? i = some c) (hk : c.links[d.index]? = some x)
    (filled : t.Filled x) : (Job.force i (d :: demands) act).Bound t := by
  cases d with
  | normal => trivial
  | head k =>
    obtain ⟨d, hd, shape⟩ := filled
    intro c₁ p₁ a e hc₁ hk₁ through ha free
    cases hc.symm.trans hc₁
    cases hk.symm.trans hk₁
    have tag : d.tag ≠ .forward := by
      rcases shape with shape | ⟨index, shape⟩ <;> rw [shape] <;> nofun
    cases through.eq hd tag
    cases ha.symm.trans hd
    rcases shape with shape | ⟨index, shape⟩ <;> cases free.symm.trans shape

/-- An argument that was forced before is forced once more. -/
theorem Concludes.head_again (calls : t.Calls i c sym) (hk : c.links[k]? = some x)
    (apart : ∀ d ∈ demands, d.index ≠ k) (idle : t.Idle x) (filled : t.Filled x)
    (rest : Concludes (.force i demands fun xs => act (x :: xs)) t id v t' id') :
    Concludes (.force i (.head k :: demands) act) t id v t' id' :=
  .passed calls hk apart (.head_idle idle) calls (.kept rfl) filled rest

theorem Concludes.normal_again (calls : t.Calls i c sym) (hk : c.links[k]? = some x)
    (apart : ∀ d ∈ demands, d.index ≠ k) (normal : t.Normal x) (filled : t.Filled x)
    (rest : Concludes (.force i demands fun xs => act (x :: xs)) t id v t' id') :
    Concludes (.force i (.normal k :: demands) act) t id v t' id' :=
  .normalized calls hk apart (.head_idle normal.idle) calls (.kept rfl) filled
    (.normal_idle normal) filled rfl rest

theorem pursues_argument (calls : t.Calls i c sym) (hk : c.links[d.index]? = some p)
    (ensues : Ensues (takeArg i d.index (some p) x) .taken v t₁ id₁ w t' id')
    (head : Job.Pursues (.head p x) t id v t₁ id₁) :
    Job.Pursues (.force i (d :: demands) act) t id w t' id' := by
  obtain ⟨N, head⟩ := head
  refine ⟨N, fun F m ρ h live stands => ?_⟩
  obtain rfl := stands.graph
  have below := (site_below h live calls.content calls.call.2).site.link hk
  refine force_obeys h live calls hk (head F m ρ h below.1 stands) ?_ ?_
  · intro stop s halts kept
    refine halts.part (OnlySpends.refl m).aside (.refl _) ensues.halts fun settles busy _ again => ?_
    have calls' := calls.alike settles kept (.refl (fun _ => True) c)
    exact ⟨spares_force calls.content kept (.refl _ c), bound_of_busy kept hk busy,
      .argument calls' hk again ensues⟩
  · intro m₁ ρ₁ w₁ _ ⟨done, lands⟩
    exact ensues.obeys (takeArg_replays i d.index (some p) x) done lands stands.outside d.go_taken

/-- What is left of a job is pursued on every machine that its first argument has been forced on. -/
def GoesOn (i : NodeId) (d : Demand) (demands : List Demand) (act : List NodeId → Eff Unit)
    (c : Content) (x : NodeId) (t t₂ : TermGraph) (id : Nat) (v : Except Stop Unit) (t' : TermGraph)
    (id' : Nat) : Prop :=
  ∃ N, ∀ (F : Nat) (m m₂ : Machine) (ρ ρ₂ : Rank), m.Stands t id → m.Aside m₂ → m₂.Stands t₂ id →
    m₂.Site (.below (ρ i)) ρ₂ i (c.setLink d.index x) →
      (d.go (reducer F) i (forceNext (reducer F) i demands act) (.value x)).Obeys F N m₂
        (fun _ m' => v = .ok () ∧ m.Lands t' id' m')
        ((Job.force i (d :: demands) act).Halts id v t' id' m)

/-- The first argument has a derivation. -/
theorem pursues_forced {r : Nat} (calls : t.Calls i c sym) (hk : c.links[d.index]? = some p)
    (dhead : Derives (.head p x) n t t₁) (relinks : t₁.Relinks i c d.index p x r t₂)
    (filled : t₂.Filled x) (again : ∀ k s, s.Calls i c sym → Derives (.head p x) k s t₁ →
      Concludes (.force i (d :: demands) act) s id v t' id')
    (rest : GoesOn i d demands act c x t t₂ id v t' id') :
    Job.Pursues (.force i (d :: demands) act) t id v t' id' := by
  obtain ⟨N₁, head⟩ := dhead.followed
  obtain ⟨N₂, rest⟩ := rest
  refine ⟨max N₁ N₂, fun F m ρ h live stands => ?_⟩
  obtain rfl := stands.graph
  have below := (site_below h live calls.content calls.call.2).site.link hk
  have arg := (head F m ρ h below.1 rfl).more (le_max_left N₁ N₂)
  refine forced_obeys h live calls hk arg relinks filled ?_ ?_
  · intro stop s cut kept
    refine .derived cut dhead (OnlySpends.refl m).aside (.refl _) fun k settles busy left => ?_
    have calls' := calls.alike settles kept (.refl (fun _ => True) c)
    exact ⟨spares_force calls.content kept (.refl _ c), bound_of_busy kept hk busy,
      again k _ calls' left⟩
  · intro m₂ ρ₂ w₂ reached
    exact (rest F m m₂ ρ ρ₂ stands reached.changes.aside (reached.stands stands) w₂).more
      (le_max_right N₁ N₂)

theorem pursues_passed {r : Nat} (calls : t.Calls i c sym) (hk : c.links[k]? = some p)
    (apart : ∀ d ∈ demands, d.index ≠ k) (dhead : Derives (.head p x) n t t₁)
    (calls' : t₁.Calls i c sym) (relinks : t₁.Relinks i c k p x r t₂) (filled : t₂.Filled x)
    (crest : Concludes (.force i demands fun xs => act (x :: xs)) t₂ id v t' id')
    (rest : Job.Pursues (.force i demands fun xs => act (x :: xs)) t₂ id v t' id') :
    Job.Pursues (.force i (.head k :: demands) act) t id v t' id' := by
  obtain ⟨N, rest⟩ := rest
  refine pursues_forced (d := .head k) calls hk dhead relinks filled (fun n s calls₁ again =>
    .passed calls₁ hk apart again calls' relinks filled crest)
    ⟨N, fun F m m₂ ρ ρ₂ stands aside at_ w₂ => ?_⟩
  obtain ⟨through, idle⟩ := dhead.head_result
  have relinked := relinks.settles calls'.content hk through idle (.inl calls'.call)
  obtain ⟨c₂, hc₂, link, alike⟩ := relinks.content calls'.content hk
  have calls₂ := calls'.alike relinked hc₂ alike
  obtain rfl := stands.graph
  obtain rfl := at_.graph
  refine (rest F m₂ ρ₂ w₂.inv w₂.live at_).mono
    (fun _ ⟨done, lands⟩ => ⟨done, lands.after aside stands.outside⟩) fun stop s halts => ?_
  refine halts.part aside (dhead.settles.trans relinked)
    (fun final lands => .inl ⟨final, lands.after aside stands.outside⟩) fun settles spares _ again => ?_
  obtain ⟨c', calls₃, alike'⟩ := calls_spared calls₂ settles spares
  have link' := (alike'.links k apart).trans link
  have filled' := filled.settles (relinked.idle idle) settles
  exact ⟨spares_force calls.content calls₃.content (alike.cons (d := .head k) alike'),
    bound_of_filled calls₃.content link' filled',
    again.head_again calls₃ link' apart ((relinked.trans settles).idle idle) filled'⟩

theorem pursues_normal {r id₃ : Nat} (calls : t.Calls i c sym) (hk : c.links[k]? = some p)
    (dhead : Derives (.head p x) n t t₁) (calls' : t₁.Calls i c sym)
    (relinks : t₁.Relinks i c k p x r t₂) (filled : t₂.Filled x)
    (cnormal : Concludes (.normal x) t₂ id v t₃ id₃)
    (ensues : Ensues (resettle i k x) .taken v t₃ id₃ w t' id')
    (normal : Job.Pursues (.normal x) t₂ id v t₃ id₃) :
    Job.Pursues (.force i (.normal k :: demands) act) t id w t' id' := by
  obtain ⟨N, normal⟩ := normal
  refine pursues_forced (d := .normal k) calls hk dhead relinks filled (fun n s calls₁ again =>
    .normal calls₁ hk again calls' relinks filled cnormal ensues)
    ⟨N, fun F m m₂ ρ ρ₂ stands aside at_ w₂ => ?_⟩
  obtain ⟨through, idle⟩ := dhead.head_result
  have relinked := relinks.settles calls'.content hk through idle (.inl calls'.call)
  have idle₂ := relinked.idle idle
  have alike : c.Alike (· ≠ k) (c.setLink k x) := Content.setLink_alike k x
  have hk₂ := Content.setLink_self (i := x) hk
  obtain rfl := stands.graph
  obtain rfl := at_.graph
  have calls₂ := calls'.alike relinked w₂.content alike
  refine normalized_obeys w₂ hk₂ (normal F m₂ ρ₂ w₂.inv (w₂.link hk₂).1 at_) ?_ ?_
  · intro stop s halts kept
    refine halts.part aside (dhead.settles.trans relinked)
      (fun final lands => ensues.halts final (lands.after aside stands.outside))
      fun settles _ _ again => ?_
    have calls₃ := calls₂.alike settles kept (.refl (fun _ => True) _)
    exact ⟨spares_force calls.content kept (alike.cons (d := .normal k) (.refl _ _)), trivial, .normal
      calls₃ hk₂ (.head_idle (settles.idle idle₂)) calls₃ (.kept rfl) (filled.settles idle₂ settles)
      again ensues⟩
  · intro m₃ ρ₃ _ ⟨done, lands⟩
    exact ensues.obeys (resettle_replays i k x) done (lands.after aside stands.outside) stands.outside
      rfl

theorem pursues_normalized {r n₂ : Nat} (calls : t.Calls i c sym) (hk : c.links[k]? = some p)
    (apart : ∀ d ∈ demands, d.index ≠ k) (dhead : Derives (.head p x) n t t₁)
    (calls' : t₁.Calls i c sym) (relinks : t₁.Relinks i c k p x r t₂) (filled : t₂.Filled x)
    (dnormal : Derives (.normal x) n₂ t₂ t₃) (filled' : t₃.Filled x)
    (still : t₃.graph.content? i = t₂.graph.content? i)
    (crest : Concludes (.force i demands fun xs => act (x :: xs)) t₃ id v t' id')
    (rest : Job.Pursues (.force i demands fun xs => act (x :: xs)) t₃ id v t' id') :
    Job.Pursues (.force i (.normal k :: demands) act) t id v t' id' := by
  obtain ⟨N₁, normal⟩ := dnormal.followed
  obtain ⟨N₂, rest⟩ := rest
  refine pursues_forced (d := .normal k) calls hk dhead relinks filled (fun n s calls₁ again =>
    .normalized calls₁ hk apart again calls' relinks filled dnormal filled' still crest)
    ⟨max N₁ N₂, fun F m m₂ ρ ρ₂ stands aside at_ w₂ => ?_⟩
  obtain ⟨through, idle⟩ := dhead.head_result
  have relinked := relinks.settles calls'.content hk through idle (.inl calls'.call)
  have idle₂ := relinked.idle idle
  have alike : c.Alike (· ≠ k) (c.setLink k x) := Content.setLink_alike k x
  have hk₂ := Content.setLink_self (i := x) hk
  obtain rfl := stands.graph
  obtain rfl := at_.graph
  have calls₂ := calls'.alike relinked w₂.content alike
  have normalized := (normal F m₂ ρ₂ w₂.inv (w₂.link hk₂).1 rfl).more (le_max_left N₁ N₂)
  refine normalized_obeys w₂ hk₂ normalized ?_ ?_
  · intro stop s cut kept
    refine .derived cut dnormal aside (dhead.settles.trans relinked) fun n settles _ again => ?_
    have calls₃ := calls₂.alike settles kept (.refl (fun _ => True) _)
    exact ⟨spares_force calls.content kept (alike.cons (d := .normal k) (.refl _ _)), trivial,
      .normalized calls₃ hk₂ apart
      (.head_idle (settles.idle idle₂)) calls₃ (.kept rfl) (filled.settles idle₂ settles) again filled'
      (still.trans (w₂.content.trans kept.symm)) crest⟩
  intro m₃ ρ₃ w₃ reached
  have at₃ := reached.stands at_
  have aside₃ := aside.trans reached.changes.aside
  obtain rfl := reached.landed
  obtain ⟨d, hd, -, good⟩ := filled'.tag
  refine obeys_still_bind (resettle_filled w₃ hk₂ filled') ?_
  refine ((rest F m₃ ρ₃ w₃.inv w₃.live at₃).more (le_max_right N₁ N₂)).mono
    (fun _ ⟨done, lands⟩ => ⟨done, lands.after aside₃ stands.outside⟩) fun stop s halts => ?_
  refine halts.part aside₃ ((dhead.settles.trans relinked).trans dnormal.settles)
    (fun final lands => .inl ⟨final, lands.after aside₃ stands.outside⟩) fun settles spares _ again => ?_
  have calls₃ := calls₂.alike dnormal.settles w₃.content (.refl (fun _ => True) _)
  obtain ⟨c', calls₄, alike'⟩ := calls_spared calls₃ settles spares
  have idle₃ := dnormal.settles.idle idle₂
  have final := dnormal.normal_result (.refl x) idle₃ ⟨d, hd, good⟩
  exact ⟨spares_force calls.content calls₄.content (alike.cons (d := .normal k) alike'), trivial,
    again.normal_again calls₄ ((alike'.links k apart).trans hk₂) apart (settles.normal final)
      (filled'.settles idle₃ settles)⟩

/-! ## Normal forms -/

theorem pursues_through {symbol aux : Nat} (unfree : i ∉ t.graph.free)
    (hc : t.graph.content? i = some ⟨.forward, symbol, aux, .links [p]⟩)
    (crest : Concludes (.normal p) t id v t' id') (rest : Job.Pursues (.normal p) t id v t' id') :
    Job.Pursues (.normal i) t id v t' id' := by
  obtain ⟨N, rest⟩ := rest
  refine ⟨N + 1, fun F m ρ h live stands => ?_⟩
  obtain rfl := stands.graph
  refine normal_through_obeys h live hc (.start trivial trivial (.through unfree hc crest)) fun F => ?_
  refine (rest F _ ρ h.spent (live.link hc List.mem_cons_self) stands.spent).mono
    (fun _ ⟨done, lands⟩ => ⟨done, lands.paid⟩) fun stop s halts => ?_
  refine halts.part (OnlySpends.spent m).aside (.refl _) (fun final lands => .inl ⟨final, lands.paid⟩)
    fun settles _ _ again => ⟨trivial, trivial, ?_⟩
  exact again.normal_through (settles.through (.step unfree hc (.refl p)))

theorem pursues_stuck (calls : t.Calls i c sym) (chead : Concludes (.head i j) t id v t' id')
    (spoiled : v = .ok () → t'.Spoiled j) (head : Job.Pursues (.head i j) t id v t' id') :
    Job.Pursues (.normal i) t id v t' id' := by
  obtain ⟨N, head⟩ := head
  refine ⟨N + 1, fun F m ρ h live stands => ?_⟩
  obtain rfl := stands.graph
  have headed : ∀ F, (Job.head i j).Obeys F N { m with slice := m.slice.spend }
      (fun m' => v = .ok () ∧ m.Lands t' id' m') (Job.Halts (.normal i) id v t' id' m) := by
    intro F
    refine (head F _ ρ h.spent live stands.spent).mono (fun _ ⟨done, lands⟩ => ⟨done, lands.paid⟩)
      fun stop s halts => ?_
    refine halts.part (OnlySpends.spent m).aside (.refl _)
      (fun final lands => .inl ⟨final, lands.paid⟩) fun _ _ _ again => ⟨trivial, trivial, ?_⟩
    exact again.normal_of_spoiled spoiled
  refine normal_call_obeys h live calls (.start trivial trivial (.stuck calls chead spoiled)) headed ?_
  rintro F m₁ ρ₁ h₁ live₁ ⟨done, lands⟩
  have taken : m₁.toTermGraph.Spoiled j := lands.graph.symm ▸ spoiled done
  obtain ⟨d, hd, -⟩ := h₁.fits j live₁
  refine takeHead_stuck h₁ live₁ hd (fun index constructor => ?_) ⟨done, lands⟩
  rcases taken.content hd with final | final <;> cases constructor.symm.trans final

theorem pursues_value {d : Content} {index : Nat} (calls : t.Calls i c sym)
    (dhead : Derives (.head i j) n t t₁) (hd : t₁.graph.content? j = some d)
    (tag : d.tag = .constructor index) (crest : Concludes (.normal j) t₁ id v t' id')
    (rest : Job.Pursues (.normal j) t₁ id v t' id') : Job.Pursues (.normal i) t id v t' id' := by
  obtain ⟨N₁, head⟩ := dhead.followed
  obtain ⟨N₂, rest⟩ := rest
  refine ⟨max N₁ N₂ + 1, fun F m ρ h live stands => ?_⟩
  obtain rfl := stands.graph
  have headed : ∀ F, (Job.head i j).Obeys F (max N₁ N₂) { m with slice := m.slice.spend }
      (m.Reaches n t₁) (Job.Halts (.normal i) id v t' id' m) := by
    intro F
    refine ((head F _ ρ h.spent live rfl).more (le_max_left N₁ N₂)).mono (fun _ done => done.paid)
      fun stop s cut => ?_
    exact .derived cut dhead (OnlySpends.spent m).aside (.refl _) fun k _ _ again =>
      ⟨trivial, trivial, .normal_of_value again hd tag crest⟩
  refine normal_call_obeys h live calls (.start trivial trivial (.value calls dhead hd tag crest))
    headed ?_
  intro F m₁ ρ₁ h₁ live₁ reached
  have aside := reached.changes.aside
  have at_ := reached.stands stands
  obtain rfl := reached.landed
  refine takeHead_value hd tag (((rest F m₁ ρ₁ h₁ live₁ at_).more (le_max_right N₁ N₂)).mono
    (fun _ ⟨done, lands⟩ => ⟨done, lands.after aside stands.outside⟩) fun stop s halts => ?_)
  refine halts.part aside dhead.settles
    (fun final lands => .inl ⟨final, lands.after aside stands.outside⟩)
    fun settles _ _ again => ⟨trivial, trivial, ?_⟩
  exact again.normal_through (settles.through dhead.head_result.1)

theorem pursues_data (data : t.Data i c) (cfields : Concludes (.fields i c.links.length 0) t id v t' id')
    (fields : Job.Pursues (.fields i c.links.length 0) t id v t' id') :
    Job.Pursues (.normal i) t id v t' id' := by
  obtain ⟨N, fields⟩ := fields
  refine ⟨N + 1, fun F m ρ h live stands => ?_⟩
  obtain rfl := stands.graph
  refine normal_data_obeys h live data (.start trivial trivial (.data data cfields)) fun F => ?_
  refine (fields F _ ρ h.spent live stands.spent).mono (fun _ ⟨done, lands⟩ => ⟨done, lands.paid⟩)
    fun stop s halts => ?_
  refine halts.part (OnlySpends.spent m).aside (.refl _) (fun final lands => .inl ⟨final, lands.paid⟩)
    fun settles _ _ again => ⟨trivial, trivial, ?_⟩
  obtain ⟨c', data', kept⟩ := data.settles settles
  rw [← kept.head.2.2.2] at again
  exact .data data' again

theorem pursues_field {count : Nat} (data : t.Data i c) (hk : c.links[k]? = some p)
    (spoiled : v = .ok () → ∃ x, t₁.graph.Leads p x ∧ t₁.Spoiled x)
    (ensues : Ensues (surface i k p) () v t₁ id₁ w t' id')
    (normal : Job.Pursues (.normal p) t id v t₁ id₁) :
    Job.Pursues (.fields i (count + 1) k) t id w t' id' := by
  obtain ⟨N, normal⟩ := normal
  refine ⟨N, fun F m ρ h live stands => ?_⟩
  obtain rfl := stands.graph
  have below := (site_below h live data.content data.data.plain).site.link hk
  refine fields_obeys h live data hk (normal F m ρ h below.1 stands) ?_ ?_
  · intro stop s halts kept
    refine halts.part (OnlySpends.refl m).aside (.refl _) ensues.halts
      fun settles _ _ again => ⟨trivial, trivial, ?_⟩
    have data' : s.toTermGraph.Data i c := ⟨settles.unfree i data.unfree, kept, data.data⟩
    exact .field data' hk again spoiled ensues
  · intro m₁ ρ₁ w₁ ⟨done, lands⟩
    obtain ⟨x, leads, taken⟩ := spoiled done
    obtain rfl := lands.graph
    obtain ⟨-, e, he, tag, -⟩ := taken.idle w₁.inv ((w₁.link hk).1.leads leads)
    have skip := w₁.inv.skip_eq (w₁.link hk).1 leads he tag
    have last : surface i k p = surface i k p >>= pure := (bind_pure _).symm
    refine Eff.Obeys.congr ?_ (takeField_surface (reducer F) skip taken)
    rw [last]
    exact ensues.obeys (surface_replays i k p) done lands stands.outside rfl

theorem pursues_fields {c₁ : Content} {count r : Nat} (data : t.Data i c) (hk : c.links[k]? = some p)
    (dnormal : Derives (.normal p) n t t₁) (through : t₁.Through p x) (idle : t₁.Idle x)
    (data' : t₁.Data i c₁) (hk' : c₁.links[k]? = some p) (relinks : t₁.Relinks i c₁ k p x r t₂)
    (good : t₂.Determinate x) (crest : Concludes (.fields i count (k + 1)) t₂ id v t' id')
    (rest : Job.Pursues (.fields i count (k + 1)) t₂ id v t' id') :
    Job.Pursues (.fields i (count + 1) k) t id v t' id' := by
  obtain ⟨N₁, normal⟩ := dnormal.followed
  obtain ⟨N₂, rest⟩ := rest
  refine ⟨max N₁ N₂, fun F m ρ h live stands => ?_⟩
  obtain rfl := stands.graph
  have below := (site_below h live data.content data.data.plain).site.link hk
  have relinked := relinks.settles data'.content hk' through idle (.inr data'.data)
  have normalized := (normal F m ρ h below.1 rfl).more (le_max_left N₁ N₂)
  refine fields_obeys h live data hk normalized ?_ ?_
  · intro stop s cut kept
    refine .derived cut dnormal (OnlySpends.refl m).aside (.refl _)
      fun n settles _ again => ⟨trivial, trivial, ?_⟩
    have data₁ : s.toTermGraph.Data i c := ⟨settles.unfree i data.unfree, kept, data.data⟩
    exact .fields data₁ hk again through idle data' hk' relinks good crest
  intro m₁ ρ₁ w₁ reached₁
  have aside₁ := reached₁.changes.aside
  have at₁ := reached₁.stands stands
  obtain rfl := reached₁.landed
  cases w₁.content.symm.trans data'.content
  refine takeField_obeys w₁ hk through idle relinks good fun m₂ ρ₂ w₂ reached₂ => ?_
  have aside := aside₁.trans reached₂.changes.aside
  have at₂ := reached₂.stands at₁
  obtain rfl := reached₂.landed
  refine ((rest F m₂ ρ₂ w₂.inv w₂.live at₂).more (le_max_right N₁ N₂)).mono
    (fun _ ⟨done, lands⟩ => ⟨done, lands.after aside stands.outside⟩) fun stop s halts => ?_
  refine halts.part aside (dnormal.settles.trans relinked)
    (fun final lands => .inl ⟨final, lands.after aside stands.outside⟩)
    fun settles _ _ again => ⟨trivial, trivial, ?_⟩
  have idle₂ := relinked.idle idle
  have data₂ : m₂.toTermGraph.Data i (c.setLink k x) :=
    ⟨relinked.unfree i data'.unfree, w₂.content, data.data⟩
  obtain ⟨c', data₃, kept⟩ := data₂.settles settles
  have final := settles.normal (relinked.normal
    (dnormal.normal_result through idle ((relinked.determinate idle).mp good)))
  exact .fields data₃ (kept.link (Content.setLink_self hk) idle₂) (.normal_idle final) (.refl x)
    final.idle data₃ (kept.link (Content.setLink_self hk) idle₂) (.kept rfl) final.determinate again

/-! ## Every conclusion is pursued -/

theorem Concludes.pursued (h : Concludes job t id v t' id') : job.Pursues t id v t' id' := by
  induction h with
  | derived d => exact pursues_derived d
  | call through calls step spoiled ih => exact pursues_call through calls step spoiled ih
  | later through calls step rest ih => exact pursues_later through calls step rest ih
  | choose calls head draws => exact pursues_choose calls head draws
  | forward calls head hk rest ih => exact pursues_forward calls head hk ih
  | strict calls strict unbound _ ih => exact pursues_strict calls strict unbound ih
  | fails confined draws => exact pursues_fails confined draws
  | argument calls hk _ ensues ih => exact pursues_argument calls hk ensues ih
  | passed calls hk apart head calls' relinks filled rest ih =>
    exact pursues_passed calls hk apart head calls' relinks filled rest ih
  | normal calls hk head calls' relinks filled normal ensues ih =>
    exact pursues_normal calls hk head calls' relinks filled normal ensues ih
  | normalized calls hk apart head calls' relinks filled normal filled' still rest ih =>
    exact pursues_normalized calls hk apart head calls' relinks filled normal filled' still rest ih
  | through unfree hc rest ih => exact pursues_through unfree hc rest ih
  | stuck calls head spoiled ih => exact pursues_stuck calls head spoiled ih
  | value calls head hd tag rest ih => exact pursues_value calls head hd tag rest ih
  | data data fields ih => exact pursues_data data fields ih
  | field data hk _ spoiled ensues ih => exact pursues_field data hk spoiled ensues ih
  | fields data hk normal through idle data' hk' relinks good rest ih =>
    exact pursues_fields data hk normal through idle data' hk' relinks good rest ih

end Reduction

end ChoiceGraph
