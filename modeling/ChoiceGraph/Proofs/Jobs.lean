import ChoiceGraph.Proofs.Derivations
import ChoiceGraph.Proofs.Slices

/-! # Jobs on machines

What a machine does for a job of each form: it runs up to a part of the job, and goes on from where
the part has left it. So a job obeys what its parts obey. Whatever is forced below a call leaves the
call as it was, and a step that is paid for changes nothing before that. -/
namespace ChoiceGraph

namespace Machine

/-- So many changes of the graph lead from one machine to the other; with none, only the slice is
spent. -/
structure Changes (m : Machine) (n : Nat) (m' : Machine) : Prop where
  aside : m.Aside m'
  still : n = 0 → m.OnlySpends m'

theorem OnlySpends.changes {m m' : Machine} (h : m.OnlySpends m') (n : Nat) : m.Changes n m' :=
  ⟨h.aside, fun _ => h⟩

/-- The term graph has come to be this one in so many changes. -/
structure Reaches (m : Machine) (n : Nat) (t : TermGraph) (m' : Machine) : Prop where
  landed : m'.toTermGraph = t
  changes : m.Changes n m'

theorem Reaches.after {m m₁ m' : Machine} {n₁ n₂ : Nat} {t : TermGraph} (h : m₁.Reaches n₂ t m')
    (changes : m.Changes n₁ m₁) : m.Reaches (n₁ + n₂) t m' :=
  ⟨h.landed, changes.aside.trans h.changes.aside,
    fun none => (changes.still (by omega)).trans (h.changes.still (by omega))⟩

theorem Reaches.paid {m m' : Machine} {n : Nat} {t : TermGraph}
    (h : Reaches { m with slice := m.slice.spend } n t m') : m.Reaches n t m' := by
  have reached := h.after ((OnlySpends.spent m).changes 0)
  rwa [Nat.zero_add] at reached

theorem reaches_refl (m : Machine) : m.Reaches 0 m.toTermGraph m :=
  ⟨rfl, (OnlySpends.refl m).changes 0⟩

end Machine

namespace Reduction

open Eff Machine

variable {m m₁ : Machine} {ρ : Rank} {i j p x : NodeId} {c : Content} {sym : Symbol}
  {F N N' k n n₁ n₀ count : Nat} {t₁ t₂ : TermGraph} {job : Job} {scope : Scope} {d : Demand}
  {demands : List Demand} {act : List NodeId → Eff Unit} {Q Q' Q₁ : Machine → Prop}
  {S S' S₁ : Stop → Machine → Prop}

/-- The machine does the job, or stops at it. -/
def Job.Obeys (job : Job) (F N : Nat) (m : Machine) (Q : Machine → Prop)
    (S : Stop → Machine → Prop) : Prop :=
  match job with
  | head i j => ((reducer F).head i).Obeys F N m (fun x m' => x = j ∧ Q m') S
  | step i => (headWork (reducer F) i).Obeys F N m (fun _ m' => Q m') S
  | force i demands act => (Reduction.force (reducer F) i demands act).Obeys F N m (fun _ m' => Q m') S
  | normal i => ((reducer F).normal i).Obeys F N m (fun _ m' => Q m') S
  | fields i count k => (normalizeFields (reducer F) i count k).Obeys F N m (fun _ m' => Q m') S

theorem Job.Obeys.more (h : job.Obeys F N m Q S) (le : N ≤ N') : job.Obeys F N' m Q S := by
  cases job with
  | _ => exact Eff.Obeys.more h le

theorem Job.Obeys.mono (h : job.Obeys F N m Q S) (hQ : ∀ m', Q m' → Q' m')
    (hS : ∀ stop m', S stop m' → S' stop m') : job.Obeys F N m Q' S' := by
  cases job with
  | head i j => exact Eff.Obeys.mono h (fun _ m' ⟨landed, done⟩ => ⟨landed, hQ m' done⟩) hS
  | _ => exact Eff.Obeys.mono h (fun _ m' done => hQ m' done) hS

/-! ## Head normal forms -/

theorem head_starved : (Job.head i j).Obeys 0 (N + 1) m Q S := by
  show (headNormalize 0 i).Obeys 0 (N + 1) m (fun x m' => x = j ∧ Q m') S
  rw [headNormalize]
  exact obeys_outOfFuel

theorem head_idle_obeys (h : m.Inv [] ρ) (live : m.Live [] i) (through : m.toTermGraph.Through i j)
    (idle : m.toTermGraph.Idle j) (done : Q m) : (Job.head i j).Obeys F (N + 1) m Q S := by
  obtain ⟨-, c, hc, tag, call⟩ := idle
  have leads := through.leads
  cases F with
  | zero => exact head_starved
  | succ F =>
    show (headNormalize (F + 1) i).Obeys _ _ m _ _
    rw [headNormalize_eq]
    refine obeys_look_bind (h.skip_eq live leads hc tag)
      (obeys_look_bind (isReducible_idle h (live.leads leads) hc call) ?_)
    exact obeys_pure ⟨rfl, done⟩

/-- What a head step does once it is paid for keeps the machine as the step does. -/
theorem headWork_meets (h : m.Inv [] ρ) (live : m.Live [] i) (going : m.slice.isOver = false) :
    (headWork (reducer F) i).Meets { m with slice := m.slice.spend }
      (fun _ m' => ∃ ρ', m.Evolves (.below (ρ i)) ρ m' [] ρ')
      fun m' => ∃ ρ', m.Evolves (.below (ρ i)) ρ m' [] ρ' := by
  have paid : tick m = .ok () { m with slice := m.slice.spend } := by
    unfold tick
    rw [going]
    rfl
  have kept := headStep_keeps (reducer_sound F) h live
  unfold Keeps Meets at kept
  rw [headStep_eq, bind_ok paid] at kept
  refine Meets.mono (Q := fun _ m' => ∃ ρ', m.Evolves (.below (ρ i)) ρ m' [] ρ' ∧ True) kept ?_
    fun _ stopped => stopped
  exact fun _ m' ⟨ρ', ev, _⟩ => ⟨ρ', ev⟩

/-- A call does a step and is driven on from there. -/
theorem head_call_obeys (h : m.Inv [] ρ) (live : m.Live [] i) (through : m.toTermGraph.Through i p)
    (calls : m.toTermGraph.Calls p c sym) (stop : m.slice.isOver = true → S .preempted m)
    (step : ∀ F, (Job.step p).Obeys F N { m with slice := m.slice.spend } Q₁ S)
    (rest : ∀ F m₁ ρ₁, m₁.Inv [] ρ₁ → m₁.Live [] p → Q₁ m₁ → (Job.head p j).Obeys F N m₁ Q S) :
    (Job.head i j).Obeys F (N + 1) m Q S := by
  have leads := through.leads
  have live' := live.leads leads
  cases F with
  | zero => exact head_starved
  | succ F =>
    show (headNormalize (F + 1) i).Obeys _ _ m _ _
    rw [headNormalize_eq]
    refine obeys_look_bind (h.skip_eq live leads calls.content calls.call.not_forward)
      (obeys_look_bind (isReducible_call h calls live') ?_)
    rw [if_pos rfl, headStep_eq, bind_assoc]
    refine obeys_tick_bind stop fun going => ?_
    refine Obeys.bind ((Eff.Obeys.meets (step F) (headWork_meets h live' going)).mono
      (fun _ _ done => done) fun _ _ stopped => stopped.1) fun _ m₁ _ ⟨done, ρ₁, ev⟩ => ?_
    exact rest F m₁ ρ₁ ev.inv (ev.live (h.steady live' le_rfl)) done

/-! ## Head steps -/

/-- Unless it binds two variables, a step forces its arguments and acts. -/
theorem step_strict_obeys (h : m.Inv [] ρ) (live : m.Live [] i) (calls : m.toTermGraph.Calls i c sym)
    (strict : Strict i sym.head demands act) (unbound : sym.head = .unify → ¬ m.toTermGraph.BothFree c)
    (force : (Job.force i demands act).Obeys F N m Q S) : (Job.step i).Obeys F N m Q S := by
  refine obeys_look_bind (TermGraph.symbol_content calls.content calls.symbol) ?_
  generalize head : sym.head = kind at strict unbound ⊢
  cases strict with
  | plain _ eq =>
    rw [eq]
    exact force
  | unify =>
    rcases unify_cases h live calls head (reducer F) with ⟨both, -⟩ | ⟨-, reads⟩
    · exact absurd both (unbound rfl)
    · exact force.congr reads

/-! ## Arguments -/

/-- What becomes of an argument once it is normalized. -/
def resettle (root : NodeId) (k : Nat) (arg : NodeId) : Eff Argument := do
  settle root k (← look (·.skip arg))

/-- What follows once an argument is in head normal form. -/
def Demand.go (r : Reducer) (root : NodeId) (next : Argument → Eff Unit) : Demand → Argument → Eff Unit
  | head _, a => next a
  | normal _, .taken => next .taken
  | normal k, .value x => r.normal x >>= fun _ => resettle root k x >>= next

theorem Demand.go_taken {r : Reducer} {root : NodeId} {next : Argument → Eff Unit} (d : Demand) :
    d.go r root next .taken = next .taken := by
  cases d with
  | head => rfl
  | normal => rfl

/-- What is left of a step once an argument has been forced. -/
def forceNext (r : Reducer) (root : NodeId) (demands : List Demand) (act : List NodeId → Eff Unit) :
    Argument → Eff Unit
  | .taken => pure ()
  | .value x => force r root demands fun xs => act (x :: xs)

theorem force_cons (r : Reducer) (root : NodeId) (d : Demand) (demands : List Demand)
    (act : List NodeId → Eff Unit) : force r root (d :: demands) act =
      headArg r root d.index >>= d.go r root (forceNext r root demands act) := by
  have next : force r root (d :: demands) act = d.meet r root >>= forceNext r root demands act := by
    rw [force]
    congr 1
  rw [next]
  cases d with
  | head k => rfl
  | normal k =>
    show (normalArg r root k >>= _) = headArg r root k >>= _
    unfold normalArg
    rw [bind_assoc]
    congr 1
    funext a
    cases a with
    | taken => rfl
    | value x =>
      show ((r.normal x >>= fun _ => resettle root k x) >>= _) = _
      rw [bind_assoc]
      rfl

theorem headArg_bind (r : Reducer) (root : NodeId) (k : Nat) (next : Argument → Eff Unit) :
    headArg r root k >>= next = look (·.successor root k) >>= fun l => look (fun _ => l.target) >>=
      fun q => r.head q >>= fun x => takeArg root k l x >>= next := by
  show (look _ >>= fun l => look _ >>= fun q => r.head q >>= fun x => takeArg root k l x) >>= next = _
  simp only [bind_assoc]

/-- The head normal form of an argument is taken, and the step goes on with what has become of it. -/
theorem force_obeys (h : m.Inv [] ρ) (live : m.Live [] i) (calls : m.toTermGraph.Calls i c sym)
    (hk : c.links[d.index]? = some p) (head : (Job.head p x).Obeys F N m Q₁ S₁)
    (stopped : ∀ stop m', S₁ stop m' → m'.graph.content? i = some c → S stop m')
    (rest : ∀ m₁ ρ₁, m₁.Site (.below (ρ i)) ρ₁ i c → m₁.graph.Leads p x → Q₁ m₁ →
      (takeArg i d.index (some p) x >>= d.go (reducer F) i (forceNext (reducer F) i demands act)).Obeys
        F N m₁ (fun _ => Q) S) : (Job.force i (d :: demands) act).Obeys F N m Q S := by
  have w := (site_below h live calls.content calls.call.2).site
  have below := w.link hk
  show (Reduction.force (reducer F) i (d :: demands) act).Obeys F N m _ S
  rw [force_cons, headArg_bind]
  refine obeys_look_bind (h.read_successor live calls.content hk) (obeys_look_bind rfl ?_)
  refine Obeys.bind ((Eff.Obeys.meets head ((reducer_sound F).head m ρ p h below.1)).mono
    (fun _ _ done => done) ?_) ?_
  · rintro stop m' ⟨cut, ρ', ev⟩
    exact stopped stop m' cut (w.spare below.2 hk ev).1.content
  · rintro y m₁ - ⟨⟨rfl, done⟩, ρ₁, ev, leads⟩
    exact rest m₁ ρ₁ (w.spare below.2 hk ev).1 leads done

/-- A link is redirected as the derivation says. -/
theorem relink_obeys {α : Type} {e : Eff α} {P : α → Machine → Prop} {q : Prop} [Decidable q]
    (w : m.Site scope ρ i c) (hk : c.links[k]? = some p) (leads : m.graph.Leads p x)
    (relinks : t₁.Relinks i c k p x n t₂) (same : m.toTermGraph = t₁) (differ : q ↔ p ≠ x)
    (go_on : ∀ m' ρ', m'.Site scope ρ' i (c.setLink k x) → m.Reaches n t₂ m' → e.Obeys F N m' P S) :
    (do
      if q then setSuccessor i k (some x)
      e).Obeys F N m P S := by
  dsimp only
  cases relinks with
  | kept here =>
    rw [if_neg fun hq => differ.mp hq here]
    refine go_on m ρ ?_ (same ▸ reaches_refl m)
    rw [← here, Content.setLink_eq w.fits hk]
    exact w
  | moved ne run _ _ =>
    rw [if_pos (differ.mpr ne)]
    obtain ⟨run', same', paid⟩ := (setSuccessor_local i k (some x)).replay run same
    obtain ⟨ρ', -, w', -⟩ := (setSuccessor_keeps w hk leads).ok run'
    refine Obeys.bind (obeys_of_ok (Q := fun _ m₁ => m₁ = m.setGraph t₂.graph) run' paid rfl)
      fun _ m₁ _ reached => ?_
    rw [reached]
    exact go_on _ ρ' w' ⟨same', aside_graph m _, nofun⟩

theorem settle_filled (filled : m.toTermGraph.Filled x) :
    settle i k x m = .ok (.value x) m := by
  obtain ⟨d, hd, tag⟩ := filled
  have read : look (·.tag x) m = .ok d.tag m := look_ok (TermGraph.tag_content hd)
  unfold settle
  rw [bind_ok read]
  rcases tag with tag | ⟨index, tag⟩
  · rw [tag]
    rfl
  · rw [tag]
    rfl

theorem resettle_filled (w : m.Site scope ρ i c) (hk : c.links[k]? = some x)
    (filled : m.toTermGraph.Filled x) : resettle i k x m = .ok (.value x) m := by
  obtain ⟨d, hd, tag, -⟩ := filled.tag
  have skip := w.inv.skip_eq (w.link hk).1 (.refl x) hd tag
  exact (bind_ok (look_ok skip)).trans (settle_filled filled)

/-- An argument that is a value is linked to at once. -/
theorem takeArg_obeys (w : m.Site scope ρ i c) (hk : c.links[k]? = some p) (leads : m.graph.Leads p x)
    (relinks : t₁.Relinks i c k p x n t₂) (same : m.toTermGraph = t₁) (filled : t₂.Filled x) :
    (takeArg i k (some p) x).Obeys F N m
      (fun a m' => a = .value x ∧ m.Reaches n t₂ m' ∧ ∃ ρ', m'.Site scope ρ' i (c.setLink k x)) S := by
  refine relink_obeys w hk leads relinks same (by simp) fun m₁ ρ₁ w₁ reached => ?_
  have filled₁ : m₁.toTermGraph.Filled x := reached.landed.symm ▸ filled
  obtain ⟨e, he, tag⟩ := filled₁
  have bound : e.tag ≠ .free := by
    rcases tag with tag | ⟨index, tag⟩ <;> rw [tag] <;> nofun
  refine obeys_look_bind (TermGraph.tag_content he) ?_
  rw [if_neg bound]
  exact obeys_of_ok (resettle_filled w₁ (Content.setLink_self hk) ⟨e, he, tag⟩) (refl_of Pays m₁)
    ⟨rfl, reached, ρ₁, w₁⟩

/-- An argument is forced to a value. -/
theorem forced_obeys (h : m.Inv [] ρ) (live : m.Live [] i) (calls : m.toTermGraph.Calls i c sym)
    (hk : c.links[d.index]? = some p) (head : (Job.head p x).Obeys F N m (m.Reaches n₁ t₁) S₁)
    (relinks : t₁.Relinks i c d.index p x n₀ t₂) (filled : t₂.Filled x)
    (stopped : ∀ stop m', S₁ stop m' → m'.graph.content? i = some c → S stop m')
    (rest : ∀ m₂ ρ₂, m₂.Site (.below (ρ i)) ρ₂ i (c.setLink d.index x) → m.Reaches (n₁ + n₀) t₂ m₂ →
      (d.go (reducer F) i (forceNext (reducer F) i demands act) (.value x)).Obeys F N m₂ (fun _ => Q) S) :
    (Job.force i (d :: demands) act).Obeys F N m Q S := by
  refine force_obeys h live calls hk head stopped fun m₁ ρ₁ w₁ leads reached => ?_
  refine Obeys.bind (takeArg_obeys w₁ hk leads relinks reached.landed filled) ?_
  rintro _ m₂ - ⟨rfl, reached₂, ρ₂, w₂⟩
  exact rest m₂ ρ₂ w₂ (reached₂.after reached.changes)

/-- An argument in head normal form is normalized. -/
theorem normalized_obeys {α : Type} {P : α → Machine → Prop} {K : Argument → Eff α}
    (w : m.Site scope ρ i c) (hk : c.links[k]? = some x) (normal : (Job.normal x).Obeys F N m Q₁ S₁)
    (stopped : ∀ stop m', S₁ stop m' → m'.graph.content? i = some c → S stop m')
    (rest : ∀ m₁ ρ₁, m₁.Site scope ρ₁ i c → Q₁ m₁ → (resettle i k x >>= K).Obeys F N m₁ P S) :
    ((reducer F).normal x >>= fun _ => resettle i k x >>= K).Obeys F N m P S := by
  have below := w.link hk
  refine Obeys.bind ((Eff.Obeys.meets normal ((reducer_sound F).normal m ρ x w.inv below.1)).mono
    (fun _ _ done => done) ?_) ?_
  · rintro stop m' ⟨cut, ρ', ev⟩
    exact stopped stop m' cut (w.spare below.2 hk ev).1.content
  · rintro _ m₁ - ⟨done, ρ₁, ev, -⟩
    exact rest m₁ ρ₁ (w.spare below.2 hk ev).1 done

/-! ## Normal forms -/

theorem normal_starved : (Job.normal i).Obeys 0 (N + 1) m Q S := by
  show (normalize 0 i).Obeys 0 (N + 1) m (fun _ m' => Q m') S
  rw [normalize]
  exact obeys_outOfFuel

/-- One step toward normal form is paid for before anything else. -/
theorem normal_obeys (stop : m.slice.isOver = true → S .preempted m)
    (go_on : ∀ F, (normalWork (reducer F) i).Obeys F N { m with slice := m.slice.spend }
      (fun _ m' => Q m') S) : (Job.normal i).Obeys F (N + 1) m Q S := by
  cases F with
  | zero => exact normal_starved
  | succ F =>
    show (normalize (F + 1) i).Obeys _ _ m _ _
    rw [normalize_eq]
    exact obeys_tick_bind stop fun _ => go_on F

theorem normal_through_obeys {symbol aux : Nat} (h : m.Inv [] ρ) (live : m.Live [] i)
    (hc : m.graph.content? i = some ⟨.forward, symbol, aux, .links [p]⟩)
    (stop : m.slice.isOver = true → S .preempted m)
    (rest : ∀ F, (Job.normal p).Obeys F N { m with slice := m.slice.spend } Q S) :
    (Job.normal i).Obeys F (N + 1) m Q S := by
  obtain ⟨sym, found, read⟩ := h.read_symbol live hc
  refine normal_obeys stop fun F => obeys_look_bind read ?_
  rw [(h.fitsAt live hc).of_forward_symbol h.signature found rfl]
  exact obeys_look_bind (h.read_successor (k := 0) live hc rfl) (obeys_look_bind rfl (rest F))

/-- A call is driven to head normal form, which is normalized if it is a constructor. -/
theorem normal_call_obeys (h : m.Inv [] ρ) (live : m.Live [] i) (calls : m.toTermGraph.Calls i c sym)
    (stop : m.slice.isOver = true → S .preempted m)
    (head : ∀ F, (Job.head i j).Obeys F N { m with slice := m.slice.spend } Q₁ S)
    (rest : ∀ F m₁ ρ₁, m₁.Inv [] ρ₁ → m₁.Live [] j → Q₁ m₁ →
      (takeHead (reducer F) j).Obeys F N m₁ (fun _ => Q) S) :
    (Job.normal i).Obeys F (N + 1) m Q S := by
  refine normal_obeys stop fun F =>
    obeys_look_bind (TermGraph.symbol_content calls.content calls.symbol) ?_
  rw [((h.fitsAt live calls.content).of_isCall calls.symbol calls.call).normal]
  refine Obeys.bind ((Eff.Obeys.meets (head F) ((reducer_sound F).head _ ρ i h.spent live)).mono
    (fun _ _ done => done) fun _ _ stopped => stopped.1) ?_
  rintro y m₁ - ⟨⟨rfl, done⟩, ρ₁, ev, leads⟩
  exact rest F m₁ ρ₁ ev.inv ((ev.live (h.spent.steady live le_rfl)).leads leads) done

theorem takeHead_value {d : Content} {index : Nat} (hd : m.graph.content? j = some d)
    (tag : d.tag = .constructor index) (rest : (Job.normal j).Obeys F N m Q S) :
    (takeHead (reducer F) j).Obeys F N m (fun _ => Q) S := by
  refine obeys_look_bind (TermGraph.tag_content hd) ?_
  rw [tag]
  exact rest

theorem takeHead_stuck {d : Content} (h : m.Inv [] ρ) (live : m.Live [] j)
    (hd : m.graph.content? j = some d) (tag : ∀ index, d.tag ≠ .constructor index) (done : Q m) :
    (takeHead (reducer F) j).Obeys F N m (fun _ => Q) S := by
  refine obeys_look_bind (TermGraph.tag_content hd) ?_
  cases final : d.tag with
  | constructor index => exact absurd final (tag index)
  | unassigned below => exact absurd final ((h.fitsAt live hd).tag_ne_unassigned below)
  | _ => exact obeys_pure done

theorem normal_data_obeys (h : m.Inv [] ρ) (live : m.Live [] i) (data : m.toTermGraph.Data i c)
    (stop : m.slice.isOver = true → S .preempted m)
    (fields : ∀ F, (Job.fields i c.links.length 0).Obeys F N { m with slice := m.slice.spend } Q S) :
    (Job.normal i).Obeys F (N + 1) m Q S := by
  obtain ⟨sym, found, -, length⟩ := h.symbolAt live data.content
  refine normal_obeys stop fun F => obeys_look_bind (TermGraph.symbol_content data.content found) ?_
  rw [(h.fitsAt live data.content).of_isData found data.data]
  refine obeys_look_bind (TermGraph.arity_content (t := m.toTermGraph) data.content found) ?_
  rw [← length]
  exact fields F

/-- One argument of a constructor is normalized, then taken. -/
theorem fields_obeys (h : m.Inv [] ρ) (live : m.Live [] i) (data : m.toTermGraph.Data i c)
    (hk : c.links[k]? = some p) (normal : (Job.normal p).Obeys F N m Q₁ S₁)
    (stopped : ∀ stop m', S₁ stop m' → m'.graph.content? i = some c → S stop m')
    (rest : ∀ m₁ ρ₁, m₁.Site (.below (ρ i)) ρ₁ i c → Q₁ m₁ →
      (takeField (reducer F) i count k p).Obeys F N m₁ (fun _ => Q) S) :
    (Job.fields i (count + 1) k).Obeys F N m Q S := by
  have w := (site_below h live data.content data.data.plain).site
  have below := w.link hk
  show (normalizeFields (reducer F) i (count + 1) k).Obeys F N m _ S
  unfold normalizeFields
  refine obeys_look_bind (h.read_successor live data.content hk) (obeys_look_bind rfl ?_)
  refine Obeys.bind ((Eff.Obeys.meets normal ((reducer_sound F).normal m ρ p h below.1)).mono
    (fun _ _ done => done) ?_) ?_
  · rintro stop m' ⟨cut, ρ', ev⟩
    exact stopped stop m' cut (w.spare below.2 hk ev).1.content
  · rintro _ m₁ - ⟨done, ρ₁, ev, -⟩
    exact rest m₁ ρ₁ (w.spare below.2 hk ev).1 done

/-- An argument that is neither a failure nor a choice is linked to at once, before the next one. -/
theorem takeField_obeys (w : m.Site scope ρ i c) (hk : c.links[k]? = some p)
    (through : m.toTermGraph.Through p x) (idle : m.toTermGraph.Idle x)
    (relinks : m.toTermGraph.Relinks i c k p x n t₂) (good : t₂.Determinate x)
    (rest : ∀ m₁ ρ₁, m₁.Site scope ρ₁ i (c.setLink k x) → m.Reaches n t₂ m₁ →
      (Job.fields i count (k + 1)).Obeys F N m₁ Q S) :
    (takeField (reducer F) i count k p).Obeys F N m (fun _ => Q) S := by
  obtain ⟨-, e, he, tag, -⟩ := idle
  refine obeys_look_bind (w.inv.skip_eq (w.link hk).1 through.leads he tag) ?_
  refine relink_obeys w hk through.leads relinks rfl ne_comm fun m₁ ρ₁ w₁ reached => ?_
  have good₁ : m₁.toTermGraph.Determinate x := reached.landed.symm ▸ good
  obtain ⟨d, hd, failure, choice⟩ := good₁
  have fits := w₁.inv.fitsAt (w₁.link (Content.setLink_self hk)).1 hd
  have go_on := rest m₁ ρ₁ w₁ reached
  refine obeys_look_bind (TermGraph.tag_content hd) ?_
  cases final : d.tag with
  | failure => exact absurd final failure
  | choice => exact absurd final choice
  | unassigned below => exact absurd final (fits.tag_ne_unassigned below)
  | _ => exact go_on

end Reduction

end ChoiceGraph
