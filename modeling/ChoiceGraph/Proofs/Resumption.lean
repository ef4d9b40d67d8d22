import ChoiceGraph.Proofs.Jobs

/-! # Reductions that are resumed

A machine whose term graph has a derivation follows it. If its slice ends on the way, the graph that
it leaves has a derivation of the same result, with fewer changes left unless the machine is still
the same. So a reduction that is started again after it was interrupted goes on where it was, although
it walks there from the root and pays for the way once more. -/
namespace ChoiceGraph

namespace Reduction

open Eff Machine

variable {m m' m₁ : Machine} {ρ : Rank} {i p x : NodeId} {c : Content} {sym : Symbol} {F N N' k : Nat}
  {r : Reducer}

/-! ## Jobs that are followed -/

variable {t t₁ t₂ t' s : TermGraph} {job job₁ : Job} {n n₁ n₂ n₃ : Nat} {j : NodeId}

/-- What an interrupted job has left alone: a node on the way to its head normal form still leads to a
call, and the call of a step is there, up to the arguments that are forced on the way. -/
def Job.Spares (t s : TermGraph) : Job → Prop
  | head i _ => ∃ p c sym, s.Through i p ∧ s.Calls p c sym
  | step i => ∀ c, t.graph.content? i = some c →
    ∃ c', s.graph.content? i = some c' ∧ c.Alike (fun _ => False) c'
  | force i demands _ => ∀ c, t.graph.content? i = some c →
    ∃ c', s.graph.content? i = some c' ∧ c.Alike (fun k => ∀ d ∈ demands, d.index ≠ k) c'
  | _ => True

/-- Where an interrupted job has got to: nowhere, or nearer to its end. -/
structure Job.Resumes (job : Job) (n : Nat) (t' : TermGraph) (m s : Machine) : Prop where
  spares : job.Spares m.toTermGraph s.toTermGraph
  nearer : m.OnlySpends s ∨ m.Aside s ∧ m.toTermGraph.Settles s.toTermGraph ∧
    ∃ k < n, Derives job k s.toTermGraph t'

theorem Job.Resumes.settles {s : Machine} (h : job.Resumes n t' m s) :
    m.toTermGraph.Settles s.toTermGraph := by
  rcases h.nearer with idle | ⟨-, settles, -⟩
  · rw [idle.same]
    exact .refl _
  · exact settles

/-- Every machine with the graph follows the derivation, and can be resumed where it stops. There is
an amount of fuel that is enough for that. -/
def Job.Follows (job : Job) (n : Nat) (t t' : TermGraph) : Prop :=
  ∃ N, ∀ (F : Nat) (m : Machine) (ρ : Rank), m.Inv [] ρ → m.Live [] job.node → m.toTermGraph = t →
    job.Obeys F N m (m.Reaches n t') (Cut (job.Resumes n t' m))

/-- A job is interrupted in a part of it, after `n₁` changes and with `n₃` to come. -/
theorem Job.Resumes.within {s : Machine} (h : job₁.Resumes n₂ t₂ m₁ s)
    (d : Derives job₁ n₂ m₁.toTermGraph t₂) (settles : m.toTermGraph.Settles m₁.toTermGraph)
    (changes : m.Changes n₁ m₁)
    (go_on : ∀ k, m₁.toTermGraph.Settles s.toTermGraph → job₁.Spares m₁.toTermGraph s.toTermGraph →
      Derives job₁ k s.toTermGraph t₂ →
        job.Spares m.toTermGraph s.toTermGraph ∧ Derives job (k + n₃) s.toTermGraph t') :
    job.Resumes (n₁ + n₂ + n₃) t' m s := by
  have settled := h.settles
  rcases h.nearer with idle | ⟨aside, -, k, lt, rest⟩
  · obtain ⟨spares, rest⟩ := go_on n₂ settled h.spares (idle.same ▸ d)
    by_cases none : n₁ = 0
    · exact ⟨spares, .inl ((changes.still none).trans idle)⟩
    · exact ⟨spares, .inr ⟨changes.aside.trans idle.aside, settles.trans settled, n₂ + n₃, by omega,
        rest⟩⟩
  · obtain ⟨spares, rest⟩ := go_on k settled h.spares rest
    exact ⟨spares, .inr ⟨changes.aside.trans aside, settles.trans settled, k + n₃, by omega, rest⟩⟩

/-- A job is interrupted in its first part. -/
theorem Job.Resumes.first {s : Machine} (h : job₁.Resumes n₁ t₁ m₁ s) (same : m.OnlySpends m₁)
    (d : Derives job₁ n₁ m.toTermGraph t₁)
    (go_on : ∀ k, m.toTermGraph.Settles s.toTermGraph → job₁.Spares m.toTermGraph s.toTermGraph →
      Derives job₁ k s.toTermGraph t₁ →
        job.Spares m.toTermGraph s.toTermGraph ∧ Derives job (k + n₂) s.toTermGraph t') :
    job.Resumes (n₁ + n₂) t' m s := by
  have resumed : job.Resumes (0 + n₁ + n₂) t' m s :=
    h.within (same.same ▸ d) (by rw [same.same]; exact .refl _) (same.changes 0)
      (by rw [same.same]; exact go_on)
  rwa [Nat.zero_add] at resumed

/-- A job is interrupted in its last part. -/
theorem Job.Resumes.last {s : Machine} (h : job₁.Resumes n₂ t' m₁ s)
    (d : Derives job₁ n₂ m₁.toTermGraph t') (settles : m.toTermGraph.Settles m₁.toTermGraph)
    (changes : m.Changes n₁ m₁)
    (go_on : ∀ k, m₁.toTermGraph.Settles s.toTermGraph → job₁.Spares m₁.toTermGraph s.toTermGraph →
      Derives job₁ k s.toTermGraph t' →
        job.Spares m.toTermGraph s.toTermGraph ∧ Derives job k s.toTermGraph t') :
    job.Resumes (n₁ + n₂) t' m s :=
  show job.Resumes (n₁ + n₂ + 0) t' m s from h.within d settles changes go_on

/-- What is left of an interrupted job takes over from a job that it is the last part of. -/
theorem Job.Resumes.into {s : Machine} (h : job₁.Resumes n t' m₁ s) (same : m.OnlySpends m₁)
    (d : Derives job₁ n m.toTermGraph t')
    (go_on : ∀ k, m.toTermGraph.Settles s.toTermGraph → job₁.Spares m.toTermGraph s.toTermGraph →
      Derives job₁ k s.toTermGraph t' →
        job.Spares m.toTermGraph s.toTermGraph ∧ Derives job k s.toTermGraph t') :
    job.Resumes n t' m s :=
  show job.Resumes (n + 0) t' m s from h.first same d go_on

theorem follows_idle (through : t.Through i j) (idle : t.Idle j) :
    Job.Follows (.head i j) 0 t t := by
  refine ⟨1, fun F m ρ h live same => ?_⟩
  subst same
  exact head_idle_obeys h live through idle (reaches_refl m)

theorem follows_call (through : t.Through i p) (calls : t.Calls p c sym)
    (dstep : Derives (.step p) n₁ t t₁) (drest : Derives (.head p j) n₂ t₁ t')
    (step : Job.Follows (.step p) n₁ t t₁) (rest : Job.Follows (.head p j) n₂ t₁ t') :
    Job.Follows (.head i j) (n₁ + n₂) t t' := by
  obtain ⟨N₁, step⟩ := step
  obtain ⟨N₂, rest⟩ := rest
  refine ⟨max N₁ N₂ + 1, fun F m ρ h live same => ?_⟩
  subst same
  have stepped : ∀ F, (Job.step p).Obeys F (max N₁ N₂) { m with slice := m.slice.spend }
      (m.Reaches n₁ t₁) (Cut (Job.Resumes (.head i j) (n₁ + n₂) t' m)) := by
    intro F
    refine ((step F _ ρ h.spent (live.leads through.leads) rfl).more (le_max_left N₁ N₂)).mono
      (fun _ done => done.paid) fun _ m' cut => cut.mono fun stopped => ?_
    refine stopped.first (.spent m) dstep fun k settles spares again => ?_
    obtain ⟨c', hc', alike⟩ := spares c calls.content
    have through' := settles.through through
    have calls' := calls.alike settles hc' alike
    exact ⟨⟨p, c', sym, through', calls'⟩, .call through' calls' again drest⟩
  refine head_call_obeys h live through calls
    (fun isOver => ⟨rfl, isOver, ⟨p, c, sym, through, calls⟩, .inl rfl⟩) stepped ?_
  rintro F m₁ ρ₁ h₁ live₁ ⟨rfl, changes⟩
  refine ((rest F m₁ ρ₁ h₁ live₁ rfl).more (le_max_right N₁ N₂)).mono
    (fun _ done => done.after changes) fun _ m' cut => cut.mono fun stopped => ?_
  refine stopped.last drest dstep.settles changes fun k settles ⟨q, d, sym', leads, busy⟩ again => ?_
  have through' := settles.through (dstep.settles.through through)
  exact ⟨⟨q, d, sym', through'.trans leads, busy⟩, again.head_through through'⟩

/-! ## Forced arguments -/

theorem spares_force {demands : List Demand} {act : List NodeId → Eff Unit} {c' : Content}
    (hc : t.graph.content? i = some c) (hc' : s.graph.content? i = some c')
    (alike : c.Alike (fun k => ∀ d ∈ demands, d.index ≠ k) c') :
    (Job.force i demands act).Spares t s := by
  intro d hd
  cases hc.symm.trans hd
  exact ⟨c', hc', alike⟩

theorem spares_step {spared : Nat → Prop} {c' : Content} (hc : t.graph.content? i = some c)
    (hc' : s.graph.content? i = some c') (alike : c.Alike spared c') : (Job.step i).Spares t s := by
  intro d hd
  cases hc.symm.trans hd
  exact ⟨c', hc', alike.mono nofun⟩

/-- The call of a head step is where it was, whatever was forced below it. -/
theorem calls_spared {spared : Nat → Prop} (calls : t.Calls i c sym) (settles : t.Settles s)
    (spares : ∀ c, t.graph.content? i = some c →
      ∃ c', s.graph.content? i = some c' ∧ c.Alike spared c') :
    ∃ c', s.Calls i c' sym ∧ c.Alike spared c' := by
  obtain ⟨c', hc', alike⟩ := spares c calls.content
  exact ⟨c', calls.alike settles hc' alike, alike⟩

variable {demands : List Demand} {act : List NodeId → Eff Unit}

theorem follows_act (confined : (act []).Confined (Only i)) (run : (act []).Takes t () t') :
    Job.Follows (.force i [] act) 1 t t' := by
  refine ⟨0, fun F m ρ h live same => ?_⟩
  obtain ⟨run', same', paid⟩ := confined.toLocal.replay run same
  exact obeys_of_ok run' paid ⟨same', aside_graph m _, nofun⟩

theorem follows_head {n₀ : Nat} (calls : t.Calls i c sym) (hk : c.links[k]? = some p)
    (apart : ∀ d ∈ demands, d.index ≠ k) (dhead : Derives (.head p x) n₁ t t₁)
    (calls' : t₁.Calls i c sym) (relinks : t₁.Relinks i c k p x n₀ t₂) (filled : t₂.Filled x)
    (drest : Derives (.force i demands fun xs => act (x :: xs)) n₂ t₂ t')
    (head : Job.Follows (.head p x) n₁ t t₁)
    (rest : Job.Follows (.force i demands fun xs => act (x :: xs)) n₂ t₂ t') :
    Job.Follows (.force i (.head k :: demands) act) (n₁ + n₀ + n₂) t t' := by
  obtain ⟨N₁, head⟩ := head
  obtain ⟨N₂, rest⟩ := rest
  refine ⟨max N₁ N₂, fun F m ρ h live same => ?_⟩
  subst same
  obtain ⟨through, idle⟩ := dhead.head_result
  have relinked := relinks.settles calls'.content hk through idle (.inl calls'.call)
  obtain ⟨c₂, hc₂, link, alike⟩ := relinks.content calls'.content hk
  have live' := (site_below h live calls.content calls.call.2).site.link hk
  have arg := (head F m ρ h live'.1 rfl).more (le_max_left N₁ N₂)
  refine forced_obeys h live calls hk arg relinks filled ?_ ?_
  · intro _ m' cut kept
    refine cut.mono fun stopped => ?_
    rw [Nat.add_assoc]
    refine stopped.first (.refl m) dhead fun n settles _ again => ?_
    have calls₁ := calls.alike settles kept (.refl (fun _ => True) c)
    refine ⟨spares_force calls.content kept (.refl _ c), ?_⟩
    rw [← Nat.add_assoc]
    exact .head calls₁ hk apart again calls' relinks filled drest
  · rintro m₂ ρ₂ w₂ ⟨rfl, changes⟩
    have resting := (rest F m₂ ρ₂ w₂.inv w₂.live rfl).more (le_max_right N₁ N₂)
    refine resting.mono (fun _ done => done.after changes) fun _ m' cut => cut.mono fun stopped => ?_
    refine stopped.last drest (dhead.settles.trans relinked) changes fun n settles spares again => ?_
    have calls₂ := calls'.alike relinked hc₂ alike
    obtain ⟨c', calls₃, alike'⟩ := calls_spared calls₂ settles spares
    have link' := (alike'.links k apart).trans link
    exact ⟨spares_force calls.content calls₃.content (alike.cons (d := .head k) alike'),
      .head_again calls₃ link' apart ((relinked.trans settles).idle idle) (filled.settles (relinked.idle idle) settles) again⟩

theorem follows_normal {n₀ n₄ : Nat} {t₃ : TermGraph} (calls : t.Calls i c sym)
    (hk : c.links[k]? = some p) (apart : ∀ d ∈ demands, d.index ≠ k)
    (dhead : Derives (.head p x) n₁ t t₁) (calls' : t₁.Calls i c sym)
    (relinks : t₁.Relinks i c k p x n₀ t₂) (filled : t₂.Filled x)
    (dnormal : Derives (.normal x) n₂ t₂ t₃) (filled' : t₃.Filled x)
    (still : t₃.graph.content? i = t₂.graph.content? i)
    (drest : Derives (.force i demands fun xs => act (x :: xs)) n₄ t₃ t')
    (head : Job.Follows (.head p x) n₁ t t₁) (normal : Job.Follows (.normal x) n₂ t₂ t₃)
    (rest : Job.Follows (.force i demands fun xs => act (x :: xs)) n₄ t₃ t') :
    Job.Follows (.force i (.normal k :: demands) act) (n₁ + n₀ + (n₂ + n₄)) t t' := by
  obtain ⟨N₁, head⟩ := head
  obtain ⟨N₂, normal⟩ := normal
  obtain ⟨N₃, rest⟩ := rest
  refine ⟨max N₁ (max N₂ N₃), fun F m ρ h live same => ?_⟩
  subst same
  obtain ⟨through, idle⟩ := dhead.head_result
  have relinked := relinks.settles calls'.content hk through idle (.inl calls'.call)
  obtain ⟨c₂, hc₂, link, alike⟩ := relinks.content calls'.content hk
  have calls₂ := calls'.alike relinked hc₂ alike
  have idle₂ := relinked.idle idle
  have live' := (site_below h live calls.content calls.call.2).site.link hk
  have arg := (head F m ρ h live'.1 rfl).more (le_max_left N₁ (max N₂ N₃))
  refine forced_obeys h live calls hk arg relinks filled ?_ ?_
  · intro _ m' cut kept
    refine cut.mono fun stopped => ?_
    rw [Nat.add_assoc]
    refine stopped.first (.refl m) dhead fun n settles _ again => ?_
    have calls₁ := calls.alike settles kept (.refl (fun _ => True) c)
    refine ⟨spares_force calls.content kept (.refl _ c), ?_⟩
    rw [← Nat.add_assoc]
    exact .normal calls₁ hk apart again calls' relinks filled dnormal filled' still drest
  rintro m₂ ρ₂ w₂ ⟨rfl, changes₂⟩
  have hk₂ := Content.setLink_self (i := x) hk
  cases hc₂.symm.trans w₂.content
  have normalized := (normal F m₂ ρ₂ w₂.inv (w₂.link hk₂).1 rfl).more
    (Nat.le_trans (le_max_left N₂ N₃) (le_max_right N₁ _))
  refine normalized_obeys w₂ hk₂ normalized ?_ ?_
  · intro _ m' cut kept
    refine cut.mono fun stopped => ?_
    rw [← Nat.add_assoc]
    refine stopped.within dnormal (dhead.settles.trans relinked) changes₂ fun n settles _ again => ?_
    have calls₃ := calls₂.alike settles kept (.refl (fun _ => True) _)
    refine ⟨spares_force calls.content kept (alike.cons (d := .normal k) (.refl _ _)), ?_⟩
    have rebuilt := Derives.normal calls₃ hk₂ apart (.head_idle (settles.idle idle₂)) calls₃
      (.kept rfl) (filled.settles idle₂ settles) again filled' (still.trans (hc₂.trans kept.symm))
      drest
    rwa [Nat.add_zero, Nat.zero_add] at rebuilt
  intro m₃ ρ₃ w₃ reached₃
  have changes₃ := (reached₃.after changes₂).changes
  obtain ⟨rfl, -⟩ := reached₃
  obtain ⟨d, hd, tag, good⟩ := filled'.tag
  refine obeys_still_bind (resettle_filled w₃ hk₂ filled') ?_
  rw [← Nat.add_assoc]
  have resting := (rest F m₃ ρ₃ w₃.inv w₃.live rfl).more
    (Nat.le_trans (le_max_right N₂ N₃) (le_max_right N₁ _))
  refine resting.mono (fun _ done => done.after changes₃) fun _ m' cut => cut.mono fun stopped => ?_
  refine stopped.last drest ((dhead.settles.trans relinked).trans dnormal.settles) changes₃
    fun n settles spares again => ?_
  have calls₃ := calls₂.alike dnormal.settles w₃.content (.refl (fun _ => True) _)
  obtain ⟨c', calls₄, alike'⟩ := calls_spared calls₃ settles spares
  have idle₃ := dnormal.settles.idle idle₂
  have final := dnormal.normal_result (.refl x) idle₃ ⟨d, hd, good⟩
  exact ⟨spares_force calls.content calls₄.content (alike.cons (d := .normal k) alike'), .normal_again
    calls₄ ((alike'.links k apart).trans hk₂) apart (settles.normal final)
    (filled'.settles idle₃ settles) again⟩

/-! ## Head steps -/

/-- What is forced to a value is no variable, so there are not two of them. -/
theorem Derives.unbound {rest : List Demand} (calls : t.Calls i c sym)
    (d : Derives (.force i (.head 0 :: rest) act) n t t') : ¬ t.BothFree c := by
  rintro ⟨p, q, a, b, d', e, hp, -, through, -, ha, -, free, -⟩
  exact d.forced_not_free calls.content hp through ha free

theorem follows_strict (calls : t.Calls i c sym) (strict : Strict i sym.head demands act)
    (dforce : Derives (.force i demands act) n t t')
    (force : Job.Follows (.force i demands act) n t t') : Job.Follows (.step i) n t t' := by
  obtain ⟨N, force⟩ := force
  refine ⟨N, fun F m ρ h live same => ?_⟩
  subst same
  refine step_strict_obeys h live calls strict (fun head => ?_) ?_
  · obtain ⟨rest, rfl⟩ := (head ▸ strict).unifies
    exact dforce.unbound calls
  · refine (force F m ρ h live rfl).mono (fun _ done => done) fun _ m' cut => cut.mono fun stopped => ?_
    refine stopped.into (.refl m) dforce fun n settles spares again => ?_
    obtain ⟨c', calls', alike⟩ := calls_spared calls settles spares
    exact ⟨spares_step calls.content calls'.content alike, .strict calls' strict again⟩

theorem bindVars_obeys {a b : NodeId} {d e : Content} {S : Stop → Machine → Prop}
    (ha : m.graph.content? a = some d) (hb : m.graph.content? b = some e) (isLazy : Bool) :
    (bindVars a b isLazy).Obeys F N m
      (fun _ m' => m'.toTermGraph = m.toTermGraph ∧ m.Aside m') S := by
  unfold bindVars
  refine obeys_look_bind (TermGraph.aux_content ha) (obeys_look_bind (TermGraph.aux_content hb) ?_)
  refine obeys_still_bind (a := m) (e := get) rfl ?_
  split
  · have paid := (constrain_moves (R := Pays) fun s => s.bind ⟨d.aux, a⟩ ⟨e.aux, b⟩ isLazy).ok
      (m := m) rfl
    exact obeys_of_ok rfl paid ⟨mapInnermost_same m _, mapInnermost_aside m _⟩
  · exact obeys_pure ⟨rfl, (OnlySpends.refl m).aside⟩

/-- Two variables are bound in the search under way, if there is one; the term graph is not asked. -/
theorem follows_bind (calls : t.Calls i c sym) (head : sym.head = .unify) (free : t.BothFree c)
    (run : (succeed i).Takes t () t') : Job.Follows (.step i) 1 t t' := by
  refine ⟨0, fun F m ρ h live same => ?_⟩
  subst same
  have done : ∀ m' : Machine, m'.toTermGraph = m.toTermGraph → m.Aside m' →
      (succeed i).Obeys F 0 m' (fun _ m'' => m.Reaches 1 t' m'')
        (Cut (Job.Resumes (.step i) 1 t' m)) := by
    intro m' same aside
    obtain ⟨run', same', paid⟩ := (succeed_confined i).toLocal.replay run same
    exact obeys_of_ok run' paid ⟨same', aside.trans (aside_graph m' _), nofun⟩
  refine obeys_look_bind (TermGraph.symbol_content calls.content calls.symbol) ?_
  rw [head]
  rcases unify_cases h live calls head (reducer F) with ⟨-, a, b, d, e, ha, hb, reads⟩ | ⟨bound, -⟩
  · refine Eff.Obeys.congr ?_ reads
    refine obeys_look_bind (TermGraph.aux_content ha) (obeys_look_bind (TermGraph.aux_content hb) ?_)
    dsimp only
    split
    · exact Obeys.bind (bindVars_obeys ha hb false) fun _ m' _ ⟨same, aside⟩ => done m' same aside
    · exact done m rfl (OnlySpends.refl m).aside
  · exact absurd free bound

/-! ## Normal forms -/

theorem follows_still (hc : t.graph.content? i = some c) (tag : c.tag ≠ .forward)
    (call : ¬ c.IsCall) (data : ¬ c.IsData) : Job.Follows (.normal i) 0 t t := by
  refine ⟨1, fun F m ρ h live same => ?_⟩
  subst same
  obtain ⟨sym, found, symbol⟩ := h.read_symbol live hc
  refine normal_obeys (N := 0) (fun isOver => ⟨rfl, isOver, trivial, .inl rfl⟩) fun F =>
    obeys_look_bind symbol ?_
  rw [(h.fitsAt live hc).of_still h.signature found tag call data]
  exact obeys_pure (reaches_refl _).paid

theorem follows_through {symbol aux : Nat} (unfree : i ∉ t.graph.free)
    (hc : t.graph.content? i = some ⟨.forward, symbol, aux, .links [p]⟩)
    (drest : Derives (.normal p) n t t') (rest : Job.Follows (.normal p) n t t') :
    Job.Follows (.normal i) n t t' := by
  obtain ⟨N, rest⟩ := rest
  refine ⟨N + 1, fun F m ρ h live same => ?_⟩
  subst same
  refine normal_through_obeys h live hc (fun isOver => ⟨rfl, isOver, trivial, .inl rfl⟩) fun F => ?_
  refine (rest F _ ρ h.spent (live.link hc List.mem_cons_self) rfl).mono (fun _ done => done.paid)
    fun _ m' cut => cut.mono fun stopped => ?_
  refine stopped.into (.spent m) drest fun n settles _ again => ⟨trivial, ?_⟩
  exact again.normal_through (settles.through (.step unfree hc (.refl p)))

/-- A call that is driven to head normal form. -/
theorem follows_value {d : Content} {n₂ index : Nat} (calls : t.Calls i c sym)
    (dhead : Derives (.head i j) n₁ t t₁) (hd : t₁.graph.content? j = some d)
    (tag : d.tag = .constructor index) (drest : Derives (.normal j) n₂ t₁ t')
    (head : Job.Follows (.head i j) n₁ t t₁) (rest : Job.Follows (.normal j) n₂ t₁ t') :
    Job.Follows (.normal i) (n₁ + n₂) t t' := by
  obtain ⟨N₁, head⟩ := head
  obtain ⟨N₂, rest⟩ := rest
  refine ⟨max N₁ N₂ + 1, fun F m ρ h live same => ?_⟩
  subst same
  have headed : ∀ F, (Job.head i j).Obeys F (max N₁ N₂) { m with slice := m.slice.spend }
      (m.Reaches n₁ t₁) (Cut (Job.Resumes (.normal i) (n₁ + n₂) t' m)) := by
    intro F
    refine ((head F _ ρ h.spent live rfl).more (le_max_left N₁ N₂)).mono (fun _ done => done.paid)
      fun _ m' cut => cut.mono fun stopped => ?_
    refine stopped.first (.spent m) dhead fun n _ _ again => ⟨trivial, ?_⟩
    refine again.normal_of_head (fun _ => drest) fun none => ?_
    exact absurd tag (none d index hd)
  refine normal_call_obeys h live calls (fun isOver => ⟨rfl, isOver, trivial, .inl rfl⟩) headed ?_
  rintro F m₁ ρ₁ h₁ live₁ ⟨rfl, changes⟩
  refine takeHead_value hd tag (((rest F m₁ ρ₁ h₁ live₁ rfl).more (le_max_right N₁ N₂)).mono
    (fun _ done => done.after changes) fun _ m' cut => cut.mono fun stopped => ?_)
  refine stopped.last drest dhead.settles changes fun n settles _ again => ⟨trivial, ?_⟩
  exact again.normal_through (settles.through dhead.head_result.1)

theorem follows_stuck {d : Content} (calls : t.Calls i c sym) (dhead : Derives (.head i j) n t t')
    (hd : t'.graph.content? j = some d) (tag : ∀ index, d.tag ≠ .constructor index)
    (head : Job.Follows (.head i j) n t t') : Job.Follows (.normal i) n t t' := by
  obtain ⟨N, head⟩ := head
  refine ⟨N + 1, fun F m ρ h live same => ?_⟩
  subst same
  have headed : ∀ F, (Job.head i j).Obeys F N { m with slice := m.slice.spend } (m.Reaches n t')
      (Cut (Job.Resumes (.normal i) n t' m)) := by
    intro F
    refine (head F _ ρ h.spent live rfl).mono (fun _ done => done.paid)
      fun _ m' cut => cut.mono fun stopped => ?_
    refine stopped.into (.spent m) dhead fun n _ _ again => ⟨trivial, ?_⟩
    refine again.normal_of_head (fun ⟨e, index, he, final⟩ => ?_) fun _ => ⟨rfl, rfl⟩
    cases hd.symm.trans he
    exact absurd final (tag index)
  refine normal_call_obeys h live calls (fun isOver => ⟨rfl, isOver, trivial, .inl rfl⟩) headed ?_
  rintro F m₁ ρ₁ h₁ live₁ ⟨rfl, changes⟩
  exact takeHead_stuck h₁ live₁ hd tag ⟨rfl, changes⟩

theorem follows_data (data : t.Data i c) (dfields : Derives (.fields i c.links.length 0) n t t')
    (fields : Job.Follows (.fields i c.links.length 0) n t t') : Job.Follows (.normal i) n t t' := by
  obtain ⟨N, fields⟩ := fields
  refine ⟨N + 1, fun F m ρ h live same => ?_⟩
  subst same
  refine normal_data_obeys h live data (fun isOver => ⟨rfl, isOver, trivial, .inl rfl⟩) fun F => ?_
  refine (fields F _ ρ h.spent live rfl).mono (fun _ done => done.paid)
    fun _ m' cut => cut.mono fun stopped => ?_
  refine stopped.into (.spent m) dfields fun n settles _ again => ⟨trivial, ?_⟩
  obtain ⟨c', data', kept⟩ := data.settles settles
  rw [← kept.head.2.2.2] at again
  exact .data data' again

theorem follows_done : Job.Follows (.fields i 0 k) 0 t t := by
  refine ⟨0, fun F m ρ h live same => ?_⟩
  subst same
  rw [Job.Obeys, normalizeFields]
  exact obeys_pure (reaches_refl m)

theorem follows_field {c₁ : Content} {count n₀ : Nat} (data : t.Data i c) (hk : c.links[k]? = some p)
    (dnormal : Derives (.normal p) n₁ t t₁) (through : t₁.Through p x) (idle : t₁.Idle x)
    (data' : t₁.Data i c₁) (hk' : c₁.links[k]? = some p) (relinks : t₁.Relinks i c₁ k p x n₀ t₂)
    (good : t₂.Determinate x) (drest : Derives (.fields i count (k + 1)) n₂ t₂ t')
    (normal : Job.Follows (.normal p) n₁ t t₁)
    (rest : Job.Follows (.fields i count (k + 1)) n₂ t₂ t') :
    Job.Follows (.fields i (count + 1) k) (n₁ + n₀ + n₂) t t' := by
  obtain ⟨N₁, normal⟩ := normal
  obtain ⟨N₂, rest⟩ := rest
  refine ⟨max N₁ N₂, fun F m ρ h live same => ?_⟩
  subst same
  have below := (site_below h live data.content data.data.plain).site.link hk
  have relinked := relinks.settles data'.content hk' through idle (.inr data'.data)
  have normalized := (normal F m ρ h below.1 rfl).more (le_max_left N₁ N₂)
  refine fields_obeys h live data hk normalized ?_ ?_
  · intro _ m' cut kept
    refine cut.mono fun stopped => ?_
    rw [Nat.add_assoc]
    refine stopped.first (.refl m) dnormal fun n settles _ again => ⟨trivial, ?_⟩
    rw [← Nat.add_assoc]
    have data₁ : m'.toTermGraph.Data i c := ⟨settles.unfree i data.unfree, kept, data.data⟩
    exact .field data₁ hk again through idle data' hk' relinks good drest
  rintro m₁ ρ₁ w₁ ⟨rfl, changes₁⟩
  cases w₁.content.symm.trans data'.content
  refine takeField_obeys w₁ hk through idle relinks good fun m₂ ρ₂ w₂ reached₂ => ?_
  obtain ⟨rfl, changes₂⟩ := reached₂.after changes₁
  refine ((rest F m₂ ρ₂ w₂.inv w₂.live rfl).more (le_max_right N₁ N₂)).mono
    (fun _ done => done.after changes₂) fun _ m' cut => cut.mono fun stopped => ?_
  refine stopped.last drest (dnormal.settles.trans relinked) changes₂
    fun n settles _ again => ⟨trivial, ?_⟩
  have idle₂ := relinked.idle idle
  have data₂ : m₂.toTermGraph.Data i (c.setLink k x) :=
    ⟨relinked.unfree i data'.unfree, w₂.content, data.data⟩
  obtain ⟨c', data₃, kept⟩ := data₂.settles settles
  have final := dnormal.normal_result through idle ((relinked.determinate idle).mp good)
  exact .field_again data₃ (kept.link (Content.setLink_self hk) idle₂)
    (settles.normal (relinked.normal final)) again

/-! ## Every derivation is followed -/

theorem Derives.followed (d : Derives job n t t') : job.Follows n t t' := by
  induction d with
  | idle through idle => exact follows_idle through idle
  | call through calls step rest ihs ihr => exact follows_call through calls step rest ihs ihr
  | strict calls strict force ih => exact follows_strict calls strict force ih
  | bind calls head free run _ => exact follows_bind calls head free run
  | act _ confined run _ => exact follows_act confined run
  | head calls hk apart head calls' relinks filled rest ihh ihr =>
    exact follows_head calls hk apart head calls' relinks filled rest ihh ihr
  | normal calls hk apart head calls' relinks filled normal filled' still rest ihh ihn ihr =>
    exact follows_normal calls hk apart head calls' relinks filled normal filled' still rest ihh ihn
      ihr
  | still _ hc tag call data => exact follows_still hc tag call data
  | through unfree hc rest ih => exact follows_through unfree hc rest ih
  | stuck calls head hd tag ih => exact follows_stuck calls head hd tag ih
  | value calls head hd tag rest ihh ihr => exact follows_value calls head hd tag rest ihh ihr
  | data data fields ih => exact follows_data data fields ih
  | done => exact follows_done
  | field data hk normal through idle data' hk' relinks good rest ihn ihr =>
    exact follows_field data hk normal through idle data' hk' relinks good rest ihn ihr

end Reduction

end ChoiceGraph
