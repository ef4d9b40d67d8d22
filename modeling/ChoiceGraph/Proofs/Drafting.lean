import ChoiceGraph.Proofs.Allocation

/-! # Drafting and revising

A rewrite that needs new nodes drafts them first, one after the other, and revises the node that
is being worked on at the end, which makes them live. What was live before a draft is as it was. -/
namespace ChoiceGraph

namespace Machine

variable {m₀ m m' m'' : Machine} {held held' held'' ids : List NodeId} {ρ₀ ρ ρ' ρ'' : Rank}
  {i j : NodeId} {s : Scope} {c : Content} {g' : Graph}

/-- The node may be rewritten within the scope. -/
def Loose (m : Machine) (s : Scope) (ρ : Rank) (i : NodeId) : Prop :=
  ∀ c, m.Steady s ρ i → m.graph.content? i = some c → ¬ s.Fixed ρ i c

theorem loose_of_content (hc : m.graph.content? i = some c) (top : ρ i ≤ s.top)
    (kind : ¬ c.Inert ∨ s.exempt i) : m.Loose s ρ i := by
  intro c' _ hc' hf
  cases hc.symm.trans hc'
  rcases hf with hf | hf
  · exact absurd hf.1 (not_lt.mpr top)
  · exact kind.elim (fun hk => hk hf.1) hf.2

theorem loose_of_free (hc : m.graph.content? i = some c) (fits : c.Fits m.signature)
    (tag : c.tag = .free) : m.Loose s ρ i := by
  intro c' _ hc' hf
  cases hc.symm.trans hc'
  rcases hf with hf | hf
  · exact hf.2 tag
  · have inert := hf.1
    unfold Content.Inert at inert
    cases fits <;> cases tag
    all_goals simp [Builtin.free, Builtin.partialApplication, Builtin.function] at inert

/-- More nodes are held; nothing that was live has changed. -/
structure Adds (m : Machine) (held : List NodeId) (ρ : Rank) (m' : Machine) (held' : List NodeId)
    (ρ' : Rank) : Prop where
  signature : m'.signature = m.signature
  config : m'.config = m.config
  roots : m'.roots = m.roots
  computations : m'.computations = m.computations
  more : ∀ i ∈ held, i ∈ held'
  kept : ∀ i, m.Live held i → m'.graph.content? i = m.graph.content? i
  rank : ∀ i, m.Live held i → ρ' i = ρ i

theorem Adds.refl : m.Adds held ρ m held ρ :=
  ⟨rfl, rfl, rfl, rfl, fun _ h => h, fun _ _ => rfl, fun _ _ => rfl⟩

theorem Adds.live (a : m.Adds held ρ m' held' ρ') (h : m.Inv held ρ) (hi : m.Live held i) :
    m'.Live held' i := by
  induction hi with
  | root hi =>
    rcases List.mem_append.mp hi with hi | hi
    · refine live_root ?_
      unfold rootSet at *
      rw [a.roots, a.computations]
      exact hi
    · obtain ⟨j, hj, same⟩ := List.mem_map.mp hi
      cases same
      exact live_held (a.more _ hj)
  | step hp hpq ih =>
    obtain ⟨c, hc, -⟩ := h.fits _ hp
    exact Live.link ih ((a.kept _ hp).trans hc) ((Graph.edge_of_content hc).mp hpq)

theorem Adds.trans (a : m.Adds held ρ m' held' ρ') (h : m.Inv held ρ)
    (a' : m'.Adds held' ρ' m'' held'' ρ'') : m.Adds held ρ m'' held'' ρ'' where
  signature := a'.signature.trans a.signature
  config := a'.config.trans a.config
  roots := a'.roots.trans a.roots
  computations := a'.computations.trans a.computations
  more i hi := a'.more i (a.more i hi)
  kept i hi := (a'.kept i (a.live h hi)).trans (a.kept i hi)
  rank i hi := (a'.rank i (a.live h hi)).trans (a.rank i hi)

theorem Adds.content (a : m.Adds held ρ m' held' ρ') (hi : m.Live held i)
    (hc : m.graph.content? i = some c) : m'.graph.content? i = some c := (a.kept i hi).trans hc

/-- Nodes were drafted since the machine was `m`, all on the way from `m₀`. -/
structure Drafts (s : Scope) (m₀ : Machine) (ρ₀ : Rank) (m : Machine) (held : List NodeId)
    (ρ : Rank) (m' : Machine) (held' : List NodeId) (ρ' : Rank) (ids : List NodeId) : Prop where
  evolves : m₀.Evolves s ρ₀ m' held' ρ'
  adds : m.Adds held ρ m' held' ρ'
  blank : m'.Blank held' ids

theorem Drafts.refl (e : m₀.Evolves s ρ₀ m held ρ) (blank : m.Blank held ids) :
    Drafts s m₀ ρ₀ m held ρ m held ρ ids := ⟨e, .refl, blank⟩

theorem Drafts.trans {ids' : List NodeId} (d : Drafts s m₀ ρ₀ m held ρ m' held' ρ' ids)
    (h : m.Inv held ρ) (d' : Drafts s m₀ ρ₀ m' held' ρ' m'' held'' ρ'' ids') :
    Drafts s m₀ ρ₀ m held ρ m'' held'' ρ'' ids' :=
  ⟨d'.evolves, d.adds.trans h d'.adds, d'.blank⟩

/-- Some rank lies above finitely many others and below a bound. -/
theorem exists_rank {b : ℚ} : ∀ ls : List NodeId, (∀ j ∈ ls, ρ j < b) →
    ∃ q, (∀ j ∈ ls, ρ j < q) ∧ q < b
  | [], _ => by
    obtain ⟨q, hq⟩ := exists_lt b
    exact ⟨q, fun _ hj => absurd hj List.not_mem_nil, hq⟩
  | l :: ls, h => by
    obtain ⟨q, above, below⟩ := exists_rank ls fun j hj => h j (List.mem_cons_of_mem _ hj)
    obtain ⟨p, lt, le⟩ := exists_between (max_lt below (h l List.mem_cons_self))
    refine ⟨p, fun j hj => ?_, le⟩
    rcases List.mem_cons.mp hj with rfl | hj
    · exact (le_max_right _ _).trans_lt lt
    · exact (above j hj).trans ((le_max_left _ _).trans_lt lt)

theorem Blank.perm {ids' : List NodeId} (b : m.Blank held ids) (hp : ids.Perm ids') :
    m.Blank held ids' :=
  ⟨hp.nodup_iff.mp b.nodup, fun i hi => b.lt i (hp.mem_iff.mpr hi),
    fun i hi => b.unfree i (hp.mem_iff.mpr hi), fun i hi => b.dead i (hp.mem_iff.mpr hi)⟩

/-- A blank node takes on a content whose links are live and rank below a bound. -/
theorem Drafts.write {b : ℚ} (e : m₀.Evolves s ρ₀ m held ρ) (blank : m.Blank held (i :: ids))
    (sets : m.graph.Sets i c g') (fits : c.Fits m.signature)
    (links : ∀ j ∈ c.links, m.Live held j ∧ ρ j < b)
    (spine : c.Spined m.graph.Misses) :
    ∃ ρ', Drafts s m₀ ρ₀ m held ρ (m.setGraph g') (i :: held) ρ' ids ∧ ρ' i < b := by
  have dead := blank.dead i List.mem_cons_self
  have fresh := List.nodup_cons.mp blank.nodup
  obtain ⟨q, above, below⟩ := exists_rank c.links fun j hj => (links j hj).2
  have e' := e.draft sets dead (blank.unfree i List.mem_cons_self) fits q
    (fun j hj => ⟨(links j hj).1, above j hj⟩) spine
  have other : ∀ {j}, m.Live held j → j ≠ i := fun hj h => dead (h ▸ hj)
  refine ⟨Function.update ρ i q, ⟨e', ⟨rfl, rfl, rfl, rfl, fun _ hj => List.mem_cons_of_mem _ hj,
    fun j hj => sets.others j (other hj), fun j hj => Function.update_of_ne (other hj) _ _⟩,
    fresh.2, fun j hj => ?_, fun j hj => ?_, fun j hj hl => ?_⟩, ?_⟩
  · exact Nat.lt_of_lt_of_eq (blank.lt j (List.mem_cons_of_mem _ hj)) sets.capacity.symm
  · exact sets.free ▸ blank.unfree j (List.mem_cons_of_mem _ hj)
  · -- the new node is the only one that has become live
    have alive : ∀ p, (m.setGraph g').Live (i :: held) p → p = i ∨ m.Live held p := by
      intro p hp
      induction hp with
      | root hp =>
        rw [List.map_cons] at hp
        rcases List.mem_append.mp hp with hp | hp
        · exact .inr (live_root hp)
        · rcases List.mem_cons.mp hp with hp | hp
          · exact .inl (Option.some.inj hp)
          · exact .inr (Graph.Reach.root (List.mem_append_right _ hp))
      | @step p r _ hpr ih =>
        rcases ih with rfl | ih
        · exact .inr (links r ((Graph.edge_of_content sets.same).mp hpr)).1
        · obtain ⟨cp, hcp, -⟩ := e.inv.fits p ih
          exact .inr (ih.link hcp
            ((Graph.edge_of_content ((sets.others p (other ih)).trans hcp)).mp hpr))
    rcases alive j hl with rfl | hl
    · exact fresh.1 hj
    · exact blank.dead j (List.mem_cons_of_mem _ hj) hl
  · rw [Function.update_self]
    exact below

/-- A new identifier is drawn. -/
theorem Drafts.count (e : m₀.Evolves s ρ₀ m held ρ) (blank : m.Blank held ids) (n : Nat) :
    Drafts s m₀ ρ₀ m held ρ { m with nextId := n } held ρ ids :=
  ⟨{ e with inv := e.inv.shrink rfl rfl e.inv.frames e.inv.counted fun _ h => h },
    ⟨rfl, rfl, rfl, rfl, fun _ h => h, fun _ _ => rfl, fun _ _ => rfl⟩,
    ⟨blank.nodup, blank.lt, blank.unfree, blank.dead⟩⟩

theorem quiet_count (h : m.Inv [] ρ) (n : Nat) (slice : Slice) :
    m.Evolves s ρ { m with nextId := n, slice := slice } [] ρ :=
  { Evolves.refl (s := s) h with
    inv := h.shrink rfl rfl h.frames h.counted fun _ h => h }

end Machine

namespace Eff

open Machine

variable {α β : Type} {m₀ m : Machine} {held ids : List NodeId} {ρ₀ ρ : Rank} {i : NodeId}
  {s : Scope} {c : Content} {e : Eff Unit}

/-- The machine stopped on its way from `m₀`; nothing is held any more. -/
def Stopped (s : Scope) (m₀ : Machine) (ρ₀ : Rank) (m : Machine) : Prop :=
  ∃ ρ, m₀.Evolves s ρ₀ m [] ρ

theorem Writes.draft {b : ℚ} (hw : e.Writes i c m) (ev : m₀.Evolves s ρ₀ m held ρ)
    (blank : m.Blank held (i :: ids)) (fits : c.Fits m.signature)
    (links : ∀ j ∈ c.links, m.Live held j ∧ ρ j < b)
    (spine : c.Spined m.graph.Misses) :
    e.Meets m (fun _ m' => ∃ ρ', Drafts s m₀ ρ₀ m held ρ m' (i :: held) ρ' ids ∧ ρ' i < b ∧
        m'.graph.content? i = some c) (Stopped s m₀ ρ₀) :=
  hw.meets (fun g' sets => by
    obtain ⟨ρ', d, lt⟩ := Drafts.write ev blank sets fits links spine
    exact ⟨ρ', d, lt, sets.same⟩) ⟨ρ, ev.drop⟩

theorem Writes.revise (hw : e.Writes i c m) (ev : m₀.Evolves s ρ₀ m held ρ)
    (live : m.Live held i) (fits : c.Fits m.signature)
    (links : ∀ j ∈ c.links, m.Live held j ∧ ρ j < ρ i)
    (spine : c.Spined m.graph.Misses)
    (misses : ∀ k, m.graph.Misses i k → c.MissesBy m.graph.Misses k)
    (loose : m₀.Loose s ρ₀ i) :
    e.Meets m (fun _ m' => ∃ g', m' = m.setGraph g' ∧ m.graph.Sets i c g' ∧
        m₀.Evolves s ρ₀ m' [] ρ) (Stopped s m₀ ρ₀) :=
  hw.meets (fun g' sets => ⟨g', rfl, sets,
    (ev.write sets live fits links spine misses loose).drop⟩) ⟨ρ, ev.drop⟩

/-- A write to a live node, with nothing drafted before. -/
theorem Writes.keeps (hw : e.Writes i c m) (h : m.Inv [] ρ) (live : m.Live [] i)
    (fits : c.Fits m.signature) (links : ∀ j ∈ c.links, m.Live [] j ∧ ρ j < ρ i)
    (spine : c.Spined m.graph.Misses)
    (misses : ∀ k, m.graph.Misses i k → c.MissesBy m.graph.Misses k) (loose : m.Loose s ρ i) :
    e.Keeps s m ρ fun _ m' ρ' => ρ' = ρ ∧ ∃ g', m' = m.setGraph g' ∧ m.graph.Sets i c g' :=
  (hw.revise (.refl h) live fits links spine misses loose).mono
    (fun _ _ ⟨g', same, sets, ev⟩ => ⟨ρ, ev, rfl, g', same, sets⟩) fun _ h => h

theorem freshId_drafts (ev : m₀.Evolves s ρ₀ m held ρ) (blank : m.Blank held ids)
    {R : Machine → Prop} :
    freshId.Meets m (fun _ m' => Drafts s m₀ ρ₀ m held ρ m' held ρ ids ∧ m'.graph = m.graph) R :=
  meets_of_ok rfl ⟨.count ev blank _, rfl⟩

end Eff

end ChoiceGraph
