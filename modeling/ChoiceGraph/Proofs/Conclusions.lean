import ChoiceGraph.Proofs.Determinacy
import ChoiceGraph.Proofs.Replays
import ChoiceGraph.Proofs.Resumption

/-! # Conclusions of reductions

Outside of a search a reduction has a derivation, or it comes to a failure, to a choice or to a stop.
From where it met one of these it does no step any more: nodes are taken over one after the other, up
to the node that it was started at. A conclusion is a derivation up to there, and what is done then. -/
namespace ChoiceGraph.Reduction

open Eff Machine

/-- After a part of a job has returned, this is done and the whole job has come to its end; a part
that has stopped is the end. -/
inductive Ensues {α : Type} (e : Eff α) (a : α) :
    Except Stop Unit → TermGraph → Nat → Except Stop Unit → TermGraph → Nat → Prop where
  | draws {t t' : TermGraph} {id id' : Nat} {v : Except Stop Unit}
    (draws : e.Draws t id (v.map fun _ => a) t' id') : Ensues e a (.ok ()) t id v t' id'
  | stopped {t : TermGraph} {id : Nat} (stop : Stop) :
    Ensues e a (.error stop) t id (.error stop) t id

theorem resettle_replays (root : NodeId) (k : Nat) (arg : NodeId) : (resettle root k arg).Replays :=
  .read (·.skip arg) fun i => settle_replays root k i

theorem Demand.go_moves {r : Reducer} {root : NodeId} {next : Argument → Eff Unit} (d : Demand)
    (moves : r.Moves Pays) (h : ∀ a, (next a).Moves Pays) (a : Argument) :
    (d.go r root next a).Moves Pays := by
  cases d with
  | head => exact h a
  | normal k =>
    cases a with
    | taken => exact h .taken
    | value x => exact (moves.normal x).bind fun _ => (resettle_replays root k x).pays.bind h

/-- How a job ends outside of searches, from one graph and next identifier to others. -/
inductive Concludes :
    Job → TermGraph → Nat → Except Stop Unit → TermGraph → Nat → Prop where
  | derived {job : Job} {n id : Nat} {t t' : TermGraph} (d : Derives job n t t') :
    Concludes job t id (.ok ()) t' id
  | call {t t' : TermGraph} {i p j : NodeId} {c : Content} {sym : Symbol} {id id' : Nat}
    {v : Except Stop Unit} (through : t.Through i p) (calls : t.Calls p c sym)
    (step : Concludes (.step p) t id v t' id') (spoiled : v = .ok () → j = p ∧ t'.Spoiled p) :
    Concludes (.head i j) t id v t' id'
  | later {t t₁ t' : TermGraph} {i p j : NodeId} {c : Content} {sym : Symbol} {n id id' : Nat}
    {v : Except Stop Unit} (through : t.Through i p) (calls : t.Calls p c sym)
    (step : Derives (.step p) n t t₁) (rest : Concludes (.head p j) t₁ id v t' id') :
    Concludes (.head i j) t id v t' id'
  | choose {t t' : TermGraph} {i : NodeId} {c : Content} {sym : Symbol} {id id' : Nat}
    {v : Except Stop Unit} (calls : t.Calls i c sym) (head : sym.head = .choose)
    (draws : (stepChoose i).Draws t id v t' id') : Concludes (.step i) t id v t' id'
  | forward {t t' : TermGraph} {i p x : NodeId} {c : Content} {sym : Symbol} {id id' : Nat} {stop : Stop}
    (calls : t.Calls i c sym) (head : sym.head = .forward) (hk : c.links[0]? = some p)
    (rest : Concludes (.head p x) t id (.error stop) t' id') :
    Concludes (.step i) t id (.error stop) t' id'
  | strict {t t' : TermGraph} {i : NodeId} {c : Content} {sym : Symbol} {id id' : Nat}
    {v : Except Stop Unit} {demands : List Demand} {act : List NodeId → Eff Unit}
    (calls : t.Calls i c sym) (strict : Strict i sym.head demands act)
    (unbound : sym.head = .unify → ¬ t.BothFree c)
    (force : Concludes (.force i demands act) t id v t' id') : Concludes (.step i) t id v t' id'
  | fails {t t' : TermGraph} {i : NodeId} {id id' : Nat} {stop : Stop} {act : List NodeId → Eff Unit}
    (confined : (act []).Confined (Only i)) (draws : (act []).Draws t id (.error stop) t' id') :
    Concludes (.force i [] act) t id (.error stop) t' id'
  | argument {t t₁ t' : TermGraph} {i p x : NodeId} {c : Content} {sym : Symbol} {id id₁ id' : Nat}
    {v w : Except Stop Unit} {d : Demand} {demands : List Demand} {act : List NodeId → Eff Unit}
    (calls : t.Calls i c sym) (hk : c.links[d.index]? = some p)
    (head : Concludes (.head p x) t id v t₁ id₁)
    (ensues : Ensues (takeArg i d.index (some p) x) .taken v t₁ id₁ w t' id') :
    Concludes (.force i (d :: demands) act) t id w t' id'
  | passed {t t₁ t₂ t' : TermGraph} {i p x : NodeId} {c : Content} {sym : Symbol} {k n r id id' : Nat}
    {v : Except Stop Unit} {demands : List Demand} {act : List NodeId → Eff Unit}
    (calls : t.Calls i c sym) (hk : c.links[k]? = some p) (apart : ∀ d ∈ demands, d.index ≠ k)
    (head : Derives (.head p x) n t t₁) (calls' : t₁.Calls i c sym)
    (relinks : t₁.Relinks i c k p x r t₂) (filled : t₂.Filled x)
    (rest : Concludes (.force i demands fun xs => act (x :: xs)) t₂ id v t' id') :
    Concludes (.force i (.head k :: demands) act) t id v t' id'
  | normal {t t₁ t₂ t₃ t' : TermGraph} {i p x : NodeId} {c : Content} {sym : Symbol}
    {k n r id id₃ id' : Nat} {v w : Except Stop Unit} {demands : List Demand}
    {act : List NodeId → Eff Unit} (calls : t.Calls i c sym) (hk : c.links[k]? = some p)
    (head : Derives (.head p x) n t t₁) (calls' : t₁.Calls i c sym)
    (relinks : t₁.Relinks i c k p x r t₂) (filled : t₂.Filled x)
    (normal : Concludes (.normal x) t₂ id v t₃ id₃)
    (ensues : Ensues (resettle i k x) .taken v t₃ id₃ w t' id') :
    Concludes (.force i (.normal k :: demands) act) t id w t' id'
  | normalized {t t₁ t₂ t₃ t' : TermGraph} {i p x : NodeId} {c : Content} {sym : Symbol}
    {k n₁ r n₂ id id' : Nat} {v : Except Stop Unit} {demands : List Demand}
    {act : List NodeId → Eff Unit} (calls : t.Calls i c sym) (hk : c.links[k]? = some p)
    (apart : ∀ d ∈ demands, d.index ≠ k) (head : Derives (.head p x) n₁ t t₁)
    (calls' : t₁.Calls i c sym) (relinks : t₁.Relinks i c k p x r t₂) (filled : t₂.Filled x)
    (normal : Derives (.normal x) n₂ t₂ t₃) (filled' : t₃.Filled x)
    (still : t₃.graph.content? i = t₂.graph.content? i)
    (rest : Concludes (.force i demands fun xs => act (x :: xs)) t₃ id v t' id') :
    Concludes (.force i (.normal k :: demands) act) t id v t' id'
  | through {t t' : TermGraph} {i p : NodeId} {symbol aux id id' : Nat} {v : Except Stop Unit}
    (unfree : i ∉ t.graph.free) (hc : t.graph.content? i = some ⟨.forward, symbol, aux, .links [p]⟩)
    (rest : Concludes (.normal p) t id v t' id') : Concludes (.normal i) t id v t' id'
  | stuck {t t' : TermGraph} {i j : NodeId} {c : Content} {sym : Symbol} {id id' : Nat}
    {v : Except Stop Unit} (calls : t.Calls i c sym) (head : Concludes (.head i j) t id v t' id')
    (spoiled : v = .ok () → t'.Spoiled j) : Concludes (.normal i) t id v t' id'
  | value {t t₁ t' : TermGraph} {i j : NodeId} {c d : Content} {sym : Symbol} {n index id id' : Nat}
    {v : Except Stop Unit} (calls : t.Calls i c sym) (head : Derives (.head i j) n t t₁)
    (hd : t₁.graph.content? j = some d) (tag : d.tag = .constructor index)
    (rest : Concludes (.normal j) t₁ id v t' id') : Concludes (.normal i) t id v t' id'
  | data {t t' : TermGraph} {i : NodeId} {c : Content} {id id' : Nat} {v : Except Stop Unit}
    (data : t.Data i c) (fields : Concludes (.fields i c.links.length 0) t id v t' id') :
    Concludes (.normal i) t id v t' id'
  | field {t t₁ t' : TermGraph} {i p : NodeId} {c : Content} {count k id id₁ id' : Nat}
    {v w : Except Stop Unit} (data : t.Data i c) (hk : c.links[k]? = some p)
    (normal : Concludes (.normal p) t id v t₁ id₁)
    (spoiled : v = .ok () → ∃ x, t₁.graph.Leads p x ∧ t₁.Spoiled x)
    (ensues : Ensues (surface i k p) () v t₁ id₁ w t' id') :
    Concludes (.fields i (count + 1) k) t id w t' id'
  | fields {t t₁ t₂ t' : TermGraph} {i p x : NodeId} {c c₁ : Content} {count k n r id id' : Nat}
    {v : Except Stop Unit} (data : t.Data i c) (hk : c.links[k]? = some p)
    (normal : Derives (.normal p) n t t₁) (through : t₁.Through p x) (idle : t₁.Idle x)
    (data' : t₁.Data i c₁) (hk' : c₁.links[k]? = some p) (relinks : t₁.Relinks i c₁ k p x r t₂)
    (good : t₂.Determinate x) (rest : Concludes (.fields i count (k + 1)) t₂ id v t' id') :
    Concludes (.fields i (count + 1) k) t id v t' id'

theorem Ensues.patient {α : Type} {e : Eff α} {a : α} {t t' : TermGraph} {id id' : Nat}
    {v w : Except Stop Unit} (h : Ensues e a v t id w t' id') (replays : e.Replays)
    (first : v ≠ .error .preempted) : w ≠ .error .preempted := by
  cases h with
  | stopped => exact first
  | draws draws =>
    rintro rfl
    obtain ⟨m, m', -, ends, -⟩ := draws
    exact replays.patient m m' ends.run

/-- A reduction that is not under way in a limited slice does not end for want of steps. -/
theorem Concludes.patient {job : Job} {t t' : TermGraph} {id id' : Nat} {v : Except Stop Unit}
    (h : Concludes job t id v t' id') : v ≠ .error .preempted := by
  have never : ∀ {α : Type} {e : Eff α} {t t' : TermGraph} {id id' : Nat}, e.Patient →
      ¬ e.Draws t id (.error .preempted) t' id' := by
    rintro α e t t' id id' patient ⟨m, m', -, ends, -⟩
    exact patient m m' ends.run
  induction h with
  | derived => nofun
  | choose _ _ draws =>
    rintro rfl
    exact never (stepChoose_replays _).patient draws
  | fails confined draws =>
    rintro ⟨⟩
    exact never confined.patient draws
  | argument _ _ _ ensues ih => exact ensues.patient (takeArg_replays _ _ _ _) ih
  | normal _ _ _ _ _ _ _ ensues ih => exact ensues.patient (resettle_replays _ _ _) ih
  | field _ _ _ _ ensues ih => exact ensues.patient (surface_replays _ _ _) ih
  | _ => assumption

section Production

variable {m m' : Machine} {ρ : Rank} {i j p x : NodeId} {c : Content} {sym : Symbol} {k n F : Nat}
  {v : Except Stop Unit} {t t' t₁ : TermGraph}

theorem head_aside (d : Derives (.head i j) n m.toTermGraph t') (h : m.Inv [] ρ) (live : m.Live [] i)
    (run : (reducer F).head i m = .ok j m') : m.Aside m' := by
  obtain ⟨N, follow⟩ := d.followed
  exact (Eff.Obeys.ok (follow F m ρ h live rfl) run).2.changes.aside

theorem step_aside (d : Derives (.step i) n m.toTermGraph t') (h : m.Inv [] ρ) (live : m.Live [] i)
    (run : headWork (reducer F) i m = .ok () m') : m.Aside m' := by
  obtain ⟨N, follow⟩ := d.followed
  exact (Eff.Obeys.ok (follow F m ρ h live rfl) run).changes.aside

theorem normal_aside (d : Derives (.normal i) n m.toTermGraph t') (h : m.Inv [] ρ) (live : m.Live [] i)
    (run : (reducer F).normal i m = .ok () m') : m.Aside m' := by
  obtain ⟨N, follow⟩ := d.followed
  exact (Eff.Obeys.ok (follow F m ρ h live rfl) run).changes.aside

/-- Unhindered, at a live node of a graph whose variables branch. -/
structure Ready (m : Machine) (ρ : Rank) (i : NodeId) : Prop where
  inv : m.Inv [] ρ
  live : m.Live [] i
  branching : m.toTermGraph.Branching
  unhindered : m.Unhindered

theorem Ready.spent (h : Ready m ρ i) : Ready { m with slice := m.slice.spend } ρ i :=
  ⟨h.inv.spent, h.live, h.branching, h.unhindered.spent⟩

theorem Ready.draws {α : Type} {e : Eff α} {r : Except Stop α} (h : Ready m ρ i)
    (ends : e.Ends m r m') : e.Draws m.toTermGraph m.nextId r m'.toTermGraph m'.nextId :=
  ⟨m, m', ⟨rfl, rfl, h.unhindered.outside⟩, ends, rfl, rfl⟩

/-- What the reducer does has a conclusion. -/
structure Concluded (F : Nat) : Prop where
  head : ∀ m ρ i j v m', Ready m ρ i → ((reducer F).head i).Ends m (v.map fun _ => j) m' →
    Concludes (.head i j) m.toTermGraph m.nextId v m'.toTermGraph m'.nextId
  normal : ∀ m ρ i v m', Ready m ρ i → ((reducer F).normal i).Ends m v m' →
    Concludes (.normal i) m.toTermGraph m.nextId v m'.toTermGraph m'.nextId

/-- A node that leads to a head normal form is reduced to it at once. -/
theorem idle_head {r : Except Stop NodeId} (h : m.Inv [] ρ) (live : m.Live [] i)
    (leads : m.graph.Leads i x) (idle : m.toTermGraph.Idle x)
    (run : (headNormalize F i).Ends m r m') : r = .ok x ∧ m' = m := by
  obtain ⟨-, c, hc, tag, call⟩ := idle
  cases F with
  | zero =>
    have stopped := run.run
    rw [headNormalize] at stopped
    cases r with
    | ok a => cases stopped
    | error stop =>
      cases stopped
      exact (run.final _ rfl).elim
  | succ F =>
    rw [headNormalize_eq] at run
    exact ends_pure ((run.reads (h.skip_eq live leads hc tag)).reads
      (isReducible_idle h (live.leads leads) hc call))

/-- What is returned is in head normal form. -/
theorem head_idle : ∀ (F : Nat) (m m' : Machine) (ρ : Rank) (i j : NodeId), m.Inv [] ρ → m.Live [] i →
    headNormalize F i m = .ok j m' → m'.toTermGraph.Idle j := by
  intro F
  induction F with
  | zero =>
    intro m m' ρ i j _ _ run
    cases run
  | succ F ih =>
    intro m m' ρ i j h live run
    obtain ⟨p, c, skip, leads, hc, tag⟩ := h.read_skip live
    have live := live.leads leads
    rw [headNormalize_eq] at run
    obtain ⟨q, read, run⟩ := look_bind_eq_ok run
    cases skip.symm.trans read
    obtain ⟨reducible, read, run⟩ := look_bind_eq_ok run
    by_cases call : c.IsCall
    · obtain ⟨sym, found, -⟩ := h.read_symbol live hc
      cases (isReducible_call h ⟨h.unfree p live, hc, call, found⟩ live).symm.trans read
      rw [if_pos rfl] at run
      obtain ⟨_, m₁, step, run⟩ := bind_eq_ok run
      obtain ⟨ρ₁, ev, -⟩ := (headStep_keeps (reducer_sound F) h live).ok step
      exact ih m₁ m' ρ₁ p j ev.inv (ev.live (h.steady live le_rfl)) run
    · cases (isReducible_idle h live hc call).symm.trans read
      cases run
      exact h.idle live hc tag call

theorem known_head (h : Ready m ρ i) (run : ((reducer F).head i).Ends m (.ok j) m')
    (good : m'.toTermGraph.Determinate j) :
    ∃ n, Derives (.head i j) n m.toTermGraph m'.toTermGraph ∧ m.Aside m' := by
  obtain ⟨n, d⟩ := (reducer_known F).derived.head m ρ i j m' h.inv h.live h.branching run.clean good
  exact ⟨n, d, head_aside d h.inv h.live run.run⟩

theorem Ready.after (h : Ready m ρ i) {ρ' : Rank} {j : NodeId} (inv : m'.Inv [] ρ')
    (live : m'.Live [] j) (settles : m.toTermGraph.Settles m'.toTermGraph)
    (unhindered : m'.Unhindered) : Ready m' ρ' j :=
  ⟨inv, live, settles.branching h.branching, unhindered⟩

theorem Aside.nextId (h : m.Aside m') : m'.nextId = m.nextId := by
  rw [h.rest]

/-! ## Forcing arguments -/

/-- An argument that is forced takes the call over, or is a value that the step goes on with. -/
theorem headArg_concludes {K : Argument → Eff Unit} {d : Demand} (demands : List Demand)
    (act : List NodeId → Eff Unit) (ih : Concluded F) (h : Ready m ρ i)
    (calls : m.toTermGraph.Calls i c sym) (hk : c.links[d.index]? = some p)
    (moves : ∀ a, (K a).Moves Pays) (taken : K .taken = pure ())
    (run : (headArg (reducer F) i d.index >>= K).Ends m v m') :
    Concludes (.force i (d :: demands) act) m.toTermGraph m.nextId v m'.toTermGraph m'.nextId ∨
      ∃ x t₁ m₁, Headed ρ i c sym d.index p x m.toTermGraph t₁ m₁ ∧ m.Aside m₁ ∧ m₁.Unhindered ∧
        (K (.value x)).Ends m₁ v m' := by
  have known := reducer_known F
  have w := site_below h.inv h.live calls.content calls.call.2
  have below := w.site.link hk
  have start : Ready m ρ p := ⟨h.inv, below.1, h.branching, h.unhindered⟩
  have tail : ∀ x, (takeArg i d.index (some p) x >>= K).Moves Pays := fun x =>
    (takeArg_moves i d.index (some p) x).bind moves
  rw [headArg_bind] at run
  have run := (run.reads (h.inv.read_successor h.live calls.content hk)).reads (a := p) rfl
  rcases run.bind (known.moves.head p) tail with ⟨x, m₁, headed, run⟩ | ⟨stop, rfl, stopped⟩
  · have concluded := ih.head m ρ p x (.ok ()) m₁ start headed
    have kept := ((reducer_moves LetsRun F).head p).unhindered headed h.unhindered
    obtain ⟨ρ₁, ev, leads⟩ := ((reducer_sound F).head m ρ p h.inv below.1).ok headed.run
    obtain ⟨w₁, -⟩ := w.site.spare below.2 hk ev
    obtain ⟨-, e, he, tag, -⟩ := head_idle F m m₁ ρ p x h.inv below.1 headed.run
    have draws : ∀ {r m'}, (takeArg i d.index (some p) x).Ends m₁ r m' →
        (takeArg i d.index (some p) x).Draws m₁.toTermGraph m₁.nextId r m'.toTermGraph m'.nextId :=
      fun ends => ⟨m₁, _, ⟨rfl, rfl, kept.outside⟩, ends, rfl, rfl⟩
    rcases run.bind (takeArg_moves i d.index (some p) x) moves with
      ⟨a, m₂, argument, run⟩ | ⟨stop, rfl, stopped⟩
    · have branching : e.tag = .free → m₁.toTermGraph.Branching := fun free => by
        obtain ⟨n, derived, -⟩ := known_head start headed ⟨e, he, by rw [free]; exact ⟨nofun, nofun⟩⟩
        exact derived.settles.branching h.branching
      rcases takeArg_returns w₁ hk leads he tag branching argument.clean with
        ⟨rfl, -⟩ | ⟨rfl, good, filled, aside, n, ρ₂, relinks, w₂⟩
      · rw [taken] at run
        obtain ⟨rfl, rfl⟩ := ends_pure run
        exact .inl (.argument calls hk concluded (.draws (v := .ok ()) (draws argument)))
      · obtain ⟨n₁, derived, aside₁⟩ := known_head start headed good
        have calls₁ := calls.alike derived.settles w₁.content (.refl (fun _ => True) c)
        exact .inr ⟨x, _, m₂, ⟨⟨n₁, derived⟩, calls₁, ⟨n, relinks⟩, filled, ρ₂, w₂⟩, aside₁.trans aside,
          (takeArg_moves i d.index (some p) x).unhindered argument kept, run⟩
    · exact .inl (.argument calls hk concluded (.draws (v := .error stop) (draws stopped)))
  · refine .inl (.argument calls hk (x := i) ?_ (.stopped stop))
    exact ih.head m ρ p i (.error stop) m' start stopped

/-- An argument in head normal form is normalized, and takes the call over or is a value. -/
theorem normalArg_concludes {K : Argument → Eff Unit} {t₁ : TermGraph} {m₁ : Machine}
    (demands : List Demand) (act : List NodeId → Eff Unit) (ih : Concluded F) (h : Ready m ρ i)
    (calls : m.toTermGraph.Calls i c sym) (hk : c.links[k]? = some p)
    (headed : Headed ρ i c sym k p x m.toTermGraph t₁ m₁) (aside : m.Aside m₁)
    (unhindered : m₁.Unhindered) (moves : ∀ a, (K a).Moves Pays) (taken : K .taken = pure ())
    (run : ((reducer F).normal x >>= fun _ => resettle i k x >>= K).Ends m₁ v m') :
    Concludes (.force i (.normal k :: demands) act) m.toTermGraph m.nextId v m'.toTermGraph m'.nextId ∨
      ∃ m₂ ρ₂ n, Derives (.normal x) n m₁.toTermGraph m₂.toTermGraph ∧ m₂.toTermGraph.Filled x ∧
        m₁.graph.content? i = some (c.setLink k x) ∧ m₂.Site (.below (ρ i)) ρ₂ i (c.setLink k x) ∧
        m.Aside m₂ ∧ m₂.Unhindered ∧ (K (.value x)).Ends m₂ v m' := by
  have known := reducer_known F
  obtain ⟨settled, idle⟩ := headed.settles hk
  obtain ⟨⟨n, head⟩, calls', ⟨r, relinks⟩, filled, ρ₁, w₁⟩ := headed
  have hk₁ := Content.setLink_self (i := x) hk
  have below := w₁.link hk₁
  have start : Ready m₁ ρ₁ x := h.after w₁.inv below.1 settled unhindered
  have again : (resettle i k x).Moves Pays := (resettle_replays i k x).pays
  have same : m₁.nextId = m.nextId := Aside.nextId aside
  rcases run.bind (known.moves.normal x) fun _ => again.bind moves with
    ⟨_, m₂, normal, run⟩ | ⟨stop, rfl, stopped⟩
  · have concluded := ih.normal m₁ ρ₁ x (.ok ()) m₂ start normal
    rw [same] at concluded
    have kept := ((reducer_moves LetsRun F).normal x).unhindered normal start.unhindered
    obtain ⟨ρ₂, ev, -⟩ := ((reducer_sound F).normal m₁ ρ₁ x w₁.inv below.1).ok normal.run
    obtain ⟨w₂, -⟩ := w₁.spare below.2 hk₁ ev
    obtain ⟨y, e, skip, leads, he, -⟩ := w₂.inv.read_skip (w₂.link hk₁).1
    have draws : ∀ {r m'}, (resettle i k x).Ends m₂ r m' →
        (resettle i k x).Draws m₂.toTermGraph m₂.nextId r m'.toTermGraph m'.nextId :=
      fun ends => ⟨m₂, _, ⟨rfl, rfl, kept.outside⟩, ends, rfl, rfl⟩
    rcases run.bind again moves with ⟨a, m₃, argument, run⟩ | ⟨stop, rfl, stopped⟩
    · rcases settle_returns w₂ hk₁ leads he (argument.reads skip).run with
        ⟨rfl, -⟩ | ⟨rfl, rfl, filled'⟩
      · rw [taken] at run
        obtain ⟨rfl, rfl⟩ := ends_pure run
        exact .inl (.normal calls hk head calls' relinks filled concluded
          (.draws (v := .ok ()) (draws argument)))
      · obtain ⟨n₂, final⟩ := known.derived.normal m₁ ρ₁ x y m₃ w₁.inv below.1 start.branching
          normal.clean skip filled'.determinate
        obtain ⟨-, e', he', tag, -⟩ := final.settles.idle idle
        cases skip.symm.trans (w₂.inv.skip_eq (w₂.link hk₁).1 (.refl x) he' tag)
        exact .inr ⟨m₃, ρ₂, n₂, final, filled', w₁.content, w₂,
          aside.trans (normal_aside final w₁.inv below.1 normal.run), kept, run⟩
    · exact .inl (.normal calls hk head calls' relinks filled concluded
        (.draws (v := .error stop) (draws stopped)))
  · have concluded := ih.normal m₁ ρ₁ x (.error stop) m' start stopped
    rw [same] at concluded
    exact .inl (.normal calls hk head calls' relinks filled concluded (.stopped stop))

/-- The arguments that a step needs are forced one after the other, until one takes the call over. -/
theorem force_concludes (ih : Concluded F) (i : NodeId) :
    ∀ (demands : List Demand) (act : List NodeId → Eff Unit) (m m' : Machine) (ρ : Rank) (c : Content)
      (v : Except Stop Unit), Ready m ρ i → m.toTermGraph.Calls i c sym →
      (demands.map Demand.index).Nodup → (∀ xs, (act xs).Confined (Only i)) →
      (force (reducer F) i demands act).Ends m v m' →
      Concludes (.force i demands act) m.toTermGraph m.nextId v m'.toTermGraph m'.nextId := by
  intro demands
  induction demands with
  | nil =>
    intro act m m' ρ c v h calls _ confined run
    cases v with
    | ok _ =>
      have same : m'.nextId = m.nextId := by rw [(confined []).changes run]; rfl
      have bound : ∀ j, Only i j → j < m.graph.capacity := by
        rintro j rfl
        exact h.inv.lt h.live
      have touches := (confined []).touches m () m' h.inv.storage bound run.run run.uncollected
      rw [same]
      exact .derived (.act calls (confined []) ⟨m, m', rfl, run.run, rfl, run.uncollected⟩ touches)
    | error stop => exact .fails (confined []) (h.draws run)
  | cons d demands ihd =>
    intro act m m' ρ c v h calls apart confined run
    rw [List.map_cons, List.nodup_cons] at apart
    obtain ⟨fresh, apart⟩ := apart
    have apart' : ∀ d' ∈ demands, d'.index ≠ d.index := fun d' hd same =>
      fresh (same ▸ List.mem_map_of_mem hd)
    have moves : ∀ a, (forceNext (reducer F) i demands act a).Moves Pays := by
      intro a
      cases a with
      | taken => exact moves_pure ()
      | value x => exact force_moves (reducer_known F).moves i demands _ fun xs => confined (x :: xs)
    have go_on : ∀ (m₁ : Machine) (ρ₁ : Rank) (x : NodeId),
        m₁.Site (.below (ρ i)) ρ₁ i (c.setLink d.index x) → m.toTermGraph.Settles m₁.toTermGraph →
        m.Aside m₁ → m₁.Unhindered →
        (force (reducer F) i demands fun xs => act (x :: xs)).Ends m₁ v m' →
          Concludes (.force i demands fun xs => act (x :: xs)) m₁.toTermGraph m.nextId v m'.toTermGraph
            m'.nextId := by
      intro m₁ ρ₁ x w settles aside unhindered run
      have calls₁ := calls.alike settles w.content ((Content.setLink_alike d.index x).mono fun _ h => h)
      rw [← Aside.nextId aside]
      exact ihd _ m₁ m' ρ₁ _ v (h.after w.inv w.live settles unhindered) calls₁ apart
        (fun xs => confined (x :: xs)) run
    rw [force_cons] at run
    obtain ⟨p, hk⟩ : ∃ p, c.links[d.index]? = some p := by
      have first := run
      rw [headArg_bind] at first
      obtain ⟨l, read, -⟩ := first.look
      exact ⟨_, List.getElem?_eq_getElem (successor_lt h.inv h.live calls.content read)⟩
    rcases headArg_concludes demands act ih h calls hk
      (d.go_moves (reducer_known F).moves moves) d.go_taken run with
      done | ⟨x, t₁, m₁, headed, aside, unhindered, run⟩
    · exact done
    cases d with
    | head k =>
      obtain ⟨settled, -⟩ := headed.settles hk
      obtain ⟨⟨n, head⟩, calls', ⟨r, relinks⟩, filled, ρ₁, w₁⟩ := headed
      exact .passed calls hk apart' head calls' relinks filled
        (go_on m₁ ρ₁ x w₁ settled aside unhindered run)
    | normal k =>
      rcases normalArg_concludes demands act ih h calls hk headed aside
        unhindered moves rfl run with done | ⟨m₂, ρ₂, n₂, normal, filled', hc₁, w₂, aside₂, unhindered₂, run⟩
      · exact done
      have settled := (headed.settles hk).1.trans normal.settles
      obtain ⟨⟨n, head⟩, calls', ⟨r, relinks⟩, filled, -⟩ := headed
      exact .normalized calls hk apart' head calls' relinks filled normal filled'
        (w₂.content.trans hc₁.symm) (go_on m₂ ρ₂ x w₂ settled aside₂ unhindered₂ run)

/-! ## Head steps -/

/-- To bind two variables takes no new node. -/
theorem bindHeads_faults (root a b : NodeId) : (bindHeads root a b).Faults := by
  have succeeds : (succeed root).Faults := (faults_look _).bind fun tag =>
    Faults.bind (e := storeLinks []) (fun _ _ _ run => nomatch run) fun _ => faults_put root _
  refine (faults_look _).bind fun x => (faults_look _).bind fun y => ?_
  dsimp only
  split
  · refine Faults.bind ((faults_look _).bind fun x => (faults_look _).bind fun y => ?_) fun _ => succeeds
    refine Faults.bind (e := get) (fun _ _ _ run => nomatch run) fun m => ?_
    split
    · exact Faults.bind (e := modify _) (fun _ _ _ run => nomatch run) fun _ => faults_pure _
    · exact faults_pure _
  · exact succeeds

theorem step_concludes (ih : Concluded F) (h : Ready m ρ i) (calls : m.toTermGraph.Calls i c sym)
    (goes : v = .ok () → sym.head ≠ .forward) (run : (headWork (reducer F) i).Ends m v m') :
    Concludes (.step i) m.toTermGraph m.nextId v m'.toTermGraph m'.nextId := by
  have symbol := TermGraph.symbol_content calls.content calls.symbol
  have body : (runHead (reducer F) i sym.head).Ends m v m' := run.reads symbol
  by_cases choose : sym.head = .choose
  · rw [choose] at body
    exact .choose calls choose (h.draws body)
  by_cases forward : sym.head = .forward
  · cases v with
    | ok _ => exact absurd forward (goes rfl)
    | error stop =>
      rw [forward] at body
      obtain ⟨l, read, body⟩ := body.look
      obtain ⟨p, hk⟩ : ∃ p, c.links[0]? = some p :=
        ⟨_, List.getElem?_eq_getElem (successor_lt h.inv h.live calls.content read)⟩
      cases (h.inv.read_successor h.live calls.content hk).symm.trans read
      have below := (site_below h.inv h.live calls.content calls.call.2).site.link hk
      rcases (body.reads (a := p) rfl).bind ((reducer_known F).moves.head p)
        fun _ => moves_pure () with ⟨x, m₁, -, rest⟩ | ⟨stop', same, stopped⟩
      · cases (ends_pure rest).1
      · cases same
        exact .forward calls forward hk (ih.head m ρ p i (.error stop) m'
          ⟨h.inv, below.1, h.branching, h.unhindered⟩ stopped)
  by_cases unify : sym.head = .unify
  · rw [unify] at body
    rcases unify_cases h.inv h.live calls unify (reducer F) with
      ⟨both, a, b, d, e, ha, hb, reads⟩ | ⟨unbound, reads⟩
    · have bound : (bindHeads i a b).Ends m v m' :=
        ⟨reads.symm.trans body.run, body.uncollected, body.final⟩
      obtain ⟨_, rfl⟩ := (bindHeads_faults i a b).ends bound
      obtain ⟨n, derived⟩ := bindHeads_derives h.inv h.live calls unify both ha hb bound.clean
      rw [Aside.nextId (step_aside derived h.inv h.live run.run)]
      exact .derived derived
    · have forced : (force (reducer F) i [.head 0, .head 1] (onPair (unifyHeads i))).Ends m v m' :=
        ⟨reads.symm.trans body.run, body.uncollected, body.final⟩
      exact .strict calls (unify ▸ .unify) (fun _ => unbound) (force_concludes ih i _ _ m m' ρ c v h
        calls (by decide) (onPair_confined (unifyHeads_confined i)) forced)
  obtain ⟨count, reads, -⟩ :=
    ((h.inv.fitsAt h.live calls.content).of_isCall calls.symbol calls.call).reads
  obtain ⟨demands, act, strict⟩ := strict_of_reads i (by rw [reads]; nofun) choose forward
  have forced : (force (reducer F) i demands act).Ends m v m' := by
    generalize sym.head = head at strict body unify
    cases strict with
    | plain _ eq => rwa [eq] at body
    | unify => exact absurd rfl unify
  exact .strict calls strict (fun head => absurd head unify)
    (force_concludes ih i demands act m m' ρ c v h calls strict.apart strict.confined forced)

/-- A call that only follows its argument does so again and again once the argument is in head normal
form. -/
theorem forward_circles {r : Except Stop NodeId} (head : sym.head = .forward)
    (hk : c.links[0]? = some p) :
    ∀ (F : Nat) (m : Machine), m.Inv [] ρ → m.Live [] i → m.Unhindered → m.toTermGraph.Calls i c sym →
      m.graph.Leads p x → m.toTermGraph.Idle x → ¬ (headNormalize F i).Ends m r m' := by
  intro F
  induction F with
  | zero =>
    intro m _ _ _ _ _ _ run
    have stopped := run.run
    rw [headNormalize] at stopped
    cases r with
    | ok a => cases stopped
    | error stop =>
      cases stopped
      exact run.final _ rfl
  | succ F ih =>
    intro m h live unhindered calls leads idle run
    have below := (site_below h live calls.content calls.call.2).site.link hk
    rw [headNormalize_eq] at run
    have run := (run.reads (h.skip_eq live (.refl i) calls.content calls.call.not_forward)).reads
      (isReducible_call h calls live)
    rw [if_pos rfl] at run
    have moves := reducer_moves Pays F
    have circles : ∀ {r m'}, (headStep (reducer F) i).Ends m r m' →
        r = .ok () ∧ m' = { m with slice := m.slice.spend } := by
      intro r m' step
      have work : (headWork (reducer F) i).Ends { m with slice := m.slice.spend } r m' :=
        step.paid unhindered.isOver
      have body := work.reads (TermGraph.symbol_content calls.content calls.symbol)
      rw [head] at body
      have body := (body.reads (h.read_successor live calls.content hk)).reads (a := p) rfl
      rcases body.bind (moves.head p) fun _ => moves_pure () with ⟨y, m₁, arg, rest⟩ | ⟨stop, -, arg⟩
      · obtain ⟨-, rfl⟩ := idle_head h.spent below.1 leads idle arg
        exact ends_pure rest
      · cases (idle_head h.spent below.1 leads idle arg).1
    rcases run.bind (tick_moves.bind fun _ => headWork_moves moves i) fun _ => moves.head i with
      ⟨_, m₁, step, rest⟩ | ⟨stop, -, step⟩
    · obtain ⟨-, rfl⟩ := circles step
      exact ih _ h.spent live unhindered.spent calls leads idle rest
    · cases (circles step).1

/-! ## Head normal forms -/

theorem head_concludes (ih : Concluded F) (h : Ready m ρ i)
    (run : (headNormalize (F + 1) i).Ends m (v.map fun _ => j) m') :
    Concludes (.head i j) m.toTermGraph m.nextId v m'.toTermGraph m'.nextId := by
  have known := reducer_known F
  obtain ⟨p, c, skip, leads, hc, tag⟩ := h.inv.read_skip h.live
  have through := h.inv.through h.live leads
  have live := h.live.leads leads
  rw [headNormalize_eq] at run
  have run := run.reads skip
  by_cases call : c.IsCall
  · obtain ⟨sym, found, -⟩ := h.inv.read_symbol live hc
    have calls : m.toTermGraph.Calls p c sym := ⟨h.inv.unfree p live, hc, call, found⟩
    let m₀ : Machine := { m with slice := m.slice.spend }
    have start : Ready m₀ ρ p := ⟨h.inv.spent, live, h.branching, h.unhindered.spent⟩
    have run := run.reads (isReducible_call h.inv calls live)
    rw [if_pos rfl] at run
    rcases run.bind (tick_moves.bind fun _ => headWork_moves known.moves p) fun _ => known.moves.head p
      with ⟨_, m₁, step, rest⟩ | ⟨stop, stopped, step⟩
    · have work : (headWork (reducer F) p).Ends m₀ (.ok ()) m₁ := step.paid h.unhindered.isOver
      obtain ⟨ρ₁, ev, -⟩ := (headStep_keeps known.sound h.inv live).ok step.run
      have live₁ : m₁.Live [] p := ev.live (h.inv.steady live le_rfl)
      have kept := (headWork_moves (reducer_moves LetsRun F) p).unhindered work start.unhindered
      have goes : sym.head ≠ .forward := by
        intro head
        have body := work.reads (TermGraph.symbol_content calls.content calls.symbol)
        rw [head] at body
        obtain ⟨l, read, body⟩ := body.look
        obtain ⟨q, hk⟩ : ∃ q, c.links[0]? = some q :=
          ⟨_, List.getElem?_eq_getElem (successor_lt h.inv live calls.content read)⟩
        cases (h.inv.read_successor live calls.content hk).symm.trans read
        have w := (site_below start.inv live calls.content calls.call.2).site
        have below := w.link hk
        rcases (body.reads (a := q) rfl).bind (known.moves.head q) fun _ => moves_pure () with
          ⟨x, m₂, arg, last⟩ | ⟨stop, same, -⟩
        · obtain ⟨-, rfl⟩ := ends_pure last
          obtain ⟨ρ₂, ev₂, leads₂⟩ := (known.sound.head _ ρ q start.inv below.1).ok arg.run
          obtain ⟨w₂, -⟩ := w.spare below.2 hk ev₂
          have calls₂ : m₁.toTermGraph.Calls p c sym := by
            refine ⟨w₂.inv.unfree p w₂.live, w₂.content, calls.call, ?_⟩
            rw [ev₂.signature]
            exact calls.symbol
          exact forward_circles head hk F m₁ w₂.inv w₂.live kept calls₂ leads₂
            (head_idle F _ m₁ ρ q x start.inv below.1 arg.run) rest
        · cases same
      rcases headStep_returns known h.inv live calls goes h.branching step.clean with
        spoiled | ⟨n, derived⟩
      · obtain ⟨same, rfl⟩ := idle_head ev.inv live₁ (.refl p) (spoiled.idle ev.inv live₁) rest
        cases v with
        | error stop => cases same
        | ok _ =>
          cases same
          have concluded := step_concludes (m := m₀) ih start calls (fun _ => goes) work
          exact .call through calls concluded fun _ => ⟨rfl, spoiled⟩
      · have aside := step_aside (m := m₀) derived start.inv live work.run
        have concluded := ih.head m₁ ρ₁ p j v m' (start.after ev.inv live₁ derived.settles kept) rest
        rw [Aside.nextId aside] at concluded
        exact .later through calls derived concluded
    · cases v with
      | ok _ => cases stopped
      | error stop' =>
        cases stopped
        have concluded := step_concludes (m := m₀) (v := .error _) ih start calls nofun
          (step.paid h.unhindered.isOver)
        exact .call through calls concluded nofun
  · have run := run.reads (isReducible_idle h.inv live hc call)
    obtain ⟨same, rfl⟩ := ends_pure run
    cases v with
    | error stop => cases same
    | ok _ =>
      cases same
      exact .derived (.idle through (h.inv.idle live hc tag call))

/-! ## Normal forms -/

/-- A link that is redirected leaves all tags as they are. -/
theorem setSuccessor_tag {a b : NodeId} {l : Link} (run : setSuccessor a k l m = .ok () m') :
    m'.toTermGraph.tag b = m.toTermGraph.tag b := by
  have placed : ∀ (g : Graph) (n : Node) (slots : Slots), g.nodes = m.graph.nodes →
      m.graph.node a = .ok n → TermGraph.tag ⟨m.signature, g.setNode a { n with slots := slots }⟩ b =
        m.toTermGraph.tag b := by
    intro g n slots nodes old
    unfold Graph.node at old
    simp only [TermGraph.tag, TermGraph.node, Graph.node, Graph.setNode, nodes,
      Array.getElem?_setIfInBounds]
    by_cases same : a = b
    · subst same
      cases here : m.graph.nodes[a]? with
      | none =>
        rw [here] at old
        cases old
      | some n' =>
        rw [here] at old
        cases old
        have lt := (Array.getElem?_eq_some_iff.mp here).1
        simp only [if_true, lt]
        rfl
    · simp only [if_neg same]
  unfold setSuccessor at run
  cases found : m.toTermGraph.successor a k with
  | error e =>
    rw [found] at run
    cases run
  | ok _ =>
    cases old : m.graph.node a with
    | error e =>
      rw [found, old] at run
      cases run
    | ok n =>
      rw [found, old] at run
      dsimp only at run
      split at run
      · cases run
        exact placed m.graph n _ rfl old
      · split at run
        · cases run
        · split at run
          · next g written =>
            cases run
            obtain ⟨pool, -, written⟩ := Option.bind_eq_some_iff.mp written
            obtain ⟨pool', -, made⟩ := Option.bind_eq_some_iff.mp written
            cases made
            rfl
          · cases run
      · cases run

/-- An argument that has become a failure or a choice takes over the constructor that it belongs to. -/
theorem takeField_surface {count : Nat} (r : Reducer) (skip : m.skip p = .ok x)
    (spoiled : m.toTermGraph.Spoiled x) : takeField r i count k p m = surface i k p m := by
  have passes : ∀ m₁ : Machine, m₁.toTermGraph.Spoiled x → passField r i count k x m₁ =
      (settle i k x >>= fun _ => pure ()) m₁ := by
    intro m₁ spoiled
    have read : ∀ {tag}, m₁.toTermGraph.tag x = .ok tag → look (·.tag x) m₁ = .ok tag m₁ :=
      fun tag => look_ok tag
    unfold passField settle
    rw [bind_assoc]
    rcases spoiled with tag | tag
    · rw [bind_ok (read tag), bind_ok (read tag)]
      show rewriteFail i m₁ = ((rewriteFail i >>= fun _ => pure Argument.taken) >>= fun _ => pure ()) m₁
      rw [bind_assoc]
      exact (congrFun (bind_pure (m := Eff) _) m₁).symm
    · rw [bind_ok (read tag), bind_ok (read tag)]
      show pull i k m₁ = ((pull i k >>= fun _ => pure Argument.taken) >>= fun _ => pure ()) m₁
      rw [bind_assoc]
      exact (congrFun (bind_pure (m := Eff) _) m₁).symm
  unfold takeField surface
  rw [bind_ok (look_ok skip), bind_ok (look_ok skip)]
  dsimp only
  split
  · cases run : setSuccessor i k (some x) m with
    | error stop m₁ => rw [bind_error run, bind_error run]
    | ok _ m₁ =>
      rw [bind_ok run, bind_ok run]
      refine passes m₁ ?_
      unfold TermGraph.Spoiled
      rw [setSuccessor_tag run]
      exact spoiled
  · exact passes m spoiled

/-- The arguments of a constructor are normalized one after the other, until one takes it over. -/
theorem fields_concludes (ih : Concluded F) (i : NodeId) : ∀ (count k : Nat) (m m' : Machine)
    (ρ : Rank) (c : Content) (v : Except Stop Unit), Ready m ρ i → m.toTermGraph.Data i c →
    (normalizeFields (reducer F) i count k).Ends m v m' →
      Concludes (.fields i count k) m.toTermGraph m.nextId v m'.toTermGraph m'.nextId := by
  have known := reducer_known F
  intro count
  induction count with
  | zero =>
    intro k m m' ρ c v h data run
    obtain ⟨rfl, rfl⟩ := ends_pure run
    exact .derived .done
  | succ count ihc =>
    intro k m m' ρ c v h data run
    have w := site_below h.inv h.live data.content data.data.plain
    obtain ⟨l, read, run⟩ := run.look
    obtain ⟨p, hk⟩ : ∃ p, c.links[k]? = some p :=
      ⟨_, List.getElem?_eq_getElem (successor_lt h.inv h.live data.content read)⟩
    cases (h.inv.read_successor h.live data.content hk).symm.trans read
    have below := w.site.link hk
    have start : Ready m ρ p := ⟨h.inv, below.1, h.branching, h.unhindered⟩
    have more : (normalizeFields (reducer F) i count (k + 1)).Moves Pays :=
      normalizeFields_moves known.moves i count (k + 1)
    rcases (run.reads (a := p) rfl).bind (known.moves.normal p) fun _ => takeField_moves more p with
      ⟨_, m₁, normal, run⟩ | ⟨stop, rfl, stopped⟩
    · have concluded := ih.normal m ρ p (.ok ()) m₁ start normal
      have kept := ((reducer_moves LetsRun F).normal p).unhindered normal h.unhindered
      obtain ⟨ρ₁, ev, -⟩ := (known.sound.normal m ρ p h.inv below.1).ok normal.run
      obtain ⟨w₁, -⟩ := w.site.spare below.2 hk ev
      obtain ⟨x, d, skip, leads, hd, tag⟩ := w₁.inv.read_skip (w₁.link hk).1
      by_cases spoiled : m₁.toTermGraph.Spoiled x
      · have surfaced : (surface i k p).Ends m₁ v m' :=
          ⟨(takeField_surface _ skip spoiled).symm.trans run.run, run.uncollected, run.final⟩
        have same : v.map (fun _ => ()) = v := by cases v <;> rfl
        refine .field data hk concluded (fun _ => ⟨x, leads, spoiled⟩) (.draws ?_)
        rw [same]
        exact ⟨m₁, m', ⟨rfl, rfl, kept.outside⟩, surfaced, rfl, rfl⟩
      · have good : m₁.toTermGraph.Determinate x := by
          refine ⟨d, hd, fun failure => spoiled ?_, fun choice => spoiled ?_⟩
          · exact .of_content hd (.inl failure)
          · exact .of_content hd (.inr choice)
        obtain ⟨n₁, done⟩ := known.derived.normal m ρ p x m₁ h.inv below.1 h.branching normal.clean
          skip good
        have aside := normal_aside done h.inv below.1 normal.run
        obtain ⟨y, through, idle⟩ := done.landed
        obtain ⟨-, e, he, landed, -⟩ := id idle
        cases leads_unique leads through.leads hd tag he landed
        obtain ⟨n₀, m₂, ρ₂, relinks, same, w₂, run⟩ := relink_ends w₁ hk leads ne_comm
          (passField_moves more x) (run.reads skip)
        have kept₂ : m₂.Unhindered := by
          rw [same]
          exact ⟨kept.outside, kept.unlimited, kept.going⟩
        have aside₂ : m₁.Aside m₂ := by
          rw [same]
          exact aside_graph m₁ _
        have data₁ : m₁.toTermGraph.Data i c :=
          ⟨done.settles.unfree i data.unfree, w₁.content, data.data⟩
        have settled := relinks.settles w₁.content hk through idle (.inr data.data)
        have good₂ := (settled.determinate idle).mpr good
        have data₂ : m₂.toTermGraph.Data i (c.setLink k x) :=
          ⟨settled.unfree i data₁.unfree, w₂.content, data.data⟩
        have pass : (normalizeFields (reducer F) i count (k + 1)).Ends m₂ v m' := by
          obtain ⟨d₂, hd₂, failure, choice⟩ := good₂
          have body := run.reads (TermGraph.tag_content hd₂)
          cases final : d₂.tag with
          | failure => exact absurd final failure
          | choice => exact absurd final choice
          | unassigned below =>
            have fits := w₂.inv.fitsAt (w₂.link (Content.setLink_self hk)).1 hd₂
            exact absurd final (fits.tag_ne_unassigned below)
          | _ =>
            rw [final] at body
            exact body
        have whole := aside.trans aside₂
        have rest := ihc (k + 1) m₂ m' ρ₂ _ v
          (h.after w₂.inv w₂.live (done.settles.trans settled) kept₂) data₂ pass
        rw [Aside.nextId whole] at rest
        exact .fields data hk done through idle data₁ hk relinks good₂ rest
    · exact .field data hk (ih.normal m ρ p (.error stop) m' start stopped) nofun (.stopped stop)

theorem call_concludes (ih : Concluded F) (h : Ready m ρ i) (calls : m.toTermGraph.Calls i c sym)
    (run : ((reducer F).head i >>= takeHead (reducer F)).Ends m v m') :
    Concludes (.normal i) m.toTermGraph m.nextId v m'.toTermGraph m'.nextId := by
  have known := reducer_known F
  rcases run.bind (known.moves.head i) (takeHead_moves known.moves) with
    ⟨x, m₁, head, run⟩ | ⟨stop, rfl, stopped⟩
  · have concluded := ih.head m ρ i x (.ok ()) m₁ h head
    have kept := ((reducer_moves LetsRun F).head i).unhindered head h.unhindered
    obtain ⟨ρ₁, ev, leads⟩ := (known.sound.head m ρ i h.inv h.live).ok head.run
    have live : m₁.Live [] x := (ev.live (h.inv.steady h.live le_rfl)).leads leads
    obtain ⟨d, hd, fits⟩ := ev.inv.fits x live
    have body := run.reads (TermGraph.tag_content hd)
    by_cases good : d.tag ≠ .failure ∧ d.tag ≠ .choice
    · obtain ⟨n, derived, aside⟩ := known_head h head ⟨d, hd, good⟩
      have stop : (∀ index, d.tag ≠ .constructor index) → (pure () : Eff Unit).Ends m₁ v m' →
          Concludes (.normal i) m.toTermGraph m.nextId v m'.toTermGraph m'.nextId := by
        intro none done
        obtain ⟨rfl, rfl⟩ := ends_pure done
        rw [Aside.nextId aside]
        exact .derived (.stuck calls derived hd none)
      cases tag : d.tag with
      | constructor index =>
        rw [tag] at body
        have rest := ih.normal m₁ ρ₁ x v m' (h.after ev.inv live derived.settles kept) body
        rw [Aside.nextId aside] at rest
        exact .value calls derived hd tag rest
      | unassigned below => exact absurd tag (fits.tag_ne_unassigned below)
      | _ =>
        rw [tag] at body stop
        exact stop nofun body
    · have final : d.tag = .failure ∨ d.tag = .choice := by
        by_contra other
        exact good (not_or.mp other)
      have done : (pure () : Eff Unit).Ends m₁ v m' := by
        rcases final with final | final
        · rwa [final] at body
        · rwa [final] at body
      obtain ⟨rfl, rfl⟩ := ends_pure done
      exact .stuck calls concluded fun _ => .of_content hd final
  · exact .stuck calls (ih.head m ρ i i (.error stop) m' h stopped) nofun

theorem normal_concludes (ih : Concluded F) (h : Ready m ρ i)
    (run : (normalize (F + 1) i).Ends m v m') :
    Concludes (.normal i) m.toTermGraph m.nextId v m'.toTermGraph m'.nextId := by
  rw [normalize_eq] at run
  obtain ⟨c, hc, fits⟩ := h.inv.fits i h.live
  obtain ⟨sym, found, -, length⟩ := h.inv.symbolAt h.live hc
  have unfree := h.inv.unfree i h.live
  let m₀ : Machine := { m with slice := m.slice.spend }
  have start : Ready m₀ ρ i := h.spent
  have run : (normalWork (reducer F) i).Ends m₀ v m' := run.paid h.unhindered.isOver
  have run := run.reads (TermGraph.symbol_content (t := m.toTermGraph) hc found)
  by_cases forward : c.tag = .forward
  · rw [fits.of_forward_symbol h.inv.signature found forward] at run
    obtain ⟨aux, p, rfl⟩ := fits.of_forward forward
    have below := h.inv.below h.live hc List.mem_cons_self (.refl p)
    have rest := (run.reads (h.inv.read_successor (k := 0) h.live hc rfl)).reads (a := p) rfl
    exact .through unfree hc
      (ih.normal m₀ ρ p v m' ⟨start.inv, below.1, h.branching, start.unhindered⟩ rest)
  by_cases call : c.IsCall
  · rw [(fits.of_isCall found call).normal] at run
    exact call_concludes (m := m₀) ih start ⟨unfree, hc, call, found⟩ run
  by_cases data : c.IsData
  · rw [fits.of_isData found data] at run
    have run := run.reads (TermGraph.arity_content (t := m.toTermGraph) hc found)
    rw [← length] at run
    have held : m.toTermGraph.Data i c := ⟨unfree, hc, data⟩
    exact .data held (fields_concludes ih i c.links.length 0 m₀ m' ρ c v start held run)
  · rw [fits.of_still h.inv.signature found forward call data] at run
    obtain ⟨rfl, rfl⟩ := ends_pure run
    exact .derived (.still unfree hc forward call data)

/-- However deep it may nest, what the reducer does outside of searches has a conclusion. -/
theorem reducer_concluded (F : Nat) : Concluded F := by
  induction F with
  | zero =>
    have none : ∀ {α : Type} {e : Eff α} {m r m'}, e m = .error .outOfFuel m → ¬ e.Ends m r m' := by
      intro α e m r m' out run
      have stopped := out.symm.trans run.run
      cases r with
      | ok a => cases stopped
      | error stop =>
        cases stopped
        exact run.final _ rfl
    refine ⟨fun m ρ i j v m' _ run => absurd run (none ?_), fun m ρ i v m' _ run => absurd run (none ?_)⟩
    · show headNormalize 0 i m = _
      rw [headNormalize]
      rfl
    · show normalize 0 i m = _
      rw [normalize]
      rfl
  | succ F ih =>
    exact ⟨fun m ρ i j v m' h run => head_concludes ih h run,
      fun m ρ i v m' h run => normal_concludes ih h run⟩

end Production

end ChoiceGraph.Reduction
