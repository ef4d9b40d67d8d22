import ChoiceGraph.Proofs.Attempts
import ChoiceGraph.Proofs.Fates
import ChoiceGraph.Proofs.Provenance

/-! # Call-time choice

A search of a graph without variables and functions is compared with the graphs in which one side has been
taken of each choice and of each call of the choice function. Whichever way the sides are taken, one frame
finishes that has taken them so. What it yields is what the root means in that graph, and the frame fails
only if the root means nothing there when it is read eagerly. -/
namespace ChoiceGraph

/-! ## Ways to take sides -/

section Sides

variable {κ κ' : Sides} {e : Reading} {R : NodeId → Report → Prop} {i : NodeId} {w : Report} {c : Content}
  {log : CallLog} {g : Graph} {id : ChoiceId} {α β : Type}

theorem find_of_nodup [DecidableEq β] {f : α → β} {l : List α} (distinct : (l.map f).Nodup) {p : α} (hp : p ∈ l) :
    l.find? (f · = f p) = some p := by
  induction l with
  | nil => exact absurd hp List.not_mem_nil
  | cons q l ih =>
    obtain ⟨new, distinct⟩ := List.nodup_cons.mp distinct
    rcases List.mem_cons.mp hp with rfl | hp
    · exact List.find?_cons_of_pos (by simp)
    · have other : f q ≠ f p := fun same => new (same ▸ List.mem_map_of_mem hp)
      rw [List.find?_cons_of_neg (by simpa using other)]
      exact ih distinct hp

namespace Sides

/-- The sides that are taken once the calls of the log have become choices. -/
def after (κ : Sides) (log : CallLog) : Sides where
  choice id := ((log.find? (·.2 = id)).map fun p => κ.call p.1).getD (κ.choice id)
  call := κ.call

/-- Sides of calls, for sides of the choices that they have become. -/
def along (σ : ChoiceId → Side) (log : CallLog) : Sides where
  choice := σ
  call i := ((log.find? (·.1 = i)).map fun p => σ p.2).getD .left

theorem after_heeds (ids : (log.map Prod.snd).Nodup) : (κ.after log).Heeds log := by
  intro p hp
  simp only [after, find_of_nodup ids hp, Option.map_some, Option.getD_some]

theorem after_choice (other : id ∉ log.map Prod.snd) : (κ.after log).choice id = κ.choice id := by
  have none : log.find? (·.2 = id) = none := by
    refine List.find?_eq_none.mpr fun p hp same => other ?_
    exact List.mem_map.mpr ⟨p, hp, of_decide_eq_true same⟩
  simp only [after, none, Option.map_none, Option.getD_none]

theorem along_heeds {σ : ChoiceId → Side} (nodes : (log.map Prod.fst).Nodup) : (along σ log).Heeds log := by
  intro p hp
  simp only [along, find_of_nodup nodes hp, Option.map_some, Option.getD_some]

end Sides

/-- A choice, or a call of the choice function, means what one of its alternatives means. -/
theorem Graph.Means.alternative {l r : NodeId} (means : g.Means κ e i w) (hc : g.content? i = some c)
    (links : c.links = [l, r]) (alternatives : c.tag = .choice ∨ c.Chooses) : ∃ x ∈ [l, r], g.Means κ e x w := by
  have reports := (means_content hc).mp means
  rcases alternatives with choice | chooses
  · unfold Content.Reports at reports
    rw [choice] at reports
    obtain ⟨-, l', r', links', taken⟩ := reports
    cases links.symm.trans links'
    exact ⟨_, Side.pick_mem _ l r, taken⟩
  · exact ⟨_, Side.pick_mem _ l r, ((reports_chooses chooses links).mp reports).2⟩

/-- Both ways to take sides take the same one here. -/
def Content.SameSide (κ κ' : Sides) (i : NodeId) (c : Content) : Prop :=
  (c.tag = .choice → κ'.choice c.aux = κ.choice c.aux) ∧ (c.Chooses → κ'.call i = κ.call i)

theorem Content.Reports.resided (reports : c.Reports κ e R i w) (same : c.SameSide κ κ' i) :
    c.Reports κ' e R i w := by
  unfold Content.Reports at *
  split at reports
  · exact reports
  · exact reports
  · next tag =>
    obtain ⟨open_, l, r, links, taken⟩ := reports
    exact ⟨open_, l, r, links, same.1 tag ▸ taken⟩
  · next tag =>
    obtain ⟨open_, h, head, reports⟩ := reports
    refine ⟨open_, h, head, ?_⟩
    cases reports with
    | choose links taken => exact .choose links (same.2 ⟨tag, head⟩ ▸ taken)
    | guard links left right => exact .guard links left right
    | conjunction links left right tells => exact .conjunction links left right tells
    | ensureNotFree links argument => exact .ensureNotFree links argument
    | computed links left right computes tells => exact .computed links left right computes tells
  · exact reports

/-- The sides of other choices and calls do not matter. -/
theorem Graph.Means.resided (means : g.Means κ e i w)
    (same : ∀ p c, g.content? p = some c → c.SameSide κ κ' p) : g.Means κ' e i w :=
  means.induct (P := fun i w => g.Means κ' e i w) fun i c _ hc reports =>
    (means_content hc).mpr (reports.resided (same i c hc))

end Sides

/-! ## Graphs in which sides have been taken -/

/-- The content that a node has got where a side is taken of each choice and each call of the choice function: it
is an indirection to that side. The nodes may have been moved. -/
inductive Content.Sided (κ : Sides) (place : NodeId → NodeId) (i : NodeId) : Content → Content → Prop where
  | choice {symbol id symbol' aux' : Nat} {l r : NodeId} :
    Sided κ place i ⟨.choice, symbol, id, .links [l, r]⟩
      ⟨.forward, symbol', aux', .links [place ((κ.choice id).pick l r)]⟩
  | call {symbol aux symbol' aux' : Nat} {l r : NodeId} (choose : HeadStep.ofSymbol? symbol = some .choose) :
    Sided κ place i ⟨.operation, symbol, aux, .links [l, r]⟩
      ⟨.forward, symbol', aux', .links [place ((κ.call i).pick l r)]⟩
  | other {c c' : Content} (choice : c.tag ≠ .choice) (call : ¬ c.Chooses) (head : c'.head = c.head)
    (links : c'.links = c.links.map place) : Sided κ place i c c'

/-- All that hangs from the root is there, with a side taken of each choice and each call. -/
def Graph.Sided (κ : Sides) (place : NodeId → NodeId) (g : Graph) (root : NodeId) (g' : Graph) : Prop :=
  ∃ S : NodeId → Prop, S root ∧ ∀ i, S i → ∃ c c', g.content? i = some c ∧ g'.content? (place i) = some c' ∧
    Content.Sided κ place i c c' ∧ ∀ l ∈ c.links, S l

namespace Machine

variable {m : Machine} {g' : Graph} {κ κ' : Sides} {e : Reading} {place : NodeId → NodeId} {root i : NodeId}
  {ρ : Rank}

/-- The root means there what it means where choices and calls are left, if the same sides are taken. The induction
is on the rank of nodes, and the same on both sides. -/
theorem sided_means (inv : m.Inv [] ρ) (live : m.Live [] root) (sided : m.graph.Sided κ place root g')
    (open_ : e ≠ .settled) (w : Report) : m.graph.Means κ e root w ↔ g'.Means κ' e (place root) w := by
  obtain ⟨S, at_root, closed⟩ := sided
  suffices deep : ∀ n i, m.graph.depth ρ i < n → m.Live [] i → S i →
      ∀ w, m.graph.Means κ e i w ↔ g'.Means κ' e (place i) w from
    deep _ root (Nat.lt_succ_self _) live at_root w
  intro n
  induction n with
  | zero => exact fun _ lt => absurd lt (Nat.not_lt_zero _)
  | succ n ih =>
    intro i lt live hi w
    obtain ⟨c, c', hc, hc', taken, links⟩ := closed i hi
    have next : ∀ l ∈ c.links, ∀ w, m.graph.Means κ e l w ↔ g'.Means κ' e (place l) w := fun l hl => by
      have deeper := Graph.depth_lt (inv.lt (live.link hc hl)) (inv.ranked i l c live hc hl)
      exact ih l (by omega) (live.link hc hl) (links l hl)
    rw [Graph.means_content hc, Graph.means_content hc']
    cases taken with
    | @choice _ _ _ _ l r => exact reports_choice.trans ((and_iff_right open_).trans
        ((next _ (Side.pick_mem _ l r) w).trans reports_forward.symm))
    | @call _ _ _ _ l r choose => exact (reports_chooses ⟨rfl, choose⟩ rfl).trans ((and_iff_right open_).trans
        ((next _ (Side.pick_mem _ l r) w).trans reports_forward.symm))
    | other choice call head links' =>
      have tag : c'.tag = c.tag := congrArg Head.tag head
      have symbol : c'.symbol = c.symbol := congrArg Head.symbol head
      have free : ∀ κ₁ κ₂, c'.SameSide κ₁ κ₂ (place i) := fun _ _ =>
        ⟨fun h => absurd (tag ▸ h) choice, fun h => absurd ⟨tag ▸ h.1, symbol ▸ h.2⟩ call⟩
      constructor
      · intro reports
        refine (reports.replace head ?_ (.inr call)).resided (free κ κ')
        rw [links']
        exact List.forall₂_map_right_iff.mpr (List.forall₂_same.mpr fun l hl w => (next l hl w).mp)
      · intro reports
        refine (reports.resided (free κ' κ)).replace head.symm ?_ (.inr fun h => call ⟨tag ▸ h.1, symbol ▸ h.2⟩)
        rw [links']
        exact List.forall₂_map_left_iff.mpr (List.forall₂_same.mpr fun l hl w => (next l hl w).mpr)

/-- Where sides have been taken the graph is simple, too. -/
theorem sided_simple (simple : m.graph.SimpleFrom root) (sided : m.graph.Sided κ place root g') :
    g'.SimpleFrom (place root) := by
  obtain ⟨S, at_root, closed⟩ := sided
  refine ⟨fun p => ∃ i, S i ∧ m.graph.SimpleFrom i ∧ p = place i, ⟨root, at_root, simple, rfl⟩, ?_⟩
  rintro _ ⟨i, hi, simple, rfl⟩
  obtain ⟨c, c', hc, hc', taken, links⟩ := closed i hi
  obtain ⟨here, below⟩ := simple.content hc
  have next : ∀ l ∈ c.links, ∃ i, S i ∧ m.graph.SimpleFrom i ∧ place l = place i :=
    fun l hl => ⟨l, links l hl, below l hl, rfl⟩
  refine ⟨c', hc', ?_⟩
  cases taken with
  | choice => exact ⟨trivial, fun q hq => List.mem_singleton.mp hq ▸ next _ (Side.pick_mem _ _ _)⟩
  | call => exact ⟨trivial, fun q hq => List.mem_singleton.mp hq ▸ next _ (Side.pick_mem _ _ _)⟩
  | other _ _ head links' =>
    have tag : c'.tag = c.tag := congrArg Head.tag head
    have symbol : c'.symbol = c.symbol := congrArg Head.symbol head
    have literal : c'.cargo.literal? = c.cargo.literal? := congrArg Head.literal? head
    refine ⟨?_, fun q hq => ?_⟩
    · unfold Content.Simple at *
      rwa [tag, symbol, literal]
    · rw [links'] at hq
      obtain ⟨l, hl, rfl⟩ := List.mem_map.mp hq
      exact next l hl

end Machine

namespace Reduction

open Machine

variable {m m' : Machine} {i : NodeId} {F : Nat}

/-- What a simple node has been normalized to. A value is what the node means, and a failure means that it had no
value. -/
theorem normalize_tells (sound : m.Sound) (live : m.Live [] i) (simple : m.graph.SimpleFrom i)
    (run : Machine.normalize F i m = .ok () m') : ∃ log : CallLog, (log.map Prod.snd).Nodup ∧
      ∀ κ : Sides, κ.Heeds log →
        (∀ t, m'.graph.UnfoldsTo i t → t.Data → m.graph.Means κ .lazy i (.value t)) ∧
        ∀ j c, m'.graph.Leads i j → m'.graph.content? j = some c → c.tag = .failure →
          ∀ t, ¬ m.graph.Means κ .lazy i (.value t) := by
  obtain ⟨ρ, inv⟩ := sound
  obtain ⟨m₁, ran, rfl⟩ := withRoots_outcome (r := .ok ()) run
  obtain ⟨log, rendered, ends⟩ :=
    ((reducer_renders F).normal _ ρ i (inv.pushed live) (live_pushed live) simple).ok ran
  refine ⟨log, rendered.spends.ids, fun κ heeds => ⟨fun t unfolds data => ?_, fun j c leads hc tag t means => ?_⟩⟩
  · exact rendered.reflects κ heeds i _ ((inv.pushed live).steady (live_pushed live) le_rfl) (unfolds.means data)
  · have leads : m₁.graph.Leads i j := leads
    have hc : m₁.graph.content? j = some c := hc
    rcases ends with ⟨j', leads', halts⟩ | ⟨value, -⟩
    · obtain ⟨d, hd, tag'⟩ := halts.content
      obtain rfl := leads_unique leads leads' hc (Content.not_forward_of_halt (.inr tag)) hd
        (Content.not_forward_of_halt tag')
      cases halts with
      | choice content choice =>
        cases hc.symm.trans content
        cases tag.symm.trans choice
      | failure content _ barren => exact barren κ heeds (.value t) trivial means
    · obtain ⟨j', d, leads', hd, ⟨index, data⟩, -⟩ := value.landed
      obtain rfl := leads_unique leads leads' hc (Content.not_forward_of_halt (.inr tag)) hd
        (Content.not_forward_of_constructor data)
      cases hc.symm.trans hd
      cases tag.symm.trans data

end Reduction

namespace Schedule

open Eff Machine

variable {m m' start : Machine} {root : NodeId} {log : CallLog} {done : List Verdict} {s : State} {v : Verdict}
  {κ : Sides} {t : Unfolding} {w : Report} {e : Reading} {F : Nat}

/-- The choices that calls have become are new, so nothing depended on them before. -/
theorem means_after (issues : m.Issues) (spends : m.Spends log m') :
    m.graph.Means κ e root w ↔ m.graph.Means (κ.after log) e root w := by
  have same : ∀ p c, m.graph.content? p = some c → c.tag = .choice →
      (κ.after log).choice c.aux = κ.choice c.aux := by
    refine fun p c hc tag => Sides.after_choice fun new => ?_
    obtain ⟨q, hq, id⟩ := List.mem_map.mp new
    exact absurd (id ▸ issues p c hc (.inr tag)) (Nat.not_lt.mpr (spends.issued q hq).1)
  exact ⟨fun means => means.resided fun p c hc => ⟨same p c hc, fun _ => rfl⟩,
    fun means => means.resided fun p c hc => ⟨fun tag => (same p c hc tag).symm, fun _ => rfl⟩⟩

/-- A frame that has taken these sides has yielded what the root means, or it has failed, and then the root means
nothing any more. -/
theorem Stands.cases (stands : Stands (Schedule.enter (some root) m) root log done s) (hv : v ∈ done)
    (heeds : κ.Heeds log) (agrees : v.decided.Agrees κ.choice) :
    (∃ t, v.Yields t ∧ m.graph.Means κ .lazy root (.value t)) ∨
      v.Fails ∧ (∀ w, ¬ s.machine.graph.Means κ .lazy root w) ∧ ∀ w, ¬ m.graph.Means κ .eager root w := by
  cases stands.faithful.just κ heeds v hv agrees with
  | yields unfolds data means => exact .inl ⟨_, ⟨_, _, rfl, unfolds⟩, means⟩
  | fails barren =>
    exact .inr ⟨rfl, barren, fun w means => barren w (stands.faithful.upholds κ heeds w means).lazy⟩

/-- What a frame has yielded is what the root means. -/
theorem Stands.yields (stands : Stands (Schedule.enter (some root) m) root log done s) (hv : v ∈ done)
    (heeds : κ.Heeds log) (agrees : v.decided.Agrees κ.choice) (yields : v.Yields t) :
    m.graph.Means κ .lazy root (.value t) := by
  obtain ⟨i, g, here, unfolds⟩ := yields
  rcases stands.cases hv heeds agrees with ⟨t', ⟨i', g', there, unfolds'⟩, means⟩ | ⟨fails, -⟩
  · cases here.symm.trans there
    cases unfolds.unique unfolds'
    exact means
  · cases here.symm.trans fails

/-- Take a side of each choice and each call of the choice function. Then exactly one frame of a search that is not
cut short takes these sides. What the frame yields, the root means. If the graph in which the sides have been taken is
normalized to a value, then the frame yields that value, or it fails, and then the root has nothing to say when it is
read eagerly; if it is normalized to a failure, the frame fails. -/
theorem call_time_choice {config : Config} {fresh : Machine} {st : Stats}
    (new : Machine.new config = .ok fresh) (proceeds : Activity.Proceeds fresh m) (reachable : m.Reachable root)
    (simple : m.graph.SimpleFrom root)
    (judged : Judged (Reduction.normalize F) (enter (some root) m) done ⟨st, .over, m'⟩)
    (whole : st.stepLimitHit = false) :
    ∃ log, m.Spends log m' ∧ ∀ κ : Sides, ∃ v, done.filter (fun v => v.decided.Agrees (κ.after log).choice) = [v] ∧
      (∀ t, v.Yields t → m.graph.Means κ .lazy root (.value t)) ∧
      ∀ (place : NodeId → NodeId) (n n' : Machine) (fuel : Nat), n.Sound → n.Reachable (place root) →
        m.graph.Sided κ place root n.graph → Machine.normalize fuel (place root) n = .ok () n' →
        (∀ t, n'.graph.UnfoldsTo (place root) t → t.Data →
          v.Yields t ∨ v.Fails ∧ ∀ w, ¬ m.graph.Means κ .eager root w) ∧
        ∀ j c, n'.graph.Leads (place root) j → n'.graph.content? j = some c → c.tag = .failure → v.Fails := by
  have sound := proceeds.reaches.sound (Machine.new_sound new)
  have issues := (proceeds.chronicle (Machine.new_sound new) (Activity.new_issued new)).1.nodes
  have live := live_iff.mpr reachable
  obtain ⟨log, stands⟩ := judged.stands sound live simple
  have spends : m.Spends log m' := { stands.faithful.spends with }
  refine ⟨log, spends, fun κ => ?_⟩
  have heeds := Sides.after_heeds (κ := κ) spends.ids
  obtain ⟨v, only⟩ := judged.one stands rfl whole (κ.after log).choice
  obtain ⟨hv, agrees⟩ := List.mem_filter.mp (only ▸ List.mem_singleton.mpr rfl : v ∈ done.filter _)
  have agrees := of_decide_eq_true agrees
  refine ⟨v, only, fun t yields => (means_after issues spends).mpr (stands.yields hv heeds agrees yields), ?_⟩
  intro place n n' fuel sound' reachable' sided run
  obtain ⟨ρ, inv⟩ := sound
  obtain ⟨log', ids, tells⟩ :=
    Reduction.normalize_tells sound' (live_iff.mpr reachable') (sided_simple simple sided) run
  obtain ⟨values, failures⟩ := tells (κ.after log') (Sides.after_heeds ids)
  have there : ∀ w, m.graph.Means κ .lazy root w ↔ n.graph.Means (κ.after log') .lazy (place root) w :=
    sided_means inv live sided nofun
  constructor
  · intro t unfolds data
    have means := (means_after issues spends).mp ((there _).mpr (values t unfolds data))
    rcases stands.cases hv heeds agrees with ⟨t', yields, means'⟩ | ⟨fails, -, barren⟩
    · cases means.unique means'
      exact .inl yields
    · exact .inr ⟨fails, fun w means => barren w ((means_after issues spends).mp means)⟩
  · intro j c leads hc tag
    rcases stands.cases hv heeds agrees with ⟨t', yields, means⟩ | ⟨fails, -⟩
    · exact absurd ((there _).mp ((means_after issues spends).mpr means)) (failures j c leads hc tag t')
    · exact fails

/-- A sum of a node with itself; the node is made from the numbers 1 and 2. -/
def doubled (operand : Operation) : List Operation :=
  [.int 1, .int 2, operand, .make Prelude.standard.add [2, 2]]

/-- What the nodes of the sum hold. -/
structure Doubles (m : Machine) (operand : Content) : Prop where
  one : m.graph.content? 0 = some ⟨.constructor 0, Builtin.int, 0, .literal (.int 1)⟩
  two : m.graph.content? 1 = some ⟨.constructor 0, Builtin.int, 0, .literal (.int 2)⟩
  operand : m.graph.content? 2 = some operand
  sum : m.graph.content? 3 = some ⟨.operation, Prelude.standard.add, 0, .links [2, 2]⟩
  rooted : m.roots.contains (some 3) = true

instance (m : Machine) (operand : Content) : Decidable (Doubles m operand) :=
  decidable_of_iff (_ ∧ _ ∧ _ ∧ _ ∧ _)
    ⟨fun ⟨one, two, operand, sum, rooted⟩ => ⟨one, two, operand, sum, rooted⟩,
      fun ⟨one, two, operand, sum, rooted⟩ => ⟨one, two, operand, sum, rooted⟩⟩

namespace Doubles

/-- The operand is a choice, or a side of it. -/
def choosing : Content := ⟨.operation, Prelude.standard.choose, 0, .links [0, 1]⟩

def taking (side : Side) : Content := ⟨.forward, Builtin.forward, 0, .links [side.pick 0 1]⟩

variable {m n : Machine} {κ : Sides}

theorem simple_below (h : Doubles m choosing) (i : NodeId) (hi : i < 4) :
    ∃ c, m.graph.content? i = some c ∧ c.Simple ∧ ∀ l ∈ c.links, l < 4 := by
  interval_cases i
  · exact ⟨_, h.one, fun v hv => ⟨1, (Option.some.inj hv).symm⟩, nofun⟩
  · exact ⟨_, h.two, fun v hv => ⟨2, (Option.some.inj hv).symm⟩, nofun⟩
  · exact ⟨_, h.operand, ⟨.choose, rfl, trivial⟩, by decide⟩
  · exact ⟨_, h.sum, ⟨.arithmetic .add, rfl, trivial⟩, by decide⟩

theorem simple (h : Doubles m choosing) : m.graph.SimpleFrom 3 := ⟨(· < 4), by decide, h.simple_below⟩

theorem sided (h : Doubles m choosing) (h' : Doubles n (taking (κ.call 2))) : m.graph.Sided κ id 3 n.graph := by
  refine ⟨(· < 4), by decide, fun i hi => ?_⟩
  interval_cases i
  · exact ⟨_, _, h.one, h'.one, .other nofun (fun call => nomatch call.1) rfl rfl, nofun⟩
  · exact ⟨_, _, h.two, h'.two, .other nofun (fun call => nomatch call.1) rfl rfl, nofun⟩
  · exact ⟨_, _, h.operand, h'.operand, .call rfl, by decide⟩
  · exact ⟨_, _, h.sum, h'.sum, .other nofun (fun call => nomatch call.2) rfl rfl, by decide⟩

theorem operand_means (h : Doubles m choosing) : ∃ a, m.graph.Means κ .eager 2 (.value (.int 0 a)) := by
  have taken : ∀ {w : Report}, m.graph.Means κ .eager 2 w ↔ m.graph.Means κ .eager ((κ.call 2).pick 0 1) w :=
    (Graph.means_content h.operand).trans ((reports_chooses ⟨rfl, rfl⟩ rfl).trans (and_iff_right nofun))
  cases side : κ.call 2 with
  | left =>
    refine ⟨1, taken.mpr ?_⟩
    rw [side]
    exact (Graph.means_content h.one).mpr ((reports_data rfl).mpr (.inr ⟨[], .nil, rfl⟩))
  | right =>
    refine ⟨2, taken.mpr ?_⟩
    rw [side]
    exact (Graph.means_content h.two).mpr ((reports_data rfl).mpr (.inr ⟨[], .nil, rfl⟩))

theorem sum_means (h : Doubles m choosing) : ∃ a, m.graph.Means κ .eager 3 (.value (.int 0 a)) := by
  obtain ⟨a, operand⟩ := h.operand_means (κ := κ)
  exact ⟨a + a, (Graph.means_content h.sum).mpr ((reports_call rfl rfl).mpr
    ⟨nofun, .computed rfl operand operand (.arithmetic rfl) rfl⟩)⟩

end Doubles

/-- A shared choice between two numbers, added to itself, is 2 or 4: one frame yields each. -/
theorem call_time_choice_doubled : ∃ fresh m m' st done, Machine.new (.fixedPool 16) = .ok fresh ∧
    Activity.Proceeds fresh m ∧ m.Reachable 3 ∧ m.graph.SimpleFrom 3 ∧
    Judged (Reduction.normalize 20) (enter (some 3) m) done ⟨st, .over, m'⟩ ∧ st.stepLimitHit = false ∧
    ∀ side : Side, ∃ v ∈ done, v.Yields (.int 0 (side.pick 2 4)) := by
  let start : Machine := .ofConfig (.fixedPool 16)
  let searched : Machine → Bool := fun m => (record (Reduction.normalize 20) (enter (some 3) m) 8).any fun r =>
    decide (r.2.outcome = .over ∧ r.2.stats.stepLimitHit = false)
  have result : (Operation.script start (doubled (.make Prelude.standard.choose [0, 1]))).map
      (fun m => (decide (Doubles m Doubles.choosing), searched m)) = some (true, true) := by decide +kernel
  obtain ⟨m, ran, facts⟩ := Option.map_eq_some_iff.mp result
  obtain ⟨holds, searched⟩ := Prod.mk.inj facts
  have holds := of_decide_eq_true holds
  obtain ⟨⟨decided, st, o, m'⟩, steps, ended⟩ := (Option.any_eq_true _ _).mp searched
  obtain ⟨outcome, whole⟩ := of_decide_eq_true ended
  obtain rfl : o = .over := outcome
  obtain ⟨done, -, judged⟩ := (record_recorded steps).judged
  have new : Machine.new (.fixedPool 16) = .ok start := rfl
  have proceeds : Activity.Proceeds start m := Activity.Proceeds.start.script
    (by simp [doubled, Operation.forces?]) ran
  have reachable := Operation.reachable_of_contains holds.rooted
  refine ⟨start, m, m', st, done, new, proceeds, reachable, holds.simple, judged, whole, fun side => ?_⟩
  obtain ⟨log, -, sides⟩ := call_time_choice new proceeds reachable holds.simple judged whole
  obtain ⟨v, only, -, compared⟩ := sides ⟨fun _ => side, fun _ => side⟩
  have hv := (List.mem_filter.mp (only ▸ List.mem_singleton.mpr rfl : v ∈ done.filter _)).1
  -- the same sum with an indirection in place of the choice
  let summed : Machine → Bool := fun n => (returned? (Machine.normalize 20 3 n)).any fun r =>
    decide (r.2.graph.content? 3 = some ⟨.constructor 0, Builtin.int, 0, .literal (.int (side.pick 2 4))⟩)
  have there : (Operation.script start (doubled (.forward (side.pick 0 1)))).map
      (fun n => (decide (Doubles n (Doubles.taking side)), summed n)) = some (true, true) := by
    cases side <;> decide +kernel
  obtain ⟨n, ran', facts⟩ := Option.map_eq_some_iff.mp there
  obtain ⟨holds', summed⟩ := Prod.mk.inj facts
  have holds' := of_decide_eq_true holds'
  obtain ⟨⟨_, n'⟩, normal, value⟩ := (Option.any_eq_true _ _).mp summed
  have value := of_decide_eq_true value
  have unfolds : n'.graph.UnfoldsTo 3 (.int 0 (side.pick 2 4)) :=
    .of_below (.refl 3) value (Content.not_forward_of_constructor rfl) .nil
  have sound' : n.Sound := (Operation.Run.start.script ran').sound new
  obtain yields | ⟨-, barren⟩ := (compared id n n' 20 sound' (Operation.reachable_of_contains holds'.rooted)
    (holds.sided holds') (of_returned normal)).1 _ unfolds (.node ⟨0, rfl⟩ fun _ none => absurd none List.not_mem_nil)
  · exact ⟨v, hv, yields⟩
  · obtain ⟨a, means⟩ := holds.sum_means
    exact absurd means (barren _)

/-! ## Searches that leave their root to others -/

/-- A search of the same root finds no value that was not found by one before it that was not cut short. -/
theorem second_search_adds_nothing {config : Config} {fresh m₁ : Machine} {st : Stats} {slice : Slice} {F' : Nat}
    {done' : List Verdict} (new : Machine.new config = .ok fresh) (run : Operation.Run fresh m)
    (reachable : m.Reachable root) (simple : m.graph.SimpleFrom root)
    (first : Judged (Reduction.normalize F) (enter (some root) m) done ⟨st, .over, m₁⟩)
    (whole : st.stepLimitHit = false) (again : (leave slice m₁).Reachable root)
    (second : Judged (Reduction.normalize F') (enter (some root) (leave slice m₁)) done' s) :
    ∀ v ∈ done', ∀ t, v.Yields t → ∃ u ∈ done, u.Yields t := by
  intro v hv t yields
  obtain ⟨log, stands⟩ := first.stands (run.sound new) (live_iff.mpr reachable) simple
  obtain ⟨log', stands'⟩ := second.stands (leave_sound stands.faithful.sound slice) (live_iff.mpr again)
    stands.faithful.simple
  have spends : m.Spends log m₁ := { stands.faithful.spends with }
  have spends' : m₁.Spends log' s.machine := { stands'.faithful.spends with }
  -- the sides of calls that either search has reduced follow from those of choices
  obtain ⟨early, late⟩ := Sides.heeds_append.mp (Sides.along_heeds (σ := v.decided.sides) (spends.trans spends').nodes)
  have means : m₁.graph.Means (.along v.decided.sides (log ++ log')) .lazy root (.value t) :=
    stands'.yields hv late v.decided.agrees_sides yields
  obtain ⟨u, only⟩ := first.one stands rfl whole v.decided.sides
  obtain ⟨hu, agrees⟩ := List.mem_filter.mp (only ▸ List.mem_singleton.mpr rfl : u ∈ done.filter _)
  rcases stands.cases hu early (of_decide_eq_true agrees) with ⟨t', yields', means'⟩ | ⟨-, barren, -⟩
  · cases means'.unique (stands.faithful.reflects _ early _ means)
    exact ⟨u, hu, yields'⟩
  · exact absurd means (barren _)

/-- The sum is searched twice. -/
theorem second_search_adds_nothing_doubled : ∃ fresh m m₁ st done done' s, Machine.new (.fixedPool 16) = .ok fresh ∧
    Operation.Run fresh m ∧ m.Reachable 3 ∧ m.graph.SimpleFrom 3 ∧
    Judged (Reduction.normalize 20) (enter (some 3) m) done ⟨st, .over, m₁⟩ ∧ st.stepLimitHit = false ∧
    (leave .unbounded m₁).Reachable 3 ∧
    Judged (Reduction.normalize 20) (enter (some 3) (leave .unbounded m₁)) done' s ∧ s.stats.solutions = 2 ∧
    ∀ v ∈ done', ∀ t, v.Yields t → ∃ u ∈ done, u.Yields t := by
  let start : Machine := .ofConfig (.fixedPool 16)
  let again : State → Bool := fun s => (leave .unbounded s.machine).roots.contains (some 3) &&
    (record (Reduction.normalize 20) (enter (some 3) (leave .unbounded s.machine)) 8).any fun r =>
      decide (r.2.stats.solutions = 2)
  let searched : Machine → Bool := fun m => (record (Reduction.normalize 20) (enter (some 3) m) 8).any fun r =>
    decide (r.2.outcome = .over ∧ r.2.stats.stepLimitHit = false) && again r.2
  have result : (Operation.script start (doubled (.make Prelude.standard.choose [0, 1]))).map
      (fun m => (decide (Doubles m Doubles.choosing), searched m)) = some (true, true) := by decide +kernel
  obtain ⟨m, ran, facts⟩ := Option.map_eq_some_iff.mp result
  obtain ⟨holds, searched⟩ := Prod.mk.inj facts
  have holds := of_decide_eq_true holds
  obtain ⟨⟨decided, st, o, m₁⟩, steps, facts⟩ := (Option.any_eq_true _ _).mp searched
  obtain ⟨ended, facts⟩ := Bool.and_eq_true_iff.mp facts
  obtain ⟨outcome, whole⟩ := of_decide_eq_true ended
  obtain rfl : o = .over := outcome
  obtain ⟨rooted, facts⟩ := Bool.and_eq_true_iff.mp facts
  obtain ⟨⟨decided', s⟩, steps', two⟩ := (Option.any_eq_true _ _).mp facts
  obtain ⟨done, -, judged⟩ := (record_recorded steps).judged
  obtain ⟨done', -, judged'⟩ := (record_recorded steps').judged
  have new : Machine.new (.fixedPool 16) = .ok start := rfl
  have run := Operation.Run.start.script ran
  have reachable := Operation.reachable_of_contains holds.rooted
  have reachable' := Operation.reachable_of_contains rooted
  exact ⟨start, m, m₁, st, done, done', s, new, run, reachable, holds.simple, judged, whole, reachable', judged',
    of_decide_eq_true two,
    second_search_adds_nothing new run reachable holds.simple judged whole reachable' judged'⟩

/-- What a search finds for a choice between two nodes, a search of one of them alone finds as well, as long as what
they mean they also mean when they are read eagerly. -/
theorem alternatives_found_alone {config : Config} {fresh : Machine} {a b : NodeId} {c : Content}
    {fuel : NodeId → Nat} {found : NodeId → List Verdict} {stats : NodeId → Stats} {left : NodeId → Machine}
    (new : Machine.new config = .ok fresh) (proceeds : Activity.Proceeds fresh m) (reachable : m.Reachable root)
    (simple : m.graph.SimpleFrom root) (hc : m.graph.content? root = some c) (links : c.links = [a, b])
    (alternatives : c.tag = .choice ∨ c.Chooses)
    (judged : Judged (Reduction.normalize F) (enter (some root) m) done s)
    (alone : ∀ x ∈ [a, b],
      Judged (Reduction.normalize (fuel x)) (enter (some x) m) (found x) ⟨stats x, .over, left x⟩)
    (whole : ∀ x ∈ [a, b], (stats x).stepLimitHit = false)
    (eager : ∀ x ∈ [a, b], ∀ κ t, m.graph.Means κ .lazy x (.value t) → m.graph.Means κ .eager x (.value t)) :
    ∀ v ∈ done, ∀ t, v.Yields t → ∃ x ∈ [a, b], ∃ u ∈ found x, u.Yields t := by
  intro v hv t yields
  have sound := proceeds.reaches.sound (Machine.new_sound new)
  have issues := (proceeds.chronicle (Machine.new_sound new) (Activity.new_issued new)).1.nodes
  have live := live_iff.mpr reachable
  obtain ⟨log, stands⟩ := judged.stands sound live simple
  have spends : m.Spends log s.machine := { stands.faithful.spends with }
  have means := stands.yields hv (Sides.along_heeds spends.nodes) v.decided.agrees_sides yields
  obtain ⟨x, hx, below⟩ := means.alternative hc links alternatives
  have hl : x ∈ c.links := links ▸ hx
  obtain ⟨log', stands'⟩ := (alone x hx).stands sound (live.link hc hl) ((simple.content hc).2 x hl)
  have spends' : m.Spends log' (left x) := { stands'.faithful.spends with }
  have heeds := Sides.after_heeds (κ := .along v.decided.sides log) spends'.ids
  obtain ⟨u, only⟩ := (alone x hx).one stands' rfl (whole x hx) (Sides.after (.along v.decided.sides log) log').choice
  obtain ⟨hu, agrees⟩ := List.mem_filter.mp (only ▸ List.mem_singleton.mpr rfl : u ∈ (found x).filter _)
  refine ⟨x, hx, u, hu, ?_⟩
  rcases stands'.cases hu heeds (of_decide_eq_true agrees) with ⟨t', yields', means'⟩ | ⟨-, -, barren⟩
  · cases means'.unique ((means_after issues spends').mp below)
    exact yields'
  · exact absurd ((means_after issues spends').mp (eager x hx _ t below)) (barren _)

/-- A choice between the sum and its operand, which is shared. -/
theorem alternatives_found_alone_doubled : ∃ (fresh m : Machine) (s : State) (done : List Verdict)
    (found : NodeId → List Verdict) (stats : NodeId → Stats) (left : NodeId → Machine),
    Machine.new (.fixedPool 16) = .ok fresh ∧ Activity.Proceeds fresh m ∧ m.Reachable 4 ∧ m.graph.SimpleFrom 4 ∧
    m.graph.content? 4 = some ⟨.operation, Prelude.standard.choose, 0, .links [3, 2]⟩ ∧
    Judged (Reduction.normalize 20) (enter (some 4) m) done s ∧ s.stats.solutions = 4 ∧
    (∀ x ∈ [3, 2], Judged (Reduction.normalize 20) (enter (some x) m) (found x) ⟨stats x, .over, left x⟩) ∧
    (∀ x ∈ [3, 2], (stats x).stepLimitHit = false) ∧
    ∀ v ∈ done, ∀ t, v.Yields t → ∃ x ∈ [3, 2], ∃ u ∈ found x, u.Yields t := by
  let start : Machine := .ofConfig (.fixedPool 16)
  let ops := doubled (.make Prelude.standard.choose [0, 1]) ++ [.make Prelude.standard.choose [3, 2]]
  let alone : NodeId → Nat → Machine → Bool := fun x steps m =>
    (record (Reduction.normalize 20) (enter (some x) m) steps).any fun r =>
      decide (r.2.outcome = .over ∧ r.2.stats.stepLimitHit = false)
  let searched : Machine → Bool := fun m => (record (Reduction.normalize 20) (enter (some 4) m) 14).any fun r =>
    decide (r.2.stats.solutions = 4)
  let holds : Machine → Bool := fun m => decide (Doubles m Doubles.choosing ∧ m.roots.contains (some 4) = true ∧
    m.graph.content? 4 = some ⟨.operation, Prelude.standard.choose, 0, .links [3, 2]⟩)
  have result : (Operation.script start ops).map (fun m => (holds m, searched m, alone 3 8 m, alone 2 6 m)) =
      some (true, true, true, true) := by decide +kernel
  obtain ⟨m, ran, facts⟩ := Option.map_eq_some_iff.mp result
  obtain ⟨holds, facts⟩ := Prod.mk.inj facts
  obtain ⟨searched, facts⟩ := Prod.mk.inj facts
  obtain ⟨sum, operand⟩ := Prod.mk.inj facts
  obtain ⟨holds, rooted, content⟩ := of_decide_eq_true holds
  obtain ⟨⟨decided, s⟩, steps, four⟩ := (Option.any_eq_true _ _).mp searched
  obtain ⟨done, -, judged⟩ := (record_recorded steps).judged
  have alone : ∀ x ∈ [3, 2], ∃ found st m', Judged (Reduction.normalize 20) (enter (some x) m) found ⟨st, .over, m'⟩ ∧
      st.stepLimitHit = false := by
    have each : ∀ x steps, alone x steps m = true → ∃ found st m',
        Judged (Reduction.normalize 20) (enter (some x) m) found ⟨st, .over, m'⟩ ∧ st.stepLimitHit = false := by
      intro x steps ends
      obtain ⟨⟨decided, st, o, m'⟩, steps, ended⟩ := (Option.any_eq_true _ _).mp ends
      obtain ⟨outcome, whole⟩ := of_decide_eq_true ended
      obtain rfl : o = .over := outcome
      obtain ⟨found, -, judged⟩ := (record_recorded steps).judged
      exact ⟨found, st, m', judged, whole⟩
    intro x hx
    rcases List.mem_pair.mp hx with rfl | rfl
    · exact each 3 8 sum
    · exact each 2 6 operand
  have : Nonempty Stats := ⟨{}⟩
  have : Nonempty Machine := ⟨start⟩
  choose! found stats left judged' whole using alone
  have new : Machine.new (.fixedPool 16) = .ok start := rfl
  have proceeds : Activity.Proceeds start m := Activity.Proceeds.start.script
    (by simp [ops, doubled, Operation.forces?]) ran
  have reachable := Operation.reachable_of_contains rooted
  have simple : m.graph.SimpleFrom 4 := by
    refine ⟨(· < 5), by decide, fun i hi => ?_⟩
    rcases Nat.lt_succ_iff_lt_or_eq.mp hi with below | rfl
    · obtain ⟨c, hc, simple, links⟩ := holds.simple_below i below
      exact ⟨c, hc, simple, fun l hl => (links l hl).trans (by decide)⟩
    · exact ⟨_, content, ⟨.choose, rfl, trivial⟩, by decide⟩
  have eager : ∀ x ∈ [3, 2], ∀ κ t, m.graph.Means κ .lazy x (.value t) → m.graph.Means κ .eager x (.value t) := by
    intro x hx κ t means
    have some_ : ∃ a, m.graph.Means κ .eager x (.value (.int 0 a)) := by
      rcases List.mem_pair.mp hx with rfl | rfl
      · exact holds.sum_means
      · exact holds.operand_means
    obtain ⟨a, strict⟩ := some_
    exact means.unique strict ▸ strict
  exact ⟨start, m, s, done, found, stats, left, new, proceeds, reachable, simple, content, judged,
    of_decide_eq_true four, judged', whole, alternatives_found_alone new proceeds reachable simple content rfl
      (.inr ⟨rfl, rfl⟩) judged judged' whole eager⟩

end Schedule

end ChoiceGraph
