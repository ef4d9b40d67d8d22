import ChoiceGraph.Proofs.Derivations
import ChoiceGraph.Proofs.Spoiling

/-! # Determinate reductions have derivations

When a reduction returns, has collected nothing, and has come to neither a failure nor a choice, what
it did to the graph has a derivation. It has met no failure and no choice on the way, as they would
have taken over the node that asked for them, and in the end the root. -/
namespace ChoiceGraph

namespace TermGraph

variable {t t' : TermGraph} {i p x : NodeId} {c : Content} {k r : Nat}

theorem Relinks.other (h : t.Relinks i c k p x r t') {j : NodeId} (ne : j ≠ i) :
    t'.graph.content? j = t.graph.content? j := by
  cases h with
  | kept => rfl
  | moved _ _ sets _ => exact sets.others j ne

theorem Relinks.branching (h : t.Relinks i c k p x r t') (branching : t.Branching) : t'.Branching := by
  cases h with
  | kept => exact branching
  | moved _ _ sets signature =>
    intro j d type dt hd literal found
    rw [signature] at found
    by_cases here : j = i
    · subst here
      cases sets.same.symm.trans hd
      cases literal
    · exact branching j d type dt ((sets.others j here).symm.trans hd) literal found

end TermGraph

namespace Reduction

open Eff Machine

variable {m m' : Machine} {ρ : Rank} {root i p x j : NodeId} {c d : Content} {sym : Symbol} {k : Nat}
  {s : Scope} {a : Argument} {r : Reducer}

/-! ## Forcing an argument -/

/-- An argument in head normal form is a value, or takes over the node. -/
theorem settle_returns (w : m.Site s ρ root c) (hk : c.links[k]? = some p)
    (leads : m.graph.Leads p x) (hd : m.graph.content? x = some d)
    (run : settle root k x m = .ok a m') :
    a = .taken ∧ m'.toTermGraph.Spoiled root ∨
      a = .value x ∧ m' = m ∧ m.toTermGraph.Filled x := by
  obtain ⟨tag, read, run⟩ := look_bind_eq_ok run
  cases (TermGraph.tag_content hd).symm.trans read
  cases tag : d.tag with
  | failure =>
    rw [tag] at run
    obtain ⟨_, m₁, failed, run⟩ := bind_eq_ok run
    cases run
    exact .inl ⟨rfl, rewriteFail_spoils failed⟩
  | choice =>
    rw [tag] at run
    obtain ⟨_, m₁, pulled, run⟩ := bind_eq_ok run
    cases run
    exact .inl ⟨rfl, pull_spoils w hk leads hd tag pulled⟩
  | free =>
    rw [tag] at run
    obtain ⟨id, -, run⟩ := look_bind_eq_ok run
    cases run
  | operation =>
    rw [tag] at run
    cases run
    exact .inr ⟨rfl, rfl, d, hd, .inl tag⟩
  | constructor index =>
    rw [tag] at run
    cases run
    exact .inr ⟨rfl, rfl, d, hd, .inr ⟨index, tag⟩⟩
  | forward =>
    rw [tag] at run
    cases run
  | unassigned below =>
    rw [tag] at run
    cases run

/-- A link is redirected unless it leads to its node already. -/
theorem relink_ends {α : Type} {e : Eff α} {v : Except Stop α} {q : Prop} [Decidable q]
    (w : m.Site s ρ root c) (hk : c.links[k]? = some p) (leads : m.graph.Leads p x)
    (differ : q ↔ p ≠ x) (moves : e.Moves Pays)
    (run : (do
      if q then setSuccessor root k (some x)
      e).Ends m v m') :
    ∃ n m₁ ρ₁, m.toTermGraph.Relinks root c k p x n m₁.toTermGraph ∧ m₁ = m.setGraph m₁.graph ∧
      m₁.Site s ρ₁ root (c.setLink k x) ∧ e.Ends m₁ v m' := by
  dsimp only at run
  by_cases same : p = x
  · rw [if_neg fun hq => differ.mp hq same] at run
    refine ⟨0, m, ρ, .kept same, rfl, ?_, run⟩
    rw [← same, Content.setLink_eq w.fits hk]
    exact w
  · rw [if_pos (differ.mpr same)] at run
    rcases run.bind (setSuccessor_moves root k (some x)) fun _ => moves with
      ⟨_, m₁, moved, rest⟩ | ⟨stop, -, moved⟩
    · obtain ⟨ρ₁, ev, w₁, -⟩ := (setSuccessor_keeps w hk leads).ok moved.run
      have bound := (List.getElem?_eq_some_iff.mp hk).1
      rcases setSuccessor_writes w.inv.storage w.inv.signature w.content w.fits bound x with
        ⟨g', written, sets⟩ | ⟨err, failed⟩
      · cases written.symm.trans moved.run
        exact ⟨1, _, ρ₁, .moved same ⟨m, _, rfl, moved.run, rfl, moved.uncollected⟩ sets rfl,
          rfl, w₁, rest⟩
      · cases failed.symm.trans moved.run
    · cases (faults_setSuccessor root k (some x)).ends moved with
      | intro _ returned => cases returned

/-- What becomes of the head normal form of an argument. -/
theorem takeArg_returns (w : m.Site s ρ root c) (hk : c.links[k]? = some p)
    (leads : m.graph.Leads p x) (hd : m.graph.content? x = some d) (tag : d.tag ≠ .forward)
    (branching : d.tag = .free → m.toTermGraph.Branching)
    (run : (takeArg root k (some p) x).Clean m a m') :
    a = .taken ∧ m'.toTermGraph.Spoiled root ∨
      a = .value x ∧ m.toTermGraph.Determinate x ∧ m'.toTermGraph.Filled x ∧ m.Aside m' ∧
        ∃ n ρ', m.toTermGraph.Relinks root c k p x n m'.toTermGraph ∧
          m'.Site s ρ' root (c.setLink k x) := by
  have below := w.below hk leads
  have rest : (settleArg root k x).Moves Pays := settleArg_moves root k x
  obtain ⟨n, m₁, ρ₁, relinks, same, w₁, run⟩ :=
    relink_ends w hk leads (by simp) rest (ends_of_ok run.run run.uncollected)
  have aside : m.Aside m₁ := by
    rw [same]
    exact aside_graph m _
  have hk₁ := Content.setLink_self (i := x) hk
  have ne : x ≠ root := by
    rintro rfl
    exact lt_irrefl _ below.2
  have hd₁ := (relinks.other ne).trans hd
  have live := (w₁.link hk₁).1
  obtain ⟨tag', read, run⟩ := look_bind_eq_ok run.run
  cases (TermGraph.tag_content hd₁).symm.trans read
  by_cases free : d.tag = .free
  · rw [if_pos free] at run
    obtain ⟨_, m₂, narrowed, run⟩ := bind_eq_ok run
    obtain ⟨y, skip, run⟩ := look_bind_eq_ok run
    have spoiled := narrow_spoils w₁.inv live hd₁ free (relinks.branching (branching free)) narrowed
    obtain ⟨ρ₂, ev, -⟩ := (narrow_keeps (s := .below (ρ₁ x)) w₁.inv live hd₁ free).ok narrowed
    have w₂ := (w₁.spare (w₁.link hk₁).2 hk₁ ev).1
    have live₂ := (w₂.link hk₁).1
    obtain ⟨e, he, -⟩ := w₂.inv.fits x live₂
    have final := spoiled.content he
    have landed : e.tag ≠ .forward := by
      rcases final with final | final <;> rw [final] <;> nofun
    cases skip.symm.trans (w₂.inv.skip_eq live₂ (.refl x) he landed)
    rcases settle_returns w₂ hk₁ (.refl x) he run with taken | ⟨-, -, filled⟩
    · exact .inl taken
    · exact absurd filled.determinate spoiled.not_determinate
  · rw [if_neg free] at run
    obtain ⟨y, skip, run⟩ := look_bind_eq_ok run
    cases skip.symm.trans (w₁.inv.skip_eq live (.refl x) hd₁ tag)
    rcases settle_returns w₁ hk₁ (.refl x) hd₁ run with taken | ⟨rfl, rfl, filled⟩
    · exact .inl taken
    · obtain ⟨e, he, -, good⟩ := filled.tag
      cases hd₁.symm.trans he
      exact .inr ⟨rfl, ⟨d, hd, good⟩, filled, aside, n, ρ₁, relinks, w₁⟩

/-- What the reducer does to a graph whose variables branch has a derivation, if it comes to no
failure and no choice. -/
structure Reducer.Derived (r : Reducer) : Prop where
  head : ∀ m ρ i j m', m.Inv [] ρ → m.Live [] i → m.toTermGraph.Branching →
    (r.head i).Clean m j m' → m'.toTermGraph.Determinate j →
      ∃ n, Derives (.head i j) n m.toTermGraph m'.toTermGraph
  normal : ∀ m ρ i j m', m.Inv [] ρ → m.Live [] i → m.toTermGraph.Branching →
    (r.normal i).Clean m () m' → m'.skip i = .ok j → m'.toTermGraph.Determinate j →
      ∃ n, Derives (.normal i) n m.toTermGraph m'.toTermGraph

/-- A reducer whose runs are understood. -/
structure Reducer.Known (r : Reducer) : Prop where
  sound : r.Sound
  moves : r.Moves Pays
  derived : r.Derived

/-- An argument was brought into head normal form. -/
structure Headed (ρ : Rank) (i : NodeId) (c : Content) (sym : Symbol) (k : Nat) (p x : NodeId)
    (t t₁ : TermGraph) (m : Machine) : Prop where
  head : ∃ n, Derives (.head p x) n t t₁
  calls : t₁.Calls i c sym
  relinks : ∃ n, t₁.Relinks i c k p x n m.toTermGraph
  filled : m.toTermGraph.Filled x
  site : ∃ ρ', m.Site (.below (ρ i)) ρ' i (c.setLink k x)

theorem Headed.settles {t t₁ : TermGraph} (h : Headed ρ i c sym k p x t t₁ m)
    (hk : c.links[k]? = some p) : t.Settles m.toTermGraph ∧ m.toTermGraph.Idle x := by
  obtain ⟨⟨n, head⟩, calls, ⟨n₀, relinks⟩, -, -⟩ := h
  obtain ⟨through, idle⟩ := head.head_result
  have relinked := relinks.settles calls.content hk through idle (.inl calls.call)
  exact ⟨head.settles.trans relinked, relinked.idle idle⟩

theorem headArg_returns (known : r.Known) (h : m.Inv [] ρ) (live : m.Live [] i)
    (calls : m.toTermGraph.Calls i c sym) (branching : m.toTermGraph.Branching)
    (hk : c.links[k]? = some p) (run : (headArg r i k).Clean m a m') :
    a = .taken ∧ m'.toTermGraph.Spoiled i ∨
      ∃ x t₁, a = .value x ∧ Headed ρ i c sym k p x m.toTermGraph t₁ m' := by
  have w := site_below h live calls.content calls.call.2
  have below := w.site.link hk
  have counted : ∀ x, (takeArg i k (some p) x).Counted := fun x =>
    (takeArg_moves (R := Pays) i k (some p) x).counted
  have run := run.look (h.read_successor live calls.content hk)
  obtain ⟨x, m₁, headed, run⟩ := (run.look rfl).bind (known.moves.head p).counted counted
  obtain ⟨ρ₁, ev, leads⟩ := (known.sound.head m ρ p h below.1).ok headed.run
  obtain ⟨w₁, -⟩ := w.site.spare below.2 hk ev
  obtain ⟨d, hd, -⟩ := w₁.inv.fits x (w₁.below hk leads).1
  have derived : m₁.toTermGraph.Determinate x →
      ∃ n, Derives (.head p x) n m.toTermGraph m₁.toTermGraph :=
    known.derived.head m ρ p x m₁ h below.1 branching headed
  have landed : d.tag ≠ .forward := by
    intro tag
    obtain ⟨n, head⟩ := derived ⟨d, hd, by rw [tag]; exact ⟨nofun, nofun⟩⟩
    obtain ⟨-, e, he, forward, -⟩ := head.head_result.2
    cases hd.symm.trans he
    exact forward tag
  have branching₁ : d.tag = .free → m₁.toTermGraph.Branching := fun free => by
    obtain ⟨n, head⟩ := derived ⟨d, hd, by rw [free]; exact ⟨nofun, nofun⟩⟩
    exact head.settles.branching branching
  rcases takeArg_returns w₁ hk leads hd landed branching₁ run with
    taken | ⟨rfl, good, filled, -, n, ρ₂, relinks, w₂⟩
  · exact .inl taken
  · obtain ⟨n₁, head⟩ := derived good
    have calls₁ := calls.alike head.settles w₁.content (.refl (fun _ => True) c)
    exact .inr ⟨x, _, rfl, ⟨n₁, head⟩, calls₁, ⟨n, relinks⟩, filled, ρ₂, w₂⟩

/-- What is done with an argument counts its collections if it does for a node that stood in its place. -/
theorem counted_of_argument {f : Argument → Eff α} (taken : (f .taken).Counted)
    (value : ∀ x, (f (.value x)).Counted) (a : Argument) : (f a).Counted := by
  cases a with
  | taken => exact taken
  | value x => exact value x

theorem normalArg_returns (known : r.Known) (h : m.Inv [] ρ) (live : m.Live [] i)
    (calls : m.toTermGraph.Calls i c sym) (branching : m.toTermGraph.Branching)
    (hk : c.links[k]? = some p) (run : (normalArg r i k).Clean m a m') :
    a = .taken ∧ m'.toTermGraph.Spoiled i ∨
      ∃ x t₁ m₁ ρ', a = .value x ∧ Headed ρ i c sym k p x m.toTermGraph t₁ m₁ ∧
        (∃ n, Derives (.normal x) n m₁.toTermGraph m'.toTermGraph) ∧ m'.toTermGraph.Filled x ∧
        m₁.graph.content? i = some (c.setLink k x) ∧ m'.Site (.below (ρ i)) ρ' i (c.setLink k x) := by
  have arg : (headArg r i k).Moves Pays := headArg_moves known.moves i k
  obtain ⟨a₁, m₁, first, run⟩ := run.bind arg.counted (counted_of_argument (counted_pure _) fun arg =>
    ((known.moves.normal arg).bind fun _ => (moves_look _).bind fun j => settle_moves i k j).counted)
  rcases headArg_returns known h live calls branching hk first with ⟨rfl, spoiled⟩ | ⟨x, t₁, rfl, headed⟩
  · cases run.run
    exact .inl ⟨rfl, spoiled⟩
  obtain ⟨settled, idle⟩ := headed.settles hk
  obtain ⟨ρ₁, w₁⟩ := headed.site
  have hk₁ := Content.setLink_self (i := x) hk
  have below := w₁.link hk₁
  have rest : ∀ u : Unit, (do settle i k (← look (·.skip x)) : Eff Argument).Counted := fun _ =>
    ((moves_look _).bind fun j => settle_moves i k j : Eff.Moves Pays _).counted
  obtain ⟨_, m₂, normal, run⟩ := run.bind (known.moves.normal x).counted rest
  obtain ⟨ρ₂, ev, -⟩ := (known.sound.normal m₁ ρ₁ x w₁.inv below.1).ok normal.run
  obtain ⟨w₂, -⟩ := w₁.spare below.2 hk₁ ev
  obtain ⟨y, d, skip, leads, hd, -⟩ := w₂.inv.read_skip (w₂.link hk₁).1
  have run := run.look skip
  rcases settle_returns w₂ hk₁ leads hd run.run with taken | ⟨rfl, rfl, filled⟩
  · exact .inl taken
  obtain ⟨n, final⟩ := known.derived.normal m₁ ρ₁ x y m' w₁.inv below.1 (settled.branching branching)
    normal skip filled.determinate
  obtain ⟨-, e, he, tag, -⟩ := final.settles.idle idle
  cases skip.symm.trans (w₂.inv.skip_eq (w₂.link hk₁).1 (.refl x) he tag)
  exact .inr ⟨x, t₁, m₁, ρ₂, rfl, headed, ⟨n, final⟩, filled, w₁.content, w₂⟩

theorem force_moves (moves : r.Moves Pays) (i : NodeId) :
    ∀ (demands : List Demand) (act : List NodeId → Eff Unit),
      (∀ xs, (act xs).Confined (Only i)) → (force r i demands act).Moves Pays := by
  intro demands
  induction demands with
  | nil => exact fun act confined => (confined []).pays
  | cons d demands ih =>
    intro act confined
    have met : (d.meet r i).Moves Pays := by
      cases d with
      | head k => exact headArg_moves moves i k
      | normal k => exact normalArg_moves moves i k
    refine met.bind fun a => ?_
    cases a with
    | taken => exact moves_pure ()
    | value x => exact ih (fun xs => act (x :: xs)) fun xs => confined (x :: xs)

theorem successor_lt (h : m.Inv [] ρ) (live : m.Live [] i) (hc : m.graph.content? i = some c)
    {l : Link} (read : m.successor i k = .ok l) : k < c.links.length := by
  obtain ⟨sym, found, -, length⟩ := h.symbolAt live hc
  by_contra out
  have arity := TermGraph.arity_content (t := m.toTermGraph) hc found
  simp only [TermGraph.successor, arity, bind, Except.bind] at read
  rw [if_pos (by omega)] at read
  cases read

/-- The arguments that a step needs are forced one after the other, and it acts on them. -/
theorem force_derives (known : r.Known) (i : NodeId) :
    ∀ (demands : List Demand) (act : List NodeId → Eff Unit) (m m' : Machine) (ρ : Rank) (c : Content),
      m.Inv [] ρ → m.Live [] i → m.toTermGraph.Calls i c sym → m.toTermGraph.Branching →
      (demands.map Demand.index).Nodup → (∀ xs, (act xs).Confined (Only i)) →
      (force r i demands act).Clean m () m' → m'.toTermGraph.Spoiled i ∨
        ∃ n, Derives (.force i demands act) n m.toTermGraph m'.toTermGraph := by
  intro demands
  induction demands with
  | nil =>
    intro act m m' ρ c h live calls _ _ confined run
    have bound : ∀ j, Only i j → j < m.graph.capacity := by
      rintro j rfl
      exact h.lt live
    have touches := (confined []).touches m () m' h.storage bound run.run run.uncollected
    exact .inr ⟨1, .act calls (confined []) ⟨m, m', rfl, run.run, rfl, run.uncollected⟩ touches⟩
  | cons d demands ih =>
    intro act m m' ρ c h live calls branching apart confined run
    rw [List.map_cons, List.nodup_cons] at apart
    obtain ⟨fresh, apart⟩ := apart
    have apart' : ∀ d' ∈ demands, d'.index ≠ d.index := fun d' hd same =>
      fresh (same ▸ List.mem_map_of_mem hd)
    have counted : ∀ x, (force r i demands fun xs => act (x :: xs)).Counted := fun x =>
      (force_moves known.moves i demands _ fun xs => confined (x :: xs)).counted
    -- the step goes on where an argument has been forced
    have go_on : ∀ (m₁ : Machine) (ρ₁ : Rank) (c₁ : Content) (x : NodeId), m₁.Inv [] ρ₁ →
        m₁.Live [] i → m₁.toTermGraph.Calls i c₁ sym → m.toTermGraph.Settles m₁.toTermGraph →
        (force r i demands fun xs => act (x :: xs)).Clean m₁ () m' → m'.toTermGraph.Spoiled i ∨
          ∃ n, Derives (.force i demands fun xs => act (x :: xs)) n m₁.toTermGraph m'.toTermGraph :=
      fun m₁ ρ₁ c₁ x h₁ live₁ calls₁ settled run₁ =>
        ih (fun xs => act (x :: xs)) m₁ m' ρ₁ c₁ h₁ live₁ calls₁ (settled.branching branching) apart
          (fun xs => confined (x :: xs)) run₁
    cases d with
    | head k =>
      have arg : (headArg r i k).Moves Pays := headArg_moves known.moves i k
      obtain ⟨a, m₁, first, rest⟩ := run.bind arg.counted (counted_of_argument (counted_pure ()) counted)
      obtain ⟨l, read, -⟩ := look_bind_eq_ok first.run
      have hk := List.getElem?_eq_getElem (successor_lt h live calls.content read)
      rcases headArg_returns known h live calls branching hk first with
        ⟨rfl, spoiled⟩ | ⟨x, t₁, rfl, headed⟩
      · cases rest.run
        exact .inl spoiled
      obtain ⟨settled, -⟩ := headed.settles hk
      obtain ⟨⟨n₁, head⟩, calls', ⟨n₀, relinks⟩, filled, ρ₁, w₁⟩ := headed
      have calls₁ := calls.alike settled w₁.content ((Content.setLink_alike k x).mono fun _ h => h)
      refine (go_on m₁ ρ₁ _ x w₁.inv w₁.live calls₁ settled rest).imp_right ?_
      rintro ⟨n₂, rest⟩
      exact ⟨_, .head calls hk apart' head calls' relinks filled rest⟩
    | normal k =>
      have arg : (normalArg r i k).Moves Pays := normalArg_moves known.moves i k
      obtain ⟨a, m₂, first, rest⟩ := run.bind arg.counted (counted_of_argument (counted_pure ()) counted)
      obtain ⟨_, _, headed, -⟩ := bind_eq_ok first.run
      obtain ⟨l, read, -⟩ := look_bind_eq_ok headed
      have hk := List.getElem?_eq_getElem (successor_lt h live calls.content read)
      rcases normalArg_returns known h live calls branching hk first with
        ⟨rfl, spoiled⟩ | ⟨x, t₁, m₁, ρ₂, rfl, headed, ⟨n₂, normal⟩, filled', hc₁, w₂⟩
      · cases rest.run
        exact .inl spoiled
      have settled := (headed.settles hk).1.trans normal.settles
      obtain ⟨⟨n₁, head⟩, calls', ⟨n₀, relinks⟩, filled, -⟩ := headed
      have calls₂ := calls.alike settled w₂.content ((Content.setLink_alike k x).mono fun _ h => h)
      refine (go_on m₂ ρ₂ _ x w₂.inv w₂.live calls₂ settled rest).imp_right ?_
      rintro ⟨n₃, rest⟩
      exact ⟨_, .normal calls hk apart' head calls' relinks filled normal filled'
        (w₂.content.trans hc₁.symm) rest⟩

/-! ## Head steps -/

theorem bindVars_same {x y : NodeId} {isLazy done : Bool} (run : bindVars x y isLazy m = .ok done m') :
    m'.toTermGraph = m.toTermGraph := by
  obtain ⟨_, -, run⟩ := look_bind_eq_ok run
  obtain ⟨_, -, run⟩ := look_bind_eq_ok run
  obtain ⟨m₁, m₂, here, run⟩ := bind_eq_ok run
  cases here
  split at run
  · cases run
    exact mapInnermost_same m _
  · cases run
    rfl

theorem bindHeads_derives {a b : NodeId} {d e : Content} (h : m.Inv [] ρ) (live : m.Live [] i)
    (calls : m.toTermGraph.Calls i c sym) (head : sym.head = .unify)
    (both : m.toTermGraph.BothFree c) (ha : m.graph.content? a = some d)
    (hb : m.graph.content? b = some e) (run : (bindHeads i a b).Clean m () m') :
    ∃ n, Derives (.step i) n m.toTermGraph m'.toTermGraph := by
  have run := (run.look (TermGraph.aux_content ha)).look (TermGraph.aux_content hb)
  have bound : ∀ j, Only i j → j < m.graph.capacity := by
    rintro j rfl
    exact h.lt live
  have done : ∀ m₁ : Machine, m₁.toTermGraph = m.toTermGraph → (succeed i).Clean m₁ () m' →
      ∃ n, Derives (.step i) n m.toTermGraph m'.toTermGraph := by
    intro m₁ same run
    have graph : m₁.graph = m.graph := congrArg TermGraph.graph same
    have touches := (succeed_confined i).touches m₁ () m' (graph.symm ▸ h.storage)
      (graph.symm ▸ bound) run.run run.uncollected
    rw [same] at touches
    exact ⟨1, .bind calls head both ⟨m₁, m', same, run.run, rfl, run.uncollected⟩ touches⟩
  dsimp only at run
  split at run
  · have moves : (bindVars a b false).Moves Pays := bindVars_moves a b false
    have after : (succeed i).Moves Pays := succeed_moves i
    obtain ⟨_, m₁, first, rest⟩ := run.bind moves.counted fun _ => after.counted
    exact done m₁ (bindVars_same first.run) rest
  · exact done m rfl run

/-- Two variables are unified: they are bound if they differ, and the call succeeds. -/
theorem unify_derives (known : r.Known) (h : m.Inv [] ρ) (live : m.Live [] i)
    (calls : m.toTermGraph.Calls i c sym) (head : sym.head = .unify)
    (branching : m.toTermGraph.Branching) (run : (stepUnify r i).Clean m () m') :
    m'.toTermGraph.Spoiled i ∨ ∃ n, Derives (.step i) n m.toTermGraph m'.toTermGraph := by
  rcases unify_cases h live calls head r with ⟨both, a, b, d, e, ha, hb, reads⟩ | ⟨-, reads⟩
  · exact .inr (bindHeads_derives h live calls head both ha hb
      ⟨reads.symm.trans run.run, run.uncollected⟩)
  · refine (force_derives known i [.head 0, .head 1] (onPair (unifyHeads i)) m m' ρ c h live calls
      branching (by decide) (onPair_confined (unifyHeads_confined i))
      ⟨reads.symm.trans run.run, run.uncollected⟩).imp_right ?_
    rintro ⟨n, forced⟩
    exact ⟨n, .strict calls (head ▸ .unify) forced⟩

/-- A head step takes the call over, or has a derivation. -/
theorem headStep_returns (known : r.Known) (h : m.Inv [] ρ) (live : m.Live [] i)
    (calls : m.toTermGraph.Calls i c sym) (goes : sym.head ≠ .forward)
    (branching : m.toTermGraph.Branching) (run : (headStep r i).Clean m () m') :
    m'.toTermGraph.Spoiled i ∨ ∃ n, Derives (.step i) n m.toTermGraph m'.toTermGraph := by
  rw [headStep_eq] at run
  have run := run.spent.look (TermGraph.symbol_content calls.content calls.symbol)
  obtain ⟨count, reads, -⟩ := ((h.fitsAt live calls.content).of_isCall calls.symbol calls.call).reads
  by_cases choose : sym.head = .choose
  · rw [choose] at run
    obtain ⟨_, -, run⟩ := look_bind_eq_ok run.run
    obtain ⟨_, -, run⟩ := look_bind_eq_ok run
    obtain ⟨_, _, -, run⟩ := bind_eq_ok run
    exact .inl (.inr (rewrite_tag run))
  by_cases unify : sym.head = .unify
  · rw [unify] at run
    exact unify_derives (m := { m with slice := m.slice.spend }) known h.spent live calls unify
      branching run
  obtain ⟨demands, act, strict⟩ := strict_of_reads i (by rw [reads]; nofun) choose goes
  have forced : (force r i demands act).Clean { m with slice := m.slice.spend } () m' := by
    generalize sym.head = head at strict run unify
    cases strict with
    | plain _ eq => rwa [eq] at run
    | unify => exact absurd rfl unify
  refine (force_derives known i demands act _ m' ρ c h.spent live calls branching strict.apart
    strict.confined forced).imp_right ?_
  rintro ⟨n, derived⟩
  exact ⟨n, .strict calls strict derived⟩

/-! ## Head normal forms -/

/-- A call that only follows its argument is never rewritten, and its reduction runs out of fuel. -/
theorem forward_runs_out (head : sym.head = .forward) : ∀ (F : Nat) (m m' : Machine) (ρ : Rank)
    (c : Content), m.Inv [] ρ → m.Live [] i → m.toTermGraph.Calls i c sym →
    headNormalize F i m ≠ .ok j m' := by
  intro F
  induction F with
  | zero =>
    intro m m' ρ c h live calls run
    cases run
  | succ F ih =>
    intro m m' ρ c h live calls run
    have skip := h.skip_eq live (.refl i) calls.content calls.call.not_forward
    rw [headNormalize_eq] at run
    obtain ⟨p, read, run⟩ := look_bind_eq_ok run
    cases skip.symm.trans read
    obtain ⟨reducible, read, run⟩ := look_bind_eq_ok run
    cases (isReducible_call h calls live).symm.trans read
    rw [if_pos rfl] at run
    obtain ⟨_, m₁, stepped, run⟩ := bind_eq_ok run
    obtain ⟨_, m₀, paid, work⟩ := bind_eq_ok stepped
    obtain ⟨sym', symbol, work⟩ := look_bind_eq_ok work
    have h₀ := h.spent
    rw [← tick_spends paid] at h₀
    have same : m₀.toTermGraph = m.toTermGraph := by rw [tick_spends paid]
    have live₀ : m₀.Live [] i := by
      rw [tick_spends paid]
      exact live
    rw [← same] at calls
    have w := site_below h₀ live₀ calls.content calls.call.2
    cases (TermGraph.symbol_content calls.content calls.symbol).symm.trans symbol
    rw [head] at work
    obtain ⟨l, read, work⟩ := look_bind_eq_ok work
    obtain ⟨q, hk⟩ : ∃ q, c.links[0]? = some q :=
      ⟨_, List.getElem?_eq_getElem (successor_lt h₀ live₀ calls.content read)⟩
    cases (h₀.read_successor live₀ calls.content hk).symm.trans read
    obtain ⟨_, target, work⟩ := look_bind_eq_ok work
    cases target
    obtain ⟨x, m₂, argument, work⟩ := bind_eq_ok work
    cases work
    obtain ⟨ρ₁, ev, -⟩ := ((reducer_sound F).head m₀ ρ _ h₀ (w.site.link hk).1).ok argument
    obtain ⟨w₁, -⟩ := w.site.spare (w.site.link hk).2 hk ev
    have calls₁ : m₁.toTermGraph.Calls i c sym := by
      refine ⟨w₁.inv.unfree i w₁.live, w₁.content, calls.call, ?_⟩
      rw [ev.signature]
      exact calls.symbol
    exact ih m₁ m' ρ₁ c w₁.inv w₁.live calls₁ run

/-- A failure and a choice are in head normal form. -/
theorem spoiled_stays {F : Nat} (h : m.Inv [] ρ) (live : m.Live [] i)
    (spoiled : m.toTermGraph.Spoiled i) (run : headNormalize F i m = .ok j m') : j = i ∧ m' = m := by
  obtain ⟨-, c, hc, tag, call⟩ := spoiled.idle h live
  cases F with
  | zero => cases run
  | succ F =>
    rw [headNormalize_eq] at run
    obtain ⟨p, read, run⟩ := look_bind_eq_ok run
    cases (h.skip_eq live (.refl i) hc tag).symm.trans read
    obtain ⟨reducible, read, run⟩ := look_bind_eq_ok run
    cases (isReducible_idle h live hc call).symm.trans read
    cases run
    exact ⟨rfl, rfl⟩

theorem head_derives {F : Nat} (known : (reducer F).Known) (h : m.Inv [] ρ) (live : m.Live [] i)
    (branching : m.toTermGraph.Branching) (run : (headNormalize (F + 1) i).Clean m j m')
    (good : m'.toTermGraph.Determinate j) :
    ∃ n, Derives (.head i j) n m.toTermGraph m'.toTermGraph := by
  obtain ⟨p, c, skip, leads, hc, tag⟩ := h.read_skip live
  have through := h.through live leads
  have live := live.leads leads
  rw [headNormalize_eq] at run
  have run := run.look skip
  by_cases call : c.IsCall
  · obtain ⟨sym, found, symbol⟩ := h.read_symbol live hc
    have calls : m.toTermGraph.Calls p c sym := ⟨h.unfree p live, hc, call, found⟩
    have run := run.look (isReducible_call h calls live)
    rw [if_pos rfl] at run
    have stepped : (headStep (reducer F) p).Moves Pays :=
      tick_moves.bind fun _ => headWork_moves known.moves p
    obtain ⟨_, m₁, step, rest⟩ := run.bind stepped.counted fun _ => (known.moves.head p).counted
    obtain ⟨ρ₁, ev, -⟩ := (headStep_keeps known.sound h live).ok step.run
    have live₁ : m₁.Live [] p := ev.live (h.steady live le_rfl)
    have goes : sym.head ≠ .forward := by
      intro head
      have whole : headNormalize (F + 1) p m = .ok j m' := by
        rw [headNormalize_eq]
        refine (bind_ok (look_ok (h.skip_eq live (.refl p) hc tag))).trans ?_
        refine (bind_ok (look_ok (isReducible_call h calls live))).trans ?_
        exact run.run
      exact forward_runs_out head (F + 1) m m' ρ c h live calls whole
    rcases headStep_returns known h live calls goes branching step with spoiled | ⟨n₁, step⟩
    · obtain ⟨rfl, rfl⟩ := spoiled_stays ev.inv live₁ spoiled rest.run
      exact absurd good spoiled.not_determinate
    · obtain ⟨n₂, rest⟩ := known.derived.head m₁ ρ₁ p j m' ev.inv live₁
        (step.settles.branching branching) rest good
      exact ⟨n₁ + n₂, .call through calls step rest⟩
  · have run := run.look (isReducible_idle h live hc call)
    cases run.run
    exact ⟨0, .idle through (h.idle live hc tag call)⟩

/-! ## Normal forms -/

/-- What indirections lead to is in head normal form once a node is normalized. -/
theorem Derives.landed {n : Nat} {t t' : TermGraph} (d : Derives (.normal i) n t t') :
    ∃ x, t'.Through i x ∧ t'.Idle x := by
  generalize same : Job.normal i = job at d
  induction d generalizing i with
  | still unfree hc tag call data =>
    cases same
    exact ⟨_, .refl _, unfree, _, hc, tag, call⟩
  | through unfree hc rest ih =>
    cases same
    obtain ⟨x, through, idle⟩ := ih rfl
    exact ⟨x, (rest.settles.through (.step unfree hc (.refl _))).trans through, idle⟩
  | stuck _ head _ _ _ =>
    cases same
    exact ⟨_, head.head_result⟩
  | value _ head _ _ rest _ ih =>
    cases same
    obtain ⟨x, through, idle⟩ := ih rfl
    exact ⟨x, (rest.settles.through head.head_result.1).trans through, idle⟩
  | data data fields _ =>
    cases same
    obtain ⟨c', data', -⟩ := data.settles fields.settles
    exact ⟨_, .refl _, data'.unfree, c', data'.content, data'.data.not_forward, data'.data.not_call⟩
  | _ => cases same

theorem fields_derives (known : r.Known) (i : NodeId) : ∀ (count k : Nat) (m m' : Machine) (ρ : Rank)
    (c : Content), m.Inv [] ρ → m.Live [] i → m.toTermGraph.Data i c → m.toTermGraph.Branching →
    (normalizeFields r i count k).Clean m () m' → m'.toTermGraph.Spoiled i ∨
      ∃ n, Derives (.fields i count k) n m.toTermGraph m'.toTermGraph := by
  intro count
  induction count with
  | zero =>
    intro k m m' ρ c h live data _ run
    cases run.run
    exact .inr ⟨0, .done⟩
  | succ count ih =>
    intro k m m' ρ c h live data branching run
    have w := site_below h live data.content data.data.plain
    obtain ⟨l, read, -⟩ := look_bind_eq_ok run.run
    obtain ⟨p, hk⟩ : ∃ p, c.links[k]? = some p :=
      ⟨_, List.getElem?_eq_getElem (successor_lt h live data.content read)⟩
    have below := w.site.link hk
    have run := (run.look (h.read_successor live data.content hk)).look (a := p) rfl
    have more : (normalizeFields r i count (k + 1)).Moves Pays :=
      normalizeFields_moves known.moves i count (k + 1)
    obtain ⟨_, m₁, normal, run⟩ := run.bind (known.moves.normal p).counted fun _ =>
      (takeField_moves more p).counted
    obtain ⟨ρ₁, ev, -⟩ := (known.sound.normal m ρ p h below.1).ok normal.run
    obtain ⟨w₁, -⟩ := w.site.spare below.2 hk ev
    obtain ⟨x, d, skip, leads, hd, tag⟩ := w₁.inv.read_skip (w₁.link hk).1
    have run := run.look skip
    obtain ⟨n₀, m₂, ρ₂, relinks, -, w₂, run⟩ := relink_ends w₁ hk leads ne_comm
      (passField_moves more x) (ends_of_ok run.run run.uncollected)
    have run := run.clean
    have hk₂ := Content.setLink_self (i := x) hk
    have apart : x ≠ i := by
      rintro rfl
      exact lt_irrefl _ (w₁.below hk leads).2
    have hd₂ := (relinks.other apart).trans hd
    obtain ⟨tag', read, run'⟩ := look_bind_eq_ok run.run
    cases (TermGraph.tag_content hd₂).symm.trans read
    -- an argument that is neither a failure nor a choice is passed
    have pass : d.tag ≠ .failure → d.tag ≠ .choice →
        (normalizeFields r i count (k + 1)).Clean m₂ () m' → m'.toTermGraph.Spoiled i ∨
          ∃ n, Derives (.fields i (count + 1) k) n m.toTermGraph m'.toTermGraph := by
      intro failure choice rest
      obtain ⟨n₁, done⟩ := known.derived.normal m ρ p x m₁ h below.1 branching normal skip
        ⟨d, hd, failure, choice⟩
      obtain ⟨y, through, idle⟩ := done.landed
      obtain ⟨-, e, he, landed, -⟩ := id idle
      cases leads_unique leads through.leads hd tag he landed
      have data₁ : m₁.toTermGraph.Data i c :=
        ⟨done.settles.unfree i data.unfree, w₁.content, data.data⟩
      have settled := relinks.settles w₁.content hk through idle (.inr data.data)
      have data₂ : m₂.toTermGraph.Data i (c.setLink k x) :=
        ⟨settled.unfree i data₁.unfree, w₂.content, data.data⟩
      refine (ih (k + 1) m₂ m' ρ₂ _ w₂.inv w₂.live data₂
        ((done.settles.trans settled).branching branching) rest).imp_right ?_
      rintro ⟨n₂, rest⟩
      exact ⟨_, .field data hk done through idle data₁ hk relinks ⟨d, hd₂, failure, choice⟩ rest⟩
    have rest := run.look (TermGraph.tag_content hd₂)
    cases final : d.tag with
    | failure =>
      rw [final] at run'
      exact .inl (rewriteFail_spoils run')
    | choice =>
      rw [final] at run'
      exact .inl (pull_spoils w₂ hk₂ (.refl x) hd₂ final run')
    | unassigned below =>
      rw [final] at run'
      cases run'
    | _ =>
      rw [final] at rest pass
      exact pass nofun nofun rest

/-- A node ends where one ends that it leads to. -/
theorem skip_after (h : m.Inv [] ρ) (live : m.Live [] i) (leads : m.graph.Leads i p)
    (skip : m.skip i = .ok j) : m.skip p = .ok j := by
  obtain ⟨x, d, skip', leads', hd, tag⟩ := h.read_skip (live.leads leads)
  cases skip.symm.trans (h.skip_eq live (leads.trans leads') hd tag)
  exact skip'

theorem call_derives (known : r.Known) (h : m.Inv [] ρ) (live : m.Live [] i)
    (calls : m.toTermGraph.Calls i c sym) (branching : m.toTermGraph.Branching)
    (run : (r.head i >>= takeHead r).Clean m () m') (skip : m'.skip i = .ok j)
    (good : m'.toTermGraph.Determinate j) :
    ∃ n, Derives (.normal i) n m.toTermGraph m'.toTermGraph := by
  obtain ⟨x, m₁, head, run⟩ := run.bind (known.moves.head i).counted fun x =>
    (takeHead_moves known.moves x).counted
  obtain ⟨ρ₁, ev, leads⟩ := (known.sound.head m ρ i h live).ok head.run
  have live₁ : m₁.Live [] i := ev.live (h.steady live le_rfl)
  have livex := live₁.leads leads
  obtain ⟨d, hd, -⟩ := ev.inv.fits x livex
  have derived := known.derived.head m ρ i x m₁ h live branching head
  have run := run.look (TermGraph.tag_content hd)
  -- unless it is a constructor, the head normal form is all there is
  have stop : (∀ index, d.tag ≠ .constructor index) → (pure () : Eff Unit).Clean m₁ () m' →
      ∃ n, Derives (.normal i) n m.toTermGraph m'.toTermGraph := by
    intro none run
    cases run.run
    have determinate : m'.toTermGraph.Determinate x := by
      by_cases forward : d.tag = .forward
      · exact ⟨d, hd, by rw [forward]; exact ⟨nofun, nofun⟩⟩
      · cases skip.symm.trans (ev.inv.skip_eq live₁ leads hd forward)
        exact good
    obtain ⟨n, head⟩ := derived determinate
    exact ⟨n, .stuck calls head hd none⟩
  cases tag : d.tag with
  | constructor index =>
    rw [tag] at run
    obtain ⟨n₁, head⟩ := derived ⟨d, hd, by rw [tag]; exact ⟨nofun, nofun⟩⟩
    obtain ⟨ρ₂, ev', -⟩ := (known.sound.normal m₁ ρ₁ x ev.inv livex).ok run.run
    have steady := ev.inv.steady (s := .below (ρ₁ x)) live₁ (ev.inv.rank_leads live₁ leads)
    obtain ⟨n₂, rest⟩ := known.derived.normal m₁ ρ₁ x j m' ev.inv livex
      (head.settles.branching branching) run
      (skip_after ev'.inv (ev'.live steady) (ev'.leads steady leads) skip) good
    exact ⟨n₁ + n₂, .value calls head hd tag rest⟩
  | unassigned below =>
    rw [tag] at run
    cases run.run
  | _ =>
    rw [tag] at run stop
    exact stop nofun run

theorem normal_derives {F : Nat} (known : (reducer F).Known) (h : m.Inv [] ρ) (live : m.Live [] i)
    (branching : m.toTermGraph.Branching) (run : (normalize (F + 1) i).Clean m () m')
    (skip : m'.skip i = .ok j) (good : m'.toTermGraph.Determinate j) :
    ∃ n, Derives (.normal i) n m.toTermGraph m'.toTermGraph := by
  rw [normalize_eq] at run
  obtain ⟨c, hc, fits⟩ := h.fits i live
  obtain ⟨sym, found, -, length⟩ := h.symbolAt live hc
  have unfree := h.unfree i live
  have run := run.spent.look (TermGraph.symbol_content (t := m.toTermGraph) hc found)
  by_cases forward : c.tag = .forward
  · rw [fits.of_forward_symbol h.signature found forward] at run
    obtain ⟨aux, p, rfl⟩ := fits.of_forward forward
    have below := h.below live hc List.mem_cons_self (.refl p)
    have run := (run.look (h.read_successor (k := 0) live hc rfl)).look (a := p) rfl
    obtain ⟨ρ', ev, -⟩ := (known.sound.normal _ ρ p h.spent below.1).ok run.run
    have steady := h.spent.steady (s := .below (ρ p)) live below.2.le
    have leads := ev.leads steady (.step hc (.refl p))
    obtain ⟨n, rest⟩ := known.derived.normal _ ρ p j m' h.spent below.1 branching run
      (skip_after ev.inv (ev.live steady) leads skip) good
    exact ⟨n, .through unfree hc rest⟩
  by_cases call : c.IsCall
  · rw [(fits.of_isCall found call).normal] at run
    have calls : m.toTermGraph.Calls i c sym := ⟨unfree, hc, call, found⟩
    exact call_derives (m := { m with slice := m.slice.spend }) known h.spent live calls branching run
      skip good
  by_cases data : c.IsData
  · rw [fits.of_isData found data] at run
    have run := run.look (TermGraph.arity_content (t := m.toTermGraph) hc found)
    rw [← length] at run
    have w := site_below h.spent live hc data.plain
    obtain ⟨ρ', ev, -⟩ := (normalizeFields_keeps known.sound c.links.length 0 _ ρ c w (by omega)).ok
      run.run
    rcases fields_derives known i c.links.length 0 _ m' ρ c h.spent live ⟨unfree, hc, data⟩ branching
      run with spoiled | ⟨n, fields⟩
    · have live' : m'.Live [] i := ev.live w.site.steady
      obtain ⟨d, hd, -⟩ := ev.inv.fits i live'
      have landed : d.tag ≠ .forward := by
        rcases spoiled.content hd with final | final <;> rw [final] <;> nofun
      cases skip.symm.trans (ev.inv.skip_eq live' (.refl i) hd landed)
      exact absurd good spoiled.not_determinate
    · exact ⟨n, .data ⟨unfree, hc, data⟩ fields⟩
  · rw [fits.of_still h.signature found forward call data] at run
    cases run.run
    exact ⟨0, .still unfree hc forward call data⟩

/-- However deep it may nest, a reducer that comes to no failure and no choice has done what a
derivation says. -/
theorem reducer_known (F : Nat) : (reducer F).Known := by
  induction F with
  | zero =>
    refine ⟨reducer_sound 0, reducer_moves Pays 0, fun m ρ i j m' _ _ _ run => ?_,
      fun m ρ i j m' _ _ _ run => ?_⟩
    · cases run.run
    · cases run.run
  | succ F ih =>
    refine ⟨reducer_sound (F + 1), reducer_moves Pays (F + 1), ?_, ?_⟩
    · exact fun m ρ i j m' h live branching run good => head_derives ih h live branching run good
    · exact fun m ρ i j m' h live branching run skip good =>
        normal_derives ih h live branching run skip good

end Reduction

end ChoiceGraph
