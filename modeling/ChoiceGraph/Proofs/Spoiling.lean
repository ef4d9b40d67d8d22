import ChoiceGraph.Proofs.Settling
import ChoiceGraph.Proofs.Slices

/-! # Nodes that are taken over

A failure or a choice that is met below a node takes the node over. In a graph whose variables all
branch, narrowing a variable makes one or the other of it as well. So a step that forces an argument
either gets a value, and has only made the node skip indirections, or leaves a failure or a choice in
its place. -/
namespace ChoiceGraph

namespace Eff

open Machine

variable {α β : Type} {e : Eff α} {f : α → Eff β} {m m' : Machine} {a : α} {b : β}

/-- Whenever the effect returns, it has not taken back a collection. -/
def Counted (e : Eff α) : Prop := ∀ m a m', e m = .ok a m' → m.collections ≤ m'.collections

theorem Moves.counted (h : e.Moves Pays) : e.Counted := fun _ _ _ run => (h.ok run).counts

theorem counted_pure (a : α) : (pure a : Eff α).Counted := (moves_pure (R := Pays) a).counted

theorem Counted.bind (h : e.Counted) (hf : ∀ a, (f a).Counted) : (e >>= f).Counted := by
  intro m b m' run
  obtain ⟨a, m₁, first, rest⟩ := bind_eq_ok run
  exact (h m a m₁ first).trans (hf a m₁ b m' rest)

/-- The effect returns, and has collected nothing. -/
structure Clean (e : Eff α) (m : Machine) (a : α) (m' : Machine) : Prop where
  run : e m = .ok a m'
  uncollected : m'.collections = m.collections

theorem Clean.bind (h : (e >>= f).Clean m b m') (he : e.Counted) (hf : ∀ a, (f a).Counted) :
    ∃ a m₁, e.Clean m a m₁ ∧ (f a).Clean m₁ b m' := by
  obtain ⟨a, m₁, first, rest⟩ := bind_eq_ok h.run
  have counted := he m a m₁ first
  have counted' := hf a m₁ b m' rest
  have same := h.uncollected
  exact ⟨a, m₁, ⟨first, by omega⟩, ⟨rest, by omega⟩⟩

theorem Clean.read (h : (e >>= f).Clean m b m') (run : e m = .ok a m) : (f a).Clean m b m' :=
  ⟨(bind_ok run).symm.trans h.run, h.uncollected⟩

theorem Clean.look {r : Machine → Except Fault α} (h : (look r >>= f).Clean m b m')
    (run : r m = .ok a) : (f a).Clean m b m' :=
  h.read (look_ok run)

theorem Clean.spent (h : (Reduction.tick >>= fun _ => e).Clean m a m') :
    e.Clean { m with slice := m.slice.spend } a m' := by
  obtain ⟨_, m₁, paid, rest⟩ := bind_eq_ok h.run
  rw [Reduction.tick_spends paid] at rest
  exact ⟨rest, h.uncollected⟩

/-! ## Effects that end -/

section Ends

variable {r : Except Stop β} {read : Machine → Except Fault α}

theorem Ends.clean (h : e.Ends m (.ok a) m') : e.Clean m a m' := ⟨h.run, h.uncollected⟩

theorem Ends.look (h : (look read >>= f).Ends m r m') : ∃ a, read m = .ok a ∧ (f a).Ends m r m' := by
  cases value : read m with
  | ok a => exact ⟨a, rfl, (bind_ok (look_ok value)).symm.trans h.run, h.uncollected, h.final⟩
  | error e =>
    have stopped : Eff.look read m = .error (.fault e) m := by
      unfold Eff.look
      rw [value]
    have run := (bind_error stopped).symm.trans h.run
    cases r with
    | ok b => cases run
    | error stop =>
      cases run
      exact (h.final _ rfl).elim

theorem Ends.reads (h : (Eff.look read >>= f).Ends m r m') (value : read m = .ok a) :
    (f a).Ends m r m' := by
  obtain ⟨b, value', rest⟩ := h.look
  cases value.symm.trans value'
  exact rest

theorem Ends.paid {f : Unit → Eff β} (h : (Reduction.tick >>= f).Ends m r m')
    (going : m.slice.isOver = false) : (f ()).Ends { m with slice := m.slice.spend } r m' := by
  have paid : Reduction.tick m = .ok () { m with slice := m.slice.spend } := by
    unfold Reduction.tick
    rw [going]
    rfl
  exact ⟨(bind_ok paid).symm.trans h.run, h.uncollected, h.final⟩

theorem ends_pure {r : Except Stop α} (h : (pure a : Eff α).Ends m r m') : r = .ok a ∧ m' = m := by
  have run := h.run
  cases r with
  | ok b =>
    cases run
    exact ⟨rfl, rfl⟩
  | error stop => cases run

end Ends

/-! ## Nodes that are written -/

theorem put_node {i : NodeId} {n : Node} (run : put i n m = .ok () m') :
    m'.graph.nodes[i]? = some n := by
  have written : ∀ g : Graph, i < g.nodes.size → (g.setNode i n).nodes[i]? = some n :=
    fun g lt => Array.getElem?_setIfInBounds_self_of_lt lt
  unfold put at run
  cases old : m.graph.node i with
  | error e =>
    rw [old] at run
    cases run
  | ok node =>
    have lt : i < m.graph.nodes.size := by
      unfold Graph.node at old
      by_contra out
      rw [Array.getElem?_eq_none (Nat.le_of_not_lt out)] at old
      cases old
    simp only [old] at run
    cases slots : node.slots with
    | inline x y =>
      simp only [slots] at run
      cases run
      exact written m.graph lt
    | data l =>
      simp only [slots] at run
      cases run
      exact written m.graph lt
    | pooled r =>
      simp only [slots] at run
      cases released : m.graph.releaseBlock? r with
      | none =>
        rw [released] at run
        cases run
      | some g =>
        simp only [released] at run
        cases run
        refine written g ?_
        obtain ⟨pool, -, released⟩ := Option.bind_eq_some_iff.mp released
        obtain ⟨pool', -, made⟩ := Option.bind_eq_some_iff.mp released
        cases made
        exact lt

theorem put_tag {i : NodeId} {n : Node} (run : put i n m = .ok () m') :
    m'.toTermGraph.tag i = .ok n.tag := by
  simp only [TermGraph.tag, TermGraph.node, Graph.node, put_node run, bind, Except.bind]
  rfl

theorem rewrite_node {i : NodeId} {tag : Tag} {symbol : SymbolId} {aux : Nat} {links : List Link}
    (run : rewrite i tag symbol aux links m = .ok () m') :
    ∃ slots, m'.graph.nodes[i]? = some ⟨tag, symbol, aux, slots⟩ := by
  obtain ⟨slots, m₁, -, run⟩ := bind_eq_ok run
  exact ⟨slots, put_node run⟩

theorem rewrite_tag {i : NodeId} {tag : Tag} {symbol : SymbolId} {aux : Nat} {links : List Link}
    (run : rewrite i tag symbol aux links m = .ok () m') : m'.toTermGraph.tag i = .ok tag := by
  obtain ⟨slots, m₁, -, run⟩ := bind_eq_ok run
  exact put_tag run

end Eff

namespace TermGraph

variable {t : TermGraph} {i : NodeId} {c : Content}

/-- A node that has become a failure or a choice. -/
def Spoiled (t : TermGraph) (i : NodeId) : Prop := t.tag i = .ok .failure ∨ t.tag i = .ok .choice

theorem Spoiled.of_content (hc : t.graph.content? i = some c) (tag : c.tag = .failure ∨ c.tag = .choice) :
    t.Spoiled i := by
  unfold Spoiled
  rw [tag_content hc]
  exact tag.imp (congrArg _) (congrArg _)

theorem Spoiled.content (h : t.Spoiled i) (hc : t.graph.content? i = some c) :
    c.tag = .failure ∨ c.tag = .choice := by
  unfold Spoiled at h
  rw [tag_content hc] at h
  exact h.imp Except.ok.inj Except.ok.inj

theorem Spoiled.not_determinate (h : t.Spoiled i) : ¬ t.Determinate i := by
  rintro ⟨c, hc, failure, choice⟩
  exact (h.content hc).elim failure choice

theorem Spoiled.idle {m : Machine} {ρ : Rank} (h : m.toTermGraph.Spoiled i) (inv : m.Inv [] ρ)
    (live : m.Live [] i) : m.toTermGraph.Idle i := by
  obtain ⟨c, hc, -⟩ := inv.fits i live
  have final := h.content hc
  refine inv.idle live hc ?_ ?_
  · rcases final with final | final <;> rw [final] <;> nofun
  · rintro ⟨tag, -⟩
    rcases final with final | final <;> cases tag.symm.trans final

end TermGraph

namespace Reduction

open Eff Machine

variable {m m' : Machine} {ρ : Rank} {root i p x j : NodeId} {c d : Content} {k : Nat} {s : Scope}
  {a : Argument}

theorem rewriteFail_spoils (run : rewriteFail i m = .ok () m') : m'.toTermGraph.Spoiled i :=
  .inl (put_tag run)

/-- A choice that is pulled takes the place of the node; the variables bound to it are narrowed
elsewhere. -/
theorem pull_spoils (w : m.Site s ρ root c) (hk : c.links[k]? = some p)
    (leads : m.graph.Leads p j) (hd : m.graph.content? j = some d) (tag : d.tag = .choice)
    (run : pull root k m = .ok () m') : m'.toTermGraph.Spoiled root := by
  obtain ⟨symbol, id, left, right, rfl, choice⟩ := (w.inv.fitsAt (w.below hk leads).1 hd).of_choice tag
  have below : m.ChoiceBelow root c k j symbol id left right := ⟨⟨p, hk, leads⟩, hd, choice⟩
  have pulls := pullTab_keeps w.inv w.live w.content below w.loose
  obtain ⟨_, -, run⟩ := look_bind_eq_ok run
  obtain ⟨symbol', -, run⟩ := look_bind_eq_ok run
  split at run
  · obtain ⟨_, -, run⟩ := look_bind_eq_ok run
    obtain ⟨var, -, run⟩ := look_bind_eq_ok run
    obtain ⟨_, m₁, tab, run⟩ := bind_eq_ok run
    obtain ⟨ρ₃, ev, a, b, hc₃⟩ := pulls.ok tab
    obtain ⟨ρ', ev', -⟩ := (bindGenerators_keeps (s := .below (ρ₃ root)) ev.inv var).ok run
    have steady := ev.inv.steady (s := .below (ρ₃ root)) (ev.live w.steady) le_rfl
    exact .of_content (ev'.fixed root _ steady hc₃ (Scope.fixed_inert (.inr (.inl rfl)))) (.inr rfl)
  · obtain ⟨ρ', -, a, b, hc'⟩ := pulls.ok run
    exact .of_content hc' (.inr rfl)

/-! ## Narrowing a variable that branches -/

theorem buildAlternatives_length : ∀ (ctors : List (SymbolId × Nat)) (fresh : List NodeId)
    (m m' : Machine) (r : List NodeId × List NodeId),
    buildAlternatives ctors fresh m = .ok r m' → r.1.length = ctors.length := by
  intro ctors
  induction ctors with
  | nil =>
    intro fresh m m' r run
    cases run
    rfl
  | cons ctor ctors ih =>
    obtain ⟨symbol, arity⟩ := ctor
    intro fresh m m' r run
    cases fresh with
    | nil => cases run
    | cons node fresh =>
      obtain ⟨_, m₁, -, run⟩ := bind_eq_ok run
      obtain ⟨_, m₂, -, run⟩ := bind_eq_ok run
      obtain ⟨⟨alternatives, left⟩, m₃, built, run⟩ := bind_eq_ok run
      cases run
      exact congrArg Nat.succ (ih _ _ _ _ built)

theorem constructorsOf_length {type : TypeId} {d : DataType} {ctors : List (SymbolId × Nat)}
    (hd : m.signature.types[type]? = some d) (run : constructorsOf m type = .ok ctors) :
    ctors.length = d.constructors.length := by
  have entry : ∀ (cs : List SymbolId) (ctors : List (SymbolId × Nat)),
      (cs.mapM fun c => do return (c, (← m.signature.symbol c).arity) :
        Except Fault (List (SymbolId × Nat))) = .ok ctors → ctors.length = cs.length := by
    intro cs
    induction cs with
    | nil =>
      intro ctors run
      cases run
      rfl
    | cons c cs ih =>
      intro ctors run
      rw [List.mapM_cons] at run
      cases found : m.signature.symbol c with
      | error e =>
        rw [found] at run
        cases run
      | ok sym =>
        cases rest : (cs.mapM fun c => do return (c, (← m.signature.symbol c).arity) :
            Except Fault (List (SymbolId × Nat))) with
        | error e =>
          rw [found, rest] at run
          cases run
        | ok ctors' =>
          rw [found, rest] at run
          cases run
          exact congrArg Nat.succ (ih ctors' rest)
  simp only [constructorsOf, Signature.dataType, hd, bind, Except.bind] at run
  exact entry d.constructors ctors run

theorem instantiate_spoils (h : m.Inv [] ρ) (live : m.Live [] x)
    (hc : m.graph.content? x = some c) (tag : c.tag = .free) (branching : m.toTermGraph.Branching)
    {n : Nat} (run : instantiate x m = .ok n m') : m'.toTermGraph.Spoiled x ∧ n ≠ 1 := by
  obtain ⟨_, -, run⟩ := look_bind_eq_ok run
  obtain ⟨literal, read, run⟩ := look_bind_eq_ok run
  cases (TermGraph.literal_content hc).symm.trans read
  rcases (h.fitsAt live hc).of_free tag with ⟨id, rfl⟩ | ⟨id, t, d, hd, rfl⟩
  · cases run
  dsimp only at run
  obtain ⟨ctors, listed, run⟩ := look_bind_eq_ok run
  have branches : ctors.length ≠ 1 := by
    rw [constructorsOf_length hd listed]
    exact branching x _ t d hc rfl hd
  split at run
  · obtain ⟨_, m₁, failed, run⟩ := bind_eq_ok run
    cases run
    exact ⟨rewriteFail_spoils failed, branches⟩
  · obtain ⟨fresh, m₁, -, run⟩ := bind_eq_ok run
    obtain ⟨⟨alternatives, left⟩, m₂, built, run⟩ := bind_eq_ok run
    have count := buildAlternatives_length _ _ _ _ _ built
    dsimp only at run count
    rcases alternatives with _ | ⟨first, _ | ⟨second, others⟩⟩
    · cases run
    · exact absurd count.symm branches
    · obtain ⟨⟨below, left⟩, m₃, -, run⟩ := bind_eq_ok run
      obtain ⟨_, m₄, written, run⟩ := bind_eq_ok run
      cases run
      exact ⟨.inr (rewrite_tag written), branches⟩

theorem narrow_spoils (h : m.Inv [] ρ) (live : m.Live [] x) (hc : m.graph.content? x = some c)
    (tag : c.tag = .free) (branching : m.toTermGraph.Branching) (run : narrow x m = .ok () m') :
    m'.toTermGraph.Spoiled x := by
  obtain ⟨_, -, run⟩ := look_bind_eq_ok run
  obtain ⟨n, m₁, made, run⟩ := bind_eq_ok run
  obtain ⟨spoiled, many⟩ := instantiate_spoils h live hc tag branching made
  rw [if_neg many] at run
  cases run
  exact spoiled

end Reduction

end ChoiceGraph
