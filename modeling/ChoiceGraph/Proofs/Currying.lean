import ChoiceGraph.Proofs.Operations
import ChoiceGraph.Proofs.Slices
import ChoiceGraph.Proofs.Unification
import ChoiceGraph.Proofs.Rewriting

/-! # Currying

A function value is applied to one argument at a time. Each application but the last becomes a partial
application, whose arguments are found on the way in to the function value; the last becomes a call of
the function. None of the arguments is looked at, and nothing but the application changes, so that one
partial application may be applied many times. -/
namespace ChoiceGraph

/-- There are so many steps left. -/
structure Slice.Affords (s : Slice) (n : Nat) : Prop where
  going : s.preempt = false
  left : ∀ steps ∈ s.remaining, n ≤ steps

namespace Slice.Affords

variable {s : Slice} {n k : Nat}

theorem mono (h : s.Affords n) (le : k ≤ n) : s.Affords k :=
  ⟨h.going, fun steps left => le.trans (h.left steps left)⟩

theorem not_over (h : s.Affords (n + 1)) : s.isOver = false := by
  obtain ⟨remaining, used, preempt⟩ := s
  obtain rfl : preempt = false := h.going
  rcases remaining with _ | _ | k
  · rfl
  · exact absurd (h.left 0 rfl) (Nat.not_succ_le_zero n)
  · rfl

theorem spend (h : s.Affords (n + 1)) : s.spend.Affords n where
  going := h.going
  left steps left := by
    obtain ⟨before, had, rfl⟩ := Option.map_eq_some_iff.mp left
    exact Nat.le_sub_one_of_lt (h.left before had)

end Slice.Affords

namespace Content

variable {σ : Signature} {c : Content} {sym : Symbol}

/-- A function or constructor that misses all of its arguments. -/
def functionValue (f : SymbolId) (arity : Nat) : Content :=
  ⟨.operation, Builtin.function, arity, .literal (.symbol f)⟩

/-- One more argument for a function, and how many it misses then. -/
def applied (missing : Nat) (f x : NodeId) : Content :=
  ⟨.operation, Builtin.partialApplication, missing, .links [f, x]⟩

/-- What an application becomes that gives one more argument than these: it is applied further, or it is a
call. -/
def given (tag : Tag) (f : SymbolId) (arity : Nat) (args : List NodeId) (w x : NodeId) : Content :=
  if args.length + 1 < arity then applied (arity - (args.length + 1)) w x
  else ⟨tag, f, 0, .links (args ++ [x])⟩

/-- Neither a failure, nor a choice, nor a variable, nor reducible: a step that is strict goes on with
such an operand. -/
def Settled (c : Content) : Prop :=
  c.tag = .operation ∧ c.Inert ∨ ∃ index, c.tag = .constructor index

/-- Nothing is left to apply: a constructor, a literal, or a function without arguments. -/
def Saturated (c : Content) : Prop :=
  (∃ index, c.tag = .constructor index) ∨ c.symbol = Builtin.function ∧ c.aux = 0

theorem functionValue_inert (f : SymbolId) (arity : Nat) : (functionValue f arity).Inert :=
  .inr (.inr (.inr (.inr rfl)))

theorem applied_inert (missing : Nat) (f x : NodeId) : (applied missing f x).Inert :=
  .inr (.inr (.inr (.inl rfl)))

theorem Settled.not_forward (h : c.Settled) : c.tag ≠ .forward := by
  rcases h with ⟨tag, -⟩ | ⟨index, tag⟩
  · rw [tag]
    nofun
  · rw [tag]
    nofun

theorem Saturated.settled (h : c.Saturated) (fits : c.Fits σ) : c.Settled := by
  rcases h with constructor_ | ⟨symbol, -⟩
  · exact .inr constructor_
  · obtain ⟨f, sym, -, -, rfl⟩ := fits.of_function symbol
    exact .inl ⟨rfl, .inr (.inr (.inr (.inr rfl)))⟩

/-- The symbol of a constructor is of another kind than that of partial applications. -/
theorem Fits.constructor_kind (fits : c.Fits σ) (hσ : σ.Sound) (found : σ.symbol? c.symbol = some sym)
    {index : Nat} (tag : c.tag = .constructor index) : sym.kind ≠ .partialApplication := by
  intro kind
  rcases fits.of_partialKind hσ found kind with symbol | symbol
  · obtain ⟨missing, f, x, rfl⟩ := fits.of_partialApplication symbol
    cases tag
  · obtain ⟨f, sym, -, -, rfl⟩ := fits.of_function symbol
    cases tag

end Content

namespace Graph

variable {g g' : Graph} {f : SymbolId} {arity n : Nat} {i j p u w : NodeId} {args : List NodeId}
  {c : Content} {roots : List Link}

/-! ## Arguments collected -/

/-- A function value for `f`, or what has become of it with these arguments. -/
inductive Curried (g : Graph) (f : SymbolId) (arity : Nat) : NodeId → List NodeId → Prop where
  | function {i : NodeId} (hc : g.content? i = some (.functionValue f arity)) : Curried g f arity i []
  | argument {i p w x : NodeId} {args : List NodeId} (below : Curried g f arity w args)
    (leads : g.Leads p w) (hc : g.content? i = some (.applied (arity - (args.length + 1)) p x)) :
    Curried g f arity i (args ++ [x])

/-- Where nodes that are never rewritten stay, indirections lead as before. -/
theorem Leads.of_inert (h : g.Leads i j)
    (kept : ∀ k c, g.content? k = some c → c.Inert → g'.content? k = some c) : g'.Leads i j := by
  induction h with
  | refl => exact .refl _
  | step hc _ ih => exact .step (kept _ _ hc (.inl rfl)) ih

namespace Curried

theorem of_inert (h : g.Curried f arity i args)
    (kept : ∀ k c, g.content? k = some c → c.Inert → g'.content? k = some c) :
    g'.Curried f arity i args := by
  induction h with
  | function hc => exact .function (kept _ _ hc (Content.functionValue_inert f arity))
  | argument _ leads hc ih =>
    exact .argument ih (leads.of_inert kept) (kept _ _ hc (Content.applied_inert _ _ _))

theorem content (h : g.Curried f arity i args) :
    ∃ c, g.content? i = some c ∧ c.tag = .operation ∧ c.Inert ∧ c.aux = arity - args.length := by
  cases h with
  | function hc => exact ⟨_, hc, rfl, Content.functionValue_inert f arity, rfl⟩
  | argument below leads hc =>
    refine ⟨_, hc, rfl, Content.applied_inert _ _ _, ?_⟩
    rw [List.length_append, List.length_singleton]
    rfl

/-- The arguments lie below. -/
theorem reach (h : g.Curried f arity i args) (hi : g.Reach roots i) : ∀ a ∈ args, g.Reach roots a := by
  induction h with
  | function => exact fun a ha => absurd ha List.not_mem_nil
  | argument _ leads hc ih =>
    have child : ∀ {i p w : NodeId}, g.Leads p w → g.Reach roots p → g.Reach roots w := by
      intro i p w leads hp
      induction leads with
      | refl => exact hp
      | step hc _ ih => exact ih (.step hp ((edge_of_content hc).mpr List.mem_cons_self))
    intro a ha
    rcases List.mem_append.mp ha with ha | ha
    · exact ih (child (i := i) leads (.step hi ((edge_of_content hc).mpr List.mem_cons_self))) a ha
    · obtain rfl := List.mem_singleton.mp ha
      exact .step hi ((edge_of_content hc).mpr (List.mem_cons_of_mem _ List.mem_cons_self))

end Curried

/-- `u` is an application of `w`, which may be behind indirections, to `x`. -/
def AppliesTo (g : Graph) (u w x : NodeId) : Prop :=
  ∃ aux q, g.content? u = some (.binary Prelude.standard.apply aux q x) ∧ g.Leads q w

/-- Applications in the order in which they are made, each with the arguments that there are then. Each
is an application of `p`, where there are some arguments already, or of an earlier one; and what it
applies still misses one. -/
inductive Applications (g : Graph) (p : NodeId) (start : List NodeId) (arity : Nat) :
    List (NodeId × List NodeId) → Prop where
  | nil : Applications g p start arity []
  | snoc {calls : List (NodeId × List NodeId)} {u w x : NodeId} {args : List NodeId}
    (before : Applications g p start arity calls) (new : u ∉ calls.map Prod.fst) (applies : g.AppliesTo u w x)
    (operand : (w, args) = (p, start) ∨ (w, args) ∈ calls) (more : args.length < arity) :
    Applications g p start arity (calls ++ [(u, args ++ [x])])

theorem Applications.last {start : List NodeId} {calls : List (NodeId × List NodeId)}
    (h : g.Applications p start arity (calls ++ [(u, args)])) :
    g.Applications p start arity calls ∧ u ∉ calls.map Prod.fst ∧ ∃ w x before, args = before ++ [x] ∧
      g.AppliesTo u w x ∧ ((w, before) = (p, start) ∨ (w, before) ∈ calls) ∧ before.length < arity := by
  generalize same : calls ++ [(u, args)] = all at h
  cases h with
  | nil => exact absurd same (List.append_ne_nil_of_right_ne_nil _ (List.cons_ne_nil _ _))
  | snoc before new applies operand more =>
    obtain ⟨rfl, last⟩ := List.append_inj' same rfl
    cases last
    exact ⟨before, new, _, _, _, rfl, applies, operand, more⟩

end Graph

namespace Machine

variable {m m' : Machine} {held : List NodeId} {ρ : Rank} {f : SymbolId} {arity : Nat} {i u q w x : NodeId}
  {args : List NodeId} {c d : Content} {aux bound : Nat}

/-- Seen from the last argument inward, what was collected comes before the arguments seen so far. -/
theorem spineWithin_curried (h : m.Inv held ρ) (curried : m.graph.Curried f arity i args) :
    ∀ (bound : Nat) (rest : List Link), m.Live held i → m.graph.depth ρ i < bound →
      m.toTermGraph.spineWithin bound i rest = .ok (some (f, args.map some ++ rest)) := by
  induction curried with
  | function hc =>
    rintro (_ | bound) rest - lt
    · exact absurd lt (Nat.not_lt_zero _)
    obtain ⟨slots, node, cargo⟩ := TermGraph.node_content (t := m.toTermGraph) hc
    obtain rfl := slots_of_literal cargo
    unfold TermGraph.spineWithin
    simp only [node, bind, Except.bind]
    rfl
  | @argument i p w x args below leads hc ih =>
    rintro (_ | bound) rest live lt
    · exact absurd lt (Nat.not_lt_zero _)
    obtain ⟨slots, node, -⟩ := TermGraph.node_content (t := m.toTermGraph) hc
    obtain ⟨d, hd, operation, -⟩ := below.content
    obtain ⟨v, e, skip, further, he, tag⟩ := h.read_successorSkip (k := 0) live hc rfl
    have applied : d.tag ≠ .forward := by simp [operation]
    obtain rfl := leads_unique leads further hd applied he tag
    have lower := h.below live hc List.mem_cons_self leads
    have deeper := Graph.depth_lt (h.lt lower.1) lower.2
    have inner := ih bound (some x :: rest) lower.1 (by omega)
    unfold TermGraph.spineWithin
    simp only [node, bind, Except.bind]
    rw [if_pos (show (Content.applied (arity - (args.length + 1)) p x).symbol =
      Builtin.partialApplication from rfl), h.read_successor (k := 1) live hc rfl]
    simp only [skip]
    rw [inner, List.map_append, List.append_assoc]
    rfl

/-- What was collected is what a partial application is found to consist of. -/
theorem Inv.spine_curried (h : m.Inv held ρ) (live : m.Live held i)
    (curried : m.graph.Curried f arity i args) : m.partialSpine i = .ok (some (f, args.map some)) := by
  obtain ⟨c, hc, tag, -⟩ := curried.content
  have skip : m.skip i = .ok i := TermGraph.skip_self hc (by rw [tag]; nofun)
  simp only [TermGraph.partialSpine, skip, bind, Except.bind]
  rw [spineWithin_curried h curried m.depthBound [] live (Nat.lt_succ_of_le Graph.depth_le),
    List.append_nil]

/-- What hung from an application hangs from what it has become, except for the way to the arguments
that were there. -/
theorem Reachable.rewritten (roots : m'.rootSet = m.rootSet)
    (full : ∀ j, m.Reachable j → ∃ c, m.graph.content? j = some c)
    (others : ∀ j, j ≠ u → m'.graph.content? j = m.graph.content? j)
    (hu : m.graph.content? u = some (.binary Prelude.standard.apply aux q x)) (leads : m.graph.Leads q w)
    (curried : m.graph.Curried f arity w args)
    (again : m'.Reachable u → ∀ a ∈ args ++ [x], m'.Reachable a) (hi : m.Reachable i)
    (hc : m.graph.content? i = some c) (plain : ¬ c.Inert) : m'.Reachable i := by
  -- the way in: indirections and partial applications, all arguments on which are reached again
  let Trail (j : NodeId) : Prop := ∃ v as, m.graph.Leads j v ∧ m.graph.Curried f arity v as ∧
    ∀ a ∈ as, m'.Reachable a
  have below : ∀ {j k : NodeId}, Trail j → m.graph.Edge j k → m'.Reachable k ∨ Trail k := by
    rintro j k ⟨v, as, far, curried, reached⟩ edge
    cases far with
    | step hj rest =>
      obtain rfl := List.mem_singleton.mp ((Graph.edge_of_content hj).mp edge)
      exact .inr ⟨v, as, rest, curried, reached⟩
    | refl =>
      cases curried with
      | function hj => exact absurd ((Graph.edge_of_content hj).mp edge) List.not_mem_nil
      | @argument _ p w x as inner there hj =>
        rcases List.mem_cons.mp ((Graph.edge_of_content hj).mp edge) with rfl | last
        · exact .inr ⟨w, as, there, inner, fun a ha => reached a (List.mem_append_left _ ha)⟩
        · obtain rfl := List.mem_singleton.mp last
          exact .inl (reached k (List.mem_append_right _ List.mem_cons_self))
  have all : ∀ j, m.Reachable j → m'.Reachable j ∨ Trail j := by
    intro j hj
    induction hj with
    | root hj => exact .inl (.root (roots ▸ hj))
    | @step j k before edge ih =>
      rcases ih with reached | trail
      · by_cases same : j = u
        · subst same
          have links := again reached
          rcases List.mem_cons.mp ((Graph.edge_of_content hu).mp edge) with rfl | last
          · exact .inr ⟨w, args, leads, curried, fun a ha => links a (List.mem_append_left _ ha)⟩
          · obtain rfl := List.mem_singleton.mp last
            exact .inl (links k (List.mem_append_right _ List.mem_cons_self))
        · obtain ⟨d, hd⟩ := full j before
          have there := (others j same).trans hd
          exact .inl (.step reached ((Graph.edge_of_content there).mpr ((Graph.edge_of_content hd).mp edge)))
      · exact below trail edge
  refine (all i hi).resolve_right ?_
  rintro ⟨v, as, far, inner, -⟩
  cases far with
  | step hj => cases hc.symm.trans hj; exact plain (.inl rfl)
  | refl =>
    cases inner with
    | function hj => cases hc.symm.trans hj; exact plain (Content.functionValue_inert f arity)
    | argument _ _ hj => cases hc.symm.trans hj; exact plain (Content.applied_inert _ _ _)

end Machine

theorem Prelude.apply_binary : Binary standard.apply .apply :=
  ⟨by decide, by decide, ⟨"apply", rfl⟩, rfl⟩

namespace Reduction

open Eff Machine

variable {m m₁ : Machine} {ρ : Rank} {f : SymbolId} {arity aux k F : Nat} {i j p q u w x : NodeId}
  {args : List NodeId} {c d : Content} {sym : Symbol} {tag : Tag} {r : Reducer}

/-! ## One application -/

/-- Nothing is done about an operand that a step goes on with. -/
theorem headNormalize_settled (hσ : m.signature.Sound) (skip : m.skip i = .ok j)
    (hc : m.graph.content? j = some c) (fits : c.Fits m.signature) (settled : c.Settled) :
    headNormalize (F + 1) i m = .ok j m := by
  rcases settled with ⟨tag, inert⟩ | ⟨index, tag⟩
  · obtain ⟨sym, found, -⟩ := fits.symbol hσ
    have kind := Content.inert_kind hσ found tag inert
    have idle : isReducible m j = .ok false := by
      unfold isReducible
      simp only [TermGraph.tag_content hc, tag, TermGraph.symbol_content hc found, kind, bind, Except.bind]
      rfl
    rw [headNormalize_eq]
    exact (bind_ok (look_ok skip)).trans ((bind_ok (look_ok idle)).trans rfl)
  · exact headNormalize_idle skip hc (by rw [tag]; nofun)

/-- Such an operand is handed to the step, and takes the place of the indirections to it. -/
theorem headArg_settled (reads : m.successor u k = .ok (some p)) (head : r.head p m = .ok w m)
    (sound : m.graph.Sound) (hσ : m.signature.Sound) (hc : m.graph.content? u = some c)
    (fits : c.Fits m.signature) (hk : c.links[k]? = some p) (apart : w ≠ u)
    (hd : m.graph.content? w = some d) (settled : d.Settled) :
    ∃ g', m.graph.Sets u (c.setLink k w) g' ∧ headArg r u k m = .ok (.value w) (m.setGraph g') := by
  have bound : d.tag ≠ .free := by
    rcases settled with ⟨tag, -⟩ | ⟨index, tag⟩
    · rw [tag]
      nofun
    · rw [tag]
      nofun
  obtain ⟨g', sets, there, settles⟩ :=
    headArg_settles reads head sound hσ hc fits hk apart hd bound settled.not_forward
  have read : (m.setGraph g').tag w = .ok d.tag := TermGraph.tag_content there
  refine ⟨g', sets, settles.trans ((bind_ok (look_ok read)).trans ?_)⟩
  rcases settled with ⟨tag, -⟩ | ⟨index, tag⟩
  · rw [tag]
    rfl
  · rw [tag]
    rfl

/-- What an application does with its operand. -/
def giveArgument (root f : NodeId) : Eff Unit := do
  let x ← look (·.successor root 1)
  let missing ← look (·.aux f)
  if (← look (·.symbol f)).kind ≠ .partialApplication ∨ missing = 0 then
    rewriteFail root
  else if 1 < missing then
    rewrite root .operation Builtin.partialApplication (missing - 1) [some f, x]
  else
    match ← look (·.partialSpine f) with
    | none => rewriteFail root
    | some (target, args) => rewriteTo root target (args ++ [x])

/-- An application to a settled operand: the machine is sound when it comes to the operand, and only the
way to the operand is shorter. -/
theorem apply_arrives (inv : m.Inv [] ρ) (going : m.slice.isOver = false) (live : m.Live [] u)
    (hu : m.graph.content? u = some (.binary Prelude.standard.apply aux q x)) (leads : m.graph.Leads q w)
    (hd : m.graph.content? w = some d) (settled : d.Settled) :
    ∃ m₁ ρ₁, headStep (reducer (F + 1)) u m = giveArgument u w m₁ ∧ m₁.Inv [] ρ₁ ∧ m₁.Live [] u ∧
      m.graph.Sets u (.binary Prelude.standard.apply aux w x) m₁.graph ∧
      m₁ = { m with slice := m.slice.spend, graph := m₁.graph } := by
  have hσ := inv.signature
  have h₀ : Inv { m with slice := m.slice.spend } [] ρ := inv.shrink rfl rfl inv.frames inv.counted fun _ hi => hi
  have live₀ : Live { m with slice := m.slice.spend } [] u := live
  have lower := inv.below live hu List.mem_cons_self leads
  have apart : w ≠ u := fun same => absurd lower.2 (same ▸ lt_irrefl _)
  have fits := Prelude.apply_binary.fits hσ aux q x
  obtain ⟨sym, found, -, -, head, -⟩ := Prelude.apply_binary.found hσ
  have reads := (Prelude.apply_binary.successor (t := m.toTermGraph) hσ hu).1
  have rests : (reducer (F + 1)).head q { m with slice := m.slice.spend } = .ok w { m with slice := m.slice.spend } :=
    headNormalize_settled hσ (inv.skip_eq (live.link hu List.mem_cons_self) leads hd settled.not_forward) hd
      (inv.fitsAt lower.1 hd) settled
  obtain ⟨g', sets, taken⟩ := headArg_settled (m := { m with slice := m.slice.spend }) (r := reducer (F + 1))
    (k := 0) reads rests inv.storage hσ hu fits rfl apart hd settled
  obtain ⟨ρ₁, evolved, forced⟩ := (headArg_keeps (reducer_sound (F + 1)) (h₀.site live₀ hu) rfl).ok taken
  obtain ⟨⟨a, site, -⟩, -⟩ := forced w rfl
  refine ⟨_, ρ₁, ?_, evolved.inv, site.live, sets, rfl⟩
  calc headStep (reducer (F + 1)) u m
      = headWork (reducer (F + 1)) u { m with slice := m.slice.spend } := bind_ok (tick_goes going)
    _ = runHead (reducer (F + 1)) u sym.head { m with slice := m.slice.spend } :=
        bind_ok (look_ok (TermGraph.symbol_content (t := m.toTermGraph) hu found))
    _ = withHead (reducer (F + 1)) u 0 (giveArgument u) { m with slice := m.slice.spend } := by
        rw [head]
        rfl
    _ = _ := bind_ok taken

/-- Nothing can be applied that misses no argument. -/
theorem giveArgument_fails (inv : m.Inv [] ρ) (live : m.Live [] u)
    (hu : m.graph.content? u = some (.binary Prelude.standard.apply aux w x))
    (hd : m.graph.content? w = some d) (saturated : d.Saturated) :
    ∃ g', giveArgument u w m = .ok () (m.setGraph g') ∧ m.graph.Sets u .blank g' := by
  have below := live.link hu List.mem_cons_self
  have fits := inv.fitsAt below hd
  obtain ⟨sym, found, symbol⟩ := inv.read_symbol below hd
  obtain ⟨g', failed, sets⟩ := rewriteFail_sets (m := m) inv.storage (inv.lt live)
  have unfit : sym.kind ≠ .partialApplication ∨ d.aux = 0 := by
    rcases saturated with ⟨index, tag⟩ | ⟨-, none⟩
    · exact .inl (fits.constructor_kind inv.signature found tag)
    · exact .inr none
  refine ⟨g', ?_, sets⟩
  refine (bind_ok (look_ok (Prelude.apply_binary.successor inv.signature hu).2)).trans
    ((bind_ok (look_ok (TermGraph.aux_content hd))).trans ((bind_ok (look_ok symbol)).trans ?_))
  rw [if_pos unfit]
  exact failed

/-- The argument is given, and how many are missing decides what becomes of the application. -/
theorem giveArgument_eq (inv : m.Inv [] ρ) (live : m.Live [] u)
    (hu : m.graph.content? u = some (.binary Prelude.standard.apply aux w x))
    (curried : m.graph.Curried f arity w args) (more : args.length < arity) :
    giveArgument u w m = (if args.length + 1 < arity then
      rewrite u .operation Builtin.partialApplication (arity - (args.length + 1)) ([w, x].map some)
    else rewriteTo u f ((args ++ [x]).map some)) m := by
  have below := live.link hu List.mem_cons_self
  obtain ⟨d, hd, tag, inert, missing⟩ := curried.content
  obtain ⟨sym, found, symbol⟩ := inv.read_symbol below hd
  have kind := Content.inert_kind inv.signature found tag inert
  have misses : ¬ (sym.kind ≠ .partialApplication ∨ d.aux = 0) := by
    rw [missing]
    rintro (other | none)
    · exact other kind
    · omega
  refine (bind_ok (look_ok (Prelude.apply_binary.successor inv.signature hu).2)).trans
    ((bind_ok (look_ok (TermGraph.aux_content hd))).trans ((bind_ok (look_ok symbol)).trans ?_))
  rw [if_neg misses, missing]
  by_cases further : args.length + 1 < arity
  · rw [if_pos further, if_pos (by omega)]
    rfl
  · rw [if_neg further, if_neg (by omega)]
    refine (bind_ok (look_ok (inv.spine_curried below curried))).trans ?_
    rw [List.map_append]
    rfl

theorem apply_not_inert : ¬ (Content.binary Prelude.standard.apply aux q x).Inert := by
  rintro (h | h | h | h | h)
  · cases h
  · cases h
  · cases h
  · exact absurd (show Prelude.standard.apply = Builtin.partialApplication from h) (by decide)
  · exact absurd (show Prelude.standard.apply = Builtin.function from h) (by decide)

/-- What an application becomes reaches all arguments. -/
theorem given_reach {m' : Machine} (curried : m'.graph.Curried f arity w args)
    (hu : m'.graph.content? u = some (.given tag f arity args w x)) (reached : m'.Reachable u) :
    ∀ a ∈ args ++ [x], m'.Reachable a := by
  have link : ∀ a ∈ (Content.given tag f arity args w x).links, m'.Reachable a :=
    fun a ha => .step reached ((Graph.edge_of_content hu).mpr ha)
  unfold Content.given at link
  by_cases further : args.length + 1 < arity
  · rw [if_pos further] at link
    intro a ha
    rcases List.mem_append.mp ha with ha | ha
    · exact curried.reach (link w List.mem_cons_self) a ha
    · obtain rfl := List.mem_singleton.mp ha
      exact link a (List.mem_cons_of_mem _ List.mem_cons_self)
  · rw [if_neg further] at link
    exact link

/-- One application is made: nothing else changes. -/
theorem apply_gives (inv : m.Inv [] ρ) (going : m.slice.isOver = false) (reachable : m.Reachable u)
    (applies : m.graph.AppliesTo u w x) (curried : m.graph.Curried f arity w args) (more : args.length < arity)
    (named : m.signature.tagFor f = .ok tag) (fits : Fitting m arity) :
    ∃ m', headStep (reducer (F + 1)) u m = .ok () m' ∧ m'.Sound ∧
      m' = { m with slice := m.slice.spend, graph := m'.graph } ∧
      m.graph.Sets u (.given tag f arity args w x) m'.graph := by
  obtain ⟨aux, q, hu, leads⟩ := applies
  have live := live_iff.mpr reachable
  obtain ⟨d, hd, operation, inert, -⟩ := curried.content
  obtain ⟨m₁, ρ₁, arrived, inv₁, live₁, sets, same⟩ :=
    apply_arrives (F := F) inv going live hu leads hd (.inl ⟨operation, inert⟩)
  have plain : ∀ k c, m.graph.content? k = some c → c.Inert → m₁.graph.content? k = some c := by
    intro k c hc inert
    refine (sets.others k ?_).trans hc
    rintro rfl
    cases hu.symm.trans hc
    exact absurd inert apply_not_inert
  have written : ∃ g', (if args.length + 1 < arity then
      rewrite u .operation Builtin.partialApplication (arity - (args.length + 1)) ([w, x].map some)
      else rewriteTo u f ((args ++ [x]).map some)) m₁ = .ok () (m₁.setGraph g') ∧
      m₁.graph.Sets u (.given tag f arity args w x) g' := by
    have signature : m₁.signature = m.signature := by rw [same]
    unfold Content.given
    by_cases further : args.length + 1 < arity
    · rw [if_pos further, if_pos further]
      obtain ⟨g', run, wrote⟩ := rewrite_wrote inv₁.storage (inv₁.lt live₁) .operation Builtin.partialApplication
        (arity - (args.length + 1)) [w, x] (.inl (Nat.lt_succ_self 2))
      exact ⟨g', run, wrote.toSets⟩
    · rw [if_neg further, if_neg further]
      have length : (args ++ [x]).length = arity := by
        rw [List.length_append, List.length_singleton]
        omega
      obtain ⟨g', run, wrote⟩ := rewrite_wrote inv₁.storage (inv₁.lt live₁) tag f 0 (args ++ [x])
        (by rw [length, Fitting, sets.pools]; exact fits)
      exact ⟨g', (bind_ok (look_ok (signature ▸ named))).trans run, wrote.toSets⟩
  obtain ⟨g', run, sets'⟩ := written
  have ran := arrived.trans ((giveArgument_eq inv₁ live₁ sets.same (curried.of_inert plain) more).trans run)
  obtain ⟨ρ', evolved, -⟩ := (headStep_keeps (reducer_sound (F + 1)) inv live).ok ran
  refine ⟨_, ran, ⟨ρ', evolved.inv⟩, ?_, sets.again sets'⟩
  rw [same]
  rfl

/-! ## Applications one after the other -/

/-- The applications have been made, nothing else has changed, and there are `n` more steps to take. -/
structure Made (m : Machine) (f : SymbolId) (arity : Nat) (calls : List (NodeId × List NodeId)) (n : Nat)
    (m' : Machine) : Prop where
  sound : m'.Sound
  signature : m'.signature = m.signature
  pools : m'.graph.pools.size = m.graph.pools.size
  roots : m'.rootSet = m.rootSet
  left : m'.slice.Affords n
  others : ∀ i, i ∉ calls.map Prod.fst → m'.graph.content? i = m.graph.content? i
  inert : ∀ i c, m.graph.content? i = some c → c.Inert → m'.graph.content? i = some c
  curried : ∀ u args, (u, args) ∈ calls → args.length < arity → m'.graph.Curried f arity u args
  reachable : ∀ i c, i ∉ calls.map Prod.fst → m.Reachable i → m.graph.content? i = some c → ¬ c.Inert →
    m'.Reachable i

variable {start : List NodeId} {calls : List (NodeId × List NodeId)} {n : Nat}

theorem Made.refl (sound : m.Sound) (left : m.slice.Affords n) : Made m f arity [] n m where
  sound := sound
  signature := rfl
  pools := rfl
  roots := rfl
  left := left
  others _ _ := rfl
  inert _ _ hc _ := hc
  curried _ _ mem := absurd mem List.not_mem_nil
  reachable _ _ _ hi _ _ := hi

/-- The next application is made in the machine that the ones before it leave. -/
theorem Made.next (made : Made m f arity calls (n + 1) m₁) (value : m.graph.Curried f arity p start)
    (named : m.signature.tagFor f = .ok tag) (fits : Fitting m arity) (new : u ∉ calls.map Prod.fst)
    (applies : m.graph.AppliesTo u w x) (operand : (w, args) = (p, start) ∨ (w, args) ∈ calls)
    (more : args.length < arity) (reachable : m.Reachable u) :
    ∃ m', headStep (reducer (F + 1)) u m₁ = .ok () m' ∧ m'.Reachable u ∧
      m₁.graph.Sets u (.given tag f arity args w x) m'.graph ∧
      Made m f arity (calls ++ [(u, args ++ [x])]) n m' := by
  obtain ⟨ρ, inv⟩ := made.sound
  obtain ⟨aux, q, hu, leads⟩ := applies
  have hu₁ := (made.others u new).trans hu
  have leads₁ := leads.of_inert made.inert
  have curried₁ : m₁.graph.Curried f arity w args := by
    rcases operand with first | earlier
    · cases first
      exact value.of_inert made.inert
    · exact made.curried w args earlier more
  have reachable₁ := made.reachable u _ new reachable hu apply_not_inert
  obtain ⟨m', run, sound, same, sets⟩ := apply_gives (F := F) inv made.left.not_over reachable₁
    ⟨aux, q, hu₁, leads₁⟩ curried₁ more (made.signature ▸ named) (by rw [Fitting, made.pools]; exact fits)
  have kept : ∀ k c, m₁.graph.content? k = some c → c.Inert → m'.graph.content? k = some c := by
    intro k c hc inert
    refine (sets.others k ?_).trans hc
    rintro rfl
    cases hu₁.symm.trans hc
    exact absurd inert apply_not_inert
  have after := curried₁.of_inert kept
  have roots : m'.rootSet = m₁.rootSet := by
    rw [same]
    rfl
  have stays : ∀ i c, m₁.Reachable i → m₁.graph.content? i = some c → ¬ c.Inert → m'.Reachable i :=
    fun i c hi hc plain => hi.rewritten roots
      (fun j hj => (inv.fits j (live_iff.mpr hj)).imp fun _ found => found.1) sets.others hu₁ leads₁ curried₁
      (given_reach after sets.same) hc plain
  refine ⟨m', run, stays u _ reachable₁ hu₁ apply_not_inert, sets, sound, ?_, sets.pools.trans made.pools,
    roots.trans made.roots, ?_, fun i out => ?_, fun i c hc inert => kept i c (made.inert i c hc inert) inert,
    fun v as mem less => ?_, fun i c out hi hc plain => ?_⟩
  · rw [same]
    exact made.signature
  · rw [same]
    exact made.left.spend
  · rw [List.map_append, List.mem_append, not_or, List.map_singleton, List.mem_singleton] at out
    exact (sets.others i out.2).trans (made.others i out.1)
  · rcases List.mem_append.mp mem with earlier | last
    · exact (made.curried v as earlier less).of_inert kept
    · cases List.mem_singleton.mp last
      have here := sets.same
      rw [List.length_append, List.length_singleton] at less
      rw [Content.given, if_pos less] at here
      exact .argument after (.refl w) here
  · rw [List.map_append, List.mem_append, not_or] at out
    exact stays i c (made.reachable i c out.1 hi hc plain) ((made.others i out.1).trans hc) plain

/-- All of them are made, one after the other. -/
theorem made_of_applications (sound : m.Sound) (value : m.graph.Curried f arity p start)
    (named : m.signature.tagFor f = .ok tag) (fits : Fitting m arity)
    (applications : m.graph.Applications p start arity calls)
    (reachable : ∀ call ∈ calls, m.Reachable call.1) : ∀ n, m.slice.Affords (calls.length + n) →
      ∃ m', (forM (calls.map Prod.fst) (Machine.headStep (F + 1)) : Eff Unit) m = .ok () m' ∧
        Made m f arity calls n m' := by
  induction applications with
  | nil => exact fun n left => ⟨m, rfl, .refl sound (left.mono (Nat.le_add_left n _))⟩
  | @snoc calls u w x args _ new applies operand more ih =>
    intro n left
    rw [List.length_append, List.length_singleton, Nat.add_assoc, Nat.add_comm 1] at left
    obtain ⟨m₁, ran, made⟩ := ih (fun call mem => reachable call (List.mem_append_left _ mem)) (n + 1) left
    obtain ⟨m', run, -, -, made'⟩ := made.next (F := F) value named fits new applies operand more
      (reachable _ (List.mem_append_right _ List.mem_cons_self))
    refine ⟨m', ?_, made'⟩
    rw [List.map_append, List.forM_append]
    exact (bind_ok ran).trans ((bind_ok (f := fun _ => pure ()) run).trans rfl)

/-! ## All of them -/

/-- A new function value has no arguments yet. -/
theorem makeFunctionValue_curried {m' : Machine} (sound : m.Sound) (found : m.signature.symbol? f = some sym)
    (run : makeFunctionValue f m = .ok p m') : m'.graph.Curried f sym.arity p [] := by
  obtain ⟨ρ, inv⟩ := sound
  have made : makeFunctionValue f m = makeData Builtin.function sym.arity (.symbol f) m := by
    have read : (get : Eff Machine) m = .ok m m := rfl
    exact (bind_ok read).trans (by rw [found])
  rw [made] at run
  obtain ⟨i, m₁, allocated, run⟩ := bind_eq_ok run
  obtain ⟨⟨⟩, m₂, written, same⟩ := bind_eq_ok run
  cases same
  have new := allocateOne_meets inv
  unfold Meets at new
  rw [allocated] at new
  have hσ : m₁.signature.Sound := new.1.signature ▸ inv.signature
  have tag : m₁.signature.tagFor Builtin.function = .ok .operation :=
    (Signature.tagFor_builtin hσ (by decide)).trans rfl
  rcases rewriteData_writes new.1.storage (new.2.lt p List.mem_cons_self) tag sym.arity (.symbol f) with
    ⟨g', ran, sets⟩ | ⟨err, failed⟩
  · cases ran.symm.trans written
    exact .function sets.same
  · cases failed.symm.trans written

/-- An application of something that misses no argument fails. -/
theorem apply_fails (sound : m.Sound) (going : m.slice.isOver = false) (reachable : m.Reachable u)
    (applies : m.graph.AppliesTo u w x) (hd : m.graph.content? w = some d) (saturated : d.Saturated) :
    ∃ m', headStep (reducer (F + 1)) u m = .ok () m' ∧ m.graph.Sets u .blank m'.graph := by
  obtain ⟨ρ, inv⟩ := sound
  obtain ⟨aux, q, hu, leads⟩ := applies
  have live := live_iff.mpr reachable
  have lower := inv.below live hu List.mem_cons_self leads
  have apart : w ≠ u := fun same => absurd lower.2 (same ▸ lt_irrefl _)
  obtain ⟨m₁, ρ₁, arrived, inv₁, live₁, sets, -⟩ :=
    apply_arrives (F := F) inv going live hu leads hd (saturated.settled (inv.fitsAt lower.1 hd))
  obtain ⟨g', failed, sets'⟩ :=
    giveArgument_fails inv₁ live₁ sets.same ((sets.others w apart).trans hd) saturated
  exact ⟨_, arrived.trans failed, sets.again sets'⟩

/-- Currying is exact. From a new function value on, or from anything that has some arguments, whatever
applications were made before: the head step of the next one changes nothing else, and the application
becomes a partial application with these arguments, in order, which misses the rest, or, if there are as
many as the arity says, the call or constructor with just these arguments. To apply what misses no
argument is a failure. -/
theorem currying_exact (sound : m.Sound) (found : m.signature.symbol? f = some sym) (proper : sym.IsProper)
    (bound : sym.arity < m.config.arityBound) (pools : m.config.arityBound ≤ m.graph.pools.size) :
    (∀ p m', makeFunctionValue f m = .ok p m' → m'.graph.Curried f sym.arity p []) ∧
    (∀ p start calls u args, m.graph.Curried f sym.arity p start →
      m.graph.Applications p start sym.arity (calls ++ [(u, args)]) →
      (∀ call ∈ calls ++ [(u, args)], m.Reachable call.1) → m.slice.Affords (calls.length + 1) →
      ∃ m₁ m', (forM (calls.map Prod.fst) (Machine.headStep (F + 1)) : Eff Unit) m = .ok () m₁ ∧
        (∀ i, i ∉ calls.map Prod.fst → m₁.graph.content? i = m.graph.content? i) ∧
        Machine.headStep (F + 1) u m₁ = .ok () m' ∧ m'.Sound ∧
        (∀ i, i ≠ u → m'.graph.content? i = m₁.graph.content? i) ∧ args.length ≤ sym.arity ∧
        (args.length < sym.arity → m'.partialSpine u = .ok (some (f, args.map some)) ∧
          ∃ w x, m'.graph.content? u = some (.applied (sym.arity - args.length) w x)) ∧
        (args.length = sym.arity → ∃ tag, m.signature.tagFor f = .ok tag ∧
          m'.graph.content? u = some ⟨tag, f, 0, .links args⟩)) ∧
    (∀ u w x d, m.Reachable u → m.graph.AppliesTo u w x → m.graph.content? w = some d → d.Saturated →
      m.slice.isOver = false → ∃ m', Machine.headStep (F + 1) u m = .ok () m' ∧
        m'.graph.content? u = some .blank ∧ ∀ i, i ≠ u → m'.graph.content? i = m.graph.content? i) := by
  refine ⟨fun p m' run => makeFunctionValue_curried sound found run,
    fun p start calls u args value applications reachable steps => ?_,
    fun u w x d reachable applies hd saturated going => ?_⟩
  · obtain ⟨ρ, inv⟩ := sound
    have named : ∃ tag, m.signature.tagFor f = .ok tag := by
      rcases inv.signature.proper f sym (inv.signature.le_of_proper found proper) found with ⟨type, index, hc⟩ | hc
      · exact ⟨_, Signature.Symbol.IsConstructor.tagFor found hc⟩
      · exact ⟨_, Signature.Symbol.IsCall.tagFor found hc⟩
    obtain ⟨tag, named⟩ := named
    have fits : Fitting m sym.arity := .inr (bound.trans_le pools)
    obtain ⟨before, new, w, x, args, rfl, applies, operand, more⟩ := applications.last
    obtain ⟨m₁, ran, made⟩ := made_of_applications (F := F) ⟨ρ, inv⟩ value named fits before
      (fun call mem => reachable call (List.mem_append_left _ mem)) 1 steps
    obtain ⟨m', run, here, sets, made'⟩ := made.next (F := F) value named fits new applies operand more
      (reachable _ (List.mem_append_right _ List.mem_cons_self))
    obtain ⟨ρ', inv'⟩ := made'.sound
    have content := sets.same
    have length : (args ++ [x]).length = args.length + 1 := by rw [List.length_append, List.length_singleton]
    refine ⟨m₁, m', ran, made.others, run, made'.sound, sets.others, length ▸ more, fun less => ⟨?_, w, x, ?_⟩,
      fun full => ⟨tag, named, ?_⟩⟩
    · exact inv'.spine_curried (live_iff.mpr here)
        (made'.curried u _ (List.mem_append_right _ List.mem_cons_self) less)
    · rw [length] at less ⊢
      rwa [Content.given, if_pos less] at content
    · rwa [Content.given, if_neg (by omega)] at content
  · obtain ⟨m', run, sets⟩ := apply_fails (F := F) sound going reachable applies hd saturated
    exact ⟨m', run, sets.same, sets.others⟩

/-- A constructor of three arguments is applied to the first, behind an indirection, and what comes out to
a variable, behind an indirection, and to a choice; the one with the variable is applied to the choice. Then
`()`, which takes no arguments, is applied, and so is a number. -/
def sharedApplications : List Operation :=
  let p := Prelude.standard
  [.defineType "Cube" [("Cube", 3)], .functionValue 37, .int 1, .free none, .choice 1 2, .forward 0,
    .make p.apply [4, 1], .forward 5, .make p.apply [6, 2], .make p.apply [5, 3], .make p.apply [7, 3],
    .functionValue p.unit, .make p.apply [10, 1], .make p.apply [1, 1]]

/-- The constructor gets its three arguments, although it was also given another second one; the other two
applications fail. -/
theorem currying_exact_shared : ∃ m m₁ m' m₂ m₃, Operation.Run (.ofConfig (.fixedPool 64)) m ∧
    (forM [5, 7, 8] (Machine.headStep 1) : Eff Unit) m = .ok () m₁ ∧
    Machine.headStep 1 9 m₁ = .ok () m' ∧
    m'.graph.content? 9 = some ⟨.constructor 0, 37, 0, .links [1, 2, 3]⟩ ∧
    m'.graph.content? 5 = m₁.graph.content? 5 ∧
    Machine.headStep 1 11 m = .ok () m₂ ∧ m₂.graph.content? 11 = some .blank ∧
    Machine.headStep 1 12 m = .ok () m₃ ∧ m₃.graph.content? 12 = some .blank := by
  let p := Prelude.standard
  let contents : List Content := [.functionValue 37 3, ⟨.constructor 0, Builtin.int, 0, .literal (.int 1)⟩,
    freeContent 0 none, ⟨.choice, Builtin.choice, 1, .links [1, 2]⟩, ⟨.forward, Builtin.forward, 0, .links [0]⟩,
    .binary p.apply 0 4 1, ⟨.forward, Builtin.forward, 0, .links [5]⟩, .binary p.apply 0 6 2,
    .binary p.apply 0 5 3, .binary p.apply 0 7 3, .functionValue p.unit 0, .binary p.apply 0 10 1,
    .binary p.apply 0 1 1]
  have result : (Operation.script (.ofConfig (.fixedPool 64)) sharedApplications).map (fun m =>
      ((List.range 13).map m.graph.content?, (List.range 13).all fun i => m.roots.contains (some i))) =
      some (contents.map some, true) := by decide +kernel
  have limits : (Operation.script (.ofConfig (.fixedPool 64)) sharedApplications).map (fun m =>
      ((m.signature.symbol? 37).map fun sym => (sym.arity, sym.kind), m.config, m.slice.preempt,
        m.slice.remaining)) =
      some (some (3, .constructor 7 0), .fixedPool 64, false, none) := by decide +kernel
  obtain ⟨m, ran, facts⟩ := Option.map_eq_some_iff.mp result
  rw [ran] at limits
  simp only [Option.map_some, Option.some.injEq, Prod.mk.injEq] at facts limits
  obtain ⟨stored, rooted⟩ := facts
  obtain ⟨known, config, going, left⟩ := limits
  obtain ⟨sym, found, same⟩ := Option.map_eq_some_iff.mp known
  obtain ⟨arity, kind⟩ := Prod.mk.inj same
  have run : Operation.Run (.ofConfig (.fixedPool 64)) m := Operation.Run.start.script ran
  have new : Machine.new (.fixedPool 64) = .ok (.ofConfig (.fixedPool 64)) := rfl
  have reachable : ∀ i < 13, m.Reachable i := fun i lt =>
    Operation.reachable_of_contains (List.all_eq_true.mp rooted i (List.mem_range.mpr lt))
  have holds : ∀ (i : Nat) (c : Content), contents[i]? = some c → i < 13 → m.graph.content? i = some c := by
    intro i c hc lt
    have read := congrArg (·[i]?) stored
    simpa [List.getElem?_map, List.getElem?_range lt, hc] using read
  have applies : ∀ (u q w x : Nat), contents[u]? = some (.binary p.apply 0 q x) → u < 13 →
      m.graph.Leads q w → m.graph.AppliesTo u w x := fun u q w x hc lt leads => ⟨0, q, holds u _ hc lt, leads⟩
  have value : m.graph.Curried 37 3 0 [] := .function (holds 0 _ rfl (by decide))
  have made : m.graph.Applications 0 [] 3 ([(5, [1]), (7, [1, 2]), (8, [1, 3])] ++ [(9, [1, 2, 3])]) :=
    .snoc (.snoc (.snoc (.snoc .nil (by decide)
        (applies 5 4 0 1 rfl (by decide) (.step (holds 4 _ rfl (by decide)) (.refl 0))) (.inl rfl) (by decide))
        (by decide) (applies 7 6 5 2 rfl (by decide) (.step (holds 6 _ rfl (by decide)) (.refl 5)))
        (.inr List.mem_cons_self) (by decide))
        (by decide) (applies 8 5 5 3 rfl (by decide) (.refl 5)) (.inr List.mem_cons_self) (by decide))
        (by decide) (applies 9 7 7 3 rfl (by decide) (.refl 7))
        (.inr (List.mem_cons_of_mem _ List.mem_cons_self)) (by decide)
  obtain ⟨-, curried, fails⟩ := currying_exact (F := 0) (run.sound new) found (.inr ⟨7, 0, kind⟩)
    (by rw [config, arity]; decide) (run.pools new).le
  rw [arity] at curried
  obtain ⟨m₁, m', first, -, last, -, others, -, -, full⟩ := curried 0 [] _ 9 _ value made
    (fun call mem => reachable call.1 (by
      simp only [List.cons_append, List.nil_append, List.mem_cons, List.not_mem_nil, or_false] at mem
      rcases mem with rfl | rfl | rfl | rfl <;> decide)) ⟨going, fun steps some_ => by rw [left] at some_; cases some_⟩
  obtain ⟨tag, named, called⟩ := full rfl
  have within : m.slice.isOver = false := by
    rw [Slice.isOver, going, left]
    rfl
  obtain ⟨m₂, run₂, failed₂, -⟩ := fails 11 10 1 _ (reachable 11 (by decide))
    (applies 11 10 10 1 rfl (by decide) (.refl 10)) (holds 10 _ rfl (by decide)) (.inr ⟨rfl, rfl⟩) within
  obtain ⟨m₃, run₃, failed₃, -⟩ := fails 12 1 1 _ (reachable 12 (by decide))
    (applies 12 1 1 1 rfl (by decide) (.refl 1)) (holds 1 _ rfl (by decide)) (.inl ⟨0, rfl⟩) within
  have constructor_ : tag = .constructor 0 := by
    simp only [Signature.tagFor, Signature.symbol_of_some found, kind, bind, Except.bind] at named
    exact (Except.ok.inj named).symm.trans rfl
  subst constructor_
  exact ⟨m, m₁, m', m₂, m₃, run, first, last, called, others 5 (by decide), run₂, failed₂, run₃, failed₃⟩

end Reduction

end ChoiceGraph
