import ChoiceGraph.Proofs.Unfoldings
import Mathlib.Order.Compare

/-! # The order of terms

The order compares two terms from the outside in and from left to right, so that what it says is decided
by the unfoldings of the terms. It puts them in a line: whichever two are given, one comes first or
neither does, and what comes before something comes before all that comes after that. -/
namespace ChoiceGraph

open Std (TransCmp OrientedCmp)

/-! ## Comparisons in a row -/

/-- What two comparisons in a row say of the ends: the one decides where the other does not, and what both
say holds. -/
structure Composes (o₁ o₂ o : Ordering) : Prop where
  left : o₁ = .eq → o = o₂
  right : o₂ = .eq → o = o₁
  both : o₁ = o₂ → o = o₁

namespace Composes

variable {α : Type*} {o₁ o₂ o p₁ p₂ p : Ordering}

theorem of_cmp (cmp : α → α → Ordering) [TransCmp cmp] (x y z : α) :
    Composes (cmp x y) (cmp y z) (cmp x z) where
  left := TransCmp.congr_left
  right same := (TransCmp.congr_right same).symm
  both same := by
    cases first : cmp x y with
    | eq => exact TransCmp.eq_trans first (same.symm.trans first)
    | lt => exact TransCmp.lt_trans first (same.symm.trans first)
    | gt => exact TransCmp.gt_trans first (same.symm.trans first)

/-- The second comparison of a pair counts where the first says nothing. -/
theorem next (first : Composes o₁ o₂ o) (second : o₁ = .eq → o₂ = .eq → Composes p₁ p₂ p) :
    Composes (o₁.then p₁) (o₂.then p₂) (o.then p) := by
  cases o₁ with
  | eq =>
    obtain rfl := first.left rfl
    cases o with
    | eq => exact second rfl rfl
    | lt | gt => exact ⟨fun _ => rfl, nofun, Eq.symm⟩
  | lt =>
    cases o₂ with
    | eq =>
      obtain rfl := first.right rfl
      exact ⟨nofun, fun _ => rfl, fun _ => rfl⟩
    | lt =>
      obtain rfl := first.both rfl
      exact ⟨nofun, nofun, fun _ => rfl⟩
    | gt => exact ⟨nofun, nofun, nofun⟩
  | gt =>
    cases o₂ with
    | eq =>
      obtain rfl := first.right rfl
      exact ⟨nofun, fun _ => rfl, fun _ => rfl⟩
    | lt => exact ⟨nofun, nofun, nofun⟩
    | gt =>
      obtain rfl := first.both rfl
      exact ⟨nofun, nofun, fun _ => rfl⟩

/-- What does not come after that which does not come after something does not come after it. -/
theorem at_most (h : Composes o₁ o₂ o) (first : o₁ ≠ .gt) (second : o₂ ≠ .gt) :
    o ≠ .gt ∧ (o₁ = .lt ∨ o₂ = .lt → o = .lt) := by
  cases o₁ with
  | gt => exact absurd rfl first
  | eq =>
    obtain rfl := h.left rfl
    exact ⟨second, fun either => either.resolve_left nofun⟩
  | lt =>
    suffices o = .lt from ⟨this ▸ first, fun _ => this⟩
    cases o₂ with
    | gt => exact absurd rfl second
    | eq => exact h.right rfl
    | lt => exact h.both rfl

end Composes

/-! ## The order of trees -/

namespace Head

/-- Kinds of nodes in the order of their codes, then symbols, then numbers. -/
def order : Head → Head → Ordering :=
  compareLex (compareOn fun h => h.tag.code) (compareLex (compareOn Head.symbol) (compareOn Head.aux))

instance : TransCmp order :=
  inferInstanceAs (TransCmp (compareLex (compareOn fun h : Head => h.tag.code)
    (compareLex (compareOn Head.symbol) (compareOn Head.aux))))

variable {h h' : Head}

theorem order_eq_iff : h.order h' = .eq ↔ h.tag = h'.tag ∧ h.symbol = h'.symbol ∧ h.aux = h'.aux := by
  have codes : ∀ a b : Tag, a.code = b.code ↔ a = b := fun a b =>
    ⟨fun same => by rw [← a.ofCode_code, same, b.ofCode_code], congrArg _⟩
  simp only [order, compareLex, compareOn, Ordering.then_eq_eq, compare_eq_iff_eq, codes]

end Head

namespace TermGraph

theorem literalOrder_swap (v w : Literal) : literalOrder w v = (literalOrder v w).swap := by
  cases v <;> cases w <;> first | rfl | exact @OrientedCmp.eq_swap _ compare _ _ _

/-- Literals of one kind are in a line. -/
theorem literalOrder_composes {u v w : Literal} {symbol : SymbolId} (hu : u.HeldBy symbol)
    (hv : v.HeldBy symbol) (hw : w.HeldBy symbol) :
    Composes (literalOrder u v) (literalOrder v w) (literalOrder u w) := by
  cases hu <;> cases hv <;> cases hw <;> exact .of_cmp compare _ _ _

end TermGraph

namespace Unfolding

open TermGraph

mutual

/-- The order of two trees. -/
def order : Unfolding → Unfolding → Ordering
  | .node h ss, .node h' ss' => (h.order h').then <|
    match h.literal?, h'.literal? with
    | some v, some w => literalOrder v w
    | _, _ => orderAll ss ss'

/-- The first difference from left to right decides. -/
def orderAll : List Unfolding → List Unfolding → Ordering
  | s :: ss, s' :: ss' => (s.order s').then (orderAll ss ss')
  | _, _ => .eq

end

mutual

theorem order_swap : ∀ s t : Unfolding, t.order s = (s.order t).swap
  | .node h ss, .node h' ts => by
    have below := orderAll_swap ss ts
    rw [order, order, Ordering.swap_then, ← OrientedCmp.eq_swap]
    congr 1
    cases h.literal? <;> cases h'.literal? <;> first | exact literalOrder_swap _ _ | exact below

theorem orderAll_swap : ∀ ss ts : List Unfolding, orderAll ts ss = (orderAll ss ts).swap
  | [], [] => rfl
  | [], _ :: _ => rfl
  | _ :: _, [] => rfl
  | s :: ss, t :: ts => by
    rw [orderAll, orderAll, Ordering.swap_then, order_swap s t, orderAll_swap ss ts]

end

theorem order_self (s : Unfolding) : s.order s = .eq := by
  have swap := order_swap s s
  cases h : s.order s <;> rw [h] at swap <;> first | rfl | cases swap

/-- The heads of the tree, with as many trees below them as there are, are all of these. -/
inductive Over (P : Head → Nat → Prop) : Unfolding → Prop where
  | node {h : Head} {ss : List Unfolding} (here : P h ss.length) (below : ∀ s ∈ ss, Over P s) :
    Over P (.node h ss)

/-- Heads of one kind hold literals of one kind, or none, and have as many trees below them. -/
structure Alike (P : Head → Nat → Prop) : Prop where
  literal : ∀ h n, P h n → ∀ v ∈ h.literal?, v.HeldBy h.symbol
  same : ∀ h n h' n', P h n → P h' n' → h.tag = h'.tag → h.symbol = h'.symbol → h.aux = h'.aux →
    n = n' ∧ h.literal?.isSome = h'.literal?.isSome

variable {P : Head → Nat → Prop}

mutual

/-- Trees whose heads are alike are in a line. -/
theorem order_composes (alike : Alike P) : ∀ s t u : Unfolding, s.Over P → t.Over P → u.Over P →
    Composes (s.order t) (t.order u) (s.order u)
  | .node h ss, .node h' ts, .node h'' us, .node hs covered, .node ht covered', .node hu covered'' => by
    have below := orderAll_composes alike ss ts us covered covered' covered''
    rw [order, order, order]
    refine (Composes.of_cmp Head.order h h' h'').next fun first second => ?_
    obtain ⟨tag, symbol, aux⟩ := Head.order_eq_iff.mp first
    obtain ⟨tag', symbol', aux'⟩ := Head.order_eq_iff.mp second
    obtain ⟨length, either⟩ := alike.same _ _ _ _ hs ht tag symbol aux
    obtain ⟨length', either'⟩ := alike.same _ _ _ _ ht hu tag' symbol' aux'
    have held := alike.literal _ _ hs
    have held' := alike.literal _ _ ht
    have held'' := alike.literal _ _ hu
    rw [← symbol', ← symbol] at held''
    rw [← symbol] at held'
    revert either either' held held' held''
    cases h.literal? with
    | none =>
      cases h'.literal? with
      | none =>
        cases h''.literal? with
        | none => exact fun _ _ _ _ _ => below length length'
        | some w => exact nofun
      | some v => exact nofun
    | some u =>
      cases h'.literal? with
      | none => exact nofun
      | some v =>
        cases h''.literal? with
        | none => exact nofun
        | some w => exact fun _ _ hu hv hw => literalOrder_composes (hu u rfl) (hv v rfl) (hw w rfl)

theorem orderAll_composes (alike : Alike P) : ∀ ss ts us : List Unfolding, (∀ s ∈ ss, s.Over P) →
    (∀ t ∈ ts, t.Over P) → (∀ u ∈ us, u.Over P) → ss.length = ts.length → ts.length = us.length →
    Composes (orderAll ss ts) (orderAll ts us) (orderAll ss us)
  | [], [], [], _, _, _, _, _ => ⟨fun _ => rfl, fun _ => rfl, fun _ => rfl⟩
  | s :: ss, t :: ts, u :: us, hs, ht, hu, length, length' => by
    rw [orderAll, orderAll, orderAll]
    have here := order_composes alike s t u (hs s List.mem_cons_self) (ht t List.mem_cons_self)
      (hu u List.mem_cons_self)
    exact here.next fun _ _ => orderAll_composes alike ss ts us (fun s h => hs s (List.mem_cons_of_mem _ h))
      (fun t h => ht t (List.mem_cons_of_mem _ h)) (fun u h => hu u (List.mem_cons_of_mem _ h))
      (Nat.succ.inj length) (Nat.succ.inj length')

end

end Unfolding

/-! ## The order of nodes -/

namespace TermGraph

variable {t : TermGraph} {S : NodeId → Prop} {ρ : Rank} {i j : NodeId} {c d : Content} {s s' : Unfolding}
  {sub : Link → Link → Except Fault Ordering}

/-- The order of two nodes, by what they hold. -/
theorem orderNodes_content (apart : i ≠ j) (hc : t.graph.content? i = some c)
    (hd : t.graph.content? j = some d) (left : t.successors i = .ok (c.links.map some))
    (right : t.successors j = .ok (d.links.map some)) :
    t.orderNodes sub i j =
      if c.head.order d.head ≠ .eq then .ok (c.head.order d.head) else
        match c.cargo.literal?, d.cargo.literal? with
        | some v, some w => .ok (literalOrder v w)
        | _, _ => firstDifference sub (c.links.map some) (d.links.map some) := by
  obtain ⟨u, node, cargo⟩ := node_content hc
  obtain ⟨v, node', cargo'⟩ := node_content hd
  unfold orderNodes
  simp only [if_neg apart, node, node', left, right, bind, Except.bind, pure, Except.pure]
  have head : (compare c.tag.code d.tag.code).then ((compare c.symbol d.symbol).then
      (compare c.aux d.aux)) = c.head.order d.head := rfl
  rw [head]
  exact congrArg (ite _ _) (match_slots cargo cargo' _ _)

/-- The first difference of two lists of nodes is that of their unfoldings. -/
theorem firstDifference_unfolds {ls ls' : List NodeId} {ss ss' : List Unfolding}
    (below : List.Forall₂ t.graph.UnfoldsTo ls ss) (below' : List.Forall₂ t.graph.UnfoldsTo ls' ss')
    (orders : ∀ l ∈ ls, ∀ l' ∈ ls', ∀ s s', t.graph.UnfoldsTo l s → t.graph.UnfoldsTo l' s' →
      sub (some l) (some l') = .ok (s.order s')) :
    firstDifference sub (ls.map some) (ls'.map some) = .ok (Unfolding.orderAll ss ss') := by
  induction below generalizing ls' ss' with
  | nil => cases below' <;> rfl
  | @cons l s ls ss unfolds _ ih =>
    cases below' with
    | nil => rfl
    | @cons l' s' ls' ss' unfolds' below' =>
      have rest := ih below' fun k hk k' hk' =>
        orders k (List.mem_cons_of_mem _ hk) k' (List.mem_cons_of_mem _ hk')
      simp only [List.map_cons, firstDifference, bind, Except.bind, Unfolding.orderAll,
        orders l List.mem_cons_self l' List.mem_cons_self s s' unfolds unfolds', rest]
      cases s.order s' <;> rfl

/-- The order of two nodes is that of their unfoldings. -/
theorem Readable.order_unfolds (h : t.Readable S ρ) : ∀ (bound : Nat) (i j : NodeId) (s s' : Unfolding),
    S i → S j → t.graph.depth ρ i < bound → t.graph.UnfoldsTo i s → t.graph.UnfoldsTo j s' →
    t.orderWithin bound (some i) (some j) = .ok (s.order s') := by
  intro bound
  induction bound with
  | zero => exact fun _ _ _ _ _ _ lt => absurd lt (Nat.not_lt_zero _)
  | succ bound ih =>
    intro i j s s' hi hj lt unfolds unfolds'
    obtain ⟨sym, symbol⟩ := h.symbol hi
    obtain ⟨p, c, skip, leads, hc, plain⟩ := h.skip hi
    obtain ⟨q, d, skip', leads', hd, plain'⟩ := h.skip hj
    have reads : t.orderWithin (bound + 1) (some i) (some j) = t.orderNodes (t.orderWithin bound) p q := by
      simp only [orderWithin, Link.target, symbol, skip, skip', bind, Except.bind]
    obtain ⟨ss, rfl, below⟩ := unfolds.landed leads hc plain
    obtain ⟨ss', rfl, below'⟩ := unfolds'.landed leads' hd plain'
    rw [reads]
    by_cases apart : p = q
    · subst apart
      cases hc.symm.trans hd
      have same := (Graph.UnfoldsTo.of_below (.refl p) hc plain below).unique
        (.of_below (.refl p) hc plain below')
      rw [same, Unfolding.order_self]
      unfold orderNodes
      rw [if_pos rfl]
      rfl
    obtain ⟨hp, -⟩ := h.leads hi leads
    obtain ⟨hq, -⟩ := h.leads hj leads'
    rw [orderNodes_content apart hc hd (h.successors hp hc) (h.successors hq hd), Unfolding.order,
      firstDifference_unfolds below below' fun l hl l' hl' s s' unfolds unfolds' =>
        have lower := h.depth_below hi leads hc hl
        ih l l' s s' lower.1 (h.closed q d l' hq hd hl') (Nat.lt_of_lt_of_le lower.2 (Nat.le_of_lt_succ lt))
          unfolds unfolds']
    have literals : c.head.literal? = c.cargo.literal? ∧ d.head.literal? = d.cargo.literal? := ⟨rfl, rfl⟩
    rw [literals.1, literals.2]
    cases c.head.order d.head with
    | lt | gt => rfl
    | eq => cases c.cargo.literal? <;> cases d.cargo.literal? <;> rfl

/-- The heads of these nodes, each with the number of links there. -/
def Heads (t : TermGraph) (S : NodeId → Prop) (h : Head) (n : Nat) : Prop :=
  ∃ i c, S i ∧ t.graph.content? i = some c ∧ h = c.head ∧ n = c.links.length

theorem Readable.over_heads (h : t.Readable S ρ) (unfolds : t.graph.UnfoldsTo i s) (hi : S i) :
    s.Over (t.Heads S) := by
  induction unfolds with
  | @node i j c ss leads hc plain length _ ih =>
    refine .node ⟨j, c, (h.leads hi leads).1, hc, rfl, length.symm⟩ fun s hs => ?_
    obtain ⟨k, lt, rfl⟩ := List.getElem_of_mem hs
    have hl := List.getElem?_eq_getElem (length.symm ▸ lt : k < c.links.length)
    exact ih k _ _ hl (List.getElem?_eq_getElem lt) (h.depth_below hi leads hc (List.mem_of_getElem? hl)).1

theorem Readable.heads_alike (h : t.Readable S ρ) (agree : t.LiteralsAgree S) :
    Unfolding.Alike (t.Heads S) where
  literal := by
    rintro _ _ ⟨i, c, hi, hc, rfl, -⟩ v held
    refine (h.shapedAt hi hc).literal v ?_
    cases cargo : c.cargo with
    | links ls =>
      rw [Content.head, cargo] at held
      cases held
    | literal w =>
      rw [Content.head, cargo] at held
      cases held
      rfl
  same := by
    rintro _ _ _ _ ⟨i, c, hi, hc, rfl, rfl⟩ ⟨j, d, hj, hd, rfl, rfl⟩ tag symbol aux
    exact ⟨(h.shapedAt hi hc).same_length (h.shapedAt hj hd) symbol,
      agree i j c d hi hj hc hd tag symbol fun _ => aux⟩

end TermGraph

/-- A symbol of a data type is on no node that holds a literal. -/
theorem Content.Shaped.no_literal {σ : Signature} {c : Content} (h : c.Shaped σ) (le : 10 ≤ c.symbol) :
    c.cargo.literal? = none := by
  cases cargo : c.cargo with
  | links => rfl
  | literal v =>
    have held := h.literal v cargo
    generalize c.symbol = symbol at le held
    cases held <;> exact absurd le (by decide)

theorem Content.Shaped.of_int {σ : Signature} {c : Content} {v : Int64} (h : c.Shaped σ)
    (signature : σ.Sound) (held : c.cargo = .literal (.int v)) :
    c.symbol = Builtin.int ∧ c.tag = .constructor 0 := by
  obtain ⟨sym, -, named, -⟩ := h.symbol
  have symbol : c.symbol = Builtin.int := by
    have held := h.literal _ held
    generalize c.symbol = symbol at held
    cases held
    rfl
  rw [symbol, Signature.tagFor_builtin signature (by decide)] at named
  exact ⟨symbol, (Except.ok.inj named).symm⟩

/-- Trees in a row are compared as nodes that unfold to them. -/
theorem Unfolding.orderAll_lex {g : Graph} {cmp : NodeId → NodeId → Ordering} {ls ls' : List NodeId}
    {ss ss' : List Unfolding} (below : List.Forall₂ g.UnfoldsTo ls ss)
    (below' : List.Forall₂ g.UnfoldsTo ls' ss') (length : ls.length = ls'.length)
    (orders : ∀ l ∈ ls, ∀ l' ∈ ls', ∀ s s', g.UnfoldsTo l s → g.UnfoldsTo l' s' → s.order s' = cmp l l') :
    orderAll ss ss' = List.compareLex cmp ls ls' := by
  induction below generalizing ls' ss' with
  | nil =>
    cases below' with
    | nil => rfl
    | cons => cases length
  | @cons l s ls ss unfolds _ ih =>
    cases below' with
    | nil => cases length
    | @cons l' s' ls' ss' unfolds' below' =>
      have rest := ih below' (Nat.succ.inj length) fun k hk k' hk' =>
        orders k (List.mem_cons_of_mem _ hk) k' (List.mem_cons_of_mem _ hk')
      rw [orderAll, List.compareLex, rest,
        orders l List.mem_cons_self l' List.mem_cons_self s s' unfolds unfolds']
      cases cmp l l' <;> rfl

namespace Machine

open Eff

variable {m : Machine}

/-- The order of terms, as a comparison of reachable nodes. -/
structure OrdersTerms (m : Machine) (cmp : NodeId → NodeId → Ordering) : Prop where
  returns : ∀ a b, m.Reachable a → m.Reachable b → m.order a b = .ok (cmp a b)
  swap : ∀ a b, m.Reachable a → m.Reachable b → cmp b a = (cmp a b).swap
  self : ∀ a, m.Reachable a → cmp a a = .eq
  copies : ∀ a b s, m.Reachable a → m.Reachable b → m.graph.UnfoldsTo a s → m.graph.UnfoldsTo b s →
    cmp a b = .eq
  /-- Whatever does not come after `b`, which does not come after `c`, does not come after `c`; and it
  comes before `c` if one of the two comes before the other. -/
  transitive : m.LiteralsAgree m.Reachable → ∀ a b c, m.Reachable a → m.Reachable b → m.Reachable c →
    cmp a b ≠ .gt → cmp b c ≠ .gt →
    cmp a c ≠ .gt ∧ (cmp a b = .lt ∨ cmp b c = .lt → cmp a c = .lt)
  /-- The constructors `i` and `j` of one data type, wherever indirections lead to them. -/
  constructors : ∀ a b p q c d (type : TypeId) (dataType : DataType) i j, m.Reachable a → m.Reachable b →
    m.graph.Leads a p → m.graph.Leads b q → m.graph.content? p = some c → m.graph.content? q = some d →
    m.signature.types[type]? = some dataType → dataType.constructors[i]? = some c.symbol →
    dataType.constructors[j]? = some d.symbol → c.tag = .constructor i → d.tag = .constructor j →
    (i ≠ j → cmp a b = compare i j) ∧
    (i = j → c.aux = d.aux → cmp a b = List.compareLex cmp c.links d.links)
  ints : ∀ a b p q c d v w, m.Reachable a → m.Reachable b → m.graph.Leads a p → m.graph.Leads b q →
    m.graph.content? p = some c → m.graph.content? q = some d → c.cargo = .literal (.int v) →
    d.cargo = .literal (.int w) → c.aux = d.aux → cmp a b = compare v.toInt w.toInt

/-- The order of terms is a total preorder. It returns; the other way around it says the reverse; it tells
no copies apart; and it is transitive, as long as nodes of one kind hold a literal or not, as one.
Constructors of one data type are compared by their index first, and equal ones, with equal numbers, by
their arguments from left to right; integers, with equal numbers, by their values. -/
theorem order_is_total_preorder (wellFormed : m.WellFormed) (acyclic : m.Acyclic)
    (signature : m.signature.Sound) : ∃ cmp, m.OrdersTerms cmp := by
  obtain ⟨ρ, readable⟩ := wellFormed.readable acyclic signature
  have each : ∀ a, m.Reachable a → ∃ s, m.graph.UnfoldsTo a s := fun a => readable.unfolds
  choose! tree unfolds using each
  have orders : ∀ a b, m.Reachable a → m.Reachable b → ∀ s s', m.graph.UnfoldsTo a s →
      m.graph.UnfoldsTo b s' → s.order s' = (tree a).order (tree b) := fun a b ha hb s s' hs hs' => by
    rw [hs.unique (unfolds a ha), hs'.unique (unfolds b hb)]
  refine ⟨fun a b => (tree a).order (tree b), fun a b ha hb => ?_, fun a b _ _ => Unfolding.order_swap _ _,
    fun a _ => Unfolding.order_self _, fun a b s ha hb hs hs' => ?_, fun agree a b c ha hb hc => ?_, ?_, ?_⟩
  · exact readable.order_unfolds _ _ _ _ _ ha hb (Nat.lt_succ_of_le Graph.depth_le) (unfolds a ha) (unfolds b hb)
  · rw [← orders a b ha hb s s hs hs', Unfolding.order_self]
  · have covered := fun a ha => readable.over_heads (unfolds a ha) ha
    exact (Unfolding.order_composes (readable.heads_alike agree) _ _ _ (covered a ha) (covered b hb)
      (covered c hc)).at_most
  · intro a b p q c d type dataType i j ha hb leads leads' hc hd declared first second tag tag'
    obtain ⟨ss, same, below⟩ := (unfolds a ha).landed leads hc (by rw [tag]; nofun)
    obtain ⟨ss', same', below'⟩ := (unfolds b hb).landed leads' hd (by rw [tag']; nofun)
    have hp := (readable.leads ha leads).1
    have hq := (readable.leads hb leads').1
    have shaped := readable.shapedAt hp hc
    show (i ≠ j → (tree a).order (tree b) = _) ∧ (i = j → _ → (tree a).order (tree b) = _)
    rw [same, same', Unfolding.order]
    refine ⟨fun apart => ?_, fun equal aux => ?_⟩
    · have index : compare c.tag.code d.tag.code = compare i j := by
        rw [tag, tag', ← cmp_eq_compare, ← cmp_eq_compare]
        exact Nat.strictMono_cast.cmp_map_eq i j
      show ((compare c.tag.code d.tag.code).then _).then _ = _
      rw [index]
      cases order : compare i j with
      | eq => exact absurd (compare_eq_iff_eq.mp order) apart
      | lt | gt => rfl
    · subst equal
      have symbol : c.symbol = d.symbol := Option.some.inj (first.symm.trans second)
      have proper := (signature.types _ _ declared _ (List.mem_of_getElem? first)).1
      have head : c.head.order d.head = .eq := Head.order_eq_iff.mpr ⟨tag.trans tag'.symm, symbol, aux⟩
      have none : c.head.literal? = none := shaped.no_literal proper
      rw [head, none]
      exact Unfolding.orderAll_lex below below' (shaped.same_length (readable.shapedAt hq hd) symbol)
        fun l hl l' hl' => orders l l' (readable.closed p c l hp hc hl) (readable.closed q d l' hq hd hl')
  · intro a b p q c d v w ha hb leads leads' hc hd held held' aux
    have hp := (readable.leads ha leads).1
    have hq := (readable.leads hb leads').1
    obtain ⟨symbol, tag⟩ := (readable.shapedAt hp hc).of_int signature held
    obtain ⟨symbol', tag'⟩ := (readable.shapedAt hq hd).of_int signature held'
    obtain ⟨ss, same, -⟩ := (unfolds a ha).landed leads hc (by rw [tag]; nofun)
    obtain ⟨ss', same', -⟩ := (unfolds b hb).landed leads' hd (by rw [tag']; nofun)
    have head : c.head.order d.head = .eq :=
      Head.order_eq_iff.mpr ⟨tag.trans tag'.symm, symbol.trans symbol'.symm, aux⟩
    show (tree a).order (tree b) = _
    rw [same, same', Unfolding.order, head, Content.head, Content.head, held, held']
    rfl

/-- `[] < [1] < [2]`, where an indirection leads to the second list. -/
theorem order_is_total_preorder_lists : ∃ (m : Machine) (cmp : NodeId → NodeId → Ordering), m.OrdersTerms cmp ∧
    m.graph.content? 2 = some ⟨.constructor 0, Prelude.standard.nil, 0, .links []⟩ ∧
    m.graph.content? 3 = some ⟨.constructor 1, Prelude.standard.cons, 0, .links [0, 2]⟩ ∧
    m.graph.content? 4 = some ⟨.forward, Builtin.forward, 0, .links [3]⟩ ∧
    m.graph.content? 5 = some ⟨.constructor 1, Prelude.standard.cons, 0, .links [1, 2]⟩ ∧
    cmp 2 4 = .lt ∧ cmp 4 5 = .lt ∧ cmp 2 5 = .lt := by
  let p := Prelude.standard
  let int (v : Int64) : Content := ⟨.constructor 0, Builtin.int, 0, .literal (.int v)⟩
  let table : List Content := [int 1, int 2, ⟨.constructor 0, p.nil, 0, .links []⟩,
    ⟨.constructor 1, p.cons, 0, .links [0, 2]⟩, ⟨.forward, Builtin.forward, 0, .links [3]⟩,
    ⟨.constructor 1, p.cons, 0, .links [1, 2]⟩]
  let start : Machine := .ofConfig (.fixedPool 64)
  have result : (Operation.script start [.int 1, .int 2, .make p.nil [], .make p.cons [0, 2], .forward 3,
      .make p.cons [1, 2]]).map (fun m => (m.tabled table, (List.range 6).all fun i => m.roots.contains (some i),
        (m.signature.types[5]?).map DataType.constructors)) = some (true, true, some [p.nil, p.cons]) := by
    decide +kernel
  obtain ⟨m, ran, facts⟩ := Option.map_eq_some_iff.mp result
  simp only [Prod.mk.injEq] at facts
  obtain ⟨tabled, rooted, listed⟩ := facts
  obtain ⟨list, declared, constructors⟩ := Option.map_eq_some_iff.mp listed
  have new : Machine.new (.fixedPool 64) = .ok start := rfl
  have run : Operation.Run start m := Operation.Run.start.script ran
  have reachable : ∀ i < 6, m.Reachable i := fun i lt =>
    Operation.reachable_of_contains (List.all_eq_true.mp rooted i (List.mem_range.mpr lt))
  have comparable : m.Comparable := comparable_of_tabled (run.sound new) tabled (by decide) (by decide)
  obtain ⟨cmp, orders⟩ := order_is_total_preorder comparable.wellFormed comparable.acyclic comparable.signature
  have content : ∀ k c, table[k]? = some c → m.graph.content? k = some c := fun _ _ => content_of_tabled tabled
  have empty := content 2 _ rfl
  have one := content 3 _ rfl
  have forward := content 4 _ rfl
  have two := content 5 _ rfl
  have position : ∀ k : Nat, list.constructors[k]? = [p.nil, p.cons][k]? := fun k => by rw [constructors]
  have first : cmp 2 4 = .lt :=
    (orders.constructors 2 4 2 3 _ _ 5 list 0 1 (reachable 2 (by decide)) (reachable 4 (by decide)) (.refl 2)
      (.step forward (.refl 3)) empty one declared (position 0) (position 1) rfl rfl).1 (by decide)
  have items : cmp 0 1 = .lt :=
    orders.ints 0 1 0 1 _ _ 1 2 (reachable 0 (by decide)) (reachable 1 (by decide)) (.refl 0) (.refl 1)
      (content 0 _ rfl) (content 1 _ rfl) rfl rfl rfl
  have second : cmp 4 5 = .lt := by
    rw [(orders.constructors 4 5 3 5 _ _ 5 list 1 1 (reachable 4 (by decide)) (reachable 5 (by decide))
      (.step forward (.refl 3)) (.refl 5) one two declared (position 1) (position 1) rfl rfl).2 rfl rfl]
    show List.compareLex cmp [0, 2] [1, 2] = .lt
    rw [List.compareLex, items]
  have third := orders.transitive comparable.literals 2 4 5 (reachable 2 (by decide)) (reachable 4 (by decide))
    (reachable 5 (by decide)) (by rw [first]; nofun) (by rw [second]; nofun)
  exact ⟨m, cmp, orders, empty, one, forward, two, first, second, third.2 (.inl first)⟩

/-- Neither transitivity nor the order of constructors holds throughout. Variables of one identifier, one
without a type and one of each of two types, are equal with the first and not with each other. And of
two pairs, that which has the greater number comes after the other, whatever their components are. -/
theorem order_not_transitive_nor_lexicographic : (¬ ∀ m : Machine, m.Sound → ∀ a b c o₁ o₂, m.Reachable a → m.Reachable b →
      m.Reachable c → m.order a b = .ok o₁ → m.order b c = .ok o₂ → o₁ ≠ .gt → o₂ ≠ .gt →
      ∃ o, m.order a c = .ok o ∧ o ≠ .gt) ∧
    ¬ ∀ m : Machine, m.Sound → ∀ a b c d x y, m.Reachable a → m.Reachable b → m.graph.content? a = some c →
      m.graph.content? b = some d → c.tag = .constructor 0 → d.tag = .constructor 0 → c.symbol = d.symbol →
      c.links[0]? = some x → d.links[0]? = some y → m.order x y = .ok .lt → m.order a b = .ok .lt := by
  refine ⟨fun transitive => ?_, fun constructors => ?_⟩
  · obtain ⟨m, sound, reachable, tabled⟩ := variables_clash
    obtain ⟨ρ, inv⟩ := id sound
    obtain ⟨_, readable⟩ := inv.wellFormed.readable inv.acyclic inv.signature
    let types : List (Option TypeId) := [none, some 0, some 1]
    have unfolds : ∀ (i : NodeId) u, types[i]? = some u → m.Reachable i ∧
        m.graph.UnfoldsTo i (.node (freeContent 0 u).head []) := by
      intro i u hu
      have stored : m.graph.content? i = some (freeContent 0 u) :=
        content_of_tabled tabled (show (types.map (freeContent 0))[i]? = _ by rw [List.getElem?_map, hu]; rfl)
      refine ⟨reachable i (List.getElem?_eq_some_iff.mp hu).1, .of_below (.refl i) stored nofun ?_⟩
      cases u <;> exact .nil
    have ordered : ∀ (i j : NodeId) u v, types[i]? = some u → types[j]? = some v → m.order i j =
        .ok (Unfolding.order (.node (freeContent 0 u).head []) (.node (freeContent 0 v).head [])) :=
      fun i j u v hu hv => readable.order_unfolds _ _ _ _ _ (unfolds i u hu).1 (unfolds j v hv).1
        (Nat.lt_succ_of_le Graph.depth_le) (unfolds i u hu).2 (unfolds j v hv).2
    obtain ⟨o, ordered', least⟩ := transitive m sound 2 0 1 _ _ (reachable 2 (by decide)) (reachable 0 (by decide))
      (reachable 1 (by decide)) (ordered 2 0 _ _ rfl rfl) (ordered 0 1 _ _ rfl rfl) (by decide) (by decide)
    cases (ordered 2 1 _ _ rfl rfl).symm.trans ordered'
    exact absurd rfl least
  · let p := Prelude.standard
    let start : Machine := .ofConfig (.fixedPool 64)
    let numbered : Eff Unit := rewrite 2 (.constructor 0) p.pair 1 [some 0, some 1]
    let pair (aux : Nat) (x y : NodeId) : Content := ⟨.constructor 0, p.pair, aux, .links [x, y]⟩
    let ends (m : Machine) : Bool := m.roots.contains (some 2) && m.roots.contains (some 3) &&
      decide (m.graph.content? 2 = some (pair 1 0 1) ∧ m.graph.content? 3 = some (pair 0 1 0) ∧
        (m.order 0 1).toOption = some .lt ∧ (m.order 2 3).toOption = some .gt)
    have result : (Operation.script start [.int 1, .int 2, .make p.pair [0, 1], .make p.pair [1, 0]]).map
        (fun m => m.roots.contains (some 2) && decide (m.graph.content? 2 = some (pair 0 0 1)) &&
          (returned? (numbered m)).any fun r => ends r.2) = some true := by
      decide +kernel
    obtain ⟨m₀, ran, facts⟩ := Option.map_eq_some_iff.mp result
    obtain ⟨facts, ended⟩ := Bool.and_eq_true_iff.mp facts
    obtain ⟨rooted, stored⟩ := Bool.and_eq_true_iff.mp facts
    obtain ⟨⟨_, m⟩, rewritten, ended⟩ := (Option.any_eq_true _ _).mp ended
    obtain ⟨ended, ordered⟩ := Bool.and_eq_true_iff.mp ended
    obtain ⟨left, right⟩ := Bool.and_eq_true_iff.mp ended
    obtain ⟨hc, hd, below, above⟩ := of_decide_eq_true ordered
    have new : Machine.new (.fixedPool 64) = .ok start := rfl
    have run : Operation.Run start m₀ := Operation.Run.start.script ran
    have sound := run.sound new
    have stored := of_decide_eq_true stored
    have reachable := Operation.reachable_of_contains rooted
    obtain ⟨ρ, inv⟩ := id sound
    have fits : (pair 1 0 1).Fits m₀.signature := by
      cases inv.fitsAt (live_iff.mpr reachable) stored with
      | constructor _ sym type _ _ _ le found kind length =>
        exact .constructor p.pair sym type 0 1 [0, 1] le found kind length
    have read : ∀ {e : Except Fault Ordering} {o : Ordering}, e.toOption = some o → e = .ok o := by
      intro e o h
      cases e with
      | error => cases h
      | ok => exact congrArg Except.ok (Option.some.inj h)
    have sound' : m.Sound := sound.rewritten reachable stored (.inr ⟨0, rfl⟩)
      (fun storage _ within => rewrite_writes storage within (.constructor 0) p.pair 1 [0, 1]) fits
      (fun _ h => h) (show p.pair ≠ Builtin.partialApplication by decide) (of_returned rewritten)
    have first := constructors m sound' 2 3 _ _ 0 1 (Operation.reachable_of_contains left)
      (Operation.reachable_of_contains right) hc hd rfl rfl rfl rfl rfl (read below)
    cases (read above).symm.trans first

end Machine

end ChoiceGraph
