import ChoiceGraph.Proofs.Equality
import ChoiceGraph.Proofs.Slices

/-! # Equality against order

Equality and order of terms are two recursions over the same two terms. They ask different things of a
pair of nodes: the one asks for the numbers of variables only and compares floats as numbers, the other
asks for the numbers of all nodes and compares floats by their bit patterns. On terms they come to the
same, unless the one meets a NaN twice or the other two zeros that differ in sign. -/
namespace ChoiceGraph

namespace Double

variable {x y : Double}

/-- The two are not one NaN, nor the two zeros. -/
def Ordinary (x y : Double) : Prop :=
  ¬ (x = y ∧ x.isNaN = true) ∧ ¬ (x ≠ y ∧ x.isZero = true ∧ y.isZero = true)

instance (x y : Double) : Decidable (x.Ordinary y) := inferInstanceAs (Decidable (_ ∧ _))

/-- A bit pattern is found from its place in the total order. -/
theorem rank_inj : x.rank = y.rank ↔ x = y := by
  refine ⟨fun same => ?_, congrArg rank⟩
  have bound : ∀ z : Double, z.bits.toNat < 2 ^ 64 := fun z => z.bits.toNat_lt
  have bx := bound x
  have by_ := bound y
  have bits : x.bits.toNat = y.bits.toNat := by
    simp only [rank, isNegative, magnitude, decide_eq_true_eq] at same
    split at same <;> split at same <;> omega
  cases x
  cases y
  exact congrArg Double.mk (UInt64.toNat_inj.mp bits)

/-- Numeric sameness and the total order agree on two doubles exactly if these are ordinary. -/
theorem ordinary_iff : x.Ordinary y ↔ (x.same y = true ↔ x.rank = y.rank) := by
  have bits : x.bits = y.bits ↔ x = y := ⟨fun same => by cases x; cases y; exact congrArg mk same, congrArg _⟩
  have zero : ∀ z : Double, z.isZero = true → z.isNaN = false := fun z zero => by
    simp only [isZero, beq_iff_eq] at zero
    simp only [isNaN, zero, decide_eq_false_iff_not]
    exact Nat.not_lt_zero _
  rw [rank_inj]
  unfold Ordinary same
  by_cases equal : x = y
  · subst equal
    cases x.isNaN <;> simp
  · have apart : (x.bits == y.bits) = false := by
      rw [beq_eq_false_iff_ne]
      exact fun same => equal (bits.mp same)
    simp only [equal, false_and, not_false_eq_true, true_and, ne_eq, iff_false, apart, Bool.false_or]
    constructor
    · intro ordinary same
      simp only [Bool.and_eq_true] at same
      exact ordinary same.2
    · rintro differ ⟨hx, hy⟩
      refine differ ?_
      rw [zero x hx, zero y hy, hx, hy]
      rfl

end Double

namespace Literal

variable {a b : Literal} {symbol : SymbolId}

/-- Two literals of one kind are the same value if and only if neither comes first, as long as floats
are ordinary. -/
theorem same_iff_order (ha : a.HeldBy symbol) (hb : b.HeldBy symbol)
    (ordinary : ∀ x y, a = .float x → b = .float y → x.Ordinary y) :
    a.same b = true ↔ TermGraph.literalOrder a b = .eq := by
  cases ha with
  | int v =>
    cases hb with
    | int w =>
      show (Literal.int v == .int w) = true ↔ compare v.toInt w.toInt = .eq
      rw [beq_iff_eq, Literal.int.injEq, compare_eq_iff_eq, Int64.toInt_inj]
  | float x =>
    cases hb with
    | float y =>
      show x.same y = true ↔ compare x.rank y.rank = .eq
      rw [compare_eq_iff_eq]
      exact Double.ordinary_iff.mp (ordinary x y rfl rfl)
  | char v =>
    cases hb with
    | char w =>
      show (Literal.char v == .char w) = true ↔ compare v.toNat w.toNat = .eq
      rw [beq_iff_eq, Literal.char.injEq, compare_eq_iff_eq, Char.toNat_inj]
  | function f =>
    cases hb with
    | function g =>
      show (Literal.symbol f == .symbol g) = true ↔ compare f g = .eq
      rw [beq_iff_eq, Literal.symbol.injEq, compare_eq_iff_eq]
  | variable_ t =>
    cases hb with
    | variable_ u =>
      show (Literal.type t == .type u) = true ↔ compare t u = .eq
      rw [beq_iff_eq, Literal.type.injEq, compare_eq_iff_eq]

end Literal

namespace Content

variable {σ : Signature} {c d : Content}

/-- What a node of a term holds: an indirection, a variable, a function value, a partial application, or
a constructor or literal, which has no number of its own. -/
def Plain (c : Content) : Prop :=
  c.tag = .forward ∨ c.tag = .free ∨ c.symbol = Builtin.function ∨ c.symbol = Builtin.partialApplication ∨
    ∃ index, c.tag = .constructor index ∧ c.aux = 0

instance (c : Content) : Decidable c.Plain :=
  decidable_of_iff (c.tag = .forward ∨ c.tag = .free ∨ c.symbol = Builtin.function ∨
      c.symbol = Builtin.partialApplication ∨ c.tag = .constructor c.tag.code.toNat ∧ c.aux = 0) <| by
    refine or_congr_right (or_congr_right (or_congr_right (or_congr_right ?_)))
    constructor
    · exact fun ⟨tag, aux⟩ => ⟨_, tag, aux⟩
    · rintro ⟨index, tag, aux⟩
      rw [tag]
      exact ⟨rfl, aux⟩

theorem Fits.heldBy (fits : c.Fits σ) {v : Literal} (cargo : c.cargo = .literal v) : v.HeldBy c.symbol := by
  cases fits <;> cases cargo <;> constructor

theorem Plain.decided (plain : c.Plain) (fits : c.Fits σ) : c.tag ≠ .failure ∧ c.tag ≠ .choice := by
  rcases plain with tag | tag | symbol | symbol | ⟨index, tag, -⟩
  · rw [tag]
    exact ⟨nofun, nofun⟩
  · rw [tag]
    exact ⟨nofun, nofun⟩
  · obtain ⟨f, sym, -, -, rfl⟩ := fits.of_function symbol
    exact ⟨nofun, nofun⟩
  · obtain ⟨missing, f, x, rfl⟩ := fits.of_partialApplication symbol
    exact ⟨nofun, nofun⟩
  · rw [tag]
    exact ⟨nofun, nofun⟩

end Content

namespace TermGraph

variable {t : TermGraph} {i j : NodeId} {c d : Content} {sym sym' : Symbol} {e : Bool} {o : Ordering}
  {sub : Link → Link → Except Fault Bool} {sub' : Link → Link → Except Fault Ordering}

/-! ## Two nodes -/

/-- Slots hold a literal in one way. -/
theorem data_of_cargo {g : Graph} {s : Slots} {v : Literal} (h : g.cargo? s = some (.literal v)) :
    s = .data v := by
  cases s with
  | inline a b => rcases a with _ | a <;> rcases b with _ | b <;> cases h
  | pooled b =>
    obtain ⟨ls, same, -⟩ := Graph.cargo_pooled.mp h
    cases same
  | data l =>
    cases h
    rfl

/-- What two nodes of one kind carry is compared as literals if both are, and by their links otherwise. -/
def Carries (c d : Content) (literals : Literal → Literal → Prop) (links : Prop) : Prop :=
  (∃ a b, c.cargo = .literal a ∧ d.cargo = .literal b ∧ literals a b) ∨
    ((¬ ∃ a b, c.cargo = .literal a ∧ d.cargo = .literal b) ∧ links)

/-- Function values that carry the same function miss the same number of arguments. -/
theorem Carries.function_aux {σ : Signature} {f g : SymbolId} {links : Prop} {tag tag' : Tag}
    {symbol symbol' n n' : Nat}
    (h : Carries ⟨tag, symbol, n, .literal (.symbol f)⟩ ⟨tag', symbol', n', .literal (.symbol g)⟩
      (fun a b => a.same b = true) links)
    (found : σ.symbol? f = some sym) (found' : σ.symbol? g = some sym') : sym.arity = sym'.arity := by
  rcases h with ⟨_, _, ha, hb, same⟩ | ⟨differ, -⟩
  · cases ha
    cases hb
    have same : (Literal.symbol f == .symbol g) = true := same
    obtain rfl := Literal.symbol.inj (beq_iff_eq.mp same)
    cases found.symm.trans found'
    rfl
  · exact absurd ⟨_, _, rfl, rfl⟩ differ

/-- What equality finds out about two nodes: they differ at once, or it is up to what they carry. -/
theorem equalsNodes_cases (apart : i ≠ j) (hc : t.graph.content? i = some c)
    (hd : t.graph.content? j = some d)
    (left : t.successors i = .ok (c.links.map some)) (right : t.successors j = .ok (d.links.map some))
    (run : t.equalsNodes sub i j = .ok e) :
    (e = false ∧ (c.tag ≠ d.tag ∨ c.symbol ≠ d.symbol ∨ c.aux ≠ d.aux)) ∨
    (c.tag = d.tag ∧ c.symbol = d.symbol ∧ (comparesAux c.tag = .ok true → c.aux = d.aux) ∧
      Carries c d (fun a b => a.same b = e)
        (allEqual sub (c.links.map some) (d.links.map some) = .ok e)) := by
  obtain ⟨s, node, cargo⟩ := node_content hc
  obtain ⟨s', node', cargo'⟩ := node_content hd
  unfold equalsNodes at run
  simp only [if_neg apart, node, node', bind, Except.bind] at run
  by_cases head : c.tag ≠ d.tag ∨ c.symbol ≠ d.symbol
  · rw [if_pos head] at run
    cases run
    exact .inl ⟨rfl, head.imp_right .inl⟩
  rw [if_neg head] at run
  obtain ⟨tag, symbol⟩ := not_or.mp head
  cases compares : comparesAux c.tag with
  | error fault =>
    rw [compares] at run
    cases run
  | ok numbered =>
    rw [compares] at run
    dsimp only at run
    by_cases number : (numbered && decide (c.aux ≠ d.aux)) = true
    · rw [if_pos number] at run
      cases run
      exact .inl ⟨rfl, .inr (.inr (of_decide_eq_true (Bool.and_eq_true_iff.mp number).2))⟩
    rw [if_neg number] at run
    refine .inr ⟨not_not.mp tag, not_not.mp symbol, fun all => ?_, ?_⟩
    · cases all
      by_contra other
      exact number (by simpa using other)
    split at run
    · next a b =>
      cases run
      exact .inl ⟨a, b, (Option.some.inj cargo).symm, (Option.some.inj cargo').symm, rfl⟩
    · next none =>
      refine .inr ⟨?_, ?_⟩
      · rintro ⟨a, b, ha, hb⟩
        rw [ha] at cargo
        rw [hb] at cargo'
        exact none a b (data_of_cargo cargo) (data_of_cargo cargo')
      · simpa only [left, right] using run

/-- What the order finds out about two nodes. -/
theorem orderNodes_cases (apart : i ≠ j) (hc : t.graph.content? i = some c) (hd : t.graph.content? j = some d)
    (left : t.successors i = .ok (c.links.map some)) (right : t.successors j = .ok (d.links.map some))
    (run : t.orderNodes sub' i j = .ok o) :
    (o ≠ .eq ∧ (c.tag ≠ d.tag ∨ c.symbol ≠ d.symbol ∨ c.aux ≠ d.aux)) ∨
    (c.tag = d.tag ∧ c.symbol = d.symbol ∧ c.aux = d.aux ∧
      Carries c d (fun a b => literalOrder a b = o)
        (firstDifference sub' (c.links.map some) (d.links.map some) = .ok o)) := by
  obtain ⟨s, node, cargo⟩ := node_content hc
  obtain ⟨s', node', cargo'⟩ := node_content hd
  have codes : ∀ a b : Tag, compare a.code b.code = .eq ↔ a = b := fun a b => by
    rw [compare_eq_iff_eq]
    exact ⟨fun same => by rw [← a.ofCode_code, same, b.ofCode_code], congrArg _⟩
  unfold orderNodes at run
  simp only [if_neg apart, node, node', bind, Except.bind] at run
  split at run
  · next head =>
    cases run
    refine .inl ⟨head, ?_⟩
    by_contra same
    simp only [not_or, not_not] at same
    obtain ⟨tag, symbol, aux⟩ := same
    refine head ?_
    rw [(codes _ _).mpr tag, compare_eq_iff_eq.mpr symbol, compare_eq_iff_eq.mpr aux]
    rfl
  · next head =>
    simp only [not_not, Ordering.then_eq_eq, compare_eq_iff_eq] at head
    obtain ⟨tag, symbol, aux⟩ := head
    refine .inr ⟨(codes _ _).mp (compare_eq_iff_eq.mpr tag), symbol, aux, ?_⟩
    split at run
    · next a b =>
      cases run
      exact .inl ⟨a, b, (Option.some.inj cargo).symm, (Option.some.inj cargo').symm, rfl⟩
    · next none =>
      refine .inr ⟨?_, ?_⟩
      · rintro ⟨a, b, ha, hb⟩
        rw [ha] at cargo
        rw [hb] at cargo'
        exact none a b (data_of_cargo cargo) (data_of_cargo cargo')
      · simpa only [left, right] using run

/-- Two readers that agree on all pairs of links agree on the lists of them. -/
theorem allEqual_iff : ∀ (xs ys : List Link) (e : Bool) (o : Ordering),
    (∀ x ∈ xs, ∀ y ∈ ys, ∀ e o, sub x y = .ok e → sub' x y = .ok o → (e = true ↔ o = .eq)) →
    allEqual sub xs ys = .ok e → firstDifference sub' xs ys = .ok o → (e = true ↔ o = .eq) := by
  intro xs
  induction xs with
  | nil =>
    intro ys e o _ all first
    unfold allEqual at all
    unfold firstDifference at first
    cases all
    cases first
    exact ⟨fun _ => rfl, fun _ => rfl⟩
  | cons x xs ih =>
    intro ys e o agree all first
    cases ys with
    | nil =>
      cases all
      cases first
      exact ⟨fun _ => rfl, fun _ => rfl⟩
    | cons y ys =>
      simp only [allEqual, bind, Except.bind] at all
      simp only [firstDifference, bind, Except.bind] at first
      cases here : sub x y with
      | error fault =>
        rw [here] at all
        cases all
      | ok e₁ =>
        cases here' : sub' x y with
        | error fault =>
          rw [here'] at first
          cases first
        | ok o₁ =>
          rw [here] at all
          rw [here'] at first
          have both := agree x List.mem_cons_self y List.mem_cons_self e₁ o₁ here here'
          cases e₁ with
          | true =>
            obtain rfl := both.mp rfl
            exact ih ys e o (fun x hx y hy =>
              agree x (List.mem_cons_of_mem _ hx) y (List.mem_cons_of_mem _ hy)) all first
          | false =>
            have differs : o₁ ≠ .eq := fun same => Bool.false_ne_true (both.mpr same)
            cases all
            cases o₁ with
            | eq => exact absurd rfl differs
            | lt | gt =>
              cases first
              exact iff_of_false Bool.false_ne_true differs

theorem allEqual_head {x y : Link} {xs ys : List Link} (all : allEqual sub (x :: xs) (y :: ys) = .ok true) :
    sub x y = .ok true := by
  simp only [allEqual, bind, Except.bind] at all
  cases here : sub x y with
  | error fault =>
    rw [here] at all
    cases all
  | ok e =>
    rw [here] at all
    cases e with
    | true => rfl
    | false => cases all

end TermGraph

namespace Machine

variable {m : Machine} {ρ : Rank} {S T : NodeId → Prop} {i j p q : NodeId} {c d : Content} {k k' bound : Nat}

/-! ## Two terms -/

/-- These nodes are live and make up terms. -/
structure TermNodes (m : Machine) (S : NodeId → Prop) : Prop where
  live : ∀ i, S i → m.Live [] i
  closed : ∀ i c j, S i → m.graph.content? i = some c → j ∈ c.links → S j
  plain : ∀ i c, S i → m.graph.content? i = some c → c.Plain

theorem TermNodes.leads (h : m.TermNodes S) (hi : S i) (leads : m.graph.Leads i j) : S j := by
  induction leads with
  | refl => exact hi
  | step hc _ ih => exact ih (h.closed _ _ _ hi hc List.mem_cons_self)

/-- No part of a term is a failure, so the number of arguments that it misses is determined. -/
theorem TermNodes.misses_unique (inv : m.Inv [] ρ) (h : m.TermNodes S) (hi : S i) (first : m.graph.Misses i k)
    (second : m.graph.Misses i k') : k = k' := by
  induction first generalizing k' with
  | failure hc tag => exact absurd tag ((h.plain _ _ hi hc).decided (inv.fitsAt (h.live _ hi) hc)).1
  | function hc =>
    cases second.by hc with
    | failure tag => cases tag
    | function => rfl
  | argument hc _ ih =>
    cases second.by hc with
    | failure tag => cases tag
    | argument hf => exact Nat.succ.inj (ih (h.closed _ _ _ hi hc List.mem_cons_self) hf)
  | forward hc _ ih =>
    cases second.by hc with
    | failure tag => cases tag
    | forward hj => exact ih (h.closed _ _ _ hi hc List.mem_cons_self) hj
  | choice hc => exact absurd rfl ((h.plain _ _ hi hc).decided (inv.fitsAt (h.live _ hi) hc)).2

/-- Both readers look at the nodes that indirections lead to. -/
theorem Inv.within_eq (inv : m.Inv [] ρ) (bound : Nat) (hi : m.Live [] i) (skip : m.skip i = .ok p)
    (skip' : m.skip j = .ok q) :
    m.toTermGraph.equalsWithin (bound + 1) (some i) (some j) =
        m.toTermGraph.equalsNodes (m.toTermGraph.equalsWithin bound) p q ∧
      m.toTermGraph.orderWithin (bound + 1) (some i) (some j) =
        m.toTermGraph.orderNodes (m.toTermGraph.orderWithin bound) p q := by
  obtain ⟨c, hc, -⟩ := inv.fits i hi
  obtain ⟨sym, -, symbol⟩ := inv.read_symbol hi hc
  unfold TermGraph.equalsWithin TermGraph.orderWithin
  simp only [Link.target, symbol, skip, skip', bind, Except.bind]
  exact ⟨trivial, trivial⟩

/-- Equal terms miss the same number of arguments. -/
theorem TermNodes.misses_of_equal (inv : m.Inv [] ρ) (h : m.TermNodes S) (h' : m.TermNodes T) :
    ∀ (bound : Nat) (i j k k' : Nat), S i → T j →
      m.toTermGraph.equalsWithin bound (some i) (some j) = .ok true →
      m.graph.Misses i k → m.graph.Misses j k' → k = k' := by
  intro bound
  induction bound with
  | zero => exact fun _ _ _ _ _ _ run => nomatch run
  | succ bound ih =>
    intro i j k k' hi hj run first second
    obtain ⟨p, c, skip, leads, hc, ht⟩ := inv.read_skip (h.live i hi)
    obtain ⟨q, d, skip', leads', hd, ht'⟩ := inv.read_skip (h'.live j hj)
    rw [(inv.within_eq bound (h.live i hi) skip skip').1] at run
    have hp := h.leads hi leads
    have hq := h'.leads hj leads'
    have first := leads.misses first
    have second := leads'.misses second
    by_cases same : p = q
    · subst same
      exact h.misses_unique inv hp first second
    have fits := inv.fitsAt (h.live p hp) hc
    have fits' := inv.fitsAt (h'.live q hq) hd
    rcases TermGraph.equalsNodes_cases same hc hd (inv.read_successors (h.live p hp) hc)
      (inv.read_successors (h'.live q hq) hd) run with ⟨none, -⟩ | ⟨tag, symbol, -, carries⟩
    · cases none
    cases first.by hc with
    | failure tag => exact absurd tag ((h.plain _ _ hp hc).decided fits).1
    | function =>
      obtain ⟨f, sym, -, found, same⟩ := fits.of_function rfl
      obtain ⟨g, sym', -, found', rfl⟩ := fits'.of_function symbol.symm
      cases same
      cases second.by hd with
      | failure tag => cases tag
      | function => exact carries.function_aux found found'
    | argument hf =>
      obtain ⟨missing', f', x', rfl⟩ := fits'.of_partialApplication symbol.symm
      cases second.by hd with
      | failure tag => cases tag
      | argument hf' =>
        rcases carries with ⟨_, _, ha, -, -⟩ | ⟨-, all⟩
        · cases ha
        · exact Nat.succ.inj (ih _ _ _ _ (h.closed _ _ _ hp hc List.mem_cons_self)
            (h'.closed _ _ _ hq hd List.mem_cons_self) (TermGraph.allEqual_head all) hf hf')
    | forward => exact absurd rfl ht
    | choice => exact absurd rfl ((h.plain _ _ hp hc).decided fits).2

/-- Of two nodes of one kind that carry the same, neither has a number that the other has not. -/
theorem TermNodes.aux_eq (inv : m.Inv [] ρ) (h : m.TermNodes S) (h' : m.TermNodes T) (hp : S p) (hq : T q)
    (hc : m.graph.content? p = some c) (hd : m.graph.content? q = some d) (ht : c.tag ≠ .forward)
    (tag : c.tag = d.tag) (symbol : c.symbol = d.symbol)
    (variable_ : TermGraph.comparesAux c.tag = .ok true → c.aux = d.aux)
    (carries : TermGraph.Carries c d (fun a b => a.same b = true) (TermGraph.allEqual
      (m.toTermGraph.equalsWithin bound) (c.links.map some) (d.links.map some) = .ok true)) :
    c.aux = d.aux := by
  have fits := inv.fitsAt (h.live p hp) hc
  have fits' := inv.fitsAt (h'.live q hq) hd
  rcases h.plain p c hp hc with forward | free | function | partial_ | ⟨index, constructor_, aux⟩
  · exact absurd forward ht
  · exact variable_ (by rw [free]; rfl)
  · obtain ⟨f, sym, -, found, rfl⟩ := fits.of_function function
    obtain ⟨g, sym', -, found', rfl⟩ := fits'.of_function symbol.symm
    exact carries.function_aux found found'
  · obtain ⟨missing, f, x, rfl⟩ := fits.of_partialApplication partial_
    obtain ⟨missing', f', x', rfl⟩ := fits'.of_partialApplication symbol.symm
    rcases carries with ⟨_, _, ha, -, -⟩ | ⟨-, all⟩
    · cases ha
    · exact Nat.succ.inj (h.misses_of_equal inv h' _ _ _ _ _ (h.closed _ _ _ hp hc List.mem_cons_self)
        (h'.closed _ _ _ hq hd List.mem_cons_self) (TermGraph.allEqual_head all)
        (inv.spines p _ (h.live p hp) hc missing f x rfl)
        (inv.spines q _ (h'.live q hq) hd missing' f' x' rfl))
  · rw [constructor_] at tag
    rcases h'.plain q d hq hd with forward | free | function | partial_ | ⟨-, -, aux'⟩
    · cases tag.trans forward
    · cases tag.trans free
    · obtain ⟨_, _, -, -, rfl⟩ := fits'.of_function function
      cases tag
    · obtain ⟨_, _, _, rfl⟩ := fits'.of_partialApplication partial_
      cases tag
    · rw [aux, aux']

/-- The node holds a float. -/
def Floats (m : Machine) (i : NodeId) (x : Double) : Prop :=
  ∃ c, m.graph.content? i = some c ∧ c.cargo = .literal (.float x)

/-- Two terms are equal if and only if neither comes first. -/
theorem TermNodes.within_iff (inv : m.Inv [] ρ) (h : m.TermNodes S) (h' : m.TermNodes T)
    (ordinary : ∀ p q x y, S p → T q → p ≠ q → m.Floats p x → m.Floats q y → x.Ordinary y) :
    ∀ (bound : Nat) (i j : NodeId) (e : Bool) (o : Ordering), S i → T j →
      m.toTermGraph.equalsWithin bound (some i) (some j) = .ok e →
      m.toTermGraph.orderWithin bound (some i) (some j) = .ok o → (e = true ↔ o = .eq) := by
  intro bound
  induction bound with
  | zero => exact fun _ _ _ _ _ _ run => nomatch run
  | succ bound ih =>
    intro i j e o hi hj run run'
    obtain ⟨p, c, skip, leads, hc, ht⟩ := inv.read_skip (h.live i hi)
    obtain ⟨q, d, skip', leads', hd, -⟩ := inv.read_skip (h'.live j hj)
    obtain ⟨equals, order⟩ := inv.within_eq bound (h.live i hi) skip skip'
    rw [equals] at run
    rw [order] at run'
    have hp := h.leads hi leads
    have hq := h'.leads hj leads'
    by_cases same : p = q
    · unfold TermGraph.equalsNodes at run
      unfold TermGraph.orderNodes at run'
      rw [if_pos same] at run run'
      cases run
      cases run'
      exact ⟨fun _ => rfl, fun _ => rfl⟩
    have left := inv.read_successors (h.live p hp) hc
    have right := inv.read_successors (h'.live q hq) hd
    rcases TermGraph.orderNodes_cases same hc hd left right run' with
      ⟨differs, numbers⟩ | ⟨tag, symbol, aux, ordered⟩
    · refine ⟨fun equal => ?_, fun none => absurd none differs⟩
      subst equal
      rcases TermGraph.equalsNodes_cases same hc hd left right run with
        ⟨none, -⟩ | ⟨tag, symbol, variable_, carries⟩
      · cases none
      · have aux := h.aux_eq inv h' hp hq hc hd ht tag symbol variable_ carries
        rcases numbers with other | other | other
        · exact absurd tag other
        · exact absurd symbol other
        · exact absurd aux other
    · rcases TermGraph.equalsNodes_cases same hc hd left right run with
        ⟨-, other | other | other⟩ | ⟨-, -, -, carries⟩
      · exact absurd tag other
      · exact absurd symbol other
      · exact absurd aux other
      rcases carries with ⟨a, b, ha, hb, rfl⟩ | ⟨differ, all⟩
      · rcases ordered with ⟨a', b', ha', hb', rfl⟩ | ⟨none, -⟩
        · cases ha.symm.trans ha'
          cases hb.symm.trans hb'
          refine Literal.same_iff_order ((inv.fitsAt (h.live p hp) hc).heldBy ha)
            (symbol ▸ (inv.fitsAt (h'.live q hq) hd).heldBy hb) fun x y hx hy => ?_
          subst hx hy
          exact ordinary p q x y hp hq same ⟨c, hc, ha⟩ ⟨d, hd, hb⟩
        · exact absurd ⟨a, b, ha, hb⟩ none
      · rcases ordered with ⟨a, b, ha, hb, -⟩ | ⟨-, first⟩
        · exact absurd ⟨a, b, ha, hb⟩ differ
        · refine TermGraph.allEqual_iff _ _ e o (fun x hx y hy e o equal ordered => ?_) all first
          obtain ⟨x, hxc, rfl⟩ := List.mem_map.mp hx
          obtain ⟨y, hyd, rfl⟩ := List.mem_map.mp hy
          exact ih x y e o (h.closed _ _ _ hp hc hxc) (h'.closed _ _ _ hq hd hyd) equal ordered

/-- What hangs from a node, in a machine that is sound and has nothing but terms there. -/
theorem terms_below {a : NodeId} (reachable : m.Reachable a)
    (plain : ∀ i c, m.graph.Reach [some a] i → m.graph.content? i = some c → c.Plain) :
    m.TermNodes (m.graph.Reach [some a]) where
  live i hi := by
    induction hi with
    | root hi =>
      obtain rfl := Option.some.inj (List.mem_singleton.mp hi)
      exact live_iff.mpr reachable
    | step _ edge ih => exact Graph.Reach.step ih edge
  closed i c j hi hc hj := .step hi ((Graph.edge_of_content hc).mpr hj)
  plain := plain

end Machine

/-- What a comparison is rewritten to. -/
def Content.comparison : Ordering → Content
  | .lt => constant 0 Prelude.standard.lt
  | .eq => constant 1 Prelude.standard.eq
  | .gt => constant 2 Prelude.standard.gt

namespace Reduction

open Eff Machine

variable {m m₀ m₁ : Machine} {r : Reducer} {root a b : NodeId} {e : Bool} {o : Ordering}

/-- Once its operands are in normal form, an equality test becomes what equality says of them. -/
theorem stepEquals_rewrites (sound : m.Sound) (lt : root < m.graph.capacity)
    (first : normalArg r root 0 m₀ = .ok (.value a) m₁) (second : normalArg r root 1 m₁ = .ok (.value b) m)
    (same : m.equals a b = .ok e) :
    ∃ m', stepEquals r root m₀ = .ok () m' ∧ m'.graph.content? root = some (.truth e) := by
  obtain ⟨ρ, inv⟩ := sound
  obtain ⟨g, rewritten, sets⟩ := truth_sets inv.storage inv.signature lt e
  refine ⟨m.setGraph g, ?_, sets.same⟩
  calc stepEquals r root m₀
      = _ := (bind_ok first).trans (bind_ok second)
    _ = _ := bind_ok (look_ok same)
    _ = _ := rewritten

/-- Once its operands are in normal form, a comparison becomes what the order says of them. -/
theorem stepCompare_rewrites (sound : m.Sound) (lt : root < m.graph.capacity)
    (first : normalArg r root 0 m₀ = .ok (.value a) m₁) (second : normalArg r root 1 m₁ = .ok (.value b) m)
    (ordered : m.order a b = .ok o) :
    ∃ m', stepCompare r root m₀ = .ok () m' ∧ m'.graph.content? root = some (.comparison o) := by
  obtain ⟨ρ, inv⟩ := sound
  have run : stepCompare r root m₀ = _ :=
    (bind_ok first).trans ((bind_ok second).trans (bind_ok (look_ok ordered)))
  have writes : ∀ {symbol index}, symbol < Signature.preludeEnd →
      Signature.standard.tagFor symbol = .ok (.constructor index) →
      ∃ m', rewriteTo root symbol [] m = .ok () m' ∧ m'.graph.content? root = some (.constant index symbol) :=
    fun within listed => by
      obtain ⟨g, rewritten, sets⟩ := rewriteTo_sets (m := m) [] inv.storage lt
        (inv.signature.constant within listed) (Nat.zero_le 2)
      exact ⟨m.setGraph g, rewritten, sets.same⟩
  rw [run]
  cases o with
  | lt => exact writes (by decide) rfl
  | eq => exact writes (by decide) rfl
  | gt => exact writes (by decide) rfl

/-- Equality and order agree about any two terms, unless equality meets a NaN in both of them or the two
zeros: either reader returns, and the terms are equal exactly if neither comes first. So does a test of
equality with these operands become `True` exactly if a comparison of them becomes `EQ`. -/
theorem equals_iff_order (sound : m.Sound) (left : m.Reachable a) (right : m.Reachable b)
    (plain : ∀ i c, m.graph.Reach [some a, some b] i → m.graph.content? i = some c → c.Plain)
    (ordinary : ∀ i j x y, m.graph.Reach [some a] i → m.graph.Reach [some b] j → i ≠ j →
      m.Floats i x → m.Floats j y → x.Ordinary y) :
    ∃ e o, m.equals a b = .ok e ∧ m.order a b = .ok o ∧ (e = true ↔ o = .eq) ∧
      ∀ r root m₀ m₁, m.Reachable root → normalArg r root 0 m₀ = .ok (.value a) m₁ →
        normalArg r root 1 m₁ = .ok (.value b) m →
        ∃ m₂ m₃, stepEquals r root m₀ = .ok () m₂ ∧ m₂.graph.content? root = some (.truth e) ∧
          stepCompare r root m₀ = .ok () m₃ ∧ m₃.graph.content? root = some (.comparison o) := by
  obtain ⟨ρ, inv⟩ := sound
  have ha := live_iff.mpr left
  have hb := live_iff.mpr right
  obtain ⟨e, same⟩ := inv.read_equals ha hb
  obtain ⟨o, ordered⟩ := inv.read_order ha hb
  have terms : m.TermNodes (m.graph.Reach [some a]) :=
    terms_below left fun i c hi =>
      plain i c (hi.mono fun l hl => List.mem_cons.mpr (.inl (List.mem_singleton.mp hl)))
  have terms' : m.TermNodes (m.graph.Reach [some b]) :=
    terms_below right fun i c hi => plain i c (hi.mono fun l hl => List.mem_cons_of_mem _ hl)
  refine ⟨e, o, same, ordered, ?_, fun r root m₀ m₁ reachable first second => ?_⟩
  · exact terms.within_iff inv terms' ordinary _ a b e o (.root List.mem_cons_self) (.root List.mem_cons_self)
      same ordered
  · have lt := inv.lt (live_iff.mpr reachable)
    obtain ⟨m₂, tested, truth⟩ := stepEquals_rewrites ⟨ρ, inv⟩ lt first second same
    obtain ⟨m₃, compared, comparison⟩ := stepCompare_rewrites ⟨ρ, inv⟩ lt first second ordered
    exact ⟨m₂, m₃, tested, truth, compared, comparison⟩

/-- The exception is exact: equality and order agree about two nodes that hold floats if and only if the
floats are ordinary. -/
theorem floats_agree_iff {x y : Double} (sound : m.Sound) (left : m.Reachable a) (right : m.Reachable b)
    (apart : a ≠ b) (hx : m.graph.content? a = some ⟨.constructor 0, Builtin.float, 0, .literal (.float x)⟩)
    (hy : m.graph.content? b = some ⟨.constructor 0, Builtin.float, 0, .literal (.float y)⟩) :
    (∃ e o, m.equals a b = .ok e ∧ m.order a b = .ok o ∧ (e = true ↔ o = .eq)) ↔ x.Ordinary y := by
  obtain ⟨ρ, inv⟩ := sound
  have ha := live_iff.mpr left
  have hb := live_iff.mpr right
  obtain ⟨e, same⟩ := inv.read_equals ha hb
  obtain ⟨o, ordered⟩ := inv.read_order ha hb
  have heads := inv.within_eq m.graph.capacity ha
    (TermGraph.skip_self (t := m.toTermGraph) hx nofun) (TermGraph.skip_self (t := m.toTermGraph) hy nofun)
  have links := inv.read_successors ha hx
  have links' := inv.read_successors hb hy
  have value : x.same y = e := by
    rcases TermGraph.equalsNodes_cases apart hx hy links links' (heads.1.symm.trans same) with
      ⟨-, other | other | other⟩ | ⟨-, -, -, ⟨_, _, hv, hw, value⟩ | ⟨none, -⟩⟩
    · exact absurd rfl other
    · exact absurd rfl other
    · exact absurd rfl other
    · cases hv
      cases hw
      exact value
    · exact absurd ⟨_, _, rfl, rfl⟩ none
  have place : compare x.rank y.rank = o := by
    rcases TermGraph.orderNodes_cases apart hx hy links links' (heads.2.symm.trans ordered) with
      ⟨-, other | other | other⟩ | ⟨-, -, -, ⟨_, _, hv, hw, place⟩ | ⟨none, -⟩⟩
    · exact absurd rfl other
    · exact absurd rfl other
    · exact absurd rfl other
    · cases hv
      cases hw
      exact place
    · exact absurd ⟨_, _, rfl, rfl⟩ none
  have first : x.rank = y.rank ↔ o = .eq := by rw [← place, compare_eq_iff_eq]
  rw [Double.ordinary_iff, value, first]
  constructor
  · rintro ⟨e', o', same', ordered', agree⟩
    cases same.symm.trans same'
    cases ordered.symm.trans ordered'
    exact agree
  · exact fun agree => ⟨e, o, same, ordered, agree⟩

deriving instance DecidableEq for Argument

/-- An operand that has been normalized leaves a sound machine. -/
theorem normalArg_sound {fuel k : Nat} {v : Argument} (sound : m₀.Sound) (reachable : m₀.Reachable root)
    {sym : Symbol} (symbol : m₀.symbol root = .ok sym) (lt : k < sym.arity)
    (run : normalArg (reducer fuel) root k m₀ = .ok v m) : m.Sound := by
  obtain ⟨ρ, inv⟩ := sound
  have live := live_iff.mpr reachable
  obtain ⟨c, t, hc, hk⟩ := inv.argument live symbol lt
  obtain ⟨ρ', evolved, -⟩ := Keeps.ok (normalArg_keeps (reducer_sound fuel) (inv.site live hc) hk) run
  exact ⟨ρ', evolved.inv⟩

/-- `(1.5, x) == (1.5, x)`, where the floats are two nodes, an indirection leads to the first of them, and
the variable is shared. -/
theorem equals_iff_order_pairs : ∃ m m₀ m₁ m₂ m₃, m.Sound ∧ m.equals 4 5 = .ok true ∧
    m.order 4 5 = .ok .eq ∧ normalArg (reducer 50) 6 0 m₀ = .ok (.value 4) m₁ ∧
    normalArg (reducer 50) 6 1 m₁ = .ok (.value 5) m ∧
    stepEquals (reducer 50) 6 m₀ = .ok () m₂ ∧ m₂.graph.content? 6 = some (.truth true) ∧
    stepCompare (reducer 50) 6 m₀ = .ok () m₃ ∧ m₃.graph.content? 6 = some (.comparison .eq) := by
  let p := Prelude.standard
  let v : Double := ⟨0x3ff8000000000000⟩
  let ops : List Operation := [.float v, .float v, .free none, .forward 0, .make p.pair [3, 2],
    .make p.pair [1, 2], .make p.equals [4, 5]]
  let start : Machine := .ofConfig (.fixedPool 64)
  let called : Machine → Bool := fun m =>
    m.roots.contains (some 6) && (m.symbol 6).toOption.any fun sym => decide (1 < sym.arity)
  let plain : Machine → Bool := fun m => (List.range 6).all fun i => (m.graph.content? i).any fun c =>
    decide (c.Plain ∧ (∀ j ∈ c.links, j < 6) ∧ ∀ x ∈ c.cargo.literal?, x = .float v)
  let ends : Machine → Bool := fun m => m.roots.contains (some 4) && m.roots.contains (some 5) &&
    m.roots.contains (some 6) && plain m && decide ((m.equals 4 5).toOption = some true)
  let facts : Machine → Bool := fun m₀ => called m₀ &&
    (returned? (normalArg (reducer 50) 6 0 m₀)).any fun r => decide (r.1 = .value 4) && called r.2 &&
      (returned? (normalArg (reducer 50) 6 1 r.2)).any fun r => decide (r.1 = .value 5) && ends r.2
  have result : (Operation.script start ops).map facts = some true := by decide +kernel
  obtain ⟨m₀, ran, facts⟩ := Option.map_eq_some_iff.mp result
  obtain ⟨called₀, facts⟩ := Bool.and_eq_true_iff.mp facts
  obtain ⟨⟨_, m₁⟩, first, facts⟩ := (Option.any_eq_true _ _).mp facts
  obtain ⟨taken, facts⟩ := Bool.and_eq_true_iff.mp facts
  obtain ⟨value, called₁⟩ := Bool.and_eq_true_iff.mp taken
  obtain ⟨⟨_, m⟩, second, facts⟩ := (Option.any_eq_true _ _).mp facts
  obtain ⟨value', ended⟩ := Bool.and_eq_true_iff.mp facts
  cases of_decide_eq_true value
  cases of_decide_eq_true value'
  have first := of_returned first
  have second := of_returned second
  have new : Machine.new (.fixedPool 64) = .ok start := rfl
  have run : Operation.Run start m₀ := Operation.Run.start.script ran
  have read : ∀ {α : Type} {e : Except Fault α} {x : α}, e.toOption = some x → e = .ok x := by
    intro α e x h
    cases e with
    | error => cases h
    | ok => exact congrArg Except.ok (Option.some.inj h)
  have sites : ∀ m : Machine, called m = true →
      m.Reachable 6 ∧ ∃ sym, m.symbol 6 = .ok sym ∧ 1 < sym.arity := by
    intro m h
    obtain ⟨rooted, h⟩ := Bool.and_eq_true_iff.mp h
    obtain ⟨sym, found, two⟩ := (Option.any_eq_true _ _).mp h
    exact ⟨Operation.reachable_of_contains rooted, sym, read found, of_decide_eq_true two⟩
  obtain ⟨reachable₀, sym₀, symbol₀, lt₀⟩ := sites m₀ called₀
  obtain ⟨reachable₁, sym₁, symbol₁, lt₁⟩ := sites m₁ called₁
  have sound₁ : m₁.Sound := normalArg_sound (run.sound new) reachable₀ symbol₀ (by omega) first
  have sound : m.Sound := normalArg_sound sound₁ reachable₁ symbol₁ lt₁ second
  obtain ⟨ended, equal⟩ := Bool.and_eq_true_iff.mp ended
  obtain ⟨rooted, terms⟩ := Bool.and_eq_true_iff.mp ended
  obtain ⟨rooted, call⟩ := Bool.and_eq_true_iff.mp rooted
  obtain ⟨left, right⟩ := Bool.and_eq_true_iff.mp rooted
  have stored : ∀ i < 6, ∃ c, m.graph.content? i = some c ∧ c.Plain ∧ (∀ j ∈ c.links, j < 6) ∧
      ∀ x ∈ c.cargo.literal?, x = .float v := by
    intro i lt
    obtain ⟨c, hc, facts⟩ := (Option.any_eq_true _ _).mp (List.all_eq_true.mp terms i (List.mem_range.mpr lt))
    exact ⟨c, hc, of_decide_eq_true facts⟩
  have below : ∀ {roots : List Link} {i : NodeId}, (∀ i, some i ∈ roots → i < 6) →
      m.graph.Reach roots i → i < 6 := by
    intro roots i within reach
    induction reach with
    | root hi => exact within _ hi
    | step _ edge ih =>
      obtain ⟨c, hc, -, links, -⟩ := stored _ ih
      exact links _ ((Graph.edge_of_content hc).mp edge)
  have float : ∀ {i : NodeId} {x : Double}, i < 6 → m.Floats i x → x = v := by
    rintro i x lt ⟨c, hc, cargo⟩
    obtain ⟨d, hd, -, -, literal⟩ := stored i lt
    cases hc.symm.trans hd
    exact Literal.float.inj (literal _ (by rw [cargo]; rfl))
  obtain ⟨e, o, same, ordered, agree, tests⟩ := equals_iff_order sound
    (Operation.reachable_of_contains left) (Operation.reachable_of_contains right)
    (fun i c reach hc => by
      obtain ⟨d, hd, plain, -⟩ := stored i (below (fun i hi => by
        rcases List.mem_pair.mp hi with h | h <;> cases h <;> decide) reach)
      cases hc.symm.trans hd
      exact plain)
    (fun i j x y hi hj _ hx hy => by
      have within : ∀ k < 6, ∀ i, some i ∈ [some k] → i < 6 := fun k lt i hi => by
        cases List.mem_singleton.mp hi
        exact lt
      rw [float (below (within 4 (by decide)) hi) hx, float (below (within 5 (by decide)) hj) hy]
      decide)
  have equal := read (of_decide_eq_true equal)
  cases same.symm.trans equal
  obtain rfl := agree.mp rfl
  obtain ⟨m₂, m₃, tested, truth, compared, comparison⟩ := tests (reducer 50) 6 m₀ m₁
    (Operation.reachable_of_contains call) first second
  exact ⟨m, m₀, m₁, m₂, m₃, sound, same, ordered, first, second, tested, truth, compared, comparison⟩

/-- Two copies of a NaN: neither comes first, but they are not equal. -/
theorem order_equates_nans : ¬ ∀ (config : Config) (start m : Machine) (a b : NodeId),
    Machine.new config = .ok start → Operation.Run start m → m.Reachable a → m.Reachable b →
    (∀ i c, m.graph.Reach [some a, some b] i → m.graph.content? i = some c → c.Plain) →
    ∃ e o, m.equals a b = .ok e ∧ m.order a b = .ok o ∧ (e = true ↔ o = .eq) := by
  intro agree
  let nan : Double := ⟨0x7ff8000000000000⟩
  let held : Content := ⟨.constructor 0, Builtin.float, 0, .literal (.float nan)⟩
  let start : Machine := .ofConfig (.fixedPool 64)
  have result : (Operation.script start [.float nan, .float nan]).map (fun m => (m.roots.contains (some 0),
      m.roots.contains (some 1), m.graph.content? 0, m.graph.content? 1)) =
      some (true, true, some held, some held) := by decide +kernel
  obtain ⟨m, ran, facts⟩ := Option.map_eq_some_iff.mp result
  simp only [Prod.mk.injEq] at facts
  obtain ⟨rooted, rooted', left, right⟩ := facts
  have new : Machine.new (.fixedPool 64) = .ok start := rfl
  have run : Operation.Run start m := Operation.Run.start.script ran
  have ends : ∀ i, m.graph.Reach [some 0, some 1] i → m.graph.content? i = some held := by
    intro i reach
    induction reach with
    | root hi => rcases List.mem_pair.mp hi with h | h <;> cases h <;> assumption
    | step _ edge ih => cases (Graph.edge_of_content ih).mp edge
  have ordinary := (floats_agree_iff (run.sound new) (Operation.reachable_of_contains rooted)
    (Operation.reachable_of_contains rooted') Nat.zero_ne_one left right).mp
    (agree _ start m 0 1 new run (Operation.reachable_of_contains rooted)
      (Operation.reachable_of_contains rooted') fun i c reach hc => by
        cases (ends i reach).symm.trans hc
        exact .inr (.inr (.inr (.inr ⟨0, rfl, rfl⟩))))
  exact absurd ordinary (by decide)

end Reduction

end ChoiceGraph
