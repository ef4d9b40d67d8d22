import ChoiceGraph.Proofs.Printouts
import Mathlib.Data.Finite.Defs
import Mathlib.Data.Int.ModEq
import Mathlib.Order.WellFounded

/-! # Arithmetic expressions in graphs

A graph of literals, indirections and calls of `+`, `-` and `*` without a circle expands to an expression.
The expression may be much larger than the graph: what is shared in the graph is repeated in it. Its
result in 64 bits is congruent to its result among the integers. -/
namespace ChoiceGraph

/-- The operations of a ring. -/
inductive RingOperation
  | add
  | sub
  | mul
  deriving DecidableEq

namespace RingOperation

variable {op : RingOperation} {a b : Int64} {x y : Int}

def arithmetic : RingOperation → Arithmetic
  | add => .add
  | sub => .sub
  | mul => .mul

def symbol : RingOperation → SymbolId
  | add => Prelude.standard.add
  | sub => Prelude.standard.sub
  | mul => Prelude.standard.mul

/-- The operation on integers. -/
def exact : RingOperation → Int → Int → Int
  | add => (· + ·)
  | sub => (· - ·)
  | mul => (· * ·)

/-- The operation in 64 bits. -/
def wrapped : RingOperation → Int64 → Int64 → Int64
  | add => (· + ·)
  | sub => (· - ·)
  | mul => (· * ·)

theorem apply_arithmetic : op.arithmetic.apply a b = some (op.wrapped a b) := by cases op <;> rfl

theorem listed (op : RingOperation) : ∃ name,
    Signature.standard.symbol? op.symbol = some (.function name 2 (.arithmetic op.arithmetic)) := by
  cases op
  · exact ⟨"+", rfl⟩
  · exact ⟨"-", rfl⟩
  · exact ⟨"*", rfl⟩

theorem symbol_inj {op' : RingOperation} (same : op.symbol = op'.symbol) : op = op' := by
  cases op <;> cases op' <;> first | rfl | exact absurd same (by decide)

/-- Wrapping keeps the residue. -/
theorem wrapped_modEq (ha : a.toInt ≡ x [ZMOD 2 ^ 64]) (hb : b.toInt ≡ y [ZMOD 2 ^ 64]) :
    (op.wrapped a b).toInt ≡ op.exact x y [ZMOD 2 ^ 64] := by
  have wrap (z : Int) : z.bmod (2 ^ 64) ≡ z [ZMOD 2 ^ 64] := Int.bmod_emod
  cases op with
  | add =>
    rw [wrapped, Int64.toInt_add]
    exact (wrap _).trans (ha.add hb)
  | sub =>
    rw [wrapped, Int64.toInt_sub]
    exact (wrap _).trans (ha.sub hb)
  | mul =>
    rw [wrapped, Int64.toInt_mul]
    exact (wrap _).trans (ha.mul hb)

end RingOperation

/-- An expression as a tree. -/
inductive Expression
  | literal (v : Int64)
  | call (op : RingOperation) (left right : Expression)

namespace Expression

/-- The result among the integers. -/
def exact : Expression → Int
  | literal v => v.toInt
  | call op left right => op.exact left.exact right.exact

/-- The result in 64 bits. -/
def value : Expression → Int64
  | literal v => v
  | call op left right => op.wrapped left.value right.value

def height : Expression → Nat
  | literal _ => 0
  | call _ left right => max left.height right.height + 1

theorem value_modEq (e : Expression) : e.value.toInt ≡ e.exact [ZMOD 2 ^ 64] := by
  induction e with
  | literal v => exact .refl _
  | call op left right ihl ihr => exact RingOperation.wrapped_modEq ihl ihr

end Expression

namespace Content

def number (aux : Nat) (v : Int64) : Content := ⟨.constructor 0, Builtin.int, aux, .literal (.int v)⟩

def redirection (symbol : SymbolId) (aux : Nat) (j : NodeId) : Content := ⟨.forward, symbol, aux, .links [j]⟩

theorem binary_inj {op op' : RingOperation} {aux aux' : Nat} {x x' y y' : NodeId}
    (same : binary op.symbol aux x y = binary op'.symbol aux' x' y') :
    op = op' ∧ aux = aux' ∧ x = x' ∧ y = y' := by
  simp only [binary, Content.mk.injEq, Cargo.links.injEq, List.cons.injEq, and_true, true_and] at same
  exact ⟨RingOperation.symbol_inj same.1, same.2⟩

/-- What a node of an expression holds. -/
inductive Arithmetical : Content → Prop
  | number (aux : Nat) (v : Int64) : Arithmetical (number aux v)
  | redirection (symbol : SymbolId) (aux : Nat) (j : NodeId) : Arithmetical (redirection symbol aux j)
  | call (op : RingOperation) (aux : Nat) (x y : NodeId) : Arithmetical (binary op.symbol aux x y)

end Content

namespace Graph

variable {g : Graph} {i j k x y : NodeId} {e a b : Expression} {op : RingOperation} {aux : Nat} {v : Int64}
  {c : Content} {symbol : SymbolId}

/-- What hangs from the node is the expression, with sharing and indirections undone. -/
inductive ExpandsTo (g : Graph) : NodeId → Expression → Prop
  | literal {i j : NodeId} {aux : Nat} {v : Int64} (leads : g.Leads i j)
    (h : g.content? j = some (.number aux v)) : ExpandsTo g i (.literal v)
  | call {i j x y : NodeId} {aux : Nat} {op : RingOperation} {a b : Expression} (leads : g.Leads i j)
    (h : g.content? j = some (.binary op.symbol aux x y)) (left : ExpandsTo g x a)
    (right : ExpandsTo g y b) : ExpandsTo g i (.call op a b)

/-- A call of one of the operations. -/
def IsCall (g : Graph) (i : NodeId) : Prop :=
  ∃ op aux x y, g.content? i = some (.binary (RingOperation.symbol op) aux x y)

/-! ## One expansion for each node -/

/-- All indirections on the way to a node that is none lead there. -/
theorem Leads.rest (h : g.Leads i j) (h' : g.Leads i k) (hc : g.content? k = some c)
    (tag : c.tag ≠ .forward) : g.Leads j k := by
  induction h with
  | refl => exact h'
  | step here _ ih =>
    cases h' with
    | refl =>
      cases hc.symm.trans here
      exact absurd rfl tag
    | step here' leads =>
      cases here.symm.trans here'
      exact ih leads

theorem ExpandsTo.back (h : g.ExpandsTo j e) (leads : g.Leads i j) : g.ExpandsTo i e := by
  cases h with
  | literal leads' hv => exact .literal (leads.trans leads') hv
  | call leads' hc left right => exact .call (leads.trans leads') hc left right

theorem ExpandsTo.leads (h : g.ExpandsTo i e) (leads : g.Leads i j) : g.ExpandsTo j e := by
  cases h with
  | literal leads' hv => exact .literal (leads.rest leads' hv nofun) hv
  | call leads' hc left right => exact .call (leads.rest leads' hc nofun) hc left right

theorem ExpandsTo.of_number (h : g.ExpandsTo i e) (hi : g.content? i = some (.number aux v)) :
    e = .literal v := by
  cases h with
  | literal leads hv =>
    cases Machine.leads_unique (.refl i) leads hi nofun hv nofun
    cases hi.symm.trans hv
    rfl
  | call leads hc =>
    cases Machine.leads_unique (.refl i) leads hi nofun hc nofun
    cases hi.symm.trans hc

theorem ExpandsTo.of_call (h : g.ExpandsTo i e) (hi : g.content? i = some (.binary op.symbol aux x y)) :
    ∃ a b, e = .call op a b ∧ g.ExpandsTo x a ∧ g.ExpandsTo y b := by
  cases h with
  | literal leads hv =>
    cases Machine.leads_unique (.refl i) leads hi nofun hv nofun
    cases hi.symm.trans hv
  | call leads hc left right =>
    cases Machine.leads_unique (.refl i) leads hi nofun hc nofun
    obtain ⟨rfl, -, rfl, rfl⟩ := Content.binary_inj (Option.some.inj (hi.symm.trans hc))
    exact ⟨_, _, rfl, left, right⟩

theorem ExpandsTo.unique {e' : Expression} (h : g.ExpandsTo i e) (h' : g.ExpandsTo i e') : e = e' := by
  induction h generalizing e' with
  | literal leads hv => exact ((h'.leads leads).of_number hv).symm
  | call leads hc _ _ ihl ihr =>
    obtain ⟨a, b, rfl, left, right⟩ := (h'.leads leads).of_call hc
    rw [ihl left, ihr right]

/-! ## What hangs from a node -/

theorem edge_call (h : g.content? i = some (.binary op.symbol aux x y)) : g.Edge i j ↔ j = x ∨ j = y := by
  rw [edge_of_content h]
  simp [Content.binary, Content.links, Cargo.successors]

theorem edge_redirection (h : g.content? i = some (.redirection symbol aux k)) : g.Edge i j ↔ j = k := by
  rw [edge_of_content h]
  simp [Content.redirection, Content.links, Cargo.successors]

theorem edge_number (h : g.content? i = some (.number aux v)) : ¬ g.Edge i j := by
  rw [edge_of_content h]
  exact List.not_mem_nil

theorem ExpandsTo.of_edge (h : g.ExpandsTo i e) (edge : g.Edge i j) :
    ∃ e', g.ExpandsTo j e' ∧ e'.height ≤ e.height := by
  have down {k : NodeId} (leads : g.Leads i k) (here : k ≠ i) : g.ExpandsTo j e := by
    cases leads with
    | refl => exact absurd rfl here
    | step first leads =>
      obtain rfl := List.mem_singleton.mp ((edge_of_content first).mp edge)
      exact h.leads (.step first (.refl _))
  cases h with
  | @literal _ k _ v leads hv =>
    by_cases here : k = i
    · exact absurd edge (edge_number (here ▸ hv))
    · exact ⟨_, down leads here, le_rfl⟩
  | @call _ k x y aux op a b leads hc left right =>
    by_cases here : k = i
    · rcases (edge_call (here ▸ hc)).mp edge with rfl | rfl
      · exact ⟨a, left, (le_max_left _ _).trans (Nat.le_succ _)⟩
      · exact ⟨b, right, (le_max_right _ _).trans (Nat.le_succ _)⟩
    · exact ⟨_, down leads here, le_rfl⟩

theorem ExpandsTo.of_path (h : g.ExpandsTo i e) (path : Relation.ReflTransGen g.Edge i j) :
    ∃ e', g.ExpandsTo j e' ∧ e'.height ≤ e.height := by
  induction path with
  | refl => exact ⟨e, h, le_rfl⟩
  | tail _ edge ih =>
    obtain ⟨e', here, le⟩ := ih
    obtain ⟨e'', there, le'⟩ := here.of_edge edge
    exact ⟨e'', there, le'.trans le⟩

/-! ## The calls that hang from a node -/

open Classical in
/-- The calls that can be reached from a node, each once. -/
noncomputable def callsBelow (g : Graph) (i : NodeId) : Finset NodeId :=
  (Finset.range g.capacity).filter fun j => Relation.ReflTransGen g.Edge i j ∧ g.IsCall j

theorem mem_callsBelow : j ∈ g.callsBelow i ↔ Relation.ReflTransGen g.Edge i j ∧ g.IsCall j := by
  simp only [callsBelow, Finset.mem_filter, Finset.mem_range, and_iff_right_iff_imp]
  rintro ⟨-, op, aux, x, y, h⟩
  exact content_lt h

theorem IsCall.not_redirection (h : g.IsCall i) : g.content? i ≠ some (.redirection symbol aux j) := by
  obtain ⟨op, aux', x, y, hc⟩ := h
  rw [hc]
  nofun

theorem IsCall.not_number (h : g.IsCall i) : g.content? i ≠ some (.number aux v) := by
  obtain ⟨op, aux', x, y, hc⟩ := h
  rw [hc]
  nofun

theorem callsBelow_number (h : g.content? i = some (.number aux v)) : g.callsBelow i = ∅ := by
  refine Finset.eq_empty_of_forall_notMem fun j mem => ?_
  obtain ⟨path, call⟩ := mem_callsBelow.mp mem
  rcases path.cases_head with rfl | ⟨k, edge, -⟩
  · exact call.not_number h
  · exact edge_number h edge

theorem callsBelow_redirection (h : g.content? i = some (.redirection symbol aux k)) :
    g.callsBelow i = g.callsBelow k := by
  ext j
  rw [mem_callsBelow, mem_callsBelow]
  refine and_congr_left fun call => ⟨fun path => ?_, fun path => path.head ((edge_redirection h).mpr rfl)⟩
  rcases path.cases_head with rfl | ⟨k', edge, path⟩
  · exact absurd h call.not_redirection
  · exact (edge_redirection h).mp edge ▸ path

theorem callsBelow_call (h : g.content? i = some (.binary op.symbol aux x y)) :
    g.callsBelow i = insert i (g.callsBelow x ∪ g.callsBelow y) := by
  ext j
  rw [Finset.mem_insert, Finset.mem_union, mem_callsBelow, mem_callsBelow, mem_callsBelow]
  constructor
  · rintro ⟨path, call⟩
    rcases path.cases_head with rfl | ⟨k, edge, path⟩
    · exact .inl rfl
    · rcases (edge_call h).mp edge with rfl | rfl
      · exact .inr (.inl ⟨path, call⟩)
      · exact .inr (.inr ⟨path, call⟩)
  · rintro (rfl | ⟨path, call⟩ | ⟨path, call⟩)
    · exact ⟨.refl, op, aux, x, y, h⟩
    · exact ⟨path.head ((edge_call h).mpr (.inl rfl)), call⟩
    · exact ⟨path.head ((edge_call h).mpr (.inr rfl)), call⟩

/-- Indirections hide no calls and add none. -/
theorem callsBelow_leads (leads : g.Leads i j) : g.callsBelow i = g.callsBelow j := by
  induction leads with
  | refl => rfl
  | step h _ ih => exact (callsBelow_redirection h).trans ih

/-- A call is not below its arguments. -/
theorem ExpandsTo.not_below (h : g.ExpandsTo i e) (hc : g.content? i = some (.binary op.symbol aux x y)) :
    i ∉ g.callsBelow x ∪ g.callsBelow y := by
  obtain ⟨a, b, rfl, left, right⟩ := h.of_call hc
  intro mem
  rcases Finset.mem_union.mp mem with mem | mem
  · obtain ⟨e', here, le⟩ := left.of_path (mem_callsBelow.mp mem).1
    obtain rfl := here.unique h
    exact absurd le (Nat.not_le.mpr (Nat.lt_succ_of_le (le_max_left _ _)))
  · obtain ⟨e', here, le⟩ := right.of_path (mem_callsBelow.mp mem).1
    obtain rfl := here.unique h
    exact absurd le (Nat.not_le.mpr (Nat.lt_succ_of_le (le_max_right _ _)))

/-- There are at least as many calls as the expression is high. -/
theorem ExpandsTo.height_le (h : g.ExpandsTo i e) : e.height ≤ (g.callsBelow i).card := by
  induction h with
  | literal => exact Nat.zero_le _
  | @call i j x y aux op a b leads hc left right ihl ihr =>
    have outside := (ExpandsTo.call (.refl j) hc left right).not_below hc
    rw [callsBelow_leads leads, callsBelow_call hc, Finset.card_insert_of_notMem outside]
    refine Nat.succ_le_succ (max_le (ihl.trans ?_) (ihr.trans ?_))
    · exact Finset.card_le_card Finset.subset_union_left
    · exact Finset.card_le_card Finset.subset_union_right

/-! ## Graphs without a circle expand -/

/-- What can be reached from the node are literals, indirections and calls, and none of them can be reached
from itself. -/
structure Formula (g : Graph) (root : NodeId) : Prop where
  arithmetical : ∀ i, Relation.ReflTransGen g.Edge root i → ∃ c, g.content? i = some c ∧ c.Arithmetical
  acyclic : ∀ i, Relation.ReflTransGen g.Edge root i → ¬ Relation.TransGen g.Edge i i

namespace Formula

variable {root : NodeId}

/-- There is no endless way down. -/
theorem descends (h : g.Formula root) : WellFounded
    fun j i : {i // Relation.ReflTransGen g.Edge root i} => Relation.TransGen g.Edge i.1 j.1 := by
  have : Finite {i // Relation.ReflTransGen g.Edge root i} := by
    have lt (i : {i // Relation.ReflTransGen g.Edge root i}) : i.1 < g.capacity := by
      obtain ⟨c, hc, -⟩ := h.arithmetical i.1 i.2
      exact content_lt hc
    exact Finite.of_injective (fun i => (⟨i.1, lt i⟩ : Fin g.capacity)) fun i j same =>
      Subtype.ext (Fin.mk.inj same)
  have : IsTrans {i // Relation.ReflTransGen g.Edge root i} fun j i => Relation.TransGen g.Edge i.1 j.1 :=
    ⟨fun _ _ _ first second => second.trans first⟩
  have : Std.Irrefl fun j i : {i // Relation.ReflTransGen g.Edge root i} =>
      Relation.TransGen g.Edge i.1 j.1 := ⟨fun i => h.acyclic i.1 i.2⟩
  exact Finite.wellFounded_of_trans_of_irrefl _

theorem exists_expansion (h : g.Formula root) : ∃ e, g.ExpandsTo root e := by
  suffices all : ∀ i : {i // Relation.ReflTransGen g.Edge root i}, ∃ e, g.ExpandsTo i.1 e from
    all ⟨root, .refl⟩
  refine h.descends.fix fun ⟨i, path⟩ ih => ?_
  have next {j : NodeId} (edge : g.Edge i j) : ∃ e, g.ExpandsTo j e :=
    ih ⟨j, path.tail edge⟩ (.single edge)
  obtain ⟨c, hc, arithmetical⟩ := h.arithmetical i path
  cases arithmetical with
  | number aux v => exact ⟨_, .literal (.refl i) hc⟩
  | redirection symbol aux j =>
    obtain ⟨e, he⟩ := next ((edge_redirection hc).mpr rfl)
    exact ⟨e, he.back (.step hc (.refl j))⟩
  | call op aux x y =>
    obtain ⟨a, left⟩ := next ((edge_call hc).mpr (.inl rfl))
    obtain ⟨b, right⟩ := next ((edge_call hc).mpr (.inr rfl))
    exact ⟨_, .call (.refl i) hc left right⟩

end Formula

theorem ExpandsTo.arithmetical (h : g.ExpandsTo i e) : ∃ c, g.content? i = some c ∧ c.Arithmetical := by
  have first {j : NodeId} (leads : g.Leads i j) (hc : ∃ c, g.content? j = some c ∧ c.Arithmetical) :
      ∃ c, g.content? i = some c ∧ c.Arithmetical := by
    cases leads with
    | refl => exact hc
    | step here => exact ⟨_, here, .redirection _ _ _⟩
  cases h with
  | literal leads hv => exact first leads ⟨_, hv, .number _ _⟩
  | call leads hc => exact first leads ⟨_, hc, .call _ _ _ _⟩

/-- There is no endless way down from a node that expands. -/
theorem ExpandsTo.acc (h : g.ExpandsTo i e) : Acc (fun j i => g.Edge i j) i := by
  have first {i j : NodeId} (leads : g.Leads i j) (below : Acc (fun j i => g.Edge i j) j) :
      Acc (fun j i => g.Edge i j) i := by
    induction leads with
    | refl => exact below
    | step here _ ih => exact .intro _ fun k edge => (edge_redirection here).mp edge ▸ ih below
  induction h with
  | literal leads hv => exact first leads (.intro _ fun k edge => absurd edge (edge_number hv))
  | call leads hc _ _ ihl ihr =>
    refine first leads (.intro _ fun k edge => ?_)
    rcases (edge_call hc).mp edge with rfl | rfl
    · exact ihl
    · exact ihr

/-- A node expands if and only if it is at the top of a formula. -/
theorem formula_iff : g.Formula i ↔ ∃ e, g.ExpandsTo i e := by
  refine ⟨Formula.exists_expansion, fun ⟨e, expands⟩ => ⟨fun j path => ?_, fun j path => ?_⟩⟩
  · obtain ⟨e', here, -⟩ := expands.of_path path
    exact here.arithmetical
  · obtain ⟨e', here, -⟩ := expands.of_path path
    exact fun loop => not_transGen_of_acc here.acc (Relation.transGen_swap.mpr loop)

end Graph

end ChoiceGraph
