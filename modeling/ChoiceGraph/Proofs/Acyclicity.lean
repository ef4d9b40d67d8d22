import ChoiceGraph.Proofs.Agreement
import ChoiceGraph.Proofs.Printing
import Mathlib.Data.Set.Card

/-! # Reduction leads to no circle

The invariant of a machine has ranks that fall along links. A machine without a circle has such
ranks: the number of nodes below each. So whatever a reduction does to it, down to a single rewrite,
and however it is interrupted, leaves a machine without a circle. There the readers that follow links
come to an end. -/
namespace ChoiceGraph

namespace Machine

variable {m : Machine} {ρ : Rank} {i j : NodeId}

/-- All that the invariant says, except that there is no circle. -/
structure Regular (m : Machine) : Prop where
  storage : m.graph.Sound
  signature : m.signature.Sound
  frames : ∀ c ∈ m.computations, ∀ f ∈ c.queue, f.node ≠ none
  counted : ∀ c ∈ m.computations, c.Counted
  unfree : ∀ i, m.Live [] i → i ∉ m.graph.free
  fits : ∀ i, m.Live [] i → ∃ c, m.graph.content? i = some c ∧ c.Fits m.signature
  spines : ∀ i c, m.Live [] i → m.graph.content? i = some c → c.Spined m.graph.Misses

theorem Inv.regular (h : m.Inv [] ρ) : m.Regular :=
  ⟨h.storage, h.signature, h.frames, h.counted, h.unfree, h.fits, h.spines⟩

/-- The nodes below a node. -/
def descendants (m : Machine) (i : NodeId) : Set NodeId := {j | Relation.TransGen m.graph.Edge i j}

theorem Regular.descendants_finite (h : m.Regular) (hi : m.Live [] i) :
    (m.descendants i).Finite := by
  refine (Set.finite_lt_nat m.graph.capacity).subset fun j path => ?_
  have live : m.Live [] j := by
    induction path with
    | single edge => exact .step hi edge
    | tail _ edge ih => exact .step ih edge
  obtain ⟨c, hc, -⟩ := h.fits j live
  exact Graph.content_lt hc

/-- Without a circle, there are fewer nodes below a node than below one that links to it. -/
theorem Regular.ranked (h : m.Regular) (acyclic : m.Acyclic) (hi : m.Live [] i)
    (edge : m.graph.Edge i j) : (m.descendants j).ncard < (m.descendants i).ncard := by
  refine Set.ncard_lt_ncard ⟨fun k path => path.head edge, fun sub => ?_⟩ (h.descendants_finite hi)
  exact acyclic j (live_iff.mp (.step hi edge)) (sub (Relation.TransGen.single edge))

theorem Regular.inv (h : m.Regular) (acyclic : m.Acyclic) :
    m.Inv [] fun i => ((m.descendants i).ncard : ℚ) where
  storage := h.storage
  signature := h.signature
  frames := h.frames
  counted := h.counted
  unfree := h.unfree
  fits := h.fits
  spines := h.spines
  ranked i j c hi hc hj := by
    exact_mod_cast h.ranked acyclic hi ((Graph.edge_of_content hc).mpr hj)

theorem sound_iff : m.Sound ↔ m.Regular ∧ m.Acyclic :=
  ⟨fun ⟨_, h⟩ => ⟨h.regular, h.acyclic⟩, fun ⟨regular, acyclic⟩ => ⟨_, regular.inv acyclic⟩⟩

/-- Whatever follows the links of a node comes to an end. -/
structure Ends (m : Machine) (i : NodeId) : Prop where
  skip : ∃ j, m.skip i = .ok j
  spine : ∃ found, m.partialSpine i = .ok found
  show_ : ∃ text, m.showTerm i = .ok text
  equals : ∀ j, m.Reachable j → ∃ b, m.equals i j = .ok b
  order : ∀ j, m.Reachable j → ∃ o, m.order i j = .ok o

theorem Inv.ends (h : m.Inv [] ρ) (hi : m.Reachable i) : m.Ends i := by
  have live := live_iff.mpr hi
  obtain ⟨j, -, skip, -⟩ := h.read_skip live
  obtain ⟨found, spine, -⟩ := h.read_partialSpine live
  exact ⟨⟨j, skip⟩, ⟨found, spine⟩, h.read_showTerm live,
    fun j hj => h.read_equals live (live_iff.mpr hj), fun j hj => h.read_order live (live_iff.mpr hj)⟩

end Machine

open Eff Reduction

/-- What a reduction does: an operation, or one of the rewrites that a step is made of. -/
inductive Activity : Type 1 where
  | operation (op : Operation)
  | pullTab (root : NodeId) (k : Nat)
  | pullBind (root : NodeId) (k : Nat)
  | narrow (var : NodeId)

namespace Activity

variable {start m m' : Machine} {ρ : Rank} {root : NodeId} {k : Nat} {a : Activity}

/-- Choices are pulled from below a node; variables are narrowed. -/
def Applies (m : Machine) : Activity → Prop
  | operation op => op.Applies m
  | pullTab root k | pullBind root k => m.Reachable root ∧
      (∃ sym, m.symbol root = .ok sym ∧ k < sym.arity) ∧
      ∃ p, m.successorSkip root k = .ok p ∧ m.tag p = .ok .choice
  | narrow var => m.Reachable var ∧ m.tag var = .ok .free

/-- The machine that is left, however it ends. -/
def run (m : Machine) : Activity → Except Fault Machine
  | operation op => op.run m
  | pullTab root k => Operation.run.plain m (Reduction.pullTab root k)
  | pullBind root k => Operation.run.plain m (Reduction.pullBind root k)
  | narrow var => Operation.run.plain m (Reduction.narrow var)

open Machine

theorem choiceBelow (h : m.Inv [] ρ) (applies : (pullTab root k).Applies m) :
    m.Live [] root ∧ ∃ c p symbol id left right, m.graph.content? root = some c ∧
      m.ChoiceBelow root c k p symbol id left right := by
  obtain ⟨reachable, ⟨sym, symbol, lt⟩, p, skip, tag⟩ := applies
  have live := live_iff.mpr reachable
  obtain ⟨c, t, hc, hk⟩ := h.argument live symbol lt
  obtain ⟨p', d, skip', leads, hd, -⟩ := h.read_successorSkip live hc hk
  cases skip.symm.trans skip'
  have below := h.below live hc (List.mem_of_getElem? hk) leads
  have choice := Except.ok.inj ((TermGraph.tag_content (t := m.toTermGraph) hd).symm.trans tag)
  obtain ⟨symbol, id, left, right, rfl, kind⟩ := (h.fitsAt below.1 hd).of_choice choice
  exact ⟨live, c, p, symbol, id, left, right, hc, ⟨t, hk, leads⟩, hd, kind⟩

/-- An activity on a machine without a circle ends without a fault and makes none. -/
theorem run_sound (h : m.Sound) (a : Activity) (applies : a.Applies m) :
    ∃ m', a.run m = .ok m' ∧ m'.Sound := by
  cases a with
  | operation op => exact h.run op applies
  | pullTab root k =>
    obtain ⟨ρ, h⟩ := h
    obtain ⟨live, c, p, symbol, id, left, right, hc, below⟩ := choiceBelow h applies
    exact left_of_keeps (pullTab_keeps h live hc below (h.site live hc).loose)
  | pullBind root k =>
    obtain ⟨ρ, h⟩ := h
    obtain ⟨live, c, p, symbol, id, left, right, hc, below⟩ := choiceBelow h applies
    exact left_of_keeps (pullBind_keeps h live hc below (h.site live hc).loose)
  | narrow var =>
    obtain ⟨ρ, h⟩ := h
    obtain ⟨reachable, tag⟩ := applies
    have live := live_iff.mpr reachable
    obtain ⟨c, hc, -⟩ := h.fits var live
    have free := Except.ok.inj ((TermGraph.tag_content (t := m.toTermGraph) hc).symm.trans tag)
    exact left_of_keeps (s := .below 0) (narrow_keeps h live hc free)

/-- A machine that activities lead to, or that a search hands to its visitor on the way. -/
inductive Reaches (start : Machine) : Machine → Prop where
  | start : Reaches start start
  | perform {m m' : Machine} (a : Activity) (h : Reaches start m) (applies : a.Applies m)
    (run : a.run m = .ok m') : Reaches start m'
  | visit {m m' : Machine} {fuel : Nat} {root : NodeId} {st : Stats} {o : Schedule.Outcome}
    (h : Reaches start m) (reachable : m.Reachable root)
    (visits : Schedule.Visits (Reduction.normalize fuel) (Schedule.enter (some root) m) st o m') :
    Reaches start m'

theorem Reaches.sound (h : Reaches start m) (sound : start.Sound) : m.Sound := by
  induction h with
  | start => exact sound
  | perform a _ applies run ih =>
    obtain ⟨m', run', sound⟩ := run_sound ih a applies
    cases run.symm.trans run'
    exact sound
  | visit _ reachable visits ih =>
    obtain ⟨ρ, h⟩ := ih
    exact visits.sound (reducer_sound _).normal
      ⟨ρ, Schedule.enter_sound h (live_iff.mpr reachable)⟩

theorem Reaches.of_run (h : Operation.Run start m) : Reaches start m := by
  induction h with
  | start => exact .start
  | step op _ applies run ih => exact .perform (.operation op) ih applies run

/-- From a machine without a circle, reduction leads to no other, and there all readers end. -/
theorem reaches_acyclic (regular : start.Regular) (acyclic : start.Acyclic)
    (h : Reaches start m) : m.Regular ∧ m.Acyclic ∧ (∀ i, m.Reachable i → m.Ends i) ∧
      ∀ a : Activity, a.Applies m → ∃ m', a.run m = .ok m' ∧ m'.Acyclic := by
  have sound := h.sound (sound_iff.mpr ⟨regular, acyclic⟩)
  obtain ⟨ρ, inv⟩ := sound
  refine ⟨inv.regular, inv.acyclic, fun i => inv.ends, fun a applies => ?_⟩
  obtain ⟨m', run, ρ', inv'⟩ := run_sound ⟨ρ, inv⟩ a applies
  exact ⟨m', run, inv'.acyclic⟩

/-- `1 + (2 ? 3)`, whose choice is pulled above the sum. -/
theorem reaches_acyclic_sum : ∃ m m', Operation.Run (.ofConfig (.fixedPool 64)) m ∧
    (pullTab 4 1).Applies m ∧ (pullTab 4 1).run m = .ok m' ∧ m'.Acyclic ∧
    ∃ text, m'.showTerm 4 = .ok text := by
  let p := Prelude.standard
  let facts : Machine → Bool := fun m => decide (m.roots.contains (some 4) = true ∧
    (m.symbol 4).toOption.map Symbol.arity = some 2 ∧ (m.successorSkip 4 1).toOption = some 3 ∧
    (m.tag 3).toOption = some .choice) &&
      ((pullTab 4 1).run m).toOption.any fun m' => m'.roots.contains (some 4)
  have result : (Operation.script (.ofConfig (.fixedPool 64))
      [.int 1, .int 2, .int 3, .choice 1 2, .make p.add [0, 3]]).map facts = some true := by
    decide +kernel
  obtain ⟨m, ran, facts⟩ := Option.map_eq_some_iff.mp result
  obtain ⟨before, after⟩ := Bool.and_eq_true_iff.mp facts
  obtain ⟨rooted, arity, skip, tag⟩ := of_decide_eq_true before
  have read : ∀ {α : Type} {e : Except Fault α} {x : α}, e.toOption = some x → e = .ok x := by
    intro α e x h
    cases e with
    | ok y => exact congrArg Except.ok (Option.some.inj h)
    | error f => cases h
  obtain ⟨sym, symbol, lt⟩ := Option.map_eq_some_iff.mp arity
  have run : Operation.Run (.ofConfig (.fixedPool 64)) m := Operation.Run.start.script ran
  have applies : (pullTab 4 1).Applies m :=
    ⟨Operation.reachable_of_contains rooted, ⟨sym, read symbol, by omega⟩, 3, read skip, read tag⟩
  obtain ⟨m', pulled, rooted'⟩ := (Option.any_eq_true _ _).mp after
  have start := sound_iff.mp (Machine.ofConfig_sound (.fixedPool 64))
  have done := reaches_acyclic start.1 start.2
    (.perform (.pullTab 4 1) (.of_run run) applies (read pulled))
  exact ⟨m, m', run, applies, read pulled, done.2.1,
    (done.2.2.1 4 (Operation.reachable_of_contains rooted')).show_⟩

end Activity

end ChoiceGraph
