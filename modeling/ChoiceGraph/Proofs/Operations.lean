import ChoiceGraph.Proofs.NestedSearches
import ChoiceGraph.Proofs.WellFormed

/-! # Operations on a machine

An operation is applied to nodes that the root set reaches. It leaves a machine however it ends,
unless it stops at a fault, which none does. New nodes are put on the root stack, from where they
may be taken again. -/
namespace ChoiceGraph

/-- A function or a constructor. -/
def Symbol.IsProper (s : Symbol) : Prop :=
  s.kind = .function ∨ ∃ type index, s.kind = .constructor type index

theorem Signature.Sound.le_of_proper {s : Signature} (h : s.Sound) {id : SymbolId} {sym : Symbol}
    (found : s.symbol? id = some sym) (proper : sym.IsProper) : 10 ≤ id := by
  by_contra lt
  have lt : id < 10 := Nat.lt_of_not_le lt
  rw [h.prelude id (Nat.lt_trans lt (by decide))] at found
  have table : ∀ id < 10, (Signature.standard.symbol? id).map Symbol.kind = some .builtin ∨
      (Signature.standard.symbol? id).map Symbol.kind = some .partialApplication := by decide
  have kind := table id lt
  rw [found, Option.map_some, Option.some.injEq, Option.some.injEq] at kind
  rcases proper with proper | ⟨type, index, proper⟩
  · rcases kind with kind | kind <;> cases kind.symm.trans proper
  · rcases kind with kind | kind <;> cases kind.symm.trans proper

open Eff

/-- The operations of a machine, with their arguments. -/
inductive Operation : Type 1 where
  | int (v : Int64)
  | float (v : Double)
  | char (v : Char)
  | fail
  | forward (next : NodeId)
  | choice (left right : NodeId)
  | free (type : Option TypeId)
  | functionValue (id : SymbolId)
  | make (id : SymbolId) (successors : List NodeId)
  | headStep (fuel : Nat) (i : NodeId)
  | normalStep (fuel : Nat) (i : NodeId)
  | headArg (fuel : Nat) (i : NodeId) (k : Nat)
  | normalArg (fuel : Nat) (i : NodeId) (k : Nat)
  | normalize (fuel : Nat) (i : NodeId)
  | headNormalize (fuel : Nat) (i : NodeId)
  | evaluate {σ : Type} (fuel : Nat) (visit : Schedule.Visitor σ) (i : NodeId) (s : σ)
  | collect
  | root (i : NodeId)
  | unroot
  | defineType (name : String) (constructors : List (String × Nat))
  | defineFunction (name : String) (arity : Nat) (head : HeadStep)

namespace Operation

/-- What an operation may be applied to. A function runs a step of the machine itself that reads no
more arguments than there are. -/
def Applies (m : Machine) : Operation → Prop
  | int _ | float _ | char _ | fail | collect | unroot => True
  | forward i | root i => m.Reachable i
  | choice left right => m.Reachable left ∧ m.Reachable right
  | free type => ∀ t ∈ type, t < m.signature.types.size
  | functionValue id => ∃ sym, m.signature.symbol? id = some sym ∧ sym.IsProper
  | make id ls => ∃ sym, m.signature.symbol? id = some sym ∧ sym.IsProper ∧
      ls.length = sym.arity ∧ ∀ j ∈ ls, m.Reachable j
  | headStep _ i | normalStep _ i | normalize _ i | headNormalize _ i => m.Reachable i
  | headArg _ i k | normalArg _ i k => m.Reachable i ∧ ∃ sym, m.symbol i = .ok sym ∧ k < sym.arity
  | evaluate _ visit i _ => m.Reachable i ∧ ∀ m i s, ∃ r, visit m i s = .ok r
  | defineType _ constructors => constructors.length ≤ 2 ^ 31
  | defineFunction _ arity head => ∃ n, head.reads? = some n ∧ n ≤ arity

/-- The machine that an effect leaves, however it ends, or the fault it stops at. -/
def left {α : Type} (after : α → Machine → Machine) :
    EStateM.Result Stop Machine α → Except Fault Machine
  | .ok a m => .ok (after a m)
  | .error (.fault f) _ => .error f
  | .error _ m => .ok m

/-- The machine that an operation leaves. -/
def run (m : Machine) : Operation → Except Fault Machine
  | int v => rooted (makeInt v)
  | float v => rooted (makeFloat v)
  | char v => rooted (makeChar v)
  | fail => rooted makeFail
  | forward i => rooted (makeForward (some i))
  | choice l r => rooted (makeChoice (some l) (some r))
  | free type => rooted (makeFree type)
  | functionValue id => rooted (makeFunctionValue id)
  | make id ls => rooted (Eff.make id (ls.map some))
  | headStep fuel i => plain (Machine.headStep fuel i)
  | normalStep fuel i => plain (Reduction.normalStep (Reduction.reducer fuel) i)
  | headArg fuel i k => plain (Machine.headArg fuel i k)
  | normalArg fuel i k => plain (Machine.normalArg fuel i k)
  | normalize fuel i => plain (Machine.normalize fuel i)
  | headNormalize fuel i => plain (Machine.headNormalize fuel i)
  | evaluate fuel visit i s => left (fun _ m => m) (m.evaluate fuel visit i s).ending
  | collect => plain Eff.collect
  | root i => .ok (m.push [some i])
  | unroot => .ok (m.pop 1)
  | defineType name constructors =>
    .ok { m with signature := (m.signature.defineType name constructors).2.2 }
  | defineFunction name arity head =>
    .ok { m with signature := (m.signature.defineFunction name arity head).2 }
where
  rooted (e : Eff NodeId) : Except Fault Machine := left (fun i m => m.push [some i]) (e m)
  plain {α : Type} (e : Eff α) : Except Fault Machine := left (fun _ m => m) (e m)

/-- A machine that operations lead to, each applied to what it may be applied to. -/
inductive Run (start : Machine) : Machine → Prop where
  | start : Run start start
  | step {m m' : Machine} (op : Operation) (h : Run start m) (applies : op.Applies m)
    (run : op.run m = .ok m') : Run start m'

end Operation

namespace Machine

variable {m : Machine} {ρ : Rank} {i root t : NodeId} {c : Content} {k : Nat} {α : Type}

open Operation Reduction

/-! ## What each operation leaves -/

theorem left_of_meets {after : α → Machine → Machine} {e : Eff α}
    (h : e.Meets m (fun a m' => (after a m').Sound) Sound) :
    ∃ m', left after (e m) = .ok m' ∧ m'.Sound := by
  unfold Meets at h
  cases run : e m with
  | ok a m' =>
    rw [run] at h
    exact ⟨_, rfl, h⟩
  | error stop m' =>
    rw [run] at h
    cases stop with
    | fault _ => exact h.elim
    | _ => exact ⟨_, rfl, h⟩

theorem left_of_ends {σ : Type} {found : Schedule.Found σ} (h : found.Ends Sound) :
    ∃ m', left (fun _ m => m) found.ending = .ok m' ∧ m'.Sound := by
  unfold Schedule.Found.Ends at h
  cases run : found.ending with
  | ok st m' =>
    rw [run] at h
    exact ⟨_, rfl, h⟩
  | error stop m' =>
    rw [run] at h
    cases stop with
    | fault _ => exact h.elim
    | _ => exact ⟨_, rfl, h⟩

theorem left_of_makes {e : Eff NodeId} {s : Scope} (h : e.Makes s m ρ) :
    ∃ m', Operation.run.rooted m e = .ok m' ∧ m'.Sound := by
  refine left_of_meets (Meets.mono h (fun i m' ⟨ρ', ev⟩ => ⟨ρ', ?_⟩) fun m' ⟨ρ', ev⟩ => ⟨ρ', ev.inv⟩)
  refine ev.inv.shrink rfl rfl ev.inv.frames ev.inv.counted fun j => ?_
  refine live_of_roots rfl fun j hj => ?_
  simp only [push, rootSet, List.reverse_cons, List.reverse_nil, List.nil_append,
    List.cons_append, List.map_nil, List.append_nil, List.mem_cons] at hj
  rcases hj with hj | hj
  · cases hj
    exact live_held List.mem_cons_self
  · exact live_root hj

theorem left_of_keeps {e : Eff α} {s : Scope} {Q : α → Machine → Rank → Prop}
    (h : e.Keeps s m ρ Q) : ∃ m', Operation.run.plain m e = .ok m' ∧ m'.Sound :=
  left_of_meets (Meets.mono h (fun _ _ ⟨ρ', ev, _⟩ => ⟨ρ', ev.inv⟩) fun _ ⟨ρ', ev⟩ => ⟨ρ', ev.inv⟩)

/-- An effect that keeps one more root for a live node. -/
theorem left_of_rooted {e : Eff α} {s : Scope} {Q : α → Machine → Rank → Prop}
    (h : e.Keeps s (m.push [some i]) ρ Q) :
    ∃ m', Operation.run.plain m (withRoots [some i] e) = .ok m' ∧ m'.Sound :=
  left_of_keeps (keeps_withRoots h)

theorem live_pushed (hi : m.Live [] i) : (m.push [some i]).Live [] i :=
  (live_push hi.rooted).mpr hi

theorem Inv.pushed (h : m.Inv [] ρ) (hi : m.Live [] i) : (m.push [some i]).Inv [] ρ :=
  h.push hi.rooted

/-- Any live node is a site in a scope that is made for it. -/
theorem Inv.site (h : m.Inv [] ρ) (hi : m.Live [] i) (hc : m.graph.content? i = some c) :
    m.Site ⟨ρ i, (· = i)⟩ ρ i c := ⟨h, hi, hc, rfl, .inr rfl⟩

theorem Inv.argument (h : m.Inv [] ρ) (hi : m.Live [] i) {sym : Symbol}
    (symbol : m.symbol i = .ok sym) (lt : k < sym.arity) :
    ∃ c t, m.graph.content? i = some c ∧ c.links[k]? = some t := by
  obtain ⟨c, hc, -⟩ := h.fits i hi
  obtain ⟨sym', found, -, length⟩ := h.symbolAt hi hc
  have same := (TermGraph.symbol_content (t := m.toTermGraph) hc found).symm.trans symbol
  cases same
  exact ⟨c, _, hc, List.getElem?_eq_getElem (length ▸ lt)⟩

/-- An operation on a sound machine leaves a sound machine. -/
theorem Sound.run (h : m.Sound) (op : Operation) (applies : op.Applies m) :
    ∃ m', op.run m = .ok m' ∧ m'.Sound := by
  obtain ⟨ρ, h⟩ := h
  let s : Scope := .below 0
  cases op with
  | int v => exact left_of_makes (s := s) (makeInt_makes h v)
  | float v => exact left_of_makes (s := s) (makeFloat_makes h v)
  | char v => exact left_of_makes (s := s) (makeChar_makes h v)
  | fail => exact left_of_makes (s := s) (makeFail_makes h)
  | forward i => exact left_of_makes (s := s) (makeForward_makes h (live_iff.mpr applies))
  | choice l r =>
    exact left_of_makes (s := s)
      (makeChoice_makes h (live_iff.mpr applies.1) (live_iff.mpr applies.2))
  | free type =>
    exact left_of_makes (s := s) (makeFree_makes h fun t ht =>
      ⟨_, Array.getElem?_eq_getElem (applies t ht)⟩)
  | functionValue id =>
    obtain ⟨sym, found, proper⟩ := applies
    exact left_of_makes (s := s) (makeFunctionValue_makes h (h.signature.le_of_proper found proper))
  | make id ls =>
    obtain ⟨sym, found, proper, length, live⟩ := applies
    exact left_of_makes (s := s) (makeProper_makes h (h.signature.le_of_proper found proper) found
      length fun j hj => live_iff.mpr (live j hj))
  | headStep fuel i =>
    exact left_of_keeps (headStep_keeps (reducer_sound fuel) h (live_iff.mpr applies))
  | normalStep fuel i =>
    exact left_of_keeps (normalStep_keeps (reducer_sound fuel) h (live_iff.mpr applies))
  | headArg fuel i k =>
    have live := live_iff.mpr applies.1
    obtain ⟨sym, symbol, lt⟩ := applies.2
    obtain ⟨c, t, hc, hk⟩ := h.argument live symbol lt
    exact left_of_rooted (headArg_keeps (reducer_sound fuel)
      ((h.pushed live).site (live_pushed live) hc) hk)
  | normalArg fuel i k =>
    have live := live_iff.mpr applies.1
    obtain ⟨sym, symbol, lt⟩ := applies.2
    obtain ⟨c, t, hc, hk⟩ := h.argument live symbol lt
    exact left_of_rooted (normalArg_keeps (reducer_sound fuel)
      ((h.pushed live).site (live_pushed live) hc) hk)
  | normalize fuel i =>
    have live := live_iff.mpr applies
    exact left_of_rooted ((reducer_sound fuel).normal _ ρ i (h.pushed live) (live_pushed live))
  | headNormalize fuel i =>
    have live := live_iff.mpr applies
    exact left_of_rooted ((reducer_sound fuel).head _ ρ i (h.pushed live) (live_pushed live))
  | evaluate fuel visit i s =>
    obtain ⟨reachable, total⟩ := applies
    have ends := Schedule.search_ends (reducer_sound fuel).normal
      (fun m i s _ _ => total m i s) fuel s ⟨ρ, h⟩ (live_iff.mpr reachable)
    exact left_of_ends ends
  | collect =>
    exact left_of_meets ((collect_meets h).mono (fun _ _ q => ⟨ρ, q.inv h⟩) fun _ h => h)
  | root i => exact ⟨_, rfl, ρ, h.pushed (live_iff.mpr applies)⟩
  | unroot =>
    exact ⟨_, rfl, ρ, h.shrink rfl rfl h.frames h.counted fun _ hi => live_pop hi⟩
  | defineType name constructors =>
    obtain ⟨ext, types⟩ := h.signature.defineType_extends name applies
    exact ⟨_, rfl, ρ, h.resign (h.signature.defineType name applies) ext types⟩
  | defineFunction name arity head =>
    obtain ⟨n, reads, le⟩ := applies
    exact ⟨_, rfl, ρ, h.resign (h.signature.defineFunction name reads le)
      Signature.register_extends fun _ _ ht => ht⟩

end Machine

namespace Operation

variable {start m m' : Machine} {op : Operation} {ops : List Operation}

theorem Run.sound {config : Config} (run : Run start m) (new : Machine.new config = .ok start) :
    m.Sound := by
  induction run with
  | start => exact Machine.new_sound new
  | step op _ applies run ih =>
    obtain ⟨m', run', sound⟩ := ih.run op applies
    cases run.symm.trans run'
    exact sound

/-! ## Scripts -/

/-- A check that an operation applies, to nodes on the root stack. -/
def check (m : Machine) : Operation → Bool
  | int _ | float _ | char _ | fail | collect | unroot => true
  | forward i | root i | headStep _ i | normalStep _ i | normalize _ i | headNormalize _ i =>
    m.roots.contains (some i)
  | choice left right => m.roots.contains (some left) && m.roots.contains (some right)
  | free type => type.all fun t => decide (t < m.signature.types.size)
  | functionValue id => (m.signature.symbol? id).any proper
  | make id ls => (m.signature.symbol? id).any fun sym =>
      proper sym && ls.length == sym.arity && ls.all fun j => m.roots.contains (some j)
  | headArg _ i k | normalArg _ i k => m.roots.contains (some i) &&
      ((m.symbol i).toOption.any fun sym => decide (k < sym.arity))
  | evaluate .. => false
  | defineType _ constructors => decide (constructors.length ≤ 2 ^ 31)
  | defineFunction _ arity head => head.reads?.any fun n => decide (n ≤ arity)
where
  proper (sym : Symbol) : Bool :=
    match sym.kind with
    | .function => true
    | .constructor _ _ => true
    | _ => false

/-- The machine that some operations lead to, each checked before it is run. -/
def script (m : Machine) : List Operation → Option Machine
  | [] => some m
  | op :: ops => if op.check m then (op.run m).toOption.bind (script · ops) else none

theorem reachable_of_contains {i : NodeId} (h : m.roots.contains (some i) = true) :
    m.Reachable i :=
  .root (List.mem_append_left _ (List.contains_iff_mem.mp h))

theorem proper_of_check {sym : Symbol} (h : check.proper sym = true) : sym.IsProper := by
  unfold check.proper at h
  split at h
  · next kind => exact .inl kind
  · next type index kind => exact .inr ⟨type, index, kind⟩
  · cases h

theorem applies_of_check (h : op.check m = true) : op.Applies m := by
  cases op with
  | int | float | char | fail | collect | unroot => trivial
  | forward | root | headStep | normalStep | normalize | headNormalize =>
    exact reachable_of_contains h
  | choice left right =>
    obtain ⟨hl, hr⟩ := Bool.and_eq_true_iff.mp h
    exact ⟨reachable_of_contains hl, reachable_of_contains hr⟩
  | free type =>
    intro t ht
    cases ht
    exact of_decide_eq_true h
  | functionValue id =>
    obtain ⟨sym, found, proper⟩ := (Option.any_eq_true _ _).mp h
    exact ⟨sym, found, proper_of_check proper⟩
  | make id ls =>
    obtain ⟨sym, found, fits⟩ := (Option.any_eq_true _ _).mp h
    obtain ⟨fits, rooted⟩ := Bool.and_eq_true_iff.mp fits
    obtain ⟨proper, length⟩ := Bool.and_eq_true_iff.mp fits
    exact ⟨sym, found, proper_of_check proper, eq_of_beq length,
      fun j hj => reachable_of_contains (List.all_eq_true.mp rooted j hj)⟩
  | headArg fuel i k | normalArg fuel i k =>
    obtain ⟨rooted, reads⟩ := Bool.and_eq_true_iff.mp h
    obtain ⟨sym, found, lt⟩ := (Option.any_eq_true _ _).mp reads
    refine ⟨reachable_of_contains rooted, sym, ?_, of_decide_eq_true lt⟩
    cases read : m.symbol i with
    | ok sym' =>
      rw [read] at found
      cases found
      rfl
    | error e =>
      rw [read] at found
      cases found
  | evaluate => cases h
  | defineType name constructors =>
    have le : constructors.length ≤ 2 ^ 31 := of_decide_eq_true h
    exact le
  | defineFunction name arity head =>
    obtain ⟨n, reads, le⟩ := (Option.any_eq_true _ _).mp h
    exact ⟨n, reads, of_decide_eq_true le⟩

/-- The first operation of a script applies, and the others follow it. -/
theorem script_cons {op : Operation} (h : script m (op :: ops) = some m') :
    ∃ m₁, op.Applies m ∧ op.run m = .ok m₁ ∧ script m₁ ops = some m' := by
  unfold script at h
  split at h
  · next checked =>
    obtain ⟨m₁, ran, rest⟩ := Option.bind_eq_some_iff.mp h
    refine ⟨m₁, applies_of_check checked, ?_, rest⟩
    cases result : op.run m with
    | ok m₂ =>
      rw [result] at ran
      cases ran
      rfl
    | error f =>
      rw [result] at ran
      cases ran
  · cases h

theorem Run.script (run : Run start m) (h : script m ops = some m') : Run start m' := by
  induction ops generalizing m with
  | nil =>
    cases h
    exact run
  | cons op ops ih =>
    obtain ⟨m₁, applies, first, rest⟩ := script_cons h
    exact ih (.step op run applies first) rest

end Operation

/-! ## Relations that operations keep to -/

/-- A relation that operations keep to: whole searches and new symbols included. -/
class Operation.Keeping (R : Machine → Machine → Prop) : Prop extends Schedule.Nests R where
  evaluated : ∀ {σ : Type} (fuel : Nat) (visit : Schedule.Visitor σ) (i : NodeId) (s : σ) (m : Machine),
    (m.evaluate fuel visit i s).Moves R m
  defined : ∀ (m : Machine) (signature : Signature), R m { m with signature := signature }

namespace Operation

open Eff Machine Reduction

variable {R : Machine → Machine → Prop} [Keeping R] {m m' start : Machine} {α : Type}

theorem left_moves (after : α → Machine → Machine) {e : Eff α} (h : e.Moves R)
    (keeps : ∀ a (m : Machine), R m (after a m)) (run : left after (e m) = .ok m') : R m m' := by
  cases ran : e m with
  | ok a m₁ =>
    rw [ran] at run
    cases run
    exact trans_of R (h.ok ran) (keeps a m₁)
  | error stop m₁ =>
    rw [ran] at run
    cases stop with
    | fault f => cases run
    | _ =>
      cases run
      exact h.error ran

theorem rooted_moves {e : Eff NodeId} (h : e.Moves R) (run : Operation.run.rooted m e = .ok m') :
    R m m' :=
  left_moves (fun i m => m.push [some i]) h (fun _ m => Permissive.roots m _) run

theorem plain_moves {e : Eff α} (h : e.Moves R) (run : Operation.run.plain m e = .ok m') : R m m' :=
  left_moves (fun _ m => m) h (fun _ m => refl_of R m) run

theorem evaluate_moves {σ : Type} {visit : Schedule.Visitor σ} {fuel : Nat} {i : NodeId} {s : σ}
    (run : left (fun _ m => m) (m.evaluate fuel visit i s).ending = .ok m') : R m m' := by
  have searched : (m.evaluate fuel visit i s).Moves R m := Keeping.evaluated fuel visit i s m
  unfold Schedule.Found.Moves at searched
  cases ended : (m.evaluate fuel visit i s).ending with
  | ok st m₁ =>
    rw [ended] at run searched
    cases run
    exact searched
  | error stop m₁ =>
    rw [ended] at run searched
    cases stop with
    | fault f => cases run
    | _ =>
      cases run
      exact searched

/-- This holds whatever an operation is applied to. -/
theorem run_moves (op : Operation) (run : op.run m = .ok m') : R m m' := by
  have reduces := fun fuel => reducer_moves R fuel
  cases op with
  | int v => exact rooted_moves (makeData_moves _ _ _) run
  | float v => exact rooted_moves (makeData_moves _ _ _) run
  | char v => exact rooted_moves (makeData_moves _ _ _) run
  | fail => exact rooted_moves (make_moves _ _) run
  | forward i => exact rooted_moves (make_moves _ _) run
  | choice l r => exact rooted_moves (makeChoice_moves _ _) run
  | free type => exact rooted_moves (makeFree_moves type) run
  | functionValue id => exact rooted_moves (makeFunctionValue_moves id) run
  | make id ls => exact rooted_moves (make_moves _ _) run
  | headStep fuel i =>
    exact plain_moves (tick_moves.bind fun _ => headWork_moves (reduces fuel) i) run
  | normalStep fuel i =>
    exact plain_moves (tick_moves.bind fun _ => normalWork_moves (reduces fuel) i) run
  | headArg fuel i k => exact plain_moves (withRoots_moves (headArg_moves (reduces fuel) i k)) run
  | normalArg fuel i k => exact plain_moves (withRoots_moves (normalArg_moves (reduces fuel) i k)) run
  | normalize fuel i => exact plain_moves (withRoots_moves ((reduces fuel).normal i)) run
  | headNormalize fuel i => exact plain_moves (withRoots_moves ((reduces fuel).head i)) run
  | evaluate fuel visit i s => exact evaluate_moves run
  | collect => exact plain_moves collect_moves run
  | root i =>
    cases run
    exact Permissive.roots m _
  | unroot =>
    cases run
    exact Permissive.roots m _
  | defineType name constructors =>
    cases run
    exact Keeping.defined m _
  | defineFunction name arity head =>
    cases run
    exact Keeping.defined m _

theorem Run.moves (run : Run start m) : R start m := by
  induction run with
  | start => exact refl_of R start
  | step op _ _ run ih => exact trans_of R ih (run_moves op run)

end Operation

end ChoiceGraph
