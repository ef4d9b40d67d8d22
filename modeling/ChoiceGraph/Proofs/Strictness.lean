import ChoiceGraph.Proofs.Footprint

/-! # Strict steps

A head step of the prelude first forces the arguments that it is strict in, from left to right, and
then acts on their values. What it does then depends on the term graph alone and is confined to the
call. The exceptions are the choice function, and a unification of two variables. -/
namespace ChoiceGraph.Reduction

open Eff Machine

/-- An argument that a step needs in head normal form, or in normal form. -/
inductive Demand where
  | head (k : Nat)
  | normal (k : Nat)

def Demand.index : Demand → Nat
  | head k => k
  | normal k => k

/-- Brings an argument of a node into the form that is demanded. -/
def Demand.meet (r : Reducer) (root : NodeId) : Demand → Eff Argument
  | head k => headArg r root k
  | normal k => normalArg r root k

/-- Forces arguments one after the other and acts on their values, unless the node is taken over. -/
def force (r : Reducer) (root : NodeId) : List Demand → (List NodeId → Eff Unit) → Eff Unit
  | [], act => act []
  | d :: ds, act => do
    match ← d.meet r root with
    | .taken => pure ()
    | .value x => force r root ds fun xs => act (x :: xs)

/-- An action on two values; of any other number it makes nothing. -/
def onPair (body : NodeId → NodeId → Eff Unit) : List NodeId → Eff Unit
  | [x, y] => body x y
  | _ => pure ()

/-- An action on one value. -/
def onOne (body : NodeId → Eff Unit) : List NodeId → Eff Unit
  | [x] => body x
  | _ => pure ()

/-- A kind of head step that forces these arguments and then acts like this. -/
inductive Strict (root : NodeId) : HeadStep → List Demand → (List NodeId → Eff Unit) → Prop where
  | plain {h : HeadStep} {demands : List Demand} {act : List NodeId → Eff Unit} (other : h ≠ .unify)
    (eq : ∀ r, runHead r root h = force r root demands act)
    (apart : (demands.map Demand.index).Nodup) (confined : ∀ xs, (act xs).Confined (Only root)) :
    Strict root h demands act
  /-- Two variables are not forced, but bound. -/
  | unify : Strict root .unify [.head 0, .head 1] (onPair (unifyHeads root))

variable {root : NodeId} {h : HeadStep} {body : NodeId → NodeId → Eff Unit} {act : NodeId → Eff Unit}

theorem onPair_confined (confined : ∀ x y, (body x y).Confined (Only root)) (xs : List NodeId) :
    (onPair body xs).Confined (Only root) := by
  unfold onPair
  split
  · exact confined _ _
  · exact confined_pure ()

theorem onOne_confined (confined : ∀ x, (act x).Confined (Only root)) (xs : List NodeId) :
    (onOne act xs).Confined (Only root) := by
  unfold onOne
  split
  · exact confined _
  · exact confined_pure ()

theorem strict_heads (other : h ≠ .unify) (confined : ∀ x y, (body x y).Confined (Only root))
    (eq : ∀ r, runHead r root h =
      withHead r root 0 fun x => withHead r root 1 fun y => body x y) :
    ∃ demands act, Strict root h demands act :=
  ⟨[.head 0, .head 1], onPair body, .plain other eq (by decide) (onPair_confined confined)⟩

theorem strict_normals (other : h ≠ .unify) (confined : ∀ x y, (body x y).Confined (Only root))
    (eq : ∀ r, runHead r root h =
      withNormal r root 0 fun x => withNormal r root 1 fun y => body x y) :
    ∃ demands act, Strict root h demands act :=
  ⟨[.normal 0, .normal 1], onPair body, .plain other eq (by decide) (onPair_confined confined)⟩

theorem strict_head (other : h ≠ .unify) (k : Nat) (confined : ∀ x, (act x).Confined (Only root))
    (eq : ∀ r, runHead r root h = withHead r root k act) :
    ∃ demands act, Strict root h demands act :=
  ⟨[.head k], onOne act, .plain other eq (List.nodup_singleton k) (onOne_confined confined)⟩

theorem strict_none (other : h ≠ .unify) {done : Eff Unit} (confined : done.Confined (Only root))
    (eq : ∀ r, runHead r root h = done) : ∃ demands act, Strict root h demands act :=
  ⟨[], fun _ => done, .plain other eq List.nodup_nil fun _ => confined⟩

/-! ## What the steps do with their arguments -/

variable {S : NodeId → Prop} {α β : Type} {f : α → Eff β}

/-- Reading from the term graph before a confined effect. -/
theorem confined_read (r : TermGraph → Except Fault α) (hf : ∀ a, (f a).Confined S) :
    (look (fun m => r m.toTermGraph) >>= f).Confined S :=
  (confined_look fun _ _ same => congrArg r same).bind hf

theorem succeed_confined (root : NodeId) : (succeed root).Confined (Only root) :=
  rewriteTo_confined (only_self root) _ _

theorem strict_arithmetic (root : NodeId) (op : Arithmetic) :
    ∃ demands act, Strict root (.arithmetic op) demands act := by
  refine strict_heads nofun (fun x y => ?_) fun r => rfl
  refine confined_read (·.literal? x) fun a => confined_read (·.literal? y) fun b => ?_
  split
  · split
    · exact rewriteInt_confined (only_self root) _
    · exact rewriteFail_confined (only_self root)
  · exact rewriteFail_confined (only_self root)

theorem strict_equals (root : NodeId) : ∃ demands act, Strict root .equals demands act := by
  refine strict_normals nofun (fun x y => ?_) fun r => rfl
  exact confined_read (·.equals x y) fun same => rewriteTo_confined (only_self root) _ _

theorem strict_compare (root : NodeId) : ∃ demands act, Strict root .compare demands act := by
  refine strict_normals nofun (fun x y => ?_) fun r => rfl
  exact confined_read (·.order x y) fun order => rewriteTo_confined (only_self root) _ _

theorem strict_conjunction (root : NodeId) :
    ∃ demands act, Strict root .conjunction demands act :=
  strict_heads nofun (fun _ _ => succeed_confined root) fun _ => rfl

theorem strict_guard (root : NodeId) : ∃ demands act, Strict root .guard demands act := by
  refine strict_head nofun 0 (fun x => ?_) fun r => rfl
  exact confined_read (·.successor root 1) fun l => rewriteForward_confined (only_self root) l

theorem strict_ensureNotFree (root : NodeId) :
    ∃ demands act, Strict root .ensureNotFree demands act :=
  strict_head nofun 0 (fun x => rewriteForward_confined (only_self root) (some x)) fun _ => rfl

theorem strict_strictApply (root : NodeId) :
    ∃ demands act, Strict root .strictApply demands act := by
  refine strict_head nofun 1 (fun x => ?_) fun r => rfl
  exact confined_read (·.successor root 0) fun f => confined_read (·.successor root 1) fun x =>
    rewriteTo_confined (only_self root) _ _

theorem strict_apply (root : NodeId) : ∃ demands act, Strict root .apply demands act := by
  refine strict_head nofun 0 (fun f => ?_) fun r => rfl
  refine confined_read (·.successor root 1) fun x => confined_read (·.aux f) fun missing =>
    confined_read (·.symbol f) fun symbol => ?_
  split
  · exact rewriteFail_confined (only_self root)
  · split
    · exact rewrite_confined (only_self root) _ _ _ _
    · refine confined_read (·.partialSpine f) fun spine => ?_
      split
      · exact rewriteFail_confined (only_self root)
      · exact rewriteTo_confined (only_self root) _ _

/-- The node of a request for one. -/
def firstOf : List NodeId → Eff NodeId
  | id :: _ => pure id
  | [] => fault .dangling

/-- Spinning is a request for one node, in which a number is made. -/
theorem stepSpin_eq : stepSpin = allocate 1 >>= fun ids => firstOf ids >>= fun i =>
    rewriteData i Builtin.int 0 (.int 0) >>= fun _ => pure () := by
  have one : allocateOne = allocate 1 >>= firstOf := rfl
  unfold stepSpin makeInt makeData
  rw [one]
  simp only [bind_assoc, pure_bind]

/-- A loop puts a number into a new node and leaves the call as it is. -/
theorem strict_spin (root : NodeId) : ∃ demands act, Strict root .spin demands act := by
  suffices confined : stepSpin.Confined (Only root) from
    strict_none (by simp) confined fun r => rfl
  rw [stepSpin_eq]
  refine (allocate_requests 1).confined fun ids => ?_
  cases ids with
  | nil => exact confined_throw (by simp)
  | cons i ids =>
    have new : Only root i ∨ i ∈ i :: ids := .inr List.mem_cons_self
    show (rewriteInt i 0 >>= fun _ => pure ()).Confined _
    exact (rewriteInt_confined new 0).bind fun _ => confined_pure ()

theorem strict_fail (root : NodeId) : ∃ demands act, Strict root .fail demands act :=
  strict_none nofun (rewriteFail_confined (only_self root)) fun _ => rfl

theorem unifyPairs_confined : ∀ (nodes : List NodeId) (pairs : List (Link × Link)),
    (∀ i ∈ nodes, S i) → (unifyPairs nodes pairs).Confined S
  | [], _, _ => confined_pure ()
  | _ :: _, [], _ => confined_pure ()
  | _ :: nodes, _ :: pairs, own =>
    (rewriteTo_confined (own _ List.mem_cons_self) _ _).bind fun _ =>
      unifyPairs_confined nodes pairs fun i hi => own i (List.mem_cons_of_mem _ hi)

theorem conjoin_confined : ∀ nodes conjunctions : List NodeId, (∀ i ∈ conjunctions, S i) →
    (conjoin nodes conjunctions).Confined S
  | [], _, _ => confined_throw nofun
  | [last], _, _ => confined_pure last
  | _ :: _ :: _, [], _ => confined_throw nofun
  | _ :: next :: rest, conjunction :: conjunctions, own =>
    (conjoin_confined (next :: rest) conjunctions fun i hi =>
      own i (List.mem_cons_of_mem _ hi)).bind fun _ =>
        (rewriteTo_confined (own conjunction List.mem_cons_self) _ _).bind fun _ =>
          confined_pure conjunction

theorem unifySuccessors_confined (root : NodeId) (pairs : List (Link × Link)) :
    (unifySuccessors root pairs).Confined (Only root) := by
  refine ((allocate_requests _).rooted [some root]).confined fun fresh => ?_
  refine (unifyPairs_confined _ pairs fun i hi => .inr (List.mem_of_mem_take hi)).bind fun _ => ?_
  refine (conjoin_confined _ _ fun i hi => .inr (List.mem_of_mem_drop hi)).bind fun i => ?_
  exact rewriteForward_confined (.inl (only_self root)) _

theorem unifyHeads_confined (root x y : NodeId) : (unifyHeads root x y).Confined (Only root) := by
  refine confined_read (·.node x) fun a => confined_read (·.node y) fun b => ?_
  split
  · exact rewriteFail_confined (only_self root)
  · refine confined_read (·.symbol x) fun symbol => ?_
    split
    · exact rewriteFail_confined (only_self root)
    · split
      · split
        · exact succeed_confined root
        · exact rewriteFail_confined (only_self root)
      · refine confined_read (·.successors x) fun xs => confined_read (·.successors y) fun ys => ?_
        split
        · exact succeed_confined root
        · split
          · exact unifySuccessors_confined root _
          · exact confined_throw nofun

theorem Strict.confined {demands : List Demand} {act : List NodeId → Eff Unit}
    (h : Strict root h demands act) (xs : List NodeId) : (act xs).Confined (Only root) := by
  cases h with
  | plain _ _ _ confined => exact confined xs
  | unify => exact onPair_confined (unifyHeads_confined root) xs

theorem Strict.apart {demands : List Demand} {act : List NodeId → Eff Unit}
    (h : Strict root h demands act) : (demands.map Demand.index).Nodup := by
  cases h with
  | plain _ _ apart _ => exact apart
  | unify => decide

/-- A unification forces its arguments from the first one on. -/
theorem Strict.unifies {demands : List Demand} {act : List NodeId → Eff Unit}
    (h : Strict root .unify demands act) : ∃ rest, demands = .head 0 :: rest := by
  cases h with
  | plain other => exact absurd rfl other
  | unify => exact ⟨_, rfl⟩

/-- The steps that a call may run, apart from rules: all of them are strict, except for the choice
function and for one that only follows its argument. -/
theorem strict_of_reads (root : NodeId) (reads : h.reads? ≠ none) (choose : h ≠ .choose)
    (forward : h ≠ .forward) : ∃ demands act, Strict root h demands act := by
  cases h with
  | none => exact strict_none nofun (confined_pure ()) fun _ => rfl
  | forward => exact absurd rfl forward
  | arithmetic op => exact strict_arithmetic root op
  | equals => exact strict_equals root
  | compare => exact strict_compare root
  | choose => exact absurd rfl choose
  | fail => exact strict_fail root
  | unify => exact ⟨_, _, .unify⟩
  | conjunction => exact strict_conjunction root
  | guard => exact strict_guard root
  | strictApply => exact strict_strictApply root
  | ensureNotFree => exact strict_ensureNotFree root
  | apply => exact strict_apply root
  | spin => exact strict_spin root
  | rule rule => exact absurd rfl reads

end ChoiceGraph.Reduction
