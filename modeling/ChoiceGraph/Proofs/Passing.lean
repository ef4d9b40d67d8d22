import ChoiceGraph.Proofs.Agreement
import ChoiceGraph.Proofs.Isolation

/-! # Passing a turn

Each frame of a queue has decided the sides of some choices. In a turn only the frame in front may
decide more: it stays, waits at the back, or leaves two frames that decide one choice both ways, or it
finishes. The frames that wait are the same afterwards, and so are their decisions. -/
namespace ChoiceGraph

namespace Fingerprint

variable {f g : Fingerprint} {id : ChoiceId} {side : Side} {σ : ChoiceId → Side}

/-- An assignment takes the sides that a fingerprint has decided. -/
def Agrees (σ : ChoiceId → Side) (f : Fingerprint) : Prop :=
  ∀ id side, f.get? id = some side → σ id = side

instance : Decidable (f.Agrees σ) :=
  decidable_of_iff (∀ p ∈ f.decisions, f.get? p.1 = some p.2 → σ p.1 = p.2) <| by
    constructor
    · intro h id side found
      obtain ⟨before, after, same, -⟩ := List.lookup_eq_some_iff.mp found
      exact h (id, side) (same ▸ List.mem_append_right before List.mem_cons_self) found
    · exact fun h p _ found => h p.1 p.2 found

/-- What is decided stays decided the same way. -/
def Extends (f g : Fingerprint) : Prop := ∀ id side, f.get? id = some side → g.get? id = some side

theorem Extends.refl (f : Fingerprint) : f.Extends f := fun _ _ h => h

theorem Extends.trans {h : Fingerprint} (fg : f.Extends g) (gh : g.Extends h) : f.Extends h :=
  fun id side decided => gh id side (fg id side decided)

theorem set_extends (free : f.get? id = none) : f.Extends (f.set id side) := by
  intro x s decided
  by_cases hx : x = id
  · subst hx
    cases free.symm.trans decided
  · exact (get_set_ne hx).trans decided

theorem agrees_set (free : f.get? id = none) : (f.set id side).Agrees σ ↔ f.Agrees σ ∧ σ id = side := by
  constructor
  · intro h
    exact ⟨fun x s decided => h x s (set_extends free x s decided), h id side (get_set_self free)⟩
  · rintro ⟨h, here⟩ x s decided
    by_cases hx : x = id
    · subst hx
      cases (get_set_self free).symm.trans decided
      exact here
    · exact h x s ((get_set_ne hx).symm.trans decided)

theorem empty_agrees : empty.Agrees σ := fun _ _ h => nomatch h

end Fingerprint

/-- A queued frame and what it has decided. -/
structure Entry where
  frame : Frame
  decided : Fingerprint

/-- Frame `f` of a queue goes on as frame `g` of the next queue: one that waits as it is, the one in
front as one of those that stand beside the waiting ones. -/
inductive GoesOn (q q' : List Frame) : Frame → Frame → Prop where
  | waiting {f : Frame} (before : f ∈ q.tail) (after : f ∈ q') : GoesOn q q' f f
  | front {f g : Frame} {rest heirs : List Frame} (before : q = f :: rest)
    (after : q'.Perm (heirs ++ rest)) (heir : g ∈ heirs) : GoesOn q q' f g

theorem GoesOn.not_nil {q : List Frame} {f g : Frame} : ¬ GoesOn q [] f g := by
  intro goes
  cases goes with
  | waiting _ after => exact absurd after List.not_mem_nil
  | front _ after heir =>
    have none := List.append_eq_nil_iff.mp (List.Perm.nil_eq after).symm
    rw [none.1] at heir
    exact absurd heir List.not_mem_nil

/-- What a turn makes of the queue, and how many frames finish in it. -/
inductive Passes : List Entry → Nat → List Entry → Prop where
  | empty (n : Nat) : Passes [] n []
  | finishes (e : Entry) (rest : List Entry) : Passes (e :: rest) 1 rest
  | stays (f : Frame) (e : Entry) (rest : List Entry) :
    Passes (e :: rest) 0 (⟨f, e.decided⟩ :: rest)
  | waits (f : Frame) (e : Entry) (rest : List Entry) :
    Passes (e :: rest) 0 (rest ++ [⟨f, e.decided⟩])
  | forks (l r : Frame) (e : Entry) (rest : List Entry) (id : ChoiceId)
    (free : e.decided.get? id = none) :
    Passes (e :: rest) 0 (rest ++ [⟨l, e.decided.set id .left⟩, ⟨r, e.decided.set id .right⟩])

namespace Passes

variable {q q' rest : List Entry} {n : Nat} {e : Entry} {σ : ChoiceId → Side}

/-- Only the decisions of the front frame matter. -/
theorem of_front {f : Frame} (h : Passes (⟨f, e.decided⟩ :: rest) n q') : Passes (e :: rest) n q' := by
  cases h with
  | finishes => exact .finishes e _
  | stays f => exact .stays f e _
  | waits f => exact .waits f e _
  | forks l r _ _ id free => exact .forks l r e _ id free

/-- The frames that agree with an assignment: as many wait or have finished as before. -/
theorem countP (h : Passes q n q') (done : List Fingerprint) :
    (q'.map Entry.decided ++ ((q.map Entry.decided).take n ++ done)).countP (·.Agrees σ) =
      (q.map Entry.decided ++ done).countP (·.Agrees σ) := by
  cases h with
  | empty n => rw [List.map_nil, List.take_nil, List.nil_append]
  | finishes e rest =>
    simp only [List.map_cons, List.take_succ_cons, List.take_zero, List.countP_append,
      List.countP_cons, List.countP_nil]
    omega
  | stays f e rest => simp only [List.map_cons, List.take_zero, List.nil_append]
  | waits f e rest =>
    simp only [List.map_cons, List.map_append, List.map_nil, List.take_zero, List.nil_append,
      List.countP_append, List.countP_cons, List.countP_nil]
    omega
  | forks l r e rest id free =>
    simp only [List.map_cons, List.map_append, List.map_nil, List.take_zero, List.nil_append,
      List.countP_append, List.countP_cons, List.countP_nil, Fingerprint.agrees_set free]
    -- of the two alternatives of a frame that agrees, exactly one agrees
    by_cases agrees : e.decided.Agrees σ
    · cases side : σ id <;> simp [agrees]
    · simp [agrees]

/-- What stands beside the waiting frames has decided all that the front frame had. -/
theorem heirs (h : Passes (e :: rest) n q') :
    ∃ hs, q'.Perm (hs ++ rest) ∧ ∀ x ∈ hs, e.decided.Extends x.decided := by
  cases h with
  | finishes => exact ⟨[], .refl _, nofun⟩
  | stays f =>
    refine ⟨[⟨f, e.decided⟩], .refl _, fun x hx => ?_⟩
    rw [List.mem_singleton.mp hx]
    exact .refl _
  | waits f =>
    refine ⟨[⟨f, e.decided⟩], List.perm_append_comm, fun x hx => ?_⟩
    rw [List.mem_singleton.mp hx]
    exact .refl _
  | forks l r _ _ id free =>
    refine ⟨_, List.perm_append_comm, fun x hx => ?_⟩
    rcases List.mem_pair.mp hx with rfl | rfl
    · exact Fingerprint.set_extends free
    · exact Fingerprint.set_extends free

/-- A frame that goes on has decided all that it had decided before. -/
theorem grows {f g : Frame} {d d' : Frame → Fingerprint} (h : Passes q n q')
    (goes : GoesOn (q.map Entry.frame) (q'.map Entry.frame) f g)
    (before : ∀ x ∈ q, x.decided = d x.frame) (after : ∀ x ∈ q', x.decided = d' x.frame) :
    (d f).Extends (d' g) := by
  cases q with
  | nil =>
    cases goes with
    | waiting waits => exact absurd waits List.not_mem_nil
    | front first => cases first
  | cons e rest =>
    obtain ⟨hs, perm, extends_⟩ := h.heirs
    have after : ∀ x ∈ hs ++ rest, x.decided = d' x.frame := fun x hx => after x (perm.mem_iff.mpr hx)
    cases goes with
    | waiting waits =>
      obtain ⟨x, hx, rfl⟩ := List.mem_map.mp waits
      rw [← before x (List.mem_cons_of_mem _ hx), ← after x (List.mem_append_right _ hx)]
      exact .refl _
    | front first stand heir =>
      obtain ⟨rfl, rfl⟩ := List.cons.inj first
      have named := stand.symm.trans (perm.map Entry.frame)
      rw [List.map_append] at named
      have same := (List.perm_append_right_iff _).mp named
      obtain ⟨x, hx, rfl⟩ := List.mem_map.mp (same.mem_iff.mp heir)
      rw [← before e List.mem_cons_self, ← after x (List.mem_append_left _ hx)]
      exact extends_ x hx

theorem goesOn {g : Frame} (h : Passes q n q') (hg : g ∈ q'.map Entry.frame) :
    ∃ f ∈ q.map Entry.frame, GoesOn (q.map Entry.frame) (q'.map Entry.frame) f g := by
  cases q with
  | nil =>
    cases h
    exact absurd hg List.not_mem_nil
  | cons e rest =>
    obtain ⟨hs, perm, -⟩ := h.heirs
    have stand := perm.map Entry.frame
    rw [List.map_append] at stand
    rcases List.mem_append.mp (stand.mem_iff.mp hg) with heir | waits
    · exact ⟨e.frame, List.mem_cons_self, .front rfl stand heir⟩
    · exact ⟨g, List.mem_cons_of_mem _ waits, .waiting waits hg⟩

end Passes

namespace Computation

variable {c c' : Computation} {f : Frame} {rest : List Frame}

def entries (c : Computation) : List Entry := c.queue.map fun f => ⟨f, c.fingerprintOf f⟩

/-- Each fingerprint has as many holders as frames in the queue. -/
def Numbered (c : Computation) : Prop := c.fingerprints.CountedBy (c.queue.map Frame.fingerprint)

theorem entries_cons (hq : c.queue = f :: rest) :
    c.entries = ⟨f, c.fingerprintOf f⟩ :: rest.map fun g => ⟨g, c.fingerprintOf g⟩ := by
  rw [entries, hq, List.map_cons]

theorem entries_nil (hq : c.queue = []) : c.entries = [] := by rw [entries, hq, List.map_nil]

theorem Undisturbed.numbered (h : c.Undisturbed c') (hc : c.Numbered) : c'.Numbered := by
  have same : c'.queue.map Frame.fingerprint = c.queue.map Frame.fingerprint := by
    have front := h.front
    have waiting := h.waiting
    cases hq : c.queue with
    | nil => cases hq' : c'.queue <;> simp_all
    | cons f rest => cases hq' : c'.queue <;> simp_all
  rw [Numbered, h.fingerprints, same]
  exact hc

theorem Undisturbed.entries (h : c.Undisturbed c') (hq : c.queue = f :: rest) :
    ∃ f', c'.queue = f' :: rest ∧ c'.entries =
      ⟨f', c.fingerprintOf f⟩ :: rest.map fun g => ⟨g, c.fingerprintOf g⟩ := by
  have front := h.front
  have waiting := h.waiting
  rw [hq] at front waiting
  cases hq' : c'.queue with
  | nil =>
    rw [hq'] at front
    cases front
  | cons f' rest' =>
    rw [hq'] at front waiting
    simp only [List.head?_cons, Option.map_some, Option.some.injEq, List.tail_cons] at front waiting
    subst waiting
    refine ⟨f', rfl, ?_⟩
    rw [entries_cons hq']
    simp only [fingerprintOf, h.fingerprints, front]

theorem dropFront_passes (hc : c.Numbered) (hq : c.queue = f :: rest) :
    c.dropFront.Numbered ∧ Passes c.entries 1 c.dropFront.entries := by
  unfold Numbered at hc ⊢
  rw [hq, List.map_cons] at hc
  obtain ⟨numbered, others⟩ := hc.release
  have result : c.dropFront = ({ c with queue := rest } : Computation).release f := by
    simp only [Computation.dropFront, hq]
  have entries : c.dropFront.entries = rest.map fun g => ⟨g, c.fingerprintOf g⟩ := by
    rw [result]
    refine List.map_congr_left fun g hg => ?_
    simp only [release, fingerprintOf, others _ (List.mem_map_of_mem hg)]
  rw [entries_cons hq, entries, result]
  exact ⟨numbered, .finishes _ _⟩

theorem requeue_passes (hc : c.Numbered) (hq : c.queue = f :: rest) (allotment : Nat)
    (suspended : Bool) :
    (c.requeue allotment suspended).Numbered ∧
      Passes c.entries 0 (c.requeue allotment suspended).entries := by
  let back : Frame := { f with allotment := allotment, suspended := suspended }
  have queue : (c.requeue allotment suspended).queue = rest ++ [back] := by
    simp only [Computation.requeue, hq, putFrame, List.set_cons_zero, rotate]
    rfl
  have cells : (c.requeue allotment suspended).fingerprints = c.fingerprints := by
    simp only [Computation.requeue, hq, putFrame, List.set_cons_zero, rotate]
  constructor
  · unfold Numbered at hc ⊢
    rw [cells, queue, List.map_append, List.map_cons, List.map_nil]
    rw [hq, List.map_cons] at hc
    exact hc.perm (List.perm_append_singleton _ _).symm
  · rw [entries_cons hq, entries, queue, List.map_append, List.map_cons, List.map_nil]
    simp only [fingerprintOf, cells]
    exact .waits back _ _

/-- A forked frame has left one cell for two: the alternative that writes first gets a copy. -/
theorem fork_passes (hc : c.Numbered) (hq : c.queue = f :: rest) {id : ChoiceId} {left right : Link}
    {allotment : Nat} (undecided : (c.fingerprintOf f).decide (c.constraintsOf f) id = .undecided) :
    (c.resolve id left right allotment).2.Numbered ∧
      Passes c.entries 0 (c.resolve id left right allotment).2.entries := by
  have free := Fingerprint.get_of_undecided undecided List.mem_cons_self
  unfold Numbered at hc
  rw [hq, List.map_cons] at hc
  have shared := hc.share List.mem_cons_self
  obtain ⟨first, firstHere, firstThere⟩ := shared.write (f := (·.set id .left))
  have swapped := first.perm (.swap _ _ _)
  obtain ⟨second, secondHere, secondThere⟩ := swapped.write (f := (·.set id .right))
  obtain ⟨cell, hcell, -⟩ := hc.cell List.mem_cons_self
  have old : c.fingerprints.read? f.fingerprint = some cell.value := by
    simp only [Cells.read?, hcell, Option.map_some]
  rw [firstThere _ List.mem_cons_self] at secondHere
  rw [Cells.share_read, old] at firstHere secondHere
  have leftHere := secondThere _ List.mem_cons_self
  rw [firstHere] at leftHere
  simp only [resolve, hq, undecided]
  constructor
  · simp only [Numbered, pushBack, writeFingerprint, fork, List.map_append, List.map_cons, List.map_nil]
    exact second.perm (((List.perm_append_singleton _ _).symm.cons _).trans
      (List.perm_append_singleton _ _).symm)
  · rw [entries_cons hq]
    have forks := fun l r => Passes.forks l r ⟨f, c.fingerprintOf f⟩
      (rest.map fun g => ⟨g, c.fingerprintOf g⟩) id free
    simp only [entries, pushBack, writeFingerprint, fork, List.map_append, List.map_cons,
      List.map_nil, List.append_assoc, List.cons_append, List.nil_append]
    convert forks _ _ using 1
    refine congrArg₂ (· ++ ·) (List.map_congr_left fun g hg => ?_) ?_
    · have named : g.fingerprint ∈ rest.map Frame.fingerprint := List.mem_map_of_mem hg
      have there := secondThere g.fingerprint (List.mem_cons_of_mem _ named)
      rw [firstThere _ (List.mem_cons_of_mem _ named), Cells.share_read] at there
      simp only [fingerprintOf, there]
    · simp only [fingerprintOf, leftHere, secondHere, Option.map_some, Option.getD_some, old]
      rfl

theorem resolve_passes (hc : c.Numbered) (hq : c.queue = f :: rest) (id : ChoiceId)
    (left right : Link) (allotment : Nat) :
    (c.resolve id left right allotment).2.Numbered ∧
      Passes c.entries (if (c.resolve id left right allotment).1 = .failed then 1 else 0)
        (c.resolve id left right allotment).2.entries := by
  cases decision : (c.fingerprintOf f).decide (c.constraintsOf f) id with
  | conflict =>
    have dropped : c.resolve id left right allotment = (.failed, c.dropFront) := by
      simp only [resolve, hq, decision]
    rw [dropped]
    exact dropFront_passes hc hq
  | taken side =>
    obtain ⟨next, followed⟩ : ∃ node, c.resolve id left right allotment =
        (.followed, { c with queue := { f with node := node, suspended := false } :: rest }) := by
      simp only [resolve, hq, decision]
      exact ⟨_, rfl⟩
    let front : Frame := { f with node := next, suspended := false }
    have same : c.Undisturbed { c with queue := front :: rest } := undisturbed_of_front hq rfl rfl rfl
    rw [followed, entries_cons hq]
    exact ⟨same.numbered hc, .stays front _ _⟩
  | undecided =>
    have forked : (c.resolve id left right allotment).1 = .forked := by
      simp only [resolve, hq, decision]
    rw [forked, if_neg (by simp)]
    exact fork_passes hc hq decision

end Computation

namespace Machine

variable {m m' : Machine} {c : Computation} {outer : List Computation} {f : Frame}

/-- The queue of the innermost search. -/
def queue (m : Machine) : List Frame := (m.computations.head?.map Computation.queue).getD []

def entries (m : Machine) : List Entry := (m.computations.head?.map Computation.entries).getD []

/-- What the frames in the queue have decided, in order. -/
def decisions (m : Machine) : List Fingerprint := m.entries.map Entry.decided

/-- What a frame of the innermost search has decided. -/
def decided (m : Machine) (f : Frame) : Fingerprint :=
  (m.computations.head?.map fun c => c.fingerprintOf f).getD .empty

def Numbered (m : Machine) : Prop := ∀ c, m.computations.head? = some c → c.Numbered

theorem entries_eq (m : Machine) : m.entries = m.queue.map fun f => ⟨f, m.decided f⟩ := by
  cases hc : m.computations with
  | nil => simp only [entries, queue, hc, List.head?_nil, Option.map_none, Option.getD_none, List.map_nil]
  | cons c outer =>
    simp only [entries, queue, decided, hc, List.head?_cons, Option.map_some, Option.getD_some,
      Computation.entries]

theorem entries_frames (m : Machine) : m.entries.map Entry.frame = m.queue := by
  rw [entries_eq, List.map_map]
  exact List.map_id _

theorem mem_entries {e : Entry} (h : e ∈ m.entries) : e.decided = m.decided e.frame := by
  rw [entries_eq] at h
  obtain ⟨f, -, rfl⟩ := List.mem_map.mp h
  rfl

theorem entries_empty (front : m.front? = none) : m.entries = [] := by
  cases hc : m.computations with
  | nil => simp only [entries, hc, List.head?_nil, Option.map_none, Option.getD_none]
  | cons c outer =>
    simp only [front?, hc, List.head?_cons, Option.bind_some, Computation.front?] at front
    simp only [entries, hc, List.head?_cons, Option.map_some, Option.getD_some]
    exact Computation.entries_nil (List.head?_eq_none_iff.mp front)

theorem entries_inner (hc : m.computations = c :: outer) : m.entries = c.entries := by
  simp only [entries, hc, List.head?_cons, Option.map_some, Option.getD_some]

theorem numbered_inner (hc : m.computations = c :: outer) : m.Numbered ↔ c.Numbered := by
  simp only [Numbered, hc, List.head?_cons, Option.some.injEq, forall_eq']

/-- The queue has passed a turn, in which `n` frames have finished. -/
structure Passed (m : Machine) (n : Nat) (m' : Machine) : Prop where
  numbered : m'.Numbered
  queue : Passes m.entries n m'.entries

theorem Passed.inner {c' : Computation} {n : Nat} (before : m.computations = c :: outer)
    (after : m'.computations = c' :: outer) (h : c'.Numbered ∧ Passes c.entries n c'.entries) :
    m.Passed n m' := by
  refine ⟨(numbered_inner after).mpr h.1, ?_⟩
  rw [entries_inner before, entries_inner after]
  exact h.2

theorem front_cases (front : m.front? = some f) :
    ∃ c outer rest, m.computations = c :: outer ∧ c.queue = f :: rest := by
  obtain ⟨c, hc, hf⟩ := Option.bind_eq_some_iff.mp front
  obtain ⟨outer, hc⟩ := List.head?_eq_some_iff.mp hc
  obtain ⟨rest, hq⟩ := List.head?_eq_some_iff.mp hf
  exact ⟨c, outer, rest, hc, hq⟩

/-- A change of the innermost search that lets its queue pass a turn. -/
theorem mapInnermost_passed {n : Nat} {change : Computation → Computation} (h : m.Numbered)
    (front : m.front? = some f) (step : ∀ c rest, c.Numbered → c.queue = f :: rest →
      (change c).Numbered ∧ Passes c.entries n (change c).entries) :
    m.Passed n (m.mapInnermost change) := by
  obtain ⟨c, outer, rest, hc, hq⟩ := front_cases front
  refine .inner hc (by simp only [mapInnermost, hc]) (step c rest ((numbered_inner hc).mp h) hq)

/-- An undisturbed queue still has its front frame, in whatever state, and may pass a turn. -/
theorem Undisturbed.front (h : m.Undisturbed m') (hm : m.Numbered) (front : m.front? = some f) :
    m'.Numbered ∧ ∃ f', m'.front? = some f' ∧
      ∀ n m'', m'.Passed n m'' → m.Passed n m'' := by
  obtain ⟨c, outer, rest, hc, hq⟩ := front_cases front
  cases h with
  | idle before => cases hc.symm.trans before
  | inner before after same =>
    cases hc.symm.trans before
    obtain ⟨f', hq', entries⟩ := same.entries hq
    refine ⟨(numbered_inner after).mpr (same.numbered ((numbered_inner hc).mp hm)), f', ?_, ?_⟩
    · simp only [front?, after, List.head?_cons, Option.bind_some, Computation.front?, hq']
    · intro n m'' passed
      refine ⟨passed.numbered, ?_⟩
      have queue := passed.queue
      rw [entries_inner after, entries] at queue
      rw [entries_inner hc, Computation.entries_cons hq]
      exact queue.of_front

/-- The waiting frames stay behind the front one. -/
theorem Undisturbed.queue_cases (h : m.Undisturbed m') (front : m.front? = some f) :
    ∃ f' rest, m.queue = f :: rest ∧ m'.queue = f' :: rest := by
  obtain ⟨c, outer, rest, hc, hq⟩ := front_cases front
  cases h with
  | idle before => cases hc.symm.trans before
  | inner before after same =>
    cases hc.symm.trans before
    obtain ⟨f', hq', -⟩ := same.entries hq
    refine ⟨f', rest, ?_, ?_⟩
    · simp only [Machine.queue, hc, List.head?_cons, Option.map_some, Option.getD_some, hq]
    · simp only [Machine.queue, after, List.head?_cons, Option.map_some, Option.getD_some, hq']

end Machine

end ChoiceGraph
