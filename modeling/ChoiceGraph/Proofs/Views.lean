import ChoiceGraph.Proofs.Evolution

/-! # Views of the queue

What a search knows of a frame is its view: the decisions and the constraints of its cells. A turn
changes the view in front only. It may gain constraints; then the frame is dropped, goes on, waits
at the back, or forks at a choice on which neither its decisions nor its ties have a say. -/
namespace ChoiceGraph

structure View where
  decided : Fingerprint
  bound : ConstraintStore

/-- The queue after the scheduler has acted on the frame in front. No frame gains constraints. -/
inductive Rearranged : List View → List View → Prop where
  | empty : Rearranged [] []
  | dropped (v : View) (rest : List View) : Rearranged (v :: rest) rest
  | abandoned (v : View) (rest : List View) : Rearranged (v :: rest) []
  | stays (v : View) (rest : List View) : Rearranged (v :: rest) (v :: rest)
  | waits (v : View) (rest : List View) : Rearranged (v :: rest) (rest ++ [v])
  | forks (v : View) (rest : List View) (id : ChoiceId)
    (undecided : v.decided.decide v.bound id = .undecided) :
    Rearranged (v :: rest)
      (rest ++ [⟨v.decided.set id .left, v.bound⟩, ⟨v.decided.set id .right, v.bound⟩])

theorem Rearranged.refl : ∀ q : List View, Rearranged q q
  | [] => .empty
  | v :: rest => .stays v rest

theorem Rearranged.all : ∀ q : List View, Rearranged q []
  | [] => .empty
  | v :: rest => .abandoned v rest

theorem Rearranged.tail : ∀ q : List View, Rearranged q q.tail
  | [] => .empty
  | v :: rest => .dropped v rest

theorem Rearranged.bound {q q' : List View} {w : View} (h : Rearranged q q') (hw : w ∈ q') :
    ∃ v ∈ q, w.bound = v.bound := by
  cases h with
  | empty => exact ⟨w, hw, rfl⟩
  | dropped v => exact ⟨w, List.mem_cons_of_mem v hw, rfl⟩
  | abandoned => exact absurd hw List.not_mem_nil
  | stays => exact ⟨w, hw, rfl⟩
  | waits v =>
    rcases List.mem_append.mp hw with hw | hw
    · exact ⟨w, List.mem_cons_of_mem v hw, rfl⟩
    · exact ⟨v, List.mem_cons_self, congrArg View.bound (List.mem_singleton.mp hw)⟩
  | forks v =>
    simp only [List.mem_append, List.mem_cons, List.not_mem_nil, or_false] at hw
    rcases hw with hw | rfl | rfl
    · exact ⟨w, List.mem_cons_of_mem v hw, rfl⟩
    · exact ⟨v, List.mem_cons_self, rfl⟩
    · exact ⟨v, List.mem_cons_self, rfl⟩

/-- The queue after a turn. -/
inductive Turned : List View → List View → Prop where
  | empty : Turned [] []
  | dropped (v : View) (rest : List View) : Turned (v :: rest) rest
  | abandoned (v : View) (rest : List View) : Turned (v :: rest) []
  | stays (v : View) (rest : List View) {s : ConstraintStore} (grows : v.bound.Extends s) :
    Turned (v :: rest) (⟨v.decided, s⟩ :: rest)
  | waits (v : View) (rest : List View) {s : ConstraintStore} (grows : v.bound.Extends s) :
    Turned (v :: rest) (rest ++ [⟨v.decided, s⟩])
  | forks (v : View) (rest : List View) {s : ConstraintStore} (grows : v.bound.Extends s)
    (id : ChoiceId) (undecided : v.decided.decide s id = .undecided) :
    Turned (v :: rest) (rest ++ [⟨v.decided.set id .left, s⟩, ⟨v.decided.set id .right, s⟩])

theorem Turned.refl : ∀ q : List View, Turned q q
  | [] => .empty
  | v :: rest => .stays v rest (.refl _)

theorem Rearranged.turned {q q' : List View} (h : Rearranged q q') : Turned q q' := by
  cases h with
  | empty => exact .empty
  | dropped v => exact .dropped v _
  | abandoned v rest => exact .abandoned v rest
  | stays v rest => exact .stays v rest (.refl _)
  | waits v rest => exact .waits v rest (.refl _)
  | forks v rest id undecided => exact .forks v rest (.refl _) id undecided

/-- The constraints gained before the rest of the turn count as gained in it. -/
theorem Turned.grown {v : View} {rest q : List View} {s : ConstraintStore}
    (grows : v.bound.Extends s) (h : Turned (⟨v.decided, s⟩ :: rest) q) : Turned (v :: rest) q := by
  cases h with
  | dropped => exact .dropped v _
  | abandoned => exact .abandoned v rest
  | stays _ _ more => exact .stays v rest (grows.trans more)
  | waits _ _ more => exact .waits v rest (grows.trans more)
  | forks _ _ more id undecided => exact .forks v rest (grows.trans more) id undecided

/-- Two writes through a handle that has come to be held twice: the first one gets a copy, and neither
sees the other. -/
theorem Cells.CountedBy.part {α : Type} {s : Cells α} {h : Handle} {names : List Handle} {value : α}
    (hs : s.CountedBy (h :: names)) (old : s.read? h = some value) (u v : α → α) :
    let first := (s.share h).write h u
    let second := first.2.write h v
    second.2.read? first.1 = some (u value) ∧ second.2.read? second.1 = some (v value) ∧
      ∀ k ∈ names, second.2.read? k = s.read? k := by
  have shared := hs.share List.mem_cons_self
  obtain ⟨first, firstHere, firstThere⟩ := shared.write (f := u)
  obtain ⟨-, secondHere, secondThere⟩ := (first.perm (.swap _ _ _)).write (f := v)
  have kept := firstThere h List.mem_cons_self
  rw [share_read, old] at firstHere kept
  rw [kept] at secondHere
  refine ⟨(secondThere _ List.mem_cons_self).trans firstHere, secondHere, fun k hk => ?_⟩
  rw [secondThere k (List.mem_cons_of_mem _ hk), firstThere k (List.mem_cons_of_mem _ hk), share_read]

namespace Computation

variable {c c' : Computation} {f : Frame} {rest : List Frame}

def view (c : Computation) (f : Frame) : View := ⟨c.fingerprintOf f, c.constraintsOf f⟩

def views (c : Computation) : List View := c.queue.map c.view

theorem views_cons (hq : c.queue = f :: rest) : c.views = c.view f :: rest.map c.view := by
  rw [views, hq, List.map_cons]

theorem Extends.views (h : c.Extends c') (hq : c.queue = f :: rest) :
    ∃ s, (c.constraintsOf f).Extends s ∧
      c'.views = ⟨c.fingerprintOf f, s⟩ :: rest.map c.view := by
  have front := h.front
  have tail := h.rest
  rw [hq] at front tail
  cases hq' : c'.queue with
  | nil =>
    rw [hq'] at front
    cases front
  | cons f' rest' =>
    rw [hq'] at front tail
    simp only [List.head?_cons, Option.map_some, Option.some.injEq, Prod.mk.injEq] at front
    simp only [List.tail_cons] at tail
    subst tail
    refine ⟨c'.constraintsOf f', h.store f (by rw [hq]; rfl) f' (by rw [hq']; rfl), ?_⟩
    rw [views_cons hq']
    have here : c'.view f' = ⟨c.fingerprintOf f, c'.constraintsOf f'⟩ := by
      simp only [view, fingerprintOf, h.fingerprints, front.2.1]
    have there : rest'.map c'.view = rest'.map c.view := by
      refine List.map_congr_left fun g hg => ?_
      have others := h.others g (by rw [hq]; exact hg)
      simp only [view, fingerprintOf, h.fingerprints, others]
    rw [here, there]

theorem Counted.dropFront_views (h : c.Counted) : c.dropFront.views = c.views.tail := by
  unfold Computation.dropFront
  split
  · next hq => rw [views, hq, List.map_nil, List.tail_nil]
  · next f rest hq =>
    obtain ⟨fingerprints, stores⟩ := h
    rw [hq, List.map_cons] at fingerprints stores
    rw [views_cons hq, List.tail_cons]
    refine List.map_congr_left fun g hg => ?_
    simp only [view, fingerprintOf, constraintsOf, release,
      fingerprints.release.2 _ (List.mem_map_of_mem hg), stores.release.2 _ (List.mem_map_of_mem hg)]

theorem clear_views : c.clear.views = [] := by
  have empty : ∀ (fs : List Frame) (c : Computation), (fs.foldl release c).queue = c.queue := by
    intro fs
    induction fs with
    | nil => exact fun _ => rfl
    | cons f fs ih => exact fun c => ih (c.release f)
  rw [views, clear, empty, List.map_nil]

theorem requeue_views (hq : c.queue = f :: rest) (allotment : Nat) (suspended : Bool) :
    (c.requeue allotment suspended).views = rest.map c.view ++ [c.view f] := by
  simp only [requeue, putFrame, hq, List.set_cons_zero, rotate, views, List.map_append, List.map_cons,
    List.map_nil]
  rfl

theorem requeue_rearranged (allotment : Nat) (suspended : Bool) :
    Rearranged c.views (c.requeue allotment suspended).views := by
  cases hq : c.queue with
  | nil =>
    simp only [requeue, hq]
    exact .refl _
  | cons f rest =>
    rw [views_cons hq, requeue_views hq]
    exact .waits _ _

theorem setFront_views (hq : c.queue = f :: rest) (node : Link) (suspended : Bool) :
    ({ c with queue := { f with node := node, suspended := suspended } :: rest } :
      Computation).views = c.views := by
  rw [views_cons hq]
  rfl

/-- A frame that forks leaves its two alternatives at the back. -/
theorem Counted.forked_views (h : c.Counted) (hq : c.queue = f :: rest) {id : ChoiceId} (left right : Link)
    (allotment : Nat) (undecided : (c.fingerprintOf f).decide (c.constraintsOf f) id = .undecided) :
    (c.resolve id left right allotment).2.views = rest.map c.view ++
      [⟨(c.fingerprintOf f).set id .left, c.constraintsOf f⟩,
        ⟨(c.fingerprintOf f).set id .right, c.constraintsOf f⟩] := by
  simp only [resolve, hq, undecided]
  obtain ⟨fingerprints, stores⟩ := h
  rw [hq, List.map_cons] at fingerprints stores
  obtain ⟨cell, hcell, -⟩ := fingerprints.cell List.mem_cons_self
  have old : c.fingerprints.read? f.fingerprint = some cell.value := by
    simp only [Cells.read?, hcell, Option.map_some]
  -- the left alternative writes while the right one holds the cell
  obtain ⟨left, right, others⟩ := fingerprints.part old (·.set id .left) (·.set id .right)
  simp only [views, pushBack, writeFingerprint, fork, List.map_append, List.map_cons,
    List.map_nil, List.append_assoc, List.cons_append, List.nil_append]
  refine congrArg₂ (· ++ ·) (List.map_congr_left fun g hg => ?_) ?_
  · simp only [view, fingerprintOf, constraintsOf, others _ (List.mem_map_of_mem hg),
      Cells.share_read]
  · simp only [view, fingerprintOf, constraintsOf, left, right, Cells.share_read, old,
      Option.getD_some]

/-- The queue after a choice has been resolved at the front frame. -/
theorem Counted.resolve_views (h : c.Counted) (id : ChoiceId) (left right : Link) (allotment : Nat) :
    (c.resolve id left right allotment).2.views = c.views ∨
    (c.resolve id left right allotment).2.views = c.views.tail ∨
    ∃ v rest, c.views = v :: rest ∧ v.decided.decide v.bound id = .undecided ∧
      (c.resolve id left right allotment).2.views =
        rest ++ [⟨v.decided.set id .left, v.bound⟩, ⟨v.decided.set id .right, v.bound⟩] := by
  cases hq : c.queue with
  | nil =>
    simp only [resolve, hq]
    exact .inl trivial
  | cons f rest =>
    cases hd : (c.fingerprintOf f).decide (c.constraintsOf f) id with
    | conflict =>
      simp only [resolve, hq, hd]
      exact .inr (.inl h.dropFront_views)
    | taken side =>
      simp only [resolve, hq, hd]
      exact .inl (setFront_views hq _ _)
    | undecided =>
      exact .inr (.inr ⟨c.view f, rest.map c.view, views_cons hq, hd,
        h.forked_views hq left right allotment hd⟩)

theorem Counted.resolve_rearranged (h : c.Counted) (id : ChoiceId) (left right : Link)
    (allotment : Nat) : Rearranged c.views (c.resolve id left right allotment).2.views := by
  rcases h.resolve_views id left right allotment with same | dropped | ⟨v, rest, front, undecided, forked⟩
  · exact same ▸ .refl _
  · exact dropped ▸ .tail _
  · rw [front, forked]
    exact .forks v rest id undecided

end Computation

namespace Machine

variable {m m' : Machine} {q : List View} {f : Computation → Computation}

/-- The views of the innermost search. -/
def views (m : Machine) : List View := (m.computations.head?.map Computation.views).getD []

theorem views_cons {c : Computation} {rest : List Computation} (h : m.computations = c :: rest) :
    m.views = c.views := by
  rw [views, h, List.head?_cons, Option.map_some, Option.getD_some]

theorem views_nil (h : m.computations = []) : m.views = [] := by
  rw [views, h, List.head?_nil, Option.map_none, Option.getD_none]

theorem rearranged_mapInnermost (step : ∀ c ∈ m.computations, Rearranged c.views (f c).views) :
    Rearranged m.views (m.mapInnermost f).views := by
  cases hc : m.computations with
  | nil =>
    rw [mapInnermost, hc]
    exact .refl _
  | cons c rest =>
    have mapped : (m.mapInnermost f).computations = f c :: rest := by rw [mapInnermost, hc]
    rw [views_cons hc, views_cons mapped]
    exact step c (hc ▸ List.mem_cons_self)

/-- What the reduction of the front frame gains, the turn gains. -/
theorem SearchExtends.turned (h : SearchExtends m.computations m'.computations)
    (t : Turned m'.views q) : Turned m.views q := by
  cases hc : m.computations with
  | nil =>
    rw [hc] at h
    cases hc' : m'.computations with
    | nil =>
      rw [views_nil hc]
      exact views_nil hc' ▸ t
    | cons c' rest' =>
      rw [hc'] at h
      cases h
  | cons c rest =>
    rw [hc] at h
    cases hc' : m'.computations with
    | nil =>
      rw [hc'] at h
      cases h
    | cons c' rest' =>
      rw [hc'] at h
      cases h with
      | inner h =>
        rw [views_cons hc'] at t
        rw [views_cons hc]
        cases hq : c.queue with
        | nil =>
          have front := h.front
          rw [hq, List.head?_nil, Option.map_none] at front
          have none : c'.queue = [] := List.head?_eq_none_iff.mp (Option.map_eq_none_iff.mp front)
          rw [Computation.views, hq, List.map_nil]
          rwa [Computation.views, none, List.map_nil] at t
        | cons f frames =>
          obtain ⟨s, grows, same⟩ := h.views hq
          rw [same] at t
          rw [Computation.views_cons hq]
          exact t.grown grows

end Machine

end ChoiceGraph
