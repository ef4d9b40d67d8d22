import ChoiceGraph.Schedule.Turn
import Mathlib.Tactic.Common

/-! # Frames and their cells

A computation is counted when each cell has as many holders as frames in the queue name it. Then
a write through one frame is never seen through another. A reduction changes the front frame of
the innermost search only: its allotment, and its store, which it extends. -/
namespace ChoiceGraph

namespace Cells

variable {α : Type} {s s' : Cells α} {h k : Handle} {c : Cell α}

theorem lt_of_cell (hc : s.cell? h = some c) : h < s.slots.size := by
  unfold cell? at hc
  by_contra hn
  rw [Array.getElem?_eq_none (Nat.le_of_not_lt hn)] at hc
  cases hc

theorem cell_set_self {x : Option (Cell α)} (lt : h < s.slots.size) :
    (s.set h x).cell? h = x := by
  simp only [cell?, set, Array.getElem?_setIfInBounds_self_of_lt lt, Option.join_some]

theorem cell_set_ne {x : Option (Cell α)} (hne : k ≠ h) : (s.set h x).cell? k = s.cell? k := by
  simp only [cell?, set, Array.getElem?_setIfInBounds_ne (Ne.symm hne)]

theorem cell_new_self {v : α} : (s.new v).2.cell? (s.new v).1 = some ⟨v, 1⟩ := by
  simp only [cell?, new, Array.getElem?_push_size, Option.join_some]

theorem cell_new_ne {v : α} (hne : k ≠ s.slots.size) : (s.new v).2.cell? k = s.cell? k := by
  simp only [cell?, new, Array.getElem?_push]
  rw [if_neg hne]

theorem fresh_cell : s.cell? s.slots.size = none := by
  simp only [cell?, Array.getElem?_eq_none (Nat.le_refl _), Option.join_none]

theorem release_cell (hc : s.cell? h = some c) :
    (s.release h).cell? h = if c.holders ≤ 1 then none else some { c with holders := c.holders - 1 } := by
  simp only [release, hc]
  exact cell_set_self (lt_of_cell hc)

theorem release_ne (hne : k ≠ h) : (s.release h).cell? k = s.cell? k := by
  unfold release
  split
  · exact cell_set_ne hne
  · rfl

theorem share_cell (hc : s.cell? h = some c) :
    (s.share h).cell? h = some { c with holders := c.holders + 1 } := by
  simp only [share, hc]
  exact cell_set_self (lt_of_cell hc)

theorem share_ne (hne : k ≠ h) : (s.share h).cell? k = s.cell? k := by
  unfold share
  split
  · exact cell_set_ne hne
  · rfl

theorem share_read : (s.share h).read? k = s.read? k := by
  unfold read?
  by_cases hk : k = h
  · subst hk
    cases hc : s.cell? k with
    | none => simp only [share, hc]
    | some c => rw [share_cell hc]; rfl
  · rw [share_ne hk]

/-- What a write through `h` leads to: the cell itself if there is one holder, a copy in a new
cell otherwise. -/
inductive Written (s : Cells α) (h : Handle) (c : Cell α) (v : α) (k : Handle) (s' : Cells α) : Prop
  | inPlace (alone : c.holders = 1) (same : k = h) (here : s'.cell? h = some ⟨v, 1⟩)
      (there : ∀ j, j ≠ h → s'.cell? j = s.cell? j)
  | copied (several : 1 < c.holders) (fresh : s.cell? k = none)
      (old : s'.cell? h = some { c with holders := c.holders - 1 })
      (new : s'.cell? k = some ⟨v, 1⟩) (there : ∀ j, j ≠ h → j ≠ k → s'.cell? j = s.cell? j)

theorem write_written {f : α → α} (hc : s.cell? h = some c) (held : 1 ≤ c.holders) :
    s.Written h c (f c.value) (s.write h f).1 (s.write h f).2 := by
  simp only [write, hc]
  by_cases several : 1 < c.holders
  · rw [if_pos several]
    have size : (s.release h).slots.size = s.slots.size := by
      simp only [release, hc, set, Array.size_setIfInBounds]
    have lt : h < (s.release h).slots.size := by rw [size]; exact lt_of_cell hc
    have old : (s.release h).cell? h = some { c with holders := c.holders - 1 } := by
      rw [release_cell hc, if_neg (by omega)]
    refine .copied several ?_ ?_ cell_new_self fun j hj hk => ?_
    · show s.cell? (s.release h).slots.size = none
      rw [size]
      exact fresh_cell
    · exact (cell_new_ne (Nat.ne_of_lt lt)).trans old
    · exact (cell_new_ne hk).trans (release_ne hj)
  · rw [if_neg several]
    have one : c.holders = 1 := by omega
    refine .inPlace one rfl ?_ fun j hj => cell_set_ne hj
    rw [cell_set_self (lt_of_cell hc), one]

theorem Written.read (w : s.Written h c v k s') : s'.read? k = some v := by
  cases w with
  | inPlace _ same here _ => subst same; simp only [read?, here, Option.map_some]
  | copied _ _ _ new _ => simp only [read?, new, Option.map_some]

/-- Each cell has as many holders as the handles that name it. -/
def CountedBy (s : Cells α) (names : List Handle) : Prop :=
  ∀ h, s.holders h = names.count h

section Counting

variable {names : List Handle}

theorem holders_of_cell (hc : s.cell? h = some c) : s.holders h = c.holders := by
  simp only [holders, hc, Option.map_some, Option.getD_some]

theorem holders_of_none (hc : s.cell? h = none) : s.holders h = 0 := by
  simp only [holders, hc, Option.map_none, Option.getD_none]

theorem holders_congr (hc : s'.cell? k = s.cell? k) : s'.holders k = s.holders k := by
  simp only [holders, hc]

theorem CountedBy.perm {names' : List Handle} (hs : s.CountedBy names) (hp : names.Perm names') :
    s.CountedBy names' := fun h => (hs h).trans (hp.count_eq h)

theorem CountedBy.cell (hs : s.CountedBy names) (hm : h ∈ names) :
    ∃ c, s.cell? h = some c ∧ c.holders = names.count h ∧ 1 ≤ c.holders := by
  have pos : 0 < names.count h := List.count_pos_iff.mpr hm
  cases hc : s.cell? h with
  | none =>
    have := hs h
    rw [holders_of_none hc] at this
    omega
  | some c =>
    have := hs h
    rw [holders_of_cell hc] at this
    exact ⟨c, rfl, this, by omega⟩

theorem CountedBy.fresh (hs : s.CountedBy names) (hn : s.cell? h = none) : h ∉ names := by
  intro hm
  obtain ⟨c, hc, -⟩ := hs.cell hm
  rw [hn] at hc
  cases hc

/-- A write moves one name to where the write went; the other names see nothing of it. -/
theorem CountedBy.write {f : α → α} (hs : s.CountedBy (h :: names)) :
    (s.write h f).2.CountedBy ((s.write h f).1 :: names) ∧
      (s.write h f).2.read? (s.write h f).1 = (s.read? h).map f ∧
      ∀ k ∈ names, (s.write h f).2.read? k = s.read? k := by
  obtain ⟨c, hc, count, held⟩ := hs.cell List.mem_cons_self
  rw [List.count_cons_self] at count
  have w := write_written (f := f) hc held
  have value : s.read? h = some c.value := by simp only [read?, hc, Option.map_some]
  refine ⟨?_, by rw [w.read, value, Option.map_some], ?_⟩
  · cases w with
    | inPlace alone same here there =>
      rw [same]
      intro j
      by_cases hj : j = h
      · subst hj
        rw [holders_of_cell here, List.count_cons_self, ← count]
        exact alone.symm
      · rw [holders_congr (there j hj)]
        exact hs j
    | copied several fresh old new there =>
      have unnamed := hs.fresh fresh
      have hkh : (s.write h f).1 ≠ h := fun e => unnamed (List.mem_cons.mpr (.inl e))
      intro j
      by_cases hjk : j = (s.write h f).1
      · rw [hjk, holders_of_cell new, List.count_cons_self,
          List.count_eq_zero.mpr fun hm => unnamed (List.mem_cons_of_mem _ hm)]
      · rw [List.count_cons_of_ne (Ne.symm hjk)]
        by_cases hj : j = h
        · subst hj
          rw [holders_of_cell old, count]
          exact Nat.add_sub_cancel ..
        · rw [holders_congr (there j hj hjk), hs j, List.count_cons_of_ne (Ne.symm hj)]
  · intro k hk
    cases w with
    | inPlace alone same here there =>
      have hkh : k ≠ h := by
        rintro rfl
        have := List.count_pos_iff.mpr hk
        omega
      simp only [read?, there k hkh]
    | copied several fresh old new there =>
      by_cases hkh : k = h
      · subst hkh
        simp only [read?, old, hc, Option.map_some]
      · have hkn : k ≠ (s.write h f).1 :=
          fun e => hs.fresh fresh (e ▸ List.mem_cons_of_mem _ hk)
        simp only [read?, there k hkh hkn]

theorem CountedBy.share (hs : s.CountedBy names) (hm : h ∈ names) :
    (s.share h).CountedBy (h :: names) := by
  obtain ⟨c, hc, count, -⟩ := hs.cell hm
  intro j
  by_cases hj : j = h
  · subst hj
    rw [holders_of_cell (share_cell hc), List.count_cons_self, count]
  · rw [holders_congr (share_ne hj), hs j, List.count_cons_of_ne (Ne.symm hj)]

theorem CountedBy.release (hs : s.CountedBy (h :: names)) :
    (s.release h).CountedBy names ∧ ∀ k ∈ names, (s.release h).read? k = s.read? k := by
  obtain ⟨c, hc, count, -⟩ := hs.cell List.mem_cons_self
  rw [List.count_cons_self] at count
  constructor
  · intro j
    by_cases hj : j = h
    · subst hj
      have cell := release_cell hc
      split at cell
      · rw [holders_of_none cell]
        omega
      · rw [holders_of_cell cell]
        simp only [count]
        omega
    · rw [holders_congr (release_ne hj), hs j, List.count_cons_of_ne (Ne.symm hj)]
  · intro k hk
    by_cases hkh : k = h
    · subst hkh
      have := List.count_pos_iff.mpr hk
      simp only [read?, release_cell hc, hc, if_neg (show ¬ c.holders ≤ 1 by omega),
        Option.map_some]
    · simp only [read?, release_ne hkh]

theorem CountedBy.new {v : α} (hs : s.CountedBy names) :
    (s.new v).2.CountedBy ((s.new v).1 :: names) := by
  intro j
  by_cases hj : j = s.slots.size
  · subst hj
    have unnamed := hs.fresh fresh_cell
    have one : (s.new v).2.holders s.slots.size = 1 := holders_of_cell cell_new_self
    rw [one]
    exact (congrArg (· + 1) (List.count_eq_zero.mpr unnamed)).symm.trans
      List.count_cons_self.symm
  · rw [holders_congr (cell_new_ne hj), hs j]
    exact (List.count_cons_of_ne (Ne.symm hj)).symm

theorem empty_counted : (empty : Cells α).CountedBy [] := fun _ => rfl

end Counting

end Cells

/-! ## What a reduction may change -/

namespace ConstraintStore

/-- Entries were added to a store. -/
structure Extends (s s' : ConstraintStore) : Prop where
  bindings : s.bindings <+: s'.bindings
  ties : s.ties <+: s'.ties

theorem Extends.refl (s : ConstraintStore) : s.Extends s :=
  ⟨List.prefix_refl _, List.prefix_refl _⟩

theorem Extends.trans {s t u : ConstraintStore} (h : s.Extends t) (k : t.Extends u) :
    s.Extends u := ⟨h.bindings.trans k.bindings, h.ties.trans k.ties⟩

theorem Extends.nodes {s s' : ConstraintStore} (h : s.Extends s') : s.nodes ⊆ s'.nodes := by
  intro i hi
  obtain ⟨b, hb, hi⟩ := List.mem_flatMap.mp hi
  exact List.mem_flatMap.mpr ⟨b, h.bindings.subset hb, hi⟩

theorem bind_extends {s : ConstraintStore} {x y : BoundVar} {isLazy : Bool} :
    s.Extends (s.bind x y isLazy) := by
  unfold bind
  split
  · exact ⟨List.prefix_append _ _, List.prefix_refl _⟩
  · refine ⟨?_, List.prefix_refl _⟩
    simp only [addBinding, List.append_assoc]
    exact List.prefix_append _ _

theorem addTie_extends {s : ConstraintStore} {a b : ChoiceId} : s.Extends (s.addTie a b) := by
  unfold addTie
  split
  · exact .refl s
  · exact ⟨List.prefix_refl _, List.prefix_append _ _⟩

theorem tie_extends {s : ConstraintStore} {a b : ChoiceId} : s.Extends (s.tie a b) :=
  addTie_extends.trans addTie_extends

theorem addTie_bindings {s : ConstraintStore} {a b : ChoiceId} :
    (s.addTie a b).bindings = s.bindings := by
  unfold addTie
  split <;> rfl

theorem tie_bindings {s : ConstraintStore} {a b : ChoiceId} :
    (s.tie a b).bindings = s.bindings := addTie_bindings.trans addTie_bindings

theorem nodes_bind {s : ConstraintStore} {x y : BoundVar} {isLazy : Bool} {i : NodeId}
    (hi : i ∈ (s.bind x y isLazy).nodes) : i ∈ s.nodes ∨ i = x.node ∨ i = y.node := by
  unfold bind at hi
  split at hi <;> simp only [nodes, addBinding, List.flatMap_append, List.flatMap_cons,
    List.flatMap_nil, List.append_nil, List.mem_append, List.mem_cons, List.not_mem_nil,
    or_false] at hi <;> tauto

end ConstraintStore

namespace Computation

variable {c c' : Computation}

structure Counted (c : Computation) : Prop where
  fingerprints : c.fingerprints.CountedBy (c.queue.map Frame.fingerprint)
  stores : c.stores.CountedBy (c.queue.map Frame.constraints)

/-- The front frame has lost allotment or gained constraints; nothing else has changed. -/
structure Extends (c c' : Computation) : Prop where
  fingerprints : c'.fingerprints = c.fingerprints
  front : c'.queue.head?.map (fun f => (f.node, f.fingerprint, f.suspended)) =
    c.queue.head?.map fun f => (f.node, f.fingerprint, f.suspended)
  rest : c'.queue.tail = c.queue.tail
  others : ∀ f ∈ c.queue.tail, c'.constraintsOf f = c.constraintsOf f
  store : ∀ f ∈ c.queue.head?, ∀ f' ∈ c'.queue.head?,
    (c.constraintsOf f).Extends (c'.constraintsOf f')

theorem Extends.refl (c : Computation) : c.Extends c where
  fingerprints := rfl
  front := rfl
  rest := rfl
  others _ _ := rfl
  store f hf f' hf' := by
    cases Option.mem_unique hf hf'
    exact .refl _

theorem Extends.trans {c'' : Computation} (h : c.Extends c') (k : c'.Extends c'') :
    c.Extends c'' where
  fingerprints := k.fingerprints.trans h.fingerprints
  front := k.front.trans h.front
  rest := k.rest.trans h.rest
  others f hf := (k.others f (h.rest ▸ hf)).trans (h.others f hf)
  store f hf f'' hf'' := by
    cases hq : c'.queue.head? with
    | none =>
      have := h.front
      rw [hq, hf] at this
      cases this
    | some f' => exact (h.store f hf f' hq).trans (k.store f' hq f'' hf'')

theorem mem_roots {i : NodeId} : some i ∈ c.roots ↔
    ∃ f ∈ c.queue, f.node = some i ∨ i ∈ (c.constraintsOf f).nodes := by
  unfold roots
  simp only [List.mem_flatMap, List.mem_cons, List.mem_map, Option.some.injEq, exists_eq_right]
  constructor
  · rintro ⟨f, hf, h | h⟩
    · exact ⟨f, hf, .inl h.symm⟩
    · exact ⟨f, hf, .inr h⟩
  · rintro ⟨f, hf, h | h⟩
    · exact ⟨f, hf, .inl h.symm⟩
    · exact ⟨f, hf, .inr h⟩

/-- What holds of the node of every queued frame still does. -/
theorem Extends.nodes (h : c.Extends c') {P : Link → Prop} (hc : ∀ f ∈ c.queue, P f.node) :
    ∀ f ∈ c'.queue, P f.node := by
  have front := h.front
  have rest := h.rest
  cases hq : c'.queue with
  | nil => exact fun f hf => absurd hf List.not_mem_nil
  | cons f' fs' =>
    rw [hq] at front rest
    cases hq' : c.queue with
    | nil => rw [hq'] at front; cases front
    | cons f fs =>
      rw [hq'] at front rest hc
      simp only [List.head?_cons, Option.map_some, Option.some.injEq, Prod.mk.injEq] at front
      simp only [List.tail_cons] at rest
      subst rest
      intro g hg
      rcases List.mem_cons.mp hg with rfl | hg
      · rw [front.1]
        exact hc f List.mem_cons_self
      · exact hc g (List.mem_cons_of_mem _ hg)

theorem Extends.roots (h : c.Extends c') {i : NodeId} (hi : some i ∈ c.roots) :
    some i ∈ c'.roots := by
  obtain ⟨f, hf, hi⟩ := mem_roots.mp hi
  apply mem_roots.mpr
  have front := h.front
  have rest := h.rest
  have others := h.others
  have store := h.store
  cases hq : c.queue with
  | nil => rw [hq] at hf; exact absurd hf List.not_mem_nil
  | cons g gs =>
    cases hq' : c'.queue with
    | nil => rw [hq, hq'] at front; cases front
    | cons g' gs' =>
      rw [hq] at hf
      simp only [hq, hq', List.head?_cons, List.tail_cons, Option.map_some, Option.some.injEq,
        Prod.mk.injEq, Option.mem_def, forall_eq'] at front rest others store
      subst rest
      rcases List.mem_cons.mp hf with rfl | hf
      · refine ⟨g', List.mem_cons_self, ?_⟩
        rw [front.1]
        exact hi.imp_right fun hn => store.nodes hn
      · refine ⟨f, List.mem_cons_of_mem _ hf, ?_⟩
        rw [others f hf]
        exact hi

/-! ### The two changes -/

theorem putFront_extends {f : Frame} {rest : List Frame} (hq : c.queue = f :: rest)
    (allotment : Nat) : c.Extends (c.putFrame 0 { f with allotment := allotment }) := by
  have hq' : (c.putFrame 0 { f with allotment := allotment }).queue =
      { f with allotment := allotment } :: rest := by simp only [putFrame, hq, List.set_cons_zero]
  refine ⟨rfl, by rw [hq, hq']; rfl, by rw [hq, hq']; rfl, fun _ _ => rfl, fun g hg g' hg' => ?_⟩
  rw [hq] at hg
  rw [hq'] at hg'
  cases hg
  cases hg'
  exact .refl _

theorem putFront_counted {f : Frame} {rest : List Frame} (hq : c.queue = f :: rest)
    (hc : c.Counted) (allotment : Nat) :
    (c.putFrame 0 { f with allotment := allotment }).Counted := by
  obtain ⟨hf, hs⟩ := hc
  rw [hq] at hf hs
  refine ⟨?_, ?_⟩ <;> simp only [putFrame, hq, List.set_cons_zero, List.map_cons] at *
  · exact hf
  · exact hs

theorem putFront_roots {f : Frame} {rest : List Frame} (hq : c.queue = f :: rest)
    (allotment : Nat) : (c.putFrame 0 { f with allotment := allotment }).roots = c.roots := by
  simp only [roots, putFrame, hq, List.set_cons_zero, List.flatMap_cons]
  rfl

/-- The innermost search after its front frame gained constraints. -/
structure Updated (c : Computation) (update : ConstraintStore → ConstraintStore) (f f' : Frame)
    (rest : List Frame) (c' : Computation) : Prop where
  queue : c'.queue = f' :: rest
  fingerprints : c'.fingerprints = c.fingerprints
  frame : ∃ h, f' = { f with constraints := h }
  store : c'.constraintsOf f' = update (c.constraintsOf f)
  others : ∀ g ∈ rest, c'.constraintsOf g = c.constraintsOf g
  counted : c'.Counted

theorem updateConstraints_updated {f : Frame} {rest : List Frame} (hq : c.queue = f :: rest)
    (hc : c.Counted) (update : ConstraintStore → ConstraintStore) :
    ∃ f', c.Updated update f f' rest (c.updateConstraints 0 update) := by
  have stores := hc.stores
  have fingerprints := hc.fingerprints
  rw [hq, List.map_cons] at stores fingerprints
  obtain ⟨counted, here, there⟩ := stores.write (f := update)
  obtain ⟨cell, hcell, -⟩ := stores.cell List.mem_cons_self
  have result : c.updateConstraints 0 update =
      { c with
        queue := { f with constraints := (c.stores.write f.constraints update).1 } :: rest
        stores := (c.stores.write f.constraints update).2 } := by
    simp [updateConstraints, writeConstraints, putFrame, hq]
  refine ⟨{ f with constraints := (c.stores.write f.constraints update).1 }, ?_⟩
  rw [result]
  refine ⟨rfl, rfl, ⟨_, rfl⟩, ?_, fun g hg => ?_, ⟨fingerprints, counted⟩⟩
  · have old : c.stores.read? f.constraints = some cell.value := by
      simp only [Cells.read?, hcell, Option.map_some]
    rw [old] at here
    simp only [constraintsOf, here, old, Option.map_some, Option.getD_some]
  · simp only [constraintsOf, there g.constraints (List.mem_map_of_mem hg)]

theorem Updated.extends_ {update : ConstraintStore → ConstraintStore} {f f' : Frame}
    {rest : List Frame} (hq : c.queue = f :: rest) (u : c.Updated update f f' rest c')
    (grows : ∀ s : ConstraintStore, s.Extends (update s)) : c.Extends c' := by
  obtain ⟨h, rfl⟩ := u.frame
  refine ⟨u.fingerprints, by rw [hq, u.queue]; rfl, by rw [hq, u.queue]; rfl, ?_, ?_⟩
  · rw [hq]
    exact u.others
  · intro g hg g' hg'
    rw [hq] at hg
    rw [u.queue] at hg'
    cases hg
    cases hg'
    rw [u.store]
    exact grows _

theorem Updated.roots {update : ConstraintStore → ConstraintStore} {f f' : Frame}
    {rest : List Frame} (hq : c.queue = f :: rest) (u : c.Updated update f f' rest c')
    {i : NodeId} (hi : some i ∈ c'.roots) :
    some i ∈ c.roots ∨ i ∈ (update (c.constraintsOf f)).nodes := by
  obtain ⟨g, hg, hi⟩ := mem_roots.mp hi
  rw [u.queue] at hg
  obtain ⟨h, rfl⟩ := u.frame
  rcases List.mem_cons.mp hg with rfl | hg
  · rcases hi with hi | hi
    · exact .inl (mem_roots.mpr ⟨f, by rw [hq]; exact List.mem_cons_self, .inl hi⟩)
    · exact .inr (u.store ▸ hi)
  · refine .inl (mem_roots.mpr ⟨g, by rw [hq]; exact List.mem_cons_of_mem _ hg, ?_⟩)
    rw [← u.others g hg]
    exact hi

end Computation

end ChoiceGraph
