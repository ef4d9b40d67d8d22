import ChoiceGraph.Proofs.Effects

/-! # Allocation

A request for nodes may collect, grow the pool and charge the front frame, but nothing that is
live changes: it is quiet. The nodes it hands out are off the free list and not live. They stay
so until each is drafted, so that a rewrite that stops half way leaves them to the collector. -/
namespace ChoiceGraph

namespace Machine

variable {m m' m'' : Machine} {held held' : List NodeId} {ρ ρ' : Rank} {i : NodeId} {s : Scope}

/-- Nothing that is live has changed. -/
structure Quiet (m m' : Machine) : Prop where
  storage : m'.graph.Sound
  signature : m'.signature = m.signature
  config : m'.config = m.config
  roots : m'.roots = m.roots
  nextId : m'.nextId = m.nextId
  search : SearchExtends m.computations m'.computations
  frames : ∀ c ∈ m'.computations, ∀ f ∈ c.queue, f.node ≠ none
  counted : ∀ c ∈ m'.computations, c.Counted
  searchRoots : m'.computations.flatMap Computation.roots =
    m.computations.flatMap Computation.roots
  kept : ∀ i, m.Live [] i → m'.graph.content? i = m.graph.content? i
  unfree : ∀ i, m.Live [] i → i ∉ m'.graph.free

theorem Quiet.refl (h : m.Inv [] ρ) : m.Quiet m :=
  ⟨h.storage, rfl, rfl, rfl, rfl, .refl _, h.frames, h.counted, rfl, fun _ _ => rfl, h.unfree⟩

theorem Quiet.live (q : m.Quiet m') (h : m.Inv [] ρ) : m'.Live [] i ↔ m.Live [] i := by
  apply live_congr
  · unfold rootSet
    rw [q.roots, q.searchRoots]
  · exact fun i hi => (h.fits i hi).imp fun _ hc => hc.1
  · exact q.kept

theorem Quiet.inv (q : m.Quiet m') (h : m.Inv [] ρ) : m'.Inv [] ρ where
  storage := q.storage
  signature := q.signature ▸ h.signature
  frames := q.frames
  counted := q.counted
  unfree i hi := q.unfree i ((q.live h).mp hi)
  fits i hi := by
    rw [q.signature, q.kept i ((q.live h).mp hi)]
    exact h.fits i ((q.live h).mp hi)
  spines i c hi hc := by
    have hi := (q.live h).mp hi
    rw [q.kept i hi] at hc
    rintro missing f x rfl
    exact (h.spines i _ hi hc missing f x rfl).congr (S := m.Live [])
      (hi.link hc List.mem_cons_self) (fun p c hp hc j hj => hp.link hc hj) q.kept
  ranked i j c hi hc hj := by
    have hi := (q.live h).mp hi
    exact h.ranked i j c hi ((q.kept i hi).symm.trans hc) hj

theorem Quiet.evolves (q : m.Quiet m') (h : m.Inv [] ρ) : m.Evolves s ρ m' [] ρ where
  inv := q.inv h
  signature := q.signature
  config := q.config
  roots := q.roots
  search := q.search
  rank _ _ := rfl
  fixed i _ hi hc _ := (q.kept i hi.live).trans hc

theorem Quiet.trans (q : m.Quiet m') (h : m.Inv [] ρ) (q' : m'.Quiet m'') : m.Quiet m'' where
  storage := q'.storage
  signature := q'.signature.trans q.signature
  config := q'.config.trans q.config
  roots := q'.roots.trans q.roots
  nextId := q'.nextId.trans q.nextId
  search := q.search.trans q'.search
  frames := q'.frames
  counted := q'.counted
  searchRoots := q'.searchRoots.trans q.searchRoots
  kept i hi := (q'.kept i ((q.live h).mpr hi)).trans (q.kept i hi)
  unfree i hi := q'.unfree i ((q.live h).mpr hi)

/-- Nodes that were handed out and are not live yet. -/
structure Blank (m : Machine) (held ids : List NodeId) : Prop where
  nodup : ids.Nodup
  lt : ∀ i ∈ ids, i < m.graph.capacity
  unfree : ∀ i ∈ ids, i ∉ m.graph.free
  dead : ∀ i ∈ ids, ¬ m.Live held i

/-! ## More roots for a while -/

def push (m : Machine) (links : List Link) : Machine :=
  { m with roots := links.reverse ++ m.roots }

def pop (m : Machine) (n : Nat) : Machine := { m with roots := m.roots.drop n }

theorem Live.rooted (live : m.Live held i) : ∀ j, some j ∈ [some i] → m.Live held j := by
  intro j hj
  rw [List.mem_singleton] at hj
  cases hj
  exact live

theorem live_push {links : List Link} (hl : ∀ i, some i ∈ links → m.Live held i) :
    (m.push links).Live held i ↔ m.Live held i := by
  constructor
  · intro hi
    induction hi with
    | root hi =>
      simp only [push, rootSet, List.append_assoc, List.mem_append, List.mem_reverse] at hi
      rcases hi with hi | hi
      · exact hl _ hi
      · exact Graph.Reach.root (by simpa only [rootSet, List.append_assoc, List.mem_append] using hi)
    | step _ hij ih => exact Graph.Reach.step ih hij
  · intro hi
    refine Graph.Reach.mono hi fun l hl => ?_
    simp only [push, rootSet, List.append_assoc, List.mem_append] at *
    exact .inr hl

theorem Inv.push {links : List Link} (h : m.Inv held ρ) (hl : ∀ i, some i ∈ links → m.Live held i) :
    (m.push links).Inv held ρ :=
  h.shrink rfl rfl h.frames h.counted fun _ hi => (live_push hl).mp hi

theorem live_pop {n : Nat} (hi : (m.pop n).Live held i) : m.Live held i := by
  refine Graph.Reach.mono hi fun l hl => ?_
  simp only [pop, rootSet, List.append_assoc, List.mem_append] at *
  exact hl.imp_left fun hl => List.mem_of_mem_drop hl

theorem pop_push {links : List Link} (roots : m'.roots = (m.push links).roots) :
    (m'.pop links.length).roots = m.roots := by
  simp only [pop, roots, push]
  rw [← List.length_reverse, List.drop_left]

theorem Steady.push {links : List Link} (h : m.Steady s ρ i) : (m.push links).Steady s ρ i := by
  induction h with
  | root hi =>
    refine .root ?_
    simp only [Machine.push, rootSet, List.append_assoc, List.mem_append] at *
    exact .inr hi
  | link _ hc fixed hj ih => exact .link ih hc fixed hj

theorem Evolves.pop {links : List Link} (e : (m.push links).Evolves s ρ m' held ρ') :
    m.Evolves s ρ (m'.pop links.length) held ρ' where
  inv := e.inv.shrink rfl rfl e.inv.frames e.inv.counted fun _ hi => live_pop hi
  signature := e.signature
  config := e.config
  roots := pop_push e.roots
  search := e.search
  rank i hi := e.rank i hi.push
  fixed i c hi hc hf := e.fixed i c hi.push hc hf

theorem Quiet.pop {links : List Link} (hl : ∀ i, some i ∈ links → m.Live [] i)
    (q : (m.push links).Quiet m') : m.Quiet (m'.pop links.length) where
  storage := q.storage
  signature := q.signature
  config := q.config
  roots := pop_push q.roots
  nextId := q.nextId
  search := q.search
  frames := q.frames
  counted := q.counted
  searchRoots := q.searchRoots
  kept i hi := q.kept i ((live_push hl).mpr hi)
  unfree i hi := q.unfree i ((live_push hl).mpr hi)

end Machine

namespace Eff

open Machine

variable {α β : Type} {e : Eff α} {f : α → Eff β} {m m' : Machine} {a : α} {held : List NodeId}
  {ρ ρ' : Rank} {i : NodeId} {s s' : Scope} {Q Q' : α → Machine → Rank → Prop}
  {P : β → Machine → Rank → Prop}

theorem withRoots_meets {links : List Link} {Q : α → Machine → Prop} {R : Machine → Prop}
    (h : e.Meets (m.push links) (fun a m' => Q a (m'.pop links.length))
      (fun m' => R (m'.pop links.length))) : (withRoots links e).Meets m Q R := by
  unfold Meets at *
  cases he : e (m.push links) with
  | ok a m' =>
    have run : withRoots links e m = .ok a (m'.pop links.length) := by
      unfold withRoots
      rw [show e { m with roots := links.reverse ++ m.roots } = .ok a m' from he]
      rfl
    rw [he] at h
    rw [run]
    exact h
  | error stop m' =>
    have run : withRoots links e m = .error stop (m'.pop links.length) := by
      unfold withRoots
      rw [show e { m with roots := links.reverse ++ m.roots } = .error stop m' from he]
      rfl
    rw [he] at h
    rw [run]
    cases stop <;> exact h

/-! ## Keeping a machine -/

/-- However the effect ends, the machine has evolved within the scope. -/
def Keeps (s : Scope) (e : Eff α) (m : Machine) (ρ : Rank) (Q : α → Machine → Rank → Prop) : Prop :=
  e.Meets m (fun a m' => ∃ ρ', m.Evolves s ρ m' [] ρ' ∧ Q a m' ρ')
    (fun m' => ∃ ρ', m.Evolves s ρ m' [] ρ')

theorem Keeps.mono (h : e.Keeps s m ρ Q)
    (hQ : ∀ a m' ρ', m.Evolves s ρ m' [] ρ' → Q a m' ρ' → Q' a m' ρ') : e.Keeps s m ρ Q' :=
  Meets.mono h (fun a m' ⟨ρ', ev, q⟩ => ⟨ρ', ev, hQ a m' ρ' ev q⟩) fun _ h => h

/-- The finer evolution inside a wider scope is not forgotten. -/
theorem Keeps.within (h : e.Keeps s m ρ Q) (hs : s.Within s') :
    e.Keeps s' m ρ fun a m' ρ' => m.Evolves s ρ m' [] ρ' ∧ Q a m' ρ' :=
  Meets.mono h (fun _ _ ⟨ρ', ev, q⟩ => ⟨ρ', ev.within hs, ev, q⟩)
    fun _ ⟨ρ', ev⟩ => ⟨ρ', ev.within hs⟩

theorem Keeps.bind (h : e.Keeps s m ρ Q)
    (hf : ∀ a m' ρ', m.Evolves s ρ m' [] ρ' → Q a m' ρ' → (f a).Keeps s m' ρ' P) :
    (e >>= f).Keeps s m ρ P :=
  Meets.bind h fun a m' ⟨ρ', ev, q⟩ =>
    Meets.mono (hf a m' ρ' ev q) (fun _ _ ⟨ρ'', ev', p⟩ => ⟨ρ'', ev.trans ev', p⟩)
      fun _ ⟨ρ'', ev'⟩ => ⟨ρ'', ev.trans ev'⟩

theorem keeps_pure (h : m.Inv [] ρ) (q : Q a m ρ) : (pure a : Eff α).Keeps s m ρ Q :=
  meets_pure ⟨ρ, .refl h, q⟩

theorem keeps_throw {stop : Stop} (h : m.Inv [] ρ) (hs : ∀ fault, stop ≠ .fault fault) :
    (throw stop : Eff α).Keeps s m ρ Q :=
  meets_throw hs ⟨ρ, .refl h⟩

theorem keeps_look_bind {r : Machine → Except Fault α} (run : r m = .ok a)
    (h : (f a).Keeps s m ρ P) : (look r >>= f).Keeps s m ρ P :=
  meets_look_bind run h

theorem keeps_withRoots {links : List Link} (he : e.Keeps s (m.push links) ρ Q) :
    (withRoots links e).Keeps s m ρ fun a m' ρ' => ∃ mp, m' = mp.pop links.length ∧
      (m.push links).Evolves s ρ mp [] ρ' ∧ Q a mp ρ' :=
  withRoots_meets (Meets.mono he
    (fun _ m' ⟨ρ', ev, q⟩ => ⟨ρ', ev.pop, m', rfl, ev, q⟩) fun _ ⟨ρ', ev⟩ => ⟨ρ', ev.pop⟩)

/-! ## Requests -/

theorem take_meets (h : m.Inv [] ρ) {n : Nat} {R : Machine → Prop} :
    (take? n).Meets m (fun ids? m' => m.Quiet m' ∧
      ∀ ids ∈ ids?, ids.length = n ∧ m'.Blank [] ids) R := by
  unfold take?
  by_cases enough : m.graph.hasFree n = true
  · have taken := Graph.afterTake_taken (n := n) h.storage
    have from_free : ∀ i ∈ m.graph.free.take n, i ∈ m.graph.free :=
      fun i hi => List.mem_of_mem_take hi
    have untaken : ∀ i, m.Live [] i → i ∉ m.graph.free.take n :=
      fun i hi ht => h.unfree i hi (from_free i ht)
    have quiet : m.Quiet (m.setGraph (m.graph.afterTake n)) :=
      ⟨taken.sound, rfl, rfl, rfl, rfl, .refl _, h.frames, h.counted, rfl,
        fun i hi => taken.kept i (untaken i hi),
        fun i hi hf => h.unfree i hi (by rw [taken.split]; exact List.mem_append_right _ hf)⟩
    refine meets_of_ok (if_pos enough) ⟨quiet, fun ids hids => ?_⟩
    cases hids
    have nodup : (m.graph.free.take n ++ (m.graph.afterTake n).free).Nodup :=
      taken.split ▸ h.storage.free_nodup
    refine ⟨?_, taken.nodup, fun i hi => ?_, fun i hi hf => ?_, fun i hi hl => ?_⟩
    · have := Graph.hasFree_iff.mp enough
      rw [List.length_take]
      omega
    · exact Nat.lt_of_lt_of_eq (h.storage.free_lt i (from_free i hi)) taken.capacity.symm
    · exact (List.nodup_append.mp nodup).2.2 i hi i hf rfl
    · exact untaken i ((quiet.live h).mp hl) hi
  · exact meets_of_ok (if_neg enough) ⟨.refl h, fun _ hids => by cases hids⟩

private theorem charge_quiet (h : m.Inv [] ρ) : m.Quiet (chargeCollection m) := by
  unfold chargeCollection
  cases hc : m.computations with
  | nil =>
    have idle : m.front? = none := by simp only [Machine.front?, hc]; rfl
    rw [idle]
    exact .refl h
  | cons c rest =>
    cases hq : c.queue with
    | nil =>
      have idle : m.front? = none := by
        simp only [Machine.front?, hc, List.head?_cons, Option.bind_some, Computation.front?, hq,
          List.head?_nil]
      rw [idle]
      exact .refl h
    | cons f fs =>
      have front : m.front? = some f := by
        simp only [Machine.front?, hc, List.head?_cons, Option.bind_some, Computation.front?, hq]
      rw [front]
      have mem : c ∈ m.computations := hc ▸ List.mem_cons_self
      have ext := Computation.putFront_extends hq (f.allotment - 1)
      have searches : (m.mapInnermost fun c =>
          c.putFrame 0 { f with allotment := f.allotment - 1 }) =
          { m with computations :=
              c.putFrame 0 { f with allotment := f.allotment - 1 } :: rest } := by
        simp only [mapInnermost, hc]
      have quiet : ∀ slice : Slice, m.Quiet { m with
          computations := c.putFrame 0 { f with allotment := f.allotment - 1 } :: rest
          slice := slice } := by
        intro slice
        refine ⟨h.storage, rfl, rfl, rfl, rfl, ?_, ?_, ?_, ?_, fun _ _ => rfl, h.unfree⟩
        · rw [hc]
          exact .inner ext
        · intro d hd
          rcases List.mem_cons.mp hd with rfl | hd
          · exact ext.nodes (P := fun l => l ≠ none) (h.frames c mem)
          · exact h.frames d (hc ▸ List.mem_cons_of_mem _ hd)
        · intro d hd
          rcases List.mem_cons.mp hd with rfl | hd
          · exact Computation.putFront_counted hq (h.counted c mem) _
          · exact h.counted d (hc ▸ List.mem_cons_of_mem _ hd)
        · rw [hc, List.flatMap_cons, List.flatMap_cons, Computation.putFront_roots hq]
      simp only [searches]
      split
      · exact quiet _
      · exact quiet m.slice

theorem collect_meets (h : m.Inv [] ρ) {R : Machine → Prop} :
    Eff.collect.Meets m (fun _ m' => m.Quiet m') R := by
  have closed : m.graph.Closed m.rootSet := by simpa using h.closed
  obtain ⟨g', run, collected⟩ := Graph.collect_exact h.storage.tenancy closed
  have live : ∀ i, m.Live [] i → m.graph.Reach m.rootSet i :=
    fun i hi => Graph.Reach.mono hi (by simp)
  have swept : m.Quiet { m.setGraph g' with collections := m.collections + 1 } :=
    ⟨collected.storage h.storage, rfl, rfl, rfl, rfl, .refl _, h.frames, h.counted, rfl,
      fun i hi => collected.content (live i hi),
      fun i hi hf => ((collected.free i).mp hf).2 (live i hi)⟩
  refine meets_of_ok (a := g'.free.length - m.graph.free.length) ?_
    (swept.trans h (charge_quiet (swept.inv h)))
  unfold Eff.collect
  rw [run]

theorem grow_meets (h : m.Inv [] ρ) {n : Nat} {R : Machine → Prop} :
    (grow? n).Meets m (fun _ m' => m.Quiet m') R := by
  cases hg : m.graph.grow? n with
  | none =>
    have run : grow? n m = .ok false m := by simp only [grow?, hg]
    exact meets_of_ok run (.refl h)
  | some g' =>
    have run : grow? n m = .ok true (m.setGraph g') := by simp only [grow?, hg]
    have grown : m.graph.Grown g' := by
      unfold Graph.grow? at hg
      simp only at hg
      split at hg
      · cases hg
      · cases hg
        exact Graph.extend_grown h.storage
    refine meets_of_ok run ⟨grown.sound, rfl, rfl, rfl, rfl, .refl _, h.frames,
      h.counted, rfl, fun i hi => grown.kept i (h.lt hi), fun i hi hf => ?_⟩
    obtain ⟨k, free⟩ := grown.free
    rw [Machine.setGraph, free] at hf
    rcases List.mem_append.mp hf with hf | hf
    · exact Nat.lt_irrefl _ (Nat.lt_of_lt_of_le (h.lt hi) (List.mem_range'_1.mp hf).1)
    · exact h.unfree i hi hf

/-- Nodes are handed out all at once, and none of them is live. -/
theorem allocate_meets (h : m.Inv [] ρ) (n : Nat) :
    (allocate n).Meets m (fun ids m' => m.Quiet m' ∧ ids.length = n ∧ m'.Blank [] ids)
      (fun m' => m.Quiet m') := by
  have take : ∀ {m₁ : Machine}, m.Quiet m₁ → (take? n).Meets m₁ (fun ids? m' => m.Quiet m' ∧
      ∀ ids ∈ ids?, ids.length = n ∧ m'.Blank [] ids) (fun m' => m.Quiet m') :=
    fun q => (take_meets (q.inv h)).mono (fun _ _ ⟨q', hids⟩ => ⟨q.trans h q', hids⟩) fun _ h => h
  have give_up : ∀ {m₁ : Machine}, m.Quiet m₁ → (exhausted n : Eff (List NodeId)).Meets m₁
      (fun ids m' => m.Quiet m' ∧ ids.length = n ∧ m'.Blank [] ids) (fun m' => m.Quiet m') :=
    fun q => meets_of_fatal rfl q
  refine (take (.refl h)).bind fun ids? m₁ ⟨q₁, h₁⟩ => ?_
  cases ids? with
  | some ids => exact meets_pure ⟨q₁, h₁ ids rfl⟩
  | none =>
    refine Meets.bind (Q := fun _ m' => m.Quiet m')
      ((collect_meets (q₁.inv h)).mono (fun _ _ q => q₁.trans h q) fun _ h => h) fun _ m₂ q₂ => ?_
    refine (take q₂).bind fun ids? m₃ ⟨q₃, h₃⟩ => ?_
    cases ids? with
    | some ids => exact meets_pure ⟨q₃, h₃ ids rfl⟩
    | none =>
      refine Meets.bind (Q := fun _ m' => m.Quiet m')
        ((grow_meets (q₃.inv h)).mono (fun _ _ q => q₃.trans h q) fun _ h => h)
        fun grown m₄ q₄ => ?_
      cases grown with
      | false => exact give_up q₄
      | true =>
        refine (take q₄).bind fun ids? m₅ ⟨q₅, h₅⟩ => ?_
        cases ids? with
        | some ids => exact meets_pure ⟨q₅, h₅ ids rfl⟩
        | none => exact give_up q₅

/-- A request while live nodes are rooted once more. -/
theorem allocate_rooted_meets {links : List Link} (h : m.Inv [] ρ)
    (hl : ∀ i, some i ∈ links → m.Live [] i) (n : Nat) :
    (withRoots links (allocate n)).Meets m
      (fun ids m' => m.Quiet m' ∧ ids.length = n ∧ m'.Blank [] ids) (fun m' => m.Quiet m') :=
  withRoots_meets ((allocate_meets (h.push hl) n).mono
    (fun _ _ ⟨q, length, blank⟩ => ⟨q.pop hl, length,
      { blank with dead := fun i hi hd => blank.dead i hi (live_pop hd) }⟩)
    fun _ q => q.pop hl)

theorem allocateOne_meets (h : m.Inv [] ρ) :
    allocateOne.Meets m (fun i m' => m.Quiet m' ∧ m'.Blank [] [i]) (fun m' => m.Quiet m') := by
  refine (allocate_meets h 1).bind fun ids m' ⟨q, length, blank⟩ => ?_
  rcases ids with _ | ⟨i, _ | ⟨j, ids⟩⟩
  · cases length
  · exact meets_pure ⟨q, blank⟩
  · cases length

theorem allocateFor_meets {links : List Link} (h : m.Inv [] ρ)
    (hl : ∀ i, some i ∈ links → m.Live [] i) :
    (allocateFor links).Meets m (fun i m' => m.Quiet m' ∧ m'.Blank [] [i])
      (fun m' => m.Quiet m') :=
  withRoots_meets ((allocateOne_meets (h.push hl)).mono
    (fun _ _ ⟨q, blank⟩ => ⟨q.pop hl,
      { blank with dead := fun i hi hd => blank.dead i hi (live_pop hd) }⟩)
    fun _ q => q.pop hl)

end Eff

end ChoiceGraph
