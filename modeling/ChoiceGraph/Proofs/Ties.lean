import ChoiceGraph.Proofs.Branches
import Mathlib.Data.List.Nodup
import Mathlib.Logic.Relation

/-! # Ties and the classes they make

Two choices are equivalent when a chain of ties leads from one to the other. The search for them
settles one pending choice in each round, and a choice that becomes pending stands at the end of a tie
nobody has followed yet, so that the rounds it is given are enough. Ties are recorded in both directions,
whichever of them were there before; what is found is therefore the class of a choice in the smallest
equivalence that contains the pairs that were tied. -/
namespace ChoiceGraph

namespace ConstraintStore

variable {s : ConstraintStore} {x y : ChoiceId}

/-! ## What the search finds -/

/-- The ties that lead to a choice which has not been seen. -/
def ahead (s : ConstraintStore) (seen : List ChoiceId) : Nat := s.ties.countP (·.2 ∉ seen)

/-- Every partner of `x` that is new stands at the end of a tie of its own. -/
private theorem new_partners_counted (x : ChoiceId) {seen later : List ChoiceId} (grown : seen ⊆ later) :
    ∀ ties : List (ChoiceId × ChoiceId), (∀ b, (x, b) ∈ ties → b ∈ later) →
      ((partnersOf ⟨[], ties⟩ x).filter (· ∉ seen)).length + ties.countP (·.2 ∉ later) ≤
        ties.countP (·.2 ∉ seen) := by
  intro ties
  induction ties with
  | nil => exact fun _ => Nat.le_refl 0
  | cons p ties ih =>
    intro followed
    have rest := ih fun b hb => followed b (List.mem_cons_of_mem _ hb)
    simp only [partnersOf, List.filterMap_cons, List.countP_cons, decide_eq_true_eq] at rest ⊢
    by_cases old : p.2 ∈ seen
    · have reached : p.2 ∈ later := grown old
      by_cases here : p.1 = x
      · simpa [here, old, reached] using rest
      · simpa [here, old, reached] using rest
    · by_cases here : p.1 = x
      · have reached : p.2 ∈ later := followed p.2 (here ▸ List.mem_cons_self)
        simp [here, old, reached] at rest ⊢
        omega
      · by_cases reached : p.2 ∈ later
        · simp [here, old, reached] at rest ⊢
          omega
        · simp [here, old, reached] at rest ⊢
          omega

theorem settle_ahead (s : ConstraintStore) (x : ChoiceId) (seen : List ChoiceId) :
    ((s.partnersOf x).filter (· ∉ seen)).length +
        s.ahead (seen ++ (s.partnersOf x).filter (· ∉ seen)) ≤ s.ahead seen := by
  refine new_partners_counted x (List.subset_append_left _ _) s.ties fun b tied => ?_
  by_cases old : b ∈ seen
  · exact List.mem_append_left _ old
  · exact List.mem_append_right _
      (List.mem_filter.mpr ⟨mem_partnersOf.mpr tied, decide_eq_true old⟩)

/-- With rounds for all that is pending and all that may become pending, the search ends by itself:
more rounds change nothing. -/
theorem tiedFrom_ends (s : ConstraintStore) (more : Nat) : ∀ (rounds : Nat) (seen pending : List ChoiceId),
    pending.length + s.ahead seen ≤ rounds →
      s.tiedFrom (rounds + more) seen pending = s.tiedFrom rounds seen pending := by
  intro rounds
  induction rounds with
  | zero =>
    intro seen pending enough
    obtain rfl : pending = [] := List.length_eq_zero_iff.mp (by omega)
    cases more <;> rfl
  | succ rounds ih =>
    intro seen pending enough
    rw [Nat.add_right_comm]
    cases pending with
    | nil => rfl
    | cons x pending =>
      have fewer := s.settle_ahead x seen
      refine ih _ _ ?_
      simp only [List.length_append, List.length_cons] at enough ⊢
      omega

/-- What is found from the pending choices is closed under ties, if everything that is not pending
is settled and there are rounds for all that may still become pending. -/
private theorem tiedFrom_closed : ∀ (rounds : Nat) (seen pending : List ChoiceId), pending ⊆ seen →
    (∀ a ∈ seen, a ∉ pending → ∀ b, s.Tied a b → b ∈ seen) →
    pending.length + s.ahead seen ≤ rounds →
    seen ⊆ s.tiedFrom rounds seen pending ∧
      (∀ b ∈ s.tiedFrom rounds seen pending, ∃ a ∈ seen, Relation.ReflTransGen s.Tied a b) ∧
      ∀ a ∈ s.tiedFrom rounds seen pending, ∀ b, s.Tied a b →
        b ∈ s.tiedFrom rounds seen pending := by
  intro rounds
  induction rounds with
  | zero =>
    intro seen pending _ settled enough
    obtain rfl : pending = [] := List.length_eq_zero_iff.mp (by omega)
    exact ⟨List.Subset.refl _, fun b hb => ⟨b, hb, .refl⟩,
      fun a ha b tied => settled a ha List.not_mem_nil b tied⟩
  | succ rounds ih =>
    intro seen pending sub settled enough
    cases pending with
    | nil =>
      exact ⟨List.Subset.refl _, fun b hb => ⟨b, hb, .refl⟩,
        fun a ha b tied => settled a ha List.not_mem_nil b tied⟩
    | cons x pending =>
      have fewer := s.settle_ahead x seen
      unfold tiedFrom
      dsimp only
      generalize hnew : (s.partnersOf x).filter (· ∉ seen) = new at fewer
      have mem : ∀ b, b ∈ new ↔ s.Tied x b ∧ b ∉ seen := fun b => by
        rw [← hnew, List.mem_filter, mem_partnersOf, decide_eq_true_eq, Tied]
      obtain ⟨grown, reached, closed⟩ := ih (seen ++ new) (new ++ pending)
        (List.append_subset.mpr ⟨List.subset_append_right _ _,
          fun a ha => List.mem_append_left _ (sub (List.mem_cons_of_mem _ ha))⟩)
        (fun a ha idle b tied => by
          have old := (List.mem_append.mp ha).resolve_right
            fun ha => idle (List.mem_append_left _ ha)
          by_cases here : a = x
          · subst here
            by_cases hb : b ∈ seen
            · exact List.mem_append_left _ hb
            · exact List.mem_append_right _ ((mem b).mpr ⟨tied, hb⟩)
          · refine List.mem_append_left _ (settled a old (fun ha => ?_) b tied)
            exact (List.mem_cons.mp ha).elim here fun ha => idle (List.mem_append_right _ ha))
        (by
          simp only [List.length_append, List.length_cons] at enough ⊢
          omega)
      refine ⟨fun a ha => grown (List.mem_append_left _ ha), fun b hb => ?_, closed⟩
      obtain ⟨a, ha, path⟩ := reached b hb
      rcases List.mem_append.mp ha with ha | ha
      · exact ⟨a, ha, path⟩
      · exact ⟨x, sub List.mem_cons_self, .head ((mem a).mp ha).1 path⟩

theorem ahead_le (s : ConstraintStore) (seen : List ChoiceId) : s.ahead seen ≤ s.ties.length :=
  List.countP_le_length

theorem equivalents_ends (s : ConstraintStore) (x : ChoiceId) {rounds : Nat}
    (enough : s.ties.length < rounds) :
    (s.tiedFrom rounds [x] [x]).filter (· ≠ x) = s.equivalents x := by
  obtain ⟨more, rfl⟩ := Nat.exists_eq_add_of_le enough
  have fits := s.ahead_le [x]
  rw [tiedFrom_ends s more (s.ties.length + 1) [x] [x] (by rw [List.length_singleton]; omega), equivalents]

/-- The equivalents of a choice are all the others that chains of ties lead to. -/
theorem mem_equivalents : y ∈ s.equivalents x ↔ y ≠ x ∧ Relation.ReflTransGen s.Tied x y := by
  have fits := s.ahead_le [x]
  obtain ⟨grown, reached, closed⟩ := tiedFrom_closed (s := s) (s.ties.length + 1) [x] [x]
    (List.Subset.refl _) (fun a ha idle => absurd ha idle) (by rw [List.length_singleton]; omega)
  have all : ∀ z, Relation.ReflTransGen s.Tied x z → z ∈ s.tiedFrom (s.ties.length + 1) [x] [x] := by
    intro z path
    induction path with
    | refl => exact grown List.mem_cons_self
    | tail _ tied ih => exact closed _ ih _ tied
  rw [equivalents, List.mem_filter, decide_eq_true_eq, and_comm]
  refine and_congr_right fun _ => ⟨fun hy => ?_, all y⟩
  obtain ⟨a, ha, path⟩ := reached y hy
  rwa [List.mem_singleton.mp ha] at path

/-! ## Each choice once -/

theorem partnersOf_nodup (distinct : s.ties.Nodup) (x : ChoiceId) : (s.partnersOf x).Nodup := by
  unfold partnersOf
  refine distinct.filterMap fun p q z hp hq => ?_
  obtain ⟨a, b⟩ := p
  obtain ⟨a', b'⟩ := q
  simp only [Option.mem_def, Option.ite_none_right_eq_some, Option.some.injEq] at hp hq
  rw [hp.1, hp.2, hq.1, hq.2]

theorem tiedFrom_nodup (distinct : s.ties.Nodup) : ∀ (rounds : Nat) (seen pending : List ChoiceId),
    seen.Nodup → (s.tiedFrom rounds seen pending).Nodup := by
  intro rounds
  induction rounds with
  | zero => exact fun seen pending nodup => nodup
  | succ rounds ih =>
    intro seen pending nodup
    cases pending with
    | nil => exact nodup
    | cons x pending =>
      refine ih _ _ (List.nodup_append.mpr ⟨nodup, (partnersOf_nodup distinct x).filter _, ?_⟩)
      intro a ha b hb same
      exact of_decide_eq_true (List.mem_filter.mp hb).2 (same ▸ ha)

theorem equivalents_nodup (distinct : s.ties.Nodup) (x : ChoiceId) : (s.equivalents x).Nodup :=
  (tiedFrom_nodup distinct _ _ _ (List.nodup_singleton x)).filter _

theorem addTie_nodup (distinct : s.ties.Nodup) (x y : ChoiceId) : (s.addTie x y).ties.Nodup := by
  unfold addTie
  split
  · exact distinct
  · next new =>
    refine List.nodup_append.mpr ⟨distinct, List.nodup_singleton _, fun p hp q hq same => ?_⟩
    rw [List.mem_singleton.mp hq] at same
    exact new (same ▸ hp)

theorem tie_nodup (distinct : s.ties.Nodup) (x y : ChoiceId) : (s.tie x y).ties.Nodup :=
  addTie_nodup (addTie_nodup distinct x y) y x

/-! ## Tying -/

theorem addTie_tied {a b : ChoiceId} : (s.addTie a b).Tied x y ↔ s.Tied x y ∨ x = a ∧ y = b := by
  unfold addTie Tied
  split
  · next old =>
    refine ⟨.inl, fun h => h.elim id ?_⟩
    rintro ⟨rfl, rfl⟩
    exact old
  · rw [List.mem_append, List.mem_singleton, Prod.mk.injEq]

theorem tie_tied {a b : ChoiceId} :
    (s.tie a b).Tied x y ↔ s.Tied x y ∨ (x = a ∧ y = b) ∨ (x = b ∧ y = a) := by
  unfold tie
  rw [addTie_tied, addTie_tied, or_assoc]

/-- Tying again what is tied both ways changes nothing. -/
theorem tie_of_tied {a b : ChoiceId} (there : s.Tied a b) (back : s.Tied b a) : s.tie a b = s := by
  have first : s.addTie a b = s := if_pos there
  rw [tie, first]
  exact if_pos back

/-- Ties are recorded in both directions. -/
def Mutual (s : ConstraintStore) : Prop := ∀ a b, s.Tied a b → s.Tied b a

theorem Mutual.tie (h : s.Mutual) (a b : ChoiceId) : (s.tie a b).Mutual := by
  intro x y tied
  rcases tie_tied.mp tied with old | ⟨rfl, rfl⟩ | ⟨rfl, rfl⟩
  · exact tie_tied.mpr (.inl (h x y old))
  · exact tie_tied.mpr (.inr (.inr ⟨rfl, rfl⟩))
  · exact tie_tied.mpr (.inr (.inl ⟨rfl, rfl⟩))

theorem Mutual.apply (h : s.Mutual) (p : Post) : (p.apply s).Mutual := by
  cases p with
  | bind x y isLazy => cases isLazy <;> exact h
  | tie a b => exact h.tie a b

theorem posted_mutual (posts : List (Nat × Post)) : (Branch.posted posts).Mutual :=
  List.foldlRecOn posts _ (fun _ _ tied => absurd tied List.not_mem_nil) fun _ h p _ => h.apply p.2

/-- Ties a list of pairs, the first pair first. -/
def tieAll (s : ConstraintStore) (pairs : List (ChoiceId × ChoiceId)) : ConstraintStore :=
  pairs.foldl (fun s p => s.tie p.1 p.2) s

/-- The pairs of a list as a relation. -/
def Paired (pairs : List (ChoiceId × ChoiceId)) (a b : ChoiceId) : Prop := (a, b) ∈ pairs

theorem symmGen_paired {pairs : List (ChoiceId × ChoiceId)} :
    Relation.SymmGen (Paired pairs) x y ↔ (x, y) ∈ pairs ∨ (y, x) ∈ pairs := Iff.rfl

theorem tieAll_tied {pairs : List (ChoiceId × ChoiceId)} :
    (s.tieAll pairs).Tied x y ↔ s.Tied x y ∨ Relation.SymmGen (Paired pairs) x y := by
  induction pairs generalizing s with
  | nil =>
    refine ⟨.inl, fun h => h.elim id fun pair => ?_⟩
    exact pair.elim (absurd · List.not_mem_nil) (absurd · List.not_mem_nil)
  | cons p pairs ih =>
    obtain ⟨a, b⟩ := p
    rw [tieAll, List.foldl_cons, ← tieAll, ih, tie_tied]
    simp only [symmGen_paired, List.mem_cons, Prod.mk.injEq]
    tauto

theorem tieAll_nodup (distinct : s.ties.Nodup) (pairs : List (ChoiceId × ChoiceId)) :
    (s.tieAll pairs).ties.Nodup := by
  induction pairs generalizing s with
  | nil => exact distinct
  | cons p pairs ih => exact ih (tie_nodup distinct p.1 p.2)

/-! ## Classes -/

variable {pairs : List (ChoiceId × ChoiceId)}

theorem empty_tieAll_tied : (empty.tieAll pairs).Tied = Relation.SymmGen (Paired pairs) := by
  funext x y
  exact propext (tieAll_tied.trans (or_iff_right List.not_mem_nil))

theorem mem_equivalents_tieAll :
    y ∈ (empty.tieAll pairs).equivalents x ↔ y ≠ x ∧ Relation.EqvGen (Paired pairs) x y := by
  rw [mem_equivalents, empty_tieAll_tied, Relation.EqvGen.reflTransGen_symmGen]

theorem mem_partnersOf_tieAll :
    y ∈ (empty.tieAll pairs).partnersOf x ↔ Relation.SymmGen (Paired pairs) x y := by
  rw [← empty_tieAll_tied]
  exact mem_partnersOf

/-- The store says which choices a list of pairs makes equivalent. The search ends by itself, with
each equivalent once, and a pair that is there is not recorded again. -/
structure Classifies (s : ConstraintStore) (pairs : List (ChoiceId × ChoiceId)) : Prop where
  ends (x : ChoiceId) {rounds : Nat} (enough : s.ties.length < rounds) :
    (s.tiedFrom rounds [x] [x]).filter (· ≠ x) = s.equivalents x
  nodup (x : ChoiceId) : (s.equivalents x).Nodup
  equivalents_iff (x y : ChoiceId) : y ∈ s.equivalents x ↔ y ≠ x ∧ Relation.EqvGen (Paired pairs) x y
  partners_iff (x y : ChoiceId) : y ∈ s.partnersOf x ↔ Relation.SymmGen (Paired pairs) x y
  partners_comm (x y : ChoiceId) : y ∈ s.partnersOf x ↔ x ∈ s.partnersOf y
  again {x y : ChoiceId} (there : y ∈ s.partnersOf x) : s.tie x y = s ∧ s.tie y x = s

theorem tieAll_classifies (pairs : List (ChoiceId × ChoiceId)) :
    (empty.tieAll pairs).Classifies pairs where
  ends x _ enough := equivalents_ends _ x enough
  nodup x := equivalents_nodup (tieAll_nodup List.nodup_nil pairs) x
  equivalents_iff _ _ := mem_equivalents_tieAll
  partners_iff _ _ := mem_partnersOf_tieAll
  partners_comm _ _ := by rw [mem_partnersOf_tieAll, mem_partnersOf_tieAll, Relation.symmGen_comm]
  again {x y} there := by
    have tied : (empty.tieAll pairs).Tied x y := mem_partnersOf.mp there
    have back : (empty.tieAll pairs).Tied y x := by
      rw [empty_tieAll_tied] at tied ⊢
      exact tied.symm
    exact ⟨tie_of_tied tied back, tie_of_tied back tied⟩

/-- Which pairs were tied, in either direction, is all that matters. -/
theorem Classifies.congr {s' : ConstraintStore} {pairs' : List (ChoiceId × ChoiceId)}
    (h : s.Classifies pairs) (h' : s'.Classifies pairs')
    (same : ∀ x y, Relation.SymmGen (Paired pairs') x y ↔ Relation.SymmGen (Paired pairs) x y)
    (x y : ChoiceId) :
    (y ∈ s'.equivalents x ↔ y ∈ s.equivalents x) ∧ (y ∈ s'.partnersOf x ↔ y ∈ s.partnersOf x) := by
  have relation : Relation.SymmGen (Paired pairs') = Relation.SymmGen (Paired pairs) :=
    funext fun x => funext fun y => propext (same x y)
  have generated : Relation.EqvGen (Paired pairs') = Relation.EqvGen (Paired pairs) := by
    rw [← Relation.EqvGen.reflTransGen_symmGen, ← Relation.EqvGen.reflTransGen_symmGen, relation]
  exact ⟨by rw [h'.equivalents_iff, h.equivalents_iff, generated], by rw [h'.partners_iff, h.partners_iff, relation]⟩

end ConstraintStore

/-! ## Stores in shared cells -/

namespace Buckets

/-- The store in `cells` reads as `s` does, and a pair that is there already leaves it with the buckets
and directories it has, all of them shared as they were. -/
structure Holds (s : ConstraintStore) (store : Store) (cells : Stores) : Prop where
  reads : layer.view cells store = s.entries
  again {a b : ChoiceId} (there : b ∈ (layer.view cells store).2 a) :
    tie a b store cells = (store, cells) ∧ tie b a store cells = (store, cells)

theorem tie_of_there {a b : ChoiceId} {store : Store} {cells : Stores}
    (there : b ∈ (layer.view cells store).2 a) (back : a ∈ (layer.view cells store).2 b) :
    tie a b store cells = (store, cells) := by
  rw [tie, addTie, if_pos there]
  exact if_pos back

theorem holds_of_mutual {s : ConstraintStore} {store : Store} {cells : Stores}
    (reads : layer.view cells store = s.entries) (both : s.Mutual) : Holds s store cells where
  reads := reads
  again {a b} there := by
    have back : a ∈ (layer.view cells store).2 b := by
      rw [reads] at there ⊢
      exact ConstraintStore.mem_partnersOf.mpr (both a b (ConstraintStore.mem_partnersOf.mp there))
    exact ⟨tie_of_there there back, tie_of_there back there⟩

end Buckets

/-- Whatever is done to the frames of a queue, each of them has a store, which holds what was posted on
its branch. -/
theorem Lineup.stores_hold (root : Link) (allotment : Nat) (acts : List QueueAct) {i : Nat} {f : Frame}
    {b : Branch} (frame : ((start .nested root allotment).run .nested acts).queue[i]? = some f)
    (branch : (Branch.follow 0 [{}] acts)[i]? = some b) :
    ∃ store, ((start .nested root allotment).run .nested acts).stores.1.read? f.constraints = some store ∧
      Buckets.Holds (Branch.posted b.posts) store
        ((start .nested root allotment).run .nested acts).stores.2 := by
  obtain ⟨f₀, begun⟩ := start_follows .nested root allotment
  obtain ⟨rows, t, -⟩ := run_follows begun acts
  have reads := (run_isolated .nested root allotment acts).entries frame branch
  have held : f.constraints ∈ (rows.map fun r => (r.1.constraints, r.2.posts)).map Prod.fst := by
    rw [List.map_map]
    rw [t.queue] at frame
    obtain ⟨r, found, rfl⟩ := List.mem_map.mp (List.mem_of_getElem? frame)
    exact List.mem_map.mpr ⟨r, found, rfl⟩
  obtain ⟨c, cell, -⟩ := t.columns.posts.fits.1.cell held
  refine ⟨c.value, by rw [Cells.read?, cell, Option.map_some], Buckets.holds_of_mutual ?_ ?_⟩
  · exact (Layer.view_shared cell).symm.trans reads
  · exact ConstraintStore.posted_mutual b.posts

/-- However choices are tied, the equivalents of a choice are its class in the smallest equivalence
that contains the tied pairs. The order of the ties, their directions and repetitions do not matter,
and to tie again what is tied changes nothing, also where stores share what they have. -/
theorem ConstraintStore.ties_generate_equivalence (pairs : List (ChoiceId × ChoiceId)) :
    (empty.tieAll pairs).Classifies pairs ∧
    (∀ pairs', (∀ x y, Relation.SymmGen (Paired pairs') x y ↔ Relation.SymmGen (Paired pairs) x y) →
      ∀ x y, (y ∈ (empty.tieAll pairs').equivalents x ↔ y ∈ (empty.tieAll pairs).equivalents x) ∧
        (y ∈ (empty.tieAll pairs').partnersOf x ↔ y ∈ (empty.tieAll pairs).partnersOf x)) ∧
    ∀ (root : Link) (allotment : Nat) (acts : List QueueAct) (i : Nat) (f : Frame) (b : Branch),
      ((Lineup.start .nested root allotment).run .nested acts).queue[i]? = some f →
      (Branch.follow 0 [{}] acts)[i]? = some b →
      ∃ store,
        ((Lineup.start .nested root allotment).run .nested acts).stores.1.read? f.constraints = some store ∧
        Buckets.Holds (Branch.posted b.posts) store
          ((Lineup.start .nested root allotment).run .nested acts).stores.2 :=
  ⟨tieAll_classifies pairs,
    fun pairs' same => (tieAll_classifies pairs).congr (tieAll_classifies pairs') same,
    fun root allotment acts _ _ _ frame branch => Lineup.stores_hold root allotment acts frame branch⟩

end ChoiceGraph
