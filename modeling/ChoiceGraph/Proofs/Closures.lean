import ChoiceGraph.Proofs.Enumeration

/-! # Closures of bindings

A store keeps single bindings. What it is asked for is what chains of them connect, and it finds that
by settling one pending variable in each round. The rounds it is given are enough: every variable but
the first one stands at the end of a binding, and none is pending twice. So nothing is missed. -/
namespace ChoiceGraph.ConstraintStore

variable {s : ConstraintStore} {x : VarId}

section Pairs

variable {varOf : NodeId → Except Fault (Option VarId)} {P : VarId → Prop}

/-- The two ends of a normal binding of `x`, its partner recognised as a variable. -/
def PairAt (s : ConstraintStore) (varOf : NodeId → Except Fault (Option VarId)) (x : VarId)
    (p : BoundVar × BoundVar) : Prop :=
  ∃ b z, (x, b) ∈ s.bindings ∧ b.isLazy = false ∧ varOf b.partner = .ok (some z) ∧
    p = (⟨x, b.bound⟩, ⟨z, b.partner⟩)

/-- A normal binding leads from one variable to another one. -/
def Next (s : ConstraintStore) (varOf : NodeId → Except Fault (Option VarId)) (x z : VarId) : Prop :=
  ∃ p, s.PairAt varOf x p ∧ p.2.id = z

/-- The partners of all variables of a kind can be read, and are of that kind if they are variables. -/
def Readable (s : ConstraintStore) (varOf : NodeId → Except Fault (Option VarId)) (P : VarId → Prop) :
    Prop :=
  ∀ x b, P x → (x, b) ∈ s.bindings → b.isLazy = false →
    ∃ o, varOf b.partner = .ok o ∧ ∀ z ∈ o, P z

theorem mem_bindingsOf {b : Binding} : b ∈ s.bindingsOf x ↔ (x, b) ∈ s.bindings := by
  unfold bindingsOf
  rw [List.mem_filterMap]
  constructor
  · rintro ⟨⟨y, c⟩, hp, here⟩
    dsimp only at here
    split at here
    · next same =>
      cases here
      exact same ▸ hp
    · cases here
  · exact fun h => ⟨(x, b), h, if_pos rfl⟩

/-- A map that reads every item returns what it has read. -/
theorem mapM_reads {α β : Type} {f : α → Except Fault β} : ∀ {l : List α},
    (∀ a ∈ l, ∃ b, f a = .ok b) → ∃ bs, l.mapM f = .ok bs ∧ ∀ b, b ∈ bs ↔ ∃ a ∈ l, f a = .ok b := by
  intro l
  induction l with
  | nil => exact fun _ => ⟨[], rfl, fun b => by simp⟩
  | cons a l ih =>
    intro reads
    obtain ⟨b, hb⟩ := reads a List.mem_cons_self
    obtain ⟨bs, run, mem⟩ := ih fun a' ha' => reads a' (List.mem_cons_of_mem _ ha')
    refine ⟨b :: bs, by rw [List.mapM_cons, hb, run]; rfl, fun b' => ?_⟩
    rw [List.mem_cons, mem, List.exists_mem_cons_iff, hb, Except.ok.injEq, @eq_comm _ b]

theorem pairsOf_reads (readable : s.Readable varOf P) (hx : P x) :
    ∃ pairs, s.pairsOf varOf x = .ok pairs ∧ ∀ p, p ∈ pairs ↔ s.PairAt varOf x p := by
  have listed : ∀ b, b ∈ (s.bindingsOf x).filter (fun b => !b.isLazy) ↔
      (x, b) ∈ s.bindings ∧ b.isLazy = false := fun b => by
    rw [List.mem_filter, mem_bindingsOf, Bool.not_eq_true']
  obtain ⟨found, run, mem⟩ := mapM_reads (l := (s.bindingsOf x).filter fun b => !b.isLazy)
    (f := fun b => do
      return (← varOf b.partner).map fun p => (BoundVar.mk x b.bound, BoundVar.mk p b.partner))
    fun b hb => by
      obtain ⟨stored, normal⟩ := (listed b).mp hb
      obtain ⟨o, read, -⟩ := readable x b hx stored normal
      exact ⟨_, by rw [read]; rfl⟩
  refine ⟨found.filterMap fun p => p, by unfold pairsOf; dsimp only; rw [run]; rfl, fun p => ?_⟩
  rw [List.mem_filterMap]
  constructor
  · rintro ⟨_, ho, rfl⟩
    obtain ⟨b, hb, read⟩ := (mem _).mp ho
    obtain ⟨stored, normal⟩ := (listed b).mp hb
    obtain ⟨o, named, read⟩ := except_bind_eq_ok read
    obtain ⟨z, rfl, rfl⟩ := Option.map_eq_some_iff.mp (Except.ok.inj read)
    exact ⟨b, z, stored, normal, named, rfl⟩
  · rintro ⟨b, z, stored, normal, named, rfl⟩
    exact ⟨_, (mem _).mpr ⟨b, (listed b).mpr ⟨stored, normal⟩, by rw [named]; rfl⟩, rfl⟩

theorem unseen_exact : ∀ (xs seen : List VarId), (unseen seen xs).Nodup ∧
    ∀ x, x ∈ unseen seen xs ↔ x ∈ xs ∧ x ∉ seen := by
  intro xs
  induction xs with
  | nil => exact fun seen => ⟨List.nodup_nil, fun x => by simp [unseen]⟩
  | cons y ys ih =>
    intro seen
    unfold unseen
    split
    · next old =>
      obtain ⟨nodup, mem⟩ := ih seen
      refine ⟨nodup, fun x => ?_⟩
      rw [mem, List.mem_cons]
      refine and_congr_left fun new => ⟨.inr, fun h => h.resolve_left fun same => ?_⟩
      exact new (same ▸ old)
    · next new =>
      obtain ⟨nodup, mem⟩ := ih (y :: seen)
      refine ⟨List.nodup_cons.mpr ⟨fun hy => ((mem y).mp hy).2 List.mem_cons_self, nodup⟩, fun x => ?_⟩
      rw [List.mem_cons, List.mem_cons, mem, List.mem_cons]
      by_cases same : x = y
      · subst same
        simp [new]
      · simp [same]

/-- The pairs that are found are those of a list of variables that begins with the pending ones and
is closed, up to variables that are settled already. -/
private theorem pairsFrom_closed (readable : s.Readable varOf P) (start : VarId) :
    ∀ (rounds : Nat) (seen pending : List VarId), seen.Nodup → pending ⊆ seen →
      (∀ x ∈ seen, x = start ∨ ∃ y, P y ∧ s.Next varOf y x) → (∀ x ∈ pending, P x) →
      s.bindings.length + 1 + pending.length ≤ rounds + seen.length →
      ∃ pairs found, s.pairsFrom varOf rounds seen pending = .ok pairs ∧ pending ⊆ found ∧
        (∀ p, p ∈ pairs ↔ ∃ x ∈ found, s.PairAt varOf x p) ∧
        (∀ z ∈ found, ∃ x ∈ pending, Relation.ReflTransGen (s.Next varOf) x z) ∧
        ∀ x ∈ found, ∀ z, s.Next varOf x z → z ∈ found ∨ z ∈ seen := by
  intro rounds
  induction rounds with
  | zero =>
    intro seen pending nodup _ ends _ enough
    let named (e : VarId × Binding) : Option VarId := (varOf e.2.partner).toOption.join
    have within : seen ⊆ start :: s.bindings.filterMap named := fun x hx => by
      rcases ends x hx with rfl | ⟨y, -, p, ⟨b, z, stored, -, read, rfl⟩, rfl⟩
      · exact List.mem_cons_self
      · refine List.mem_cons_of_mem _ (List.mem_filterMap.mpr ⟨(y, b), stored, ?_⟩)
        simp only [named, read]
        rfl
    have few := (nodup.subperm within).length_le
    have most : (s.bindings.filterMap named).length ≤ s.bindings.length := List.length_filterMap_le ..
    rw [List.length_cons] at few
    obtain rfl : pending = [] := List.length_eq_zero_iff.mp (by omega)
    exact ⟨[], [], rfl, List.Subset.refl _, by simp, by simp, by simp⟩
  | succ rounds ih =>
    intro seen pending nodup sub ends kind enough
    cases pending with
    | nil => exact ⟨[], [], rfl, List.Subset.refl _, by simp, by simp, by simp⟩
    | cons x pending =>
      have hx := kind x List.mem_cons_self
      obtain ⟨here, read, at_⟩ := pairsOf_reads readable hx
      obtain ⟨fresh, mem⟩ := unseen_exact (here.map fun p => p.2.id) seen
      generalize hnew : unseen seen (here.map fun p => p.2.id) = new at fresh mem
      have next : ∀ z, z ∈ here.map (fun p => p.2.id) ↔ s.Next varOf x z := fun z => by
        rw [List.mem_map]
        exact exists_congr fun p => and_congr_left fun _ => at_ p
      have kept : ∀ z, s.Next varOf x z → P z := by
        rintro _ ⟨p, ⟨b, z, stored, normal, named, rfl⟩, rfl⟩
        obtain ⟨o, read, kept⟩ := readable x b hx stored normal
        cases named.symm.trans read
        exact kept z rfl
      have nodup' : (new ++ seen).Nodup := by
        refine List.nodup_append.mpr ⟨fresh, nodup, fun a ha b hb same => ?_⟩
        exact ((mem a).mp ha).2 (same ▸ hb)
      obtain ⟨pairs, found, run, begins, exact_, reached, closed⟩ := ih (new ++ seen)
        (new.reverse ++ pending) nodup' (List.append_subset.mpr
          ⟨fun a ha => List.mem_append_left _ (List.mem_reverse.mp ha),
            fun a ha => List.mem_append_right _ (sub (List.mem_cons_of_mem _ ha))⟩)
        (fun a ha => (List.mem_append.mp ha).elim
          (fun ha => .inr ⟨x, hx, (next a).mp ((mem a).mp ha).1⟩) (ends a))
        (fun a ha => (List.mem_append.mp ha).elim
          (fun ha => kept a ((next a).mp ((mem a).mp (List.mem_reverse.mp ha)).1))
          fun ha => kind a (List.mem_cons_of_mem _ ha))
        (by
          simp only [List.length_append, List.length_reverse, List.length_cons] at enough ⊢
          omega)
      refine ⟨here ++ pairs, x :: found, ?_, ?_, fun p => ?_, fun z hz => ?_, fun y hy z step => ?_⟩
      · unfold pairsFrom
        dsimp only
        rw [read]
        show (do
          let rest ← s.pairsFrom varOf rounds (unseen seen (here.map fun p : BoundVar × BoundVar => p.2.id) ++ seen)
            ((unseen seen (here.map fun p : BoundVar × BoundVar => p.2.id)).reverse ++ pending)
          return here ++ rest) = _
        rw [hnew, run]
        rfl
      · refine List.cons_subset_cons _ fun a ha => begins (List.mem_append_right _ ha)
      · rw [List.mem_append, at_, exact_, List.exists_mem_cons_iff]
      · rcases List.mem_cons.mp hz with rfl | hz
        · exact ⟨z, List.mem_cons_self, .refl⟩
        · obtain ⟨a, ha, path⟩ := reached z hz
          rcases List.mem_append.mp ha with ha | ha
          · exact ⟨x, List.mem_cons_self,
              .head ((next a).mp ((mem a).mp (List.mem_reverse.mp ha)).1) path⟩
          · exact ⟨a, List.mem_cons_of_mem _ ha, path⟩
      · rcases List.mem_cons.mp hy with rfl | hy
        · by_cases old : z ∈ seen
          · exact .inr old
          · have here : z ∈ new := (mem z).mpr ⟨(next z).mpr step, old⟩
            exact .inl (List.mem_cons_of_mem _
              (begins (List.mem_append_left _ (List.mem_reverse.mpr here))))
        · rcases closed y hy z step with hz | hz
          · exact .inl (List.mem_cons_of_mem _ hz)
          · rcases List.mem_append.mp hz with hz | hz
            · exact .inl (List.mem_cons_of_mem _
                (begins (List.mem_append_left _ (List.mem_reverse.mpr hz))))
            · exact .inr hz

/-- The bound pairs of a variable are the normal bindings of all the variables that chains of such
bindings lead to. -/
theorem boundPairs_exact (readable : s.Readable varOf P) (hx : P x) :
    ∃ pairs, s.boundPairs x varOf = .ok pairs ∧
      ∀ p, p ∈ pairs ↔ ∃ z, Relation.ReflTransGen (s.Next varOf) x z ∧ s.PairAt varOf z p := by
  obtain ⟨pairs, found, run, begins, exact_, reached, closed⟩ := pairsFrom_closed readable x
    (s.bindings.length + 1) [x] [x] (List.nodup_singleton x) (List.Subset.refl _)
    (fun a ha => .inl (List.mem_singleton.mp ha)) (fun a ha => List.mem_singleton.mp ha ▸ hx)
    (Nat.le_refl _)
  have all : ∀ z, Relation.ReflTransGen (s.Next varOf) x z → z ∈ found := by
    intro z path
    induction path with
    | refl => exact begins List.mem_cons_self
    | @tail y z _ step ih =>
      exact (closed y ih z step).elim id fun hz => List.mem_singleton.mp hz ▸ begins List.mem_cons_self
  refine ⟨pairs, run, fun p => (exact_ p).trans (exists_congr fun z => and_congr_left fun _ => ?_)⟩
  refine ⟨fun hz => ?_, all z⟩
  obtain ⟨a, ha, path⟩ := reached z hz
  rwa [List.mem_singleton.mp ha] at path

end Pairs

end ChoiceGraph.ConstraintStore
