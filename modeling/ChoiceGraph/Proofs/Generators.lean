import ChoiceGraph.Proofs.PullingTabs
import ChoiceGraph.Reduction.Narrowing

/-! # Instantiating a variable keeps the machine

The request asks for as many nodes as the generator needs. Fields, alternatives and inner choices
are drafted in this order, each above what it links to and below the variable, and the variable
becomes the outermost choice, an indirection or a failure. -/
namespace ChoiceGraph.Reduction

open Eff Machine

variable {m₀ m : Machine} {held ids rest : List NodeId} {ρ₀ ρ : Rank} {b : ℚ} {s : Scope}
  {var : NodeId} {c : Content}

theorem makeFields_drafts : ∀ (ids : List NodeId) (m : Machine) (held : List NodeId) (ρ : Rank),
    m₀.Evolves s ρ₀ m held ρ → m.Blank held (ids ++ rest) →
    (makeFields ids).Meets m (fun _ m' => ∃ held' ρ', Drafts s m₀ ρ₀ m held ρ m' held' ρ' rest ∧
      ∀ i ∈ ids, i ∈ held' ∧ ρ' i < b) (Stopped s m₀ ρ₀) := by
  intro ids
  induction ids with
  | nil =>
    intro m held ρ ev blank
    exact meets_pure ⟨held, ρ, .refl ev blank, fun i hi => absurd hi List.not_mem_nil⟩
  | cons i ids ih =>
    intro m held ρ ev blank
    unfold makeFields
    refine (freshId_drafts ev blank).bind ?_
    rintro id m₁ ⟨d₁, -⟩
    have h₁ := d₁.evolves.inv
    have lt := d₁.blank.lt i List.mem_cons_self
    refine ((rewriteFree_writes h₁.storage lt id none).draft (b := b) d₁.evolves d₁.blank
      (.untyped id) (fun j hj => absurd hj List.not_mem_nil) (Content.spined_of_tag nofun)).bind ?_
    rintro _ m₂ ⟨ρ₂, d₂, lt₂, -⟩
    refine (ih m₂ (i :: held) ρ₂ d₂.evolves d₂.blank).mono ?_ fun _ h => h
    rintro _ m₃ ⟨held₃, ρ₃, d₃, fields⟩
    refine ⟨held₃, ρ₃, (d₁.trans ev.inv d₂).trans ev.inv d₃, fun j hj => ?_⟩
    rcases List.mem_cons.mp hj with rfl | hj
    · exact ⟨d₃.adds.more j List.mem_cons_self,
        (d₃.adds.rank j (live_held List.mem_cons_self)).trans_lt lt₂⟩
    · exact fields j hj

/-- Constructors of a type as the machine lists them, with their arities. -/
def Listed (m : Machine) (ctors : List (SymbolId × Nat)) : Prop :=
  ∀ p ∈ ctors, 10 ≤ p.1 ∧ ∃ sym type index, m.signature.symbol? p.1 = some sym ∧
    sym.IsConstructor type index ∧ sym.arity = p.2

/-- Nodes for the alternatives and their fields. -/
def spread (ctors : List (SymbolId × Nat)) : Nat := ctors.length + fieldCount ctors

theorem buildAlternatives_drafts : ∀ (ctors : List (SymbolId × Nat)) (fresh : List NodeId)
    (m : Machine) (held : List NodeId) (ρ : Rank), Listed m ctors →
    m₀.Evolves s ρ₀ m held ρ → m.Blank held fresh → spread ctors ≤ fresh.length →
    (buildAlternatives ctors fresh).Meets m (fun r m' => ∃ held' ρ',
      Drafts s m₀ ρ₀ m held ρ m' held' ρ' r.2 ∧ r.1.length = ctors.length ∧
      r.2.length = fresh.length - spread ctors ∧ ∀ a ∈ r.1, a ∈ held' ∧ ρ' a < b)
      (Stopped s m₀ ρ₀) := by
  intro ctors
  induction ctors with
  | nil =>
    intro fresh m held ρ _ ev blank _
    exact meets_pure ⟨held, ρ, .refl ev blank, rfl, rfl, fun a ha => absurd ha List.not_mem_nil⟩
  | cons ctor ctors ih =>
    intro fresh m held ρ listed ev blank enough
    obtain ⟨symbol, arity⟩ := ctor
    cases fresh with
    | nil => exact absurd enough (by simp [spread])
    | cons node fresh =>
      unfold buildAlternatives
      simp only [spread, fieldCount, List.length_cons] at enough
      obtain ⟨le, sym, type, index, found, hctor, harity⟩ := listed (symbol, arity) List.mem_cons_self
      have order : (node :: fresh).Perm (fresh.take arity ++ node :: fresh.drop arity) := by
        have split := List.take_append_drop arity fresh
        conv_lhs => rw [← split]
        exact List.perm_middle.symm
      refine (makeFields_drafts (b := b) (fresh.take arity) m held ρ ev (blank.perm order)).bind ?_
      rintro _ m₁ ⟨held₁, ρ₁, d₁, fields⟩
      have h₁ := d₁.evolves.inv
      have found₁ : m₁.signature.symbol? symbol = some sym := by rw [d₁.adds.signature, found]
      have size : (fresh.take arity).length = sym.arity := by
        rw [List.length_take, harity]
        omega
      refine ((rewriteTo_writes h₁.storage (d₁.blank.lt node List.mem_cons_self)
        (Signature.Symbol.IsConstructor.tagFor found₁ hctor) (fresh.take arity)).draft (b := b)
        d₁.evolves d₁.blank (.constructor symbol sym type index 0 _ le found₁ hctor size)
        (fun j hj => ⟨live_held (fields j hj).1, (fields j hj).2⟩)
        (Content.spined_of_tag nofun)).bind ?_
      rintro _ m₂ ⟨ρ₂, d₂, lt₂, -⟩
      have d := d₁.trans ev.inv d₂
      have listed₂ : Listed m₂ ctors := by
        intro p hp
        rw [d.adds.signature]
        exact listed p (List.mem_cons_of_mem _ hp)
      refine (ih (fresh.drop arity) m₂ (node :: held₁) ρ₂ listed₂ d₂.evolves d₂.blank (by
        simp only [spread, List.length_drop]; omega)).bind ?_
      rintro ⟨alternatives, left⟩ m₃ ⟨held₃, ρ₃, d₃, count, remaining, alts⟩
      refine meets_pure ⟨held₃, ρ₃, d.trans ev.inv d₃, by simp only [List.length_cons, count], ?_, ?_⟩
      · simp only [remaining, spread, fieldCount, List.length_drop, List.length_cons]
        omega
      · intro a ha
        rcases List.mem_cons.mp ha with rfl | ha
        · exact ⟨d₃.adds.more a List.mem_cons_self,
            (d₃.adds.rank a (live_held List.mem_cons_self)).trans_lt lt₂⟩
        · exact alts a ha

theorem nestChoices_drafts : ∀ (alternatives fresh : List NodeId) (m : Machine)
    (held : List NodeId) (ρ : Rank), alternatives ≠ [] →
    m₀.Evolves s ρ₀ m held ρ → m.Blank held fresh → alternatives.length ≤ fresh.length + 1 →
    (∀ a ∈ alternatives, a ∈ held ∧ ρ a < b) →
    (nestChoices alternatives fresh).Meets m (fun r m' => ∃ held' ρ',
      Drafts s m₀ ρ₀ m held ρ m' held' ρ' r.2 ∧ r.2.length + alternatives.length = fresh.length + 1 ∧
      r.1 ∈ held' ∧ ρ' r.1 < b) (Stopped s m₀ ρ₀) := by
  intro alternatives
  induction alternatives with
  | nil => exact fun _ _ _ _ none => absurd rfl none
  | cons alternative alternatives ih =>
    intro fresh m held ρ _ ev blank enough alts
    cases alternatives with
    | nil =>
      exact meets_pure ⟨held, ρ, .refl ev blank, rfl, alts alternative List.mem_cons_self⟩
    | cons next others =>
      unfold nestChoices
      simp only [List.length_cons] at enough
      refine (ih fresh m held ρ (List.cons_ne_nil _ _) ev blank (by
        simp only [List.length_cons]; omega) fun a ha => alts a (List.mem_cons_of_mem _ ha)).bind ?_
      rintro ⟨below, left⟩ m₁ ⟨held₁, ρ₁, d₁, remaining, hb, ltb⟩
      simp only [List.length_cons] at remaining
      cases left with
      | nil =>
        simp only [List.length_nil] at remaining
        omega
      | cons node left =>
        refine (freshId_drafts d₁.evolves d₁.blank).bind ?_
        rintro id m₂ ⟨d₂, -⟩
        have h₂ := d₂.evolves.inv
        have d₁₂ := d₁.trans ev.inv d₂
        obtain ⟨first, ltf⟩ := alts alternative List.mem_cons_self
        refine ((rewrite_writes h₂.storage (d₂.blank.lt node List.mem_cons_self) .choice
          Builtin.choice id [alternative, below]).draft (b := b) d₂.evolves d₂.blank
          (.choice id _ _) ?_ (Content.spined_of_tag nofun)).bind ?_
        · intro j hj
          rcases List.mem_cons.mp hj with rfl | hj
          · exact ⟨d₁₂.adds.live ev.inv (live_held first),
              (d₁₂.adds.rank j (live_held first)).trans_lt ltf⟩
          · rw [List.mem_singleton] at hj
            subst hj
            exact ⟨live_held hb, ltb⟩
        rintro _ m₃ ⟨ρ₃, d₃, lt₃, -⟩
        refine meets_pure ⟨_, ρ₃, d₁₂.trans ev.inv d₃, ?_, List.mem_cons_self, lt₃⟩
        simp only [List.length_cons] at *
        omega

/-- The constructors of a type are listed as they were declared, each with its arity. -/
theorem constructorsOf_declared (h : m.signature.Sound) {t : TypeId} {d : DataType}
    (hd : m.signature.types[t]? = some d) :
    ∃ ctors, constructorsOf m t = .ok ctors ∧ Listed m ctors ∧ ctors.map Prod.fst = d.constructors := by
  have entry : ∀ cs : List SymbolId, (∀ c ∈ cs, c ∈ d.constructors) →
      ∃ ctors, (cs.mapM fun c => do return (c, (← m.signature.symbol c).arity) :
        Except Fault (List (SymbolId × Nat))) = .ok ctors ∧ Listed m ctors ∧
          ctors.map Prod.fst = cs := by
    intro cs
    induction cs with
    | nil => exact fun _ => ⟨[], rfl, fun p hp => absurd hp List.not_mem_nil, rfl⟩
    | cons c cs ih =>
      intro sub
      obtain ⟨le, sym, index, found, hctor⟩ := h.types t d hd c (sub c List.mem_cons_self)
      obtain ⟨ctors, run, listed, names⟩ := ih fun c hc => sub c (List.mem_cons_of_mem _ hc)
      refine ⟨(c, sym.arity) :: ctors, ?_, fun p hp => ?_, by rw [List.map_cons, names]⟩
      · rw [List.mapM_cons, run]
        simp only [Signature.symbol_of_some found, bind, Except.bind]
        rfl
      · rcases List.mem_cons.mp hp with rfl | hp
        · exact ⟨le, sym, t, index, found, hctor, rfl⟩
        · exact listed p hp
  obtain ⟨ctors, run, listed, names⟩ := entry d.constructors fun _ hc => hc
  refine ⟨ctors, ?_, listed, names⟩
  simp only [constructorsOf, Signature.dataType, hd, bind, Except.bind]
  exact run

theorem constructorsOf_listed (h : m.Inv held ρ) {t : TypeId} {d : DataType}
    (hd : m.signature.types[t]? = some d) :
    ∃ ctors, constructorsOf m t = .ok ctors ∧ Listed m ctors := by
  obtain ⟨ctors, run, listed, -⟩ := constructorsOf_declared h.signature hd
  exact ⟨ctors, run, listed⟩

theorem instantiate_keeps (h : m.Inv [] ρ) (live : m.Live [] var)
    (hc : m.graph.content? var = some c) (tag : c.tag = .free) :
    (instantiate var).Keeps s m ρ fun _ _ _ => True := by
  have fits := h.fitsAt live hc
  have loose : m.Loose s ρ var := loose_of_free hc fits tag
  have unmissed : ∀ {m' : Machine} {P : Prop}, m'.graph.content? var = some c →
      ∀ k, m'.graph.Misses var k → P := by
    intro m' P hc' k hm
    have := (hm.by hc').inert
    rcases fits.of_free tag with ⟨id, rfl⟩ | ⟨id, t, d, -, rfl⟩ <;>
      simp [Content.Inert, Builtin.free, Builtin.partialApplication, Builtin.function] at this
  unfold instantiate
  refine keeps_look_bind (TermGraph.aux_content hc) (keeps_look_bind (TermGraph.literal_content hc) ?_)
  rcases fits.of_free tag with ⟨id, rfl⟩ | ⟨id, t, d, hd, rfl⟩
  · exact keeps_throw h nofun
  · obtain ⟨ctors, run, listed⟩ := constructorsOf_listed h hd
    refine keeps_look_bind run ?_
    dsimp only
    split
    · refine Keeps.bind ((rewriteFail_writes h.storage (h.lt live)).keeps h live Content.blank_fits
        (fun j hj => absurd hj List.not_mem_nil) (Content.spined_of_tag nofun)
        (fun k hm => unmissed hc k hm) loose) ?_
      exact fun _ _ _ ev _ => keeps_pure ev.inv trivial
    next filled =>
    have some_ : ctors.length ≠ 0 := by
      intro none
      rw [List.length_eq_zero_iff] at none
      exact filled (by rw [none]; rfl)
    refine Meets.bind (Q := fun ids m' => m.Quiet m' ∧ ids.length = generatorSize ctors ∧
      m'.Blank [] ids) ((allocate_rooted_meets h live.rooted _).mono (fun _ _ h => h)
        fun _ q => ⟨ρ, q.evolves h⟩) ?_
    rintro ids m₁ ⟨quiet, length, blank⟩
    have h₁ := quiet.inv h
    have live₁ := (quiet.live h).mpr live
    have hc₁ := (quiet.kept var live).trans hc
    have listed₁ : Listed m₁ ctors := by
      intro p hp
      rw [quiet.signature]
      exact listed p hp
    unfold generatorSize at length
    refine (buildAlternatives_drafts (b := ρ var) ctors ids m₁ [] ρ listed₁ (quiet.evolves h) blank
      (by unfold spread; omega)).bind ?_
    rintro ⟨alternatives, fresh⟩ m₂ ⟨held₂, ρ₂, d₂, count, remaining, alts⟩
    have h₂ := d₂.evolves.inv
    have live₂ := d₂.adds.live h₁ live₁
    have hc₂ := d₂.adds.content live₁ hc₁
    have rank₂ : ρ₂ var = ρ var := d₂.adds.rank var live₁
    have finish : ∀ {m' : Machine} {ρ' : Rank}, m.Evolves s ρ m' [] ρ' →
        (pure ctors.length : Eff Nat).Meets m' (fun _ m' => ∃ ρ', m.Evolves s ρ m' [] ρ' ∧ True)
          (Stopped s m ρ) := fun ev => meets_pure ⟨_, ev, trivial⟩
    rcases alternatives with _ | ⟨first, _ | ⟨second, others⟩⟩
    · exact absurd count.symm some_
    · obtain ⟨ha, lta⟩ := alts first List.mem_cons_self
      refine ((rewriteForward_writes h₂.storage (h₂.lt live₂) first).revise d₂.evolves live₂
        (.forward 0 first) (fun j hj => ?_) (Content.spined_of_tag nofun)
        (fun k hm => unmissed hc₂ k hm) loose).bind ?_
      · rw [List.mem_singleton.mp hj, rank₂]
        exact ⟨live_held ha, lta⟩
      · rintro _ m₃ ⟨g', -, -, ev⟩
        exact finish ev
    · simp only [List.length_cons] at count
      simp only [spread] at remaining
      refine (nestChoices_drafts (b := ρ var) (second :: others) fresh m₂ held₂ ρ₂
        (List.cons_ne_nil _ _) d₂.evolves d₂.blank (by simp only [List.length_cons]; omega)
        fun a ha => alts a (List.mem_cons_of_mem _ ha)).bind ?_
      rintro ⟨below, left⟩ m₃ ⟨held₃, ρ₃, d₃, -, hb, ltb⟩
      have h₃ := d₃.evolves.inv
      have d := d₂.trans h₁ d₃
      have live₃ := d.adds.live h₁ live₁
      have rank₃ : ρ₃ var = ρ var := d.adds.rank var live₁
      obtain ⟨ha, lta⟩ := alts first List.mem_cons_self
      refine ((rewrite_writes h₃.storage (h₃.lt live₃) .choice Builtin.narrowed id
        [first, below]).revise d₃.evolves live₃ (.narrowed id first below) (fun j hj => ?_)
        (Content.spined_of_tag nofun) (fun k hm => unmissed (d.adds.content live₁ hc₁) k hm)
        loose).bind ?_
      · rw [rank₃]
        rcases List.mem_cons.mp hj with rfl | hj
        · exact ⟨d₃.adds.live h₂ (live_held ha), (d₃.adds.rank j (live_held ha)).trans_lt lta⟩
        · rw [List.mem_singleton.mp hj]
          exact ⟨live_held hb, ltb⟩
      · rintro _ m₄ ⟨g', -, -, ev⟩
        exact finish ev

end ChoiceGraph.Reduction
