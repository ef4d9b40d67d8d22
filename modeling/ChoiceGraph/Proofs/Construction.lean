import ChoiceGraph.Proofs.HeadSteps

/-! # New nodes keep the machine

Each constructor asks for one node and drafts it above its successors. The new node counts as held
until a root reaches it. -/
namespace ChoiceGraph.Eff

open Machine

variable {m : Machine} {ρ : Rank} {s : Scope} {i j : NodeId} {e : NodeId → Eff Unit}
  {links : List Link}

/-- A new node is held; everything else has evolved. -/
def Makes (s : Scope) (e : Eff NodeId) (m : Machine) (ρ : Rank) : Prop :=
  e.Meets m (fun i m' => ∃ ρ', m.Evolves s ρ m' [i] ρ') (Stopped s m ρ)

theorem makes_of_write {a : Eff NodeId} (h : m.Inv [] ρ)
    (ha : a.Meets m (fun i m' => m.Quiet m' ∧ m'.Blank [] [i]) fun m' => m.Quiet m')
    (write : ∀ i m', m.Quiet m' → m'.Blank [] [i] → (e i).Meets m'
      (fun _ m' => ∃ ρ', m.Evolves s ρ m' [i] ρ') (Stopped s m ρ)) :
    (do let i ← a; e i; return i : Eff NodeId).Makes s m ρ := by
  refine Meets.bind (ha.mono (fun _ _ h => h) fun _ q => ⟨ρ, q.evolves h⟩) ?_
  rintro i m₁ ⟨quiet, blank⟩
  exact (write i m₁ quiet blank).bind fun _ _ made => meets_pure made

theorem exists_above (ρ : Rank) (ls : List NodeId) : ∃ q, ∀ j ∈ ls, ρ j < q := by
  induction ls with
  | nil => exact ⟨0, fun j hj => absurd hj List.not_mem_nil⟩
  | cons l ls ih =>
    obtain ⟨q, above⟩ := ih
    refine ⟨max (ρ l + 1) q, fun j hj => ?_⟩
    rcases List.mem_cons.mp hj with rfl | hj
    · exact (lt_add_one _).trans_le (le_max_left _ _)
    · exact (above j hj).trans_le (le_max_right _ _)

/-- A blank node is written. -/
theorem Writes.makes {e : Eff Unit} {c : Content} {m₁ : Machine} {ρ₁ : Rank}
    (hw : e.Writes i c m₁) (ev : m.Evolves s ρ m₁ [] ρ₁) (blank : m₁.Blank [] [i])
    (fits : c.Fits m₁.signature) (live : ∀ j ∈ c.links, m₁.Live [] j)
    (spine : c.Spined m₁.graph.Misses) :
    e.Meets m₁ (fun _ m' => ∃ ρ', m.Evolves s ρ m' [i] ρ') (Stopped s m ρ) := by
  obtain ⟨q, above⟩ := exists_above ρ₁ c.links
  exact (hw.draft ev blank fits (fun j hj => ⟨live j hj, above j hj⟩) spine).mono
    (fun _ _ ⟨ρ', d, _⟩ => ⟨ρ', d.evolves⟩) fun _ h => h

theorem makeData_makes (h : m.Inv [] ρ) {id : SymbolId} {aux : Nat} {l : Literal} {tag : Tag}
    (ht : m.signature.tagFor id = .ok tag)
    (fits : Content.Fits m.signature ⟨tag, id, aux, .literal l⟩)
    (spine : ∀ P, Content.Spined ⟨tag, id, aux, .literal l⟩ P) :
    (makeData id aux l).Makes s m ρ := by
  refine makes_of_write h (allocateOne_meets h) fun i m₁ quiet blank => ?_
  have h₁ := quiet.inv h
  rw [← quiet.signature] at ht fits
  exact (rewriteData_writes h₁.storage (blank.lt i List.mem_cons_self) ht aux l).makes
    (quiet.evolves h) blank fits (fun j hj => absurd hj List.not_mem_nil) (spine _)

private theorem literalTag (h : m.Inv [] ρ) {id : SymbolId} (lt : id < 10) {tag : Tag}
    (ht : Signature.standard.tagFor id = .ok tag) : m.signature.tagFor id = .ok tag :=
  (Signature.tagFor_builtin h.signature lt).trans ht

theorem makeInt_makes (h : m.Inv [] ρ) (v : Int64) : (makeInt v).Makes s m ρ :=
  makeData_makes h (literalTag h (by decide) rfl) (.int 0 v) fun _ => Content.spined_of_tag nofun

theorem makeFloat_makes (h : m.Inv [] ρ) (v : Double) : (makeFloat v).Makes s m ρ :=
  makeData_makes h (literalTag h (by decide) rfl) (.float 0 v) fun _ => Content.spined_of_tag nofun

theorem makeChar_makes (h : m.Inv [] ρ) (v : Char) : (makeChar v).Makes s m ρ :=
  makeData_makes h (literalTag h (by decide) rfl) (.char 0 v) fun _ => Content.spined_of_tag nofun

theorem makeFunctionValue_makes (h : m.Inv [] ρ) {id : SymbolId} (le : 10 ≤ id) :
    (makeFunctionValue id).Makes s m ρ := by
  unfold makeFunctionValue
  refine Meets.bind (Q := fun m₁ m' => m₁ = m ∧ m' = m) (meets_get ⟨rfl, rfl⟩) ?_
  rintro _ m ⟨rfl, rfl⟩
  split
  · exact meets_of_fatal rfl ⟨ρ, .refl h⟩
  · next sym found =>
    refine makeData_makes h (literalTag h (by decide) rfl) (.function id sym le found) fun _ => ?_
    rintro missing f x same
    cases same

theorem make_makes (ls : List NodeId) (h : m.Inv [] ρ) {id : SymbolId} {tag : Tag}
    (live : ∀ j ∈ ls, m.Live [] j) (ht : m.signature.tagFor id = .ok tag)
    (fits : Content.Fits m.signature ⟨tag, id, 0, .links ls⟩)
    (spine : ∀ P, Content.Spined ⟨tag, id, 0, .links ls⟩ P) :
    (make id (ls.map some)).Makes s m ρ := by
  have rooted : ∀ i, some i ∈ ls.map some → m.Live [] i := fun i hi => live i (by simpa using hi)
  refine makes_of_write h (allocateFor_meets h rooted) fun i m₁ quiet blank => ?_
  have h₁ := quiet.inv h
  rw [← quiet.signature] at ht fits
  exact (rewriteTo_writes h₁.storage (blank.lt i List.mem_cons_self) ht ls).makes
    (quiet.evolves h) blank fits (fun j hj => (quiet.live h).mpr (live j hj)) (spine _)

/-- A call or a constructor with as many successors as its arity. -/
theorem makeProper_makes (h : m.Inv [] ρ) {id : SymbolId} {sym : Symbol} {ls : List NodeId}
    (le : 10 ≤ id) (found : m.signature.symbol? id = some sym) (length : ls.length = sym.arity)
    (live : ∀ j ∈ ls, m.Live [] j) : (make id (ls.map some)).Makes s m ρ := by
  obtain ⟨tag, ht, fits⟩ := h.signature.fits le found 0 ls length
  exact make_makes ls h live ht fits fun _ => Content.spined_of_proper le

theorem makeFail_makes (h : m.Inv [] ρ) : makeFail.Makes s m ρ :=
  make_makes [] h (fun _ hj => absurd hj List.not_mem_nil) (literalTag h (by decide) rfl)
    (.failure 0) fun _ => Content.spined_of_tag nofun

theorem makeForward_makes (h : m.Inv [] ρ) (live : m.Live [] j) :
    (makeForward (some j)).Makes s m ρ :=
  make_makes [j] h (fun _ hi => List.mem_singleton.mp hi ▸ live)
    (literalTag h (by decide) rfl) (.forward 0 j) fun _ => Content.spined_of_tag nofun

theorem makeChoice_makes {l r : NodeId} (h : m.Inv [] ρ) (hl : m.Live [] l) (hr : m.Live [] r) :
    (makeChoice (some l) (some r)).Makes s m ρ := by
  have live : ∀ j ∈ [l, r], m.Live [] j := by
    intro j hj
    rcases List.mem_cons.mp hj with rfl | hj
    · exact hl
    · exact List.mem_singleton.mp hj ▸ hr
  have rooted : ∀ i, some i ∈ [l, r].map some → m.Live [] i := fun i hi => live i (by simpa using hi)
  refine makes_of_write (e := fun i => freshId >>= fun id =>
    rewrite i .choice Builtin.choice id [some l, some r]) h (allocateFor_meets h rooted)
    fun i m₁ quiet blank => ?_
  refine (freshId_drafts (s := s) (quiet.evolves h) blank).bind ?_
  rintro id m₂ ⟨d, -⟩
  have h₂ := d.evolves.inv
  refine (rewrite_writes h₂.storage (d.blank.lt i List.mem_cons_self) .choice Builtin.choice id
    [l, r]).makes d.evolves d.blank (.choice id l r) (fun j hj => ?_) (Content.spined_of_tag nofun)
  exact d.adds.live (quiet.inv h) ((quiet.live h).mpr (live j hj))

theorem makeFree_makes (h : m.Inv [] ρ) {type : Option TypeId}
    (registered : ∀ t ∈ type, ∃ d, m.signature.types[t]? = some d) :
    (makeFree type).Makes s m ρ := by
  refine makes_of_write (e := fun i => freshId >>= fun id => rewriteFree i id type) h
    (allocateOne_meets h) fun i m₁ quiet blank => ?_
  refine (freshId_drafts (s := s) (quiet.evolves h) blank).bind ?_
  rintro id m₂ ⟨d, -⟩
  have h₂ := d.evolves.inv
  have none : (freeContent id type).links = [] := by cases type <;> rfl
  refine (rewriteFree_writes h₂.storage (d.blank.lt i List.mem_cons_self) id type).makes d.evolves
    d.blank ?_ (fun j hj => ?_) (Content.spined_of_tag nofun)
  · cases type with
    | none => exact .untyped id
    | some t =>
      obtain ⟨dt, found⟩ := registered t rfl
      exact .typed id t dt (by rw [d.adds.signature, quiet.signature]; exact found)
  · rw [none] at hj
    exact absurd hj List.not_mem_nil

theorem Makes.keeps {a : Eff NodeId} (h : a.Makes s m ρ) :
    a.Keeps s m ρ fun _ _ _ => True :=
  Meets.mono h (fun _ _ ⟨ρ', ev⟩ => ⟨ρ', ev.drop, trivial⟩) fun _ h => h

end ChoiceGraph.Eff
