import ChoiceGraph.Proofs.Edits

/-! # Values and anchors

A value has nothing left to be reduced: constructors and indirections lead to variables, literals and
partial applications only. An anchor of a variable is the node that was bound as this variable,
whatever narrowing has made of it since. Edits of a node that is no value keep all values, and those of
a node that is no anchor keep all anchors. -/
namespace ChoiceGraph

namespace Content

variable {c : Content}

/-- A variable, a literal, or a partial application. -/
def IsAtom (c : Content) : Prop :=
  c.tag = .free ∨ ((∃ index, c.tag = .constructor index) ∧ c.symbol < 10) ∨
    (c.tag = .operation ∧ (c.symbol = Builtin.partialApplication ∨ c.symbol = Builtin.function))

theorem IsAtom.not_forward (h : c.IsAtom) : c.tag ≠ .forward := by
  rcases h with tag | ⟨⟨index, tag⟩, -⟩ | ⟨tag, -⟩ <;> rw [tag] <;> nofun

theorem IsAtom.not_data (h : c.IsAtom) : ¬ c.IsData := by
  rintro ⟨⟨index, data⟩, le⟩
  rcases h with tag | ⟨-, lt⟩ | ⟨tag, -⟩
  · cases tag.symm.trans data
  · exact absurd lt (Nat.not_lt.mpr le)
  · cases tag.symm.trans data

theorem IsAtom.not_call (h : c.IsAtom) : ¬ c.IsCall := by
  rintro ⟨operation, plain⟩
  rcases h with tag | ⟨⟨index, tag⟩, -⟩ | ⟨-, symbol⟩
  · cases tag.symm.trans operation
  · cases tag.symm.trans operation
  · exact plain (.inr (.inr (.inr symbol)))

/-- What is neither an indirection, a failure, a choice, a call nor a constructor of a data type. -/
theorem Fits.atom {s : Signature} (fits : c.Fits s) (forward : c.tag ≠ .forward)
    (failure : c.tag ≠ .failure) (choice : c.tag ≠ .choice) (call : ¬ c.IsCall)
    (data : ¬ c.IsData) : c.IsAtom := by
  have proper : ∀ {n : SymbolId}, 10 ≤ n → n ≠ Builtin.partialApplication ∧ n ≠ Builtin.function :=
    fun le => ⟨fun same => absurd (same ▸ le) (by decide), fun same => absurd (same ▸ le) (by decide)⟩
  cases fits with
  | failure => exact absurd rfl failure
  | forward => exact absurd rfl forward
  | choice => exact absurd rfl choice
  | narrowed => exact absurd rfl choice
  | untyped => exact .inl rfl
  | typed => exact .inl rfl
  | int => exact .inr (.inl ⟨⟨0, rfl⟩, (by decide : Builtin.int < 10)⟩)
  | float => exact .inr (.inl ⟨⟨0, rfl⟩, (by decide : Builtin.float < 10)⟩)
  | char => exact .inr (.inl ⟨⟨0, rfl⟩, (by decide : Builtin.char < 10)⟩)
  | partialApplication => exact .inr (.inr ⟨rfl, .inl rfl⟩)
  | function => exact .inr (.inr ⟨rfl, .inr rfl⟩)
  | constructor id sym type index aux ls le => exact absurd ⟨⟨index, rfl⟩, le⟩ data
  | call id sym aux ls le =>
    refine absurd ⟨rfl, ?_⟩ call
    rintro (h | h | h | h | h)
    · cases h
    · cases h
    · cases h
    · exact (proper le).1 h
    · exact (proper le).2 h

end Content

namespace Graph

variable {g g' : Graph} {i j t l x : NodeId} {c : Content} {k : Nat} {y z : VarId}
  {S : NodeId → Prop}

/-- Constructors and indirections lead to no failure, no choice and no call. -/
inductive Value (g : Graph) : NodeId → Prop where
  | atom {i : NodeId} {c : Content} (h : g.content? i = some c) (atom : c.IsAtom) : Value g i
  | data {i : NodeId} {c : Content} (h : g.content? i = some c) (data : c.IsData)
    (links : ∀ j ∈ c.links, Value g j) : Value g i
  | forward {i j : NodeId} {symbol aux : Nat}
    (h : g.content? i = some ⟨.forward, symbol, aux, .links [j]⟩) (hj : Value g j) : Value g i

/-- Variable `y` is at the node, or was until it was narrowed. A constructor in its place is applied
to variables of no type, which are never narrowed themselves. -/
inductive Anchors (g : Graph) (y : VarId) : NodeId → Prop where
  | free {i : NodeId} {c : Content} (h : g.content? i = some c) (tag : c.tag = .free)
    (id : c.aux = y) : Anchors g y i
  | narrowed {i : NodeId} {c : Content} (h : g.content? i = some c) (tag : c.tag = .choice)
    (symbol : c.symbol = Builtin.narrowed) (id : c.aux = y) : Anchors g y i
  | failure {i : NodeId} {c : Content} (h : g.content? i = some c) (tag : c.tag = .failure) :
    Anchors g y i
  | data {i : NodeId} {c : Content} (h : g.content? i = some c) (data : c.IsData)
    (fields : ∀ j ∈ c.links, ∃ z, g.content? j = some (Eff.freeContent z none)) : Anchors g y i
  | forward {i j : NodeId} {symbol aux : Nat}
    (h : g.content? i = some ⟨.forward, symbol, aux, .links [j]⟩) (hj : Anchors g y j) :
    Anchors g y i

/-! ## Values -/

theorem Leads.value (leads : g.Leads i j) (h : g.Value j) : g.Value i := by
  induction leads with
  | refl => exact h
  | step hc _ ih => exact .forward hc (ih h)

theorem Value.leads (h : g.Value i) (leads : g.Leads i j) : g.Value j := by
  induction leads with
  | refl => exact h
  | step hc _ ih =>
    cases h with
    | atom hd atom =>
      cases hc.symm.trans hd
      exact absurd rfl atom.not_forward
    | data hd data =>
      cases hc.symm.trans hd
      exact absurd rfl data.not_forward
    | forward hd hj =>
      cases hc.symm.trans hd
      exact ih hj

theorem Value.not_spoiled (h : g.Value i) (hc : g.content? i = some c) :
    c.tag ≠ .failure ∧ c.tag ≠ .choice := by
  cases h with
  | atom hd atom =>
    cases hc.symm.trans hd
    rcases atom with tag | ⟨⟨index, tag⟩, -⟩ | ⟨tag, -⟩ <;> rw [tag] <;> exact ⟨nofun, nofun⟩
  | data hd data =>
    cases hc.symm.trans hd
    obtain ⟨⟨index, tag⟩, -⟩ := data
    rw [tag]
    exact ⟨nofun, nofun⟩
  | forward hd =>
    cases hc.symm.trans hd
    exact ⟨nofun, nofun⟩

theorem Value.links (h : g.Value i) (hc : g.content? i = some c) (data : c.IsData) :
    ∀ j ∈ c.links, g.Value j := by
  cases h with
  | atom hd atom =>
    cases hc.symm.trans hd
    exact absurd data atom.not_data
  | data hd _ links =>
    cases hc.symm.trans hd
    exact links
  | forward hd =>
    cases hc.symm.trans hd
    exact absurd rfl data.not_forward

theorem not_value_of_call (hc : g.content? i = some c) (call : c.IsCall) : ¬ g.Value i := by
  intro h
  cases h with
  | atom hd atom =>
    cases hc.symm.trans hd
    exact atom.not_call call
  | data hd data =>
    cases hc.symm.trans hd
    exact data.not_call call
  | forward hd =>
    cases hc.symm.trans hd
    exact call.not_forward rfl

/-- A value stays one when each node below keeps its content, or is a value after all. -/
theorem Value.carry (h : g.Value i) (hi : S i)
    (closed : ∀ p c, S p → g.content? p = some c → ∀ q ∈ c.links, S q)
    (step : ∀ p c, S p → g.content? p = some c → g.Value p →
      (c.IsData → ∀ q ∈ c.links, g'.Value q) → g'.content? p = some c ∨ g'.Value p) :
    g'.Value i := by
  induction h with
  | atom hc atom =>
    rcases step _ _ hi hc (.atom hc atom) fun data => absurd data atom.not_data with same | value
    · exact .atom same atom
    · exact value
  | data hc data links ih =>
    have below := fun q hq => ih q hq (closed _ _ hi hc q hq)
    rcases step _ _ hi hc (.data hc data links) fun _ => below with same | value
    · exact .data same data below
    · exact value
  | forward hc hj ih =>
    have below := ih (closed _ _ hi hc _ List.mem_cons_self)
    rcases step _ _ hi hc (.forward hc hj) fun data => absurd rfl data.not_forward with same | value
    · exact .forward same below
    · exact value

/-- Indirections stay when a constructor gets other links. -/
theorem Sets.leads (sets : g.Sets x c g') (data : c.IsData) {d : Content}
    (hd : g.content? x = some d) (tag : d.tag = c.tag) (leads : g.Leads t l) : g'.Leads t l := by
  refine (leads.congr (S := fun _ => True) trivial (fun _ _ _ _ _ _ _ => trivial)
    fun p e _ he forward => ?_).1
  refine (sets.others p ?_).trans he
  rintro rfl
  cases hd.symm.trans he
  exact data.not_forward (tag.symm.trans forward)

/-- A constructor that skips indirections on the way to an argument. -/
theorem Value.relink (h : g.Value i) (hc : g.content? x = some c) (data : c.IsData)
    (hk : c.links[k]? = some t) (leads : g.Leads t l) (sets : g.Sets x (c.setLink k l) g') :
    g'.Value i := by
  refine h.carry (S := fun _ => True) trivial (fun _ _ _ _ _ _ => trivial) ?_
  intro p d _ hd _ below
  by_cases here : p = x
  · subst here
    cases hc.symm.trans hd
    refine .inr (.data sets.same data fun q hq => ?_)
    rcases Machine.mem_setLink hq with hq | rfl
    · exact below data q hq
    · exact (below data t (List.mem_of_getElem? hk)).leads (sets.leads data hc rfl leads)
  · exact .inl ((sets.others p here).trans hd)

/-! ## Anchors -/

theorem not_anchors_of_call (hc : g.content? i = some c) (call : c.IsCall) : ¬ g.Anchors y i := by
  intro h
  cases h with
  | free hd tag =>
    cases hc.symm.trans hd
    cases tag.symm.trans call.1
  | narrowed hd tag =>
    cases hc.symm.trans hd
    cases tag.symm.trans call.1
  | failure hd tag =>
    cases hc.symm.trans hd
    cases tag.symm.trans call.1
  | data hd data =>
    cases hc.symm.trans hd
    exact data.not_call call
  | forward hd =>
    cases hc.symm.trans hd
    exact call.not_forward rfl

/-- The arguments of a constructor that anchors a variable are variables of no type. -/
theorem Anchors.fields (h : g.Anchors y i) (hc : g.content? i = some c) (data : c.IsData) :
    ∀ j ∈ c.links, ∃ z, g.content? j = some (Eff.freeContent z none) := by
  obtain ⟨⟨index, tag⟩, -⟩ := id data
  cases h with
  | free hd tag' =>
    cases hc.symm.trans hd
    cases tag.symm.trans tag'
  | narrowed hd tag' =>
    cases hc.symm.trans hd
    cases tag.symm.trans tag'
  | failure hd tag' =>
    cases hc.symm.trans hd
    cases tag.symm.trans tag'
  | data hd _ fields =>
    cases hc.symm.trans hd
    exact fields
  | forward hd =>
    cases hc.symm.trans hd
    exact absurd rfl data.not_forward

/-- An anchor that is a variable or a choice carries its identifier. -/
theorem Anchors.id (h : g.Anchors y i) (hc : g.content? i = some c)
    (tag : c.tag = .free ∨ c.tag = .choice) : c.aux = y := by
  cases h with
  | free hd _ same =>
    cases hc.symm.trans hd
    exact same
  | narrowed hd _ _ same =>
    cases hc.symm.trans hd
    exact same
  | failure hd tag' =>
    cases hc.symm.trans hd
    rcases tag with tag | tag <;> cases tag.symm.trans tag'
  | data hd data =>
    cases hc.symm.trans hd
    obtain ⟨⟨index, tag'⟩, -⟩ := data
    rcases tag with tag | tag <;> cases tag.symm.trans tag'
  | forward hd =>
    cases hc.symm.trans hd
    rcases tag with tag | tag <;> cases tag

theorem Anchors.leads (h : g.Anchors y i) (leads : g.Leads i j) : g.Anchors y j := by
  induction leads with
  | refl => exact h
  | step hc _ ih =>
    cases h with
    | free hd tag =>
      cases hc.symm.trans hd
      cases tag
    | narrowed hd tag =>
      cases hc.symm.trans hd
      cases tag
    | failure hd tag =>
      cases hc.symm.trans hd
      cases tag
    | data hd data =>
      cases hc.symm.trans hd
      exact absurd rfl data.not_forward
    | forward hd hj =>
      cases hc.symm.trans hd
      exact ih hj

theorem Leads.anchors (leads : g.Leads i j) (h : g.Anchors y j) : g.Anchors y i := by
  induction leads with
  | refl => exact h
  | step hc _ ih => exact .forward hc (ih h)

/-- An anchor stays one when each node below keeps its content, or is an anchor after all, and
variables of no type stay what they are. -/
theorem Anchors.carry (h : g.Anchors y i) (hi : S i)
    (closed : ∀ p c, S p → g.content? p = some c → ∀ q ∈ c.links, S q)
    (open_ : ∀ p z, S p → g.content? p = some (Eff.freeContent z none) →
      g'.content? p = some (Eff.freeContent z none))
    (step : ∀ p c, S p → g.content? p = some c → g.Anchors y p →
      g'.content? p = some c ∨ g'.Anchors y p) : g'.Anchors y i := by
  induction h with
  | free hc tag id =>
    exact (step _ _ hi hc (.free hc tag id)).elim (fun same => .free same tag id) fun h => h
  | narrowed hc tag symbol id =>
    exact (step _ _ hi hc (.narrowed hc tag symbol id)).elim
      (fun same => .narrowed same tag symbol id) fun h => h
  | failure hc tag =>
    exact (step _ _ hi hc (.failure hc tag)).elim (fun same => .failure same tag) fun h => h
  | data hc data fields =>
    refine (step _ _ hi hc (.data hc data fields)).elim (fun same => .data same data ?_) fun h => h
    intro j hj
    obtain ⟨z, free⟩ := fields j hj
    exact ⟨z, open_ j z (closed _ _ hi hc j hj) free⟩
  | forward hc hj ih =>
    refine (step _ _ hi hc (.forward hc hj)).elim (fun same => .forward same ?_) fun h => h
    exact ih (closed _ _ hi hc _ List.mem_cons_self)

/-- A constructor that skips indirections on the way to an argument. If it is an anchor, there are
none to skip. -/
theorem Anchors.relink {s : Signature} (h : g.Anchors y i) (hc : g.content? x = some c)
    (data : c.IsData) (fits : c.Fits s) (hk : c.links[k]? = some t) (leads : g.Leads t l)
    (sets : g.Sets x (c.setLink k l) g') : g'.Anchors y i := by
  have free : ∀ {p : NodeId} {z : VarId}, g.content? p = some (Eff.freeContent z none) → p ≠ x := by
    rintro p z free rfl
    cases hc.symm.trans free
    obtain ⟨⟨index, tag⟩, -⟩ := data
    cases tag
  refine h.carry (S := fun _ => True) trivial (fun _ _ _ _ _ _ => trivial)
    (fun p z _ hp => (sets.others p (free hp)).trans hp) fun p d _ hd anchors => ?_
  by_cases here : p = x
  · subst here
    cases hc.symm.trans hd
    obtain ⟨z, untyped⟩ := anchors.fields hc data t (List.mem_of_getElem? hk)
    have same : t = l := by
      cases leads with
      | refl => rfl
      | step hs _ => cases untyped.symm.trans hs
    have kept := sets.same
    rw [← same, Content.setLink_eq fits hk] at kept
    exact .inl kept
  · exact .inl ((sets.others p here).trans hd)

end Graph

namespace Machine

variable {m m' : Machine} {ρ : Rank} {i x : NodeId} {y : VarId}

theorem Edited.value (e : m.Edited x m') (fresh : ¬ m.graph.Value x) (live : m.Live [] i)
    (h : m.graph.Value i) : m'.graph.Value i := by
  refine h.carry (S := m.Live []) live (fun _ _ live hc _ hq => live.link hc hq)
    fun p c hp hc value _ => .inl ((e.others p hp ?_).trans hc)
  rintro rfl
  exact fresh value

theorem Edited.anchors (e : m.Edited x m') (loose : ∀ z, ¬ m.graph.Anchors z x)
    (live : m.Live [] i) (h : m.graph.Anchors y i) : m'.graph.Anchors y i := by
  refine h.carry (S := m.Live []) live (fun _ _ live hc _ hq => live.link hc hq)
    (fun p z hp free => (e.others p hp ?_).trans free)
    fun p c hp hc anchors => .inl ((e.others p hp ?_).trans hc)
  · rintro rfl
    exact loose z (.free free rfl rfl)
  · rintro rfl
    exact loose y anchors

end Machine

end ChoiceGraph
