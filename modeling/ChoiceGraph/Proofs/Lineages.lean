import ChoiceGraph.Proofs.Edits

/-! # Lineages of choices

A search follows a choice by its identifier alone, whichever node it comes from. That is sound because
choices with one identifier have one origin. A history says how the choices of a machine came to be:
each was made once, under a new identifier or under that of the variable in whose place it was put, or
a pull brought it forth from another choice. Such a pull copies the node above the choice, once for each
alternative. -/
namespace ChoiceGraph

namespace Content

variable {c : Content} {k : Nat} {i : NodeId}

/-- The content carries an identifier: it is that of a variable or of a choice. -/
def Named (c : Content) : Prop := c.tag = .free ∨ c.tag = .choice

theorem not_named {c : Content} (free : c.tag ≠ .free) (choice : c.tag ≠ .choice) : ¬ c.Named :=
  fun named => named.elim free choice

@[simp] theorem setLink_named : (c.setLink k i).Named ↔ c.Named := Iff.rfl

theorem blank_not_named : ¬ blank.Named := not_named nofun nofun

/-- A variable has no arguments. -/
theorem Fits.not_named {s : Signature} {j : NodeId} (h : c.Fits s) (hk : c.links[k]? = some j)
    (ordinary : c.tag ≠ .choice) : ¬ c.Named := by
  refine Content.not_named (fun free => ?_) ordinary
  rw [h.links_of_free free] at hk
  cases hk

end Content

namespace Graph

variable {g g' g'' : Graph} {i : NodeId} {c : Content} {node : Node}

/-- No node has come to carry an identifier. -/
def KeepsNames (g g' : Graph) : Prop :=
  ∀ i c, g'.content? i = some c → c.Named → g.content? i = some c

theorem KeepsNames.refl (g : Graph) : g.KeepsNames g := fun _ _ hc _ => hc

theorem KeepsNames.trans (h : g.KeepsNames g') (k : g'.KeepsNames g'') : g.KeepsNames g'' :=
  fun i c hc named => h i c (k i c hc named) named

theorem Blanks.keepsNames (h : g.Blanks g') : g.KeepsNames g' := by
  intro i c hc named
  refine (h i c hc).resolve_right ?_
  rintro rfl
  exact Content.blank_not_named named

/-- A node that carries no identifier in the place of another. -/
theorem Spares.keepsNames (spares : g.Spares i g') (here : g'.nodes[i]? = some node)
    (free : node.tag ≠ .free) (choice : node.tag ≠ .choice) : g.KeepsNames g' := by
  intro j c hc named
  by_cases same : j = i
  · subst same
    obtain ⟨slots, there, -⟩ := content_eq_some.mp hc
    obtain rfl := Option.some.inj (here.symm.trans there)
    exact absurd named (Content.not_named free choice)
  · exact (spares.others j same).symm.trans hc

theorem Sets.cases {j : NodeId} {d : Content} (sets : g.Sets i c g') (hd : g'.content? j = some d) :
    j = i ∧ d = c ∨ j ≠ i ∧ g.content? j = some d := by
  by_cases same : j = i
  · subst same
    exact .inl ⟨rfl, Option.some.inj (hd.symm.trans sets.same)⟩
  · exact .inr ⟨same, (sets.others j same).symm.trans hd⟩

theorem Sets.keepsNames (sets : g.Sets i c g') (unnamed : ¬ c.Named) : g.KeepsNames g' := by
  intro j d hd named
  rcases sets.cases hd with ⟨-, rfl⟩ | ⟨-, old⟩
  · exact absurd named unnamed
  · exact old

end Graph

/-! ## Histories -/

/-- What a choice node holds. -/
structure Fork where
  symbol : SymbolId
  id : ChoiceId
  left : NodeId
  right : NodeId
  deriving DecidableEq

namespace Fork

def content (f : Fork) : Content := ⟨.choice, f.symbol, f.id, .links [f.left, f.right]⟩

/-- The same choice between other alternatives. -/
def between (f : Fork) (left right : NodeId) : Fork := { f with left := left, right := right }

theorem content_inj {f f' : Fork} (h : f.content = f'.content) : f = f' := by
  obtain ⟨s, z, l, r⟩ := f
  cases h
  rfl

end Fork

/-- How a choice comes to be: it is made, or pulled above a node with content `c` by its link `k`, which
leaves it between two copies of that node. -/
inductive Event where
  | origin (f : Fork)
  | pull (f : Fork) (c : Content) (k : Nat) (left right : NodeId)
  deriving DecidableEq

/-- The choices that were made, in order. -/
def origins (log : List Event) : List Fork :=
  log.filterMap fun
    | .origin f => some f
    | .pull .. => none

@[simp] theorem origins_append (log log' : List Event) :
    origins (log ++ log') = origins log ++ origins log' := List.filterMap_append

@[simp] theorem origins_origin (f : Fork) : origins [.origin f] = [f] := rfl

@[simp] theorem origins_pull (f : Fork) (c : Content) (k : Nat) (left right : NodeId) :
    origins [.pull f c k left right] = [] := rfl

@[simp] theorem origins_nil : origins [] = [] := rfl

/-- The choice `f` was brought forth by pulls. Each pull puts the choice between two copies of one node,
which differ in a single link: that of the left copy leads to the left alternative there was before,
that of the right copy to the right one. -/
inductive Fork.Descends (log : List Event) (f : Fork) : Fork → Prop where
  | self : Descends log f f
  | pulled {g : Fork} {c : Content} {k : Nat} {left right : NodeId} (h : Descends log f g)
    (event : .pull g c k left right ∈ log) : Descends log f (g.between left right)

namespace Fork.Descends

variable {log log' : List Event} {f g : Fork}

theorem mono (h : f.Descends log g) (sub : log ⊆ log') : f.Descends log' g := by
  induction h with
  | self => exact .self
  | pulled _ event ih => exact .pulled ih (sub event)

/-- A pulled choice keeps its identifier, and whether it was a variable. -/
theorem kind (h : f.Descends log g) : g.symbol = f.symbol ∧ g.id = f.id := by
  induction h with
  | self => exact ⟨rfl, rfl⟩
  | pulled _ _ ih => exact ih

end Fork.Descends

namespace Machine

variable {start m m' m'' : Machine} {log log' events : List Event}

/-- The choice `f`, which the link `k` of the node leads to, has been pulled above it: the node chooses
now between copies of what it held, each with one of the alternatives at `k`. -/
structure Pulls (m : Machine) (root : NodeId) (f : Fork) (c : Content) (k : Nat) (left right : NodeId)
    (m' : Machine) : Prop where
  run : Reduction.pullTab root k m = .ok () m'
  held : m.graph.content? root = some c
  unnamed : ¬ c.Named
  below : ∃ t p, c.links[k]? = some t ∧ m.graph.Leads t p ∧ m.graph.content? p = some f.content
  pulled : m'.graph.content? root = some (f.between left right).content
  leftCopy : m'.graph.content? left = some (c.setLink k f.left)
  rightCopy : m'.graph.content? right = some (c.setLink k f.right)
  names : ∀ i d, i ≠ root → m'.graph.content? i = some d → d.Named → m.graph.content? i = some d
  nextId : m'.nextId = m.nextId

/-- What a machine may do to identifiers at once, and what a history tells of it. -/
inductive Step (m : Machine) : List Event → Machine → Prop where
  /-- No node comes to carry an identifier. -/
  | plain {m' : Machine} (names : m.graph.KeepsNames m'.graph) (nextId : m.nextId ≤ m'.nextId) :
    Step m [] m'
  /-- A variable with a new identifier. -/
  | fresh {m' : Machine} {i : NodeId} {type : Option TypeId}
    (sets : m.graph.Sets i (Eff.freeContent m.nextId type) m'.graph) (nextId : m'.nextId = m.nextId + 1) :
    Step m [] m'
  /-- An ordinary choice with a new identifier. -/
  | choice {m' : Machine} {i : NodeId} {f : Fork} (symbol : f.symbol = Builtin.choice)
    (new : f.id = m.nextId) (sets : m.graph.Sets i f.content m'.graph)
    (nextId : m'.nextId = m.nextId + 1) : Step m [.origin f] m'
  /-- A choice in the place of a variable, under its identifier. -/
  | narrowing {m' : Machine} {i : NodeId} {f : Fork} {type : Option TypeId}
    (symbol : f.symbol = Builtin.narrowed) (free : m.graph.content? i = some (Eff.freeContent f.id type))
    (sets : m.graph.Sets i f.content m'.graph) (nextId : m'.nextId = m.nextId) : Step m [.origin f] m'
  | pull {m' : Machine} {root : NodeId} {f : Fork} {c : Content} {k : Nat} {left right : NodeId}
    (pulls : m.Pulls root f c k left right m') : Step m [.pull f c k left right] m'

/-- What has happened to choices on the way from one machine to another. -/
inductive History (start : Machine) : List Event → Machine → Prop where
  | start : History start [] start
  | step {log events : List Event} {m m' : Machine} (h : History start log m) (step : m.Step events m') :
    History start (log ++ events) m'

theorem Step.history (h : m.Step events m') : m.History events m' := .step .start h

theorem History.trans (h : start.History log m) (k : m.History log' m') :
    start.History (log ++ log') m' := by
  induction k with
  | start => exact (List.append_nil log).symm ▸ h
  | step _ step ih => exact List.append_assoc log _ _ ▸ .step ih step

theorem Step.alone {e : Event} (step : m.Step events m') (event : e ∈ events) : events = [e] := by
  cases step with
  | plain => exact absurd event List.not_mem_nil
  | fresh => exact absurd event List.not_mem_nil
  | choice => rw [List.mem_singleton.mp event]
  | narrowing => rw [List.mem_singleton.mp event]
  | pull => rw [List.mem_singleton.mp event]

/-- What a history tells of has taken place. -/
theorem History.took_place (h : start.History log m) {e : Event} (event : e ∈ log) :
    ∃ earlier later before after,
      start.History earlier before ∧ before.Step [e] after ∧ after.History later m := by
  induction h with
  | start => exact absurd event List.not_mem_nil
  | @step log events m₁ m₂ h step ih =>
    rcases List.mem_append.mp event with event | event
    · obtain ⟨earlier, later, before, after, first, took, rest⟩ := ih event
      exact ⟨earlier, _, before, after, first, took, .step rest step⟩
    · exact ⟨log, [], m₁, m₂, h, step.alone event ▸ step, .start⟩

/-! ## What a history leaves -/

/-- The identifiers that nodes carry were issued. -/
def Issues (m : Machine) : Prop :=
  ∀ i c, m.graph.content? i = some c → c.Named → c.aux < m.nextId

theorem Step.nextId (step : m.Step events m') : m.nextId ≤ m'.nextId := by
  cases step with
  | plain _ le => exact le
  | fresh _ nextId => exact nextId ▸ Nat.le_succ _
  | choice _ _ _ nextId => exact nextId ▸ Nat.le_succ _
  | narrowing _ _ _ nextId => exact nextId.ge
  | pull pulls => exact pulls.nextId.ge

theorem History.nextId (h : start.History log m) : start.nextId ≤ m.nextId := by
  induction h with
  | start => exact Nat.le_refl _
  | step _ step ih => exact ih.trans step.nextId

/-- A node that has taken on an issued identifier. -/
theorem Issues.sets {i : NodeId} {c : Content} (h : m.Issues) (sets : m.graph.Sets i c m'.graph)
    (issued : c.aux < m'.nextId) (le : m.nextId ≤ m'.nextId) : m'.Issues := by
  intro j d hd named
  rcases sets.cases hd with ⟨-, rfl⟩ | ⟨-, old⟩
  · exact issued
  · exact Nat.lt_of_lt_of_le (h j d old named) le

theorem Step.issues (step : m.Step events m') (h : m.Issues) : m'.Issues := by
  have le := step.nextId
  cases step with
  | plain names => exact fun i c hc named => Nat.lt_of_lt_of_le (h i c (names i c hc named) named) le
  | fresh sets nextId => exact h.sets sets ((Nat.lt_succ_self _).trans_eq nextId.symm) le
  | choice _ new sets nextId =>
    exact h.sets sets (new.trans_lt ((Nat.lt_succ_self _).trans_eq nextId.symm)) le
  | narrowing _ free sets nextId =>
    have issued := h _ _ free (.inl rfl)
    exact h.sets sets (Nat.lt_of_lt_of_le issued le) le
  | @pull m' root f c k left right pulls =>
    obtain ⟨t, p, -, -, found⟩ := pulls.below
    intro i d hd named
    refine Nat.lt_of_lt_of_le ?_ le
    by_cases here : i = root
    · subst here
      cases pulls.pulled.symm.trans hd
      have issued : f.content.aux < m.nextId := h p _ found (.inr rfl)
      exact issued
    · exact h i d (pulls.names i d here hd named) named

theorem History.issues (h : start.History log m) (issues : start.Issues) : m.Issues := by
  induction h with
  | start => exact issues
  | step _ step ih => exact step.issues ih

/-- Identifiers and origins. A variable that is there has not been narrowed, and no two nodes are one
variable. All choices descend from origins, of which no two have one identifier. -/
structure Genealogy (log : List Event) (m : Machine) : Prop where
  issued : m.Issues
  recorded : ∀ f ∈ origins log, f.id < m.nextId
  once : ((origins log).map Fork.id).Nodup
  single : ∀ i j c d, m.graph.content? i = some c → m.graph.content? j = some d → c.tag = .free →
    d.tag = .free → c.aux = d.aux → i = j
  pristine : ∀ i c, m.graph.content? i = some c → c.tag = .free → ∀ f ∈ origins log, f.id ≠ c.aux
  choices : ∀ i c, m.graph.content? i = some c → c.tag = .choice →
    ∃ f ∈ origins log, ∃ g, c = g.content ∧ f.Descends log g

/-- A machine without variables and choices. -/
theorem genealogy_of_unnamed (unnamed : ∀ i c, m.graph.content? i = some c → ¬ c.Named) :
    m.Genealogy [] where
  issued i c hc named := absurd named (unnamed i c hc)
  recorded _ hf := absurd hf List.not_mem_nil
  once := List.nodup_nil
  single i _ c _ hc _ free := absurd (.inl free) (unnamed i c hc)
  pristine i c hc free := absurd (.inl free) (unnamed i c hc)
  choices i c hc choice := absurd (.inr choice) (unnamed i c hc)

theorem Genealogy.plain (h : m.Genealogy log) (names : m.graph.KeepsNames m'.graph)
    (nextId : m.nextId ≤ m'.nextId) : m'.Genealogy log where
  issued := (Step.plain names nextId).issues h.issued
  recorded f hf := Nat.lt_of_lt_of_le (h.recorded f hf) nextId
  once := h.once
  single i j c d hc hd free free' :=
    h.single i j c d (names i c hc (.inl free)) (names j d hd (.inl free')) free free'
  pristine i c hc free := h.pristine i c (names i c hc (.inl free)) free
  choices i c hc choice := h.choices i c (names i c hc (.inr choice)) choice

theorem Genealogy.fresh {i : NodeId} {type : Option TypeId} (h : m.Genealogy log)
    (sets : m.graph.Sets i (Eff.freeContent m.nextId type) m'.graph) (nextId : m'.nextId = m.nextId + 1) :
    m'.Genealogy log where
  issued := (Step.fresh sets nextId).issues h.issued
  recorded f hf := nextId ▸ Nat.lt_succ_of_lt (h.recorded f hf)
  once := h.once
  single j k c d hc hd free free' same := by
    rcases sets.cases hc with ⟨rfl, rfl⟩ | ⟨-, oldc⟩ <;> rcases sets.cases hd with ⟨rfl, rfl⟩ | ⟨-, oldd⟩
    · rfl
    · exact absurd same.symm (h.issued k d oldd (.inl free')).ne
    · exact absurd same (h.issued j c oldc (.inl free)).ne
    · exact h.single j k c d oldc oldd free free' same
  pristine j c hc free f hf := by
    rcases sets.cases hc with ⟨-, rfl⟩ | ⟨-, old⟩
    · exact (h.recorded f hf).ne
    · exact h.pristine j c old free f hf
  choices j c hc choice := by
    rcases sets.cases hc with ⟨-, rfl⟩ | ⟨-, old⟩
    · cases choice
    · exact h.choices j c old choice

/-- A new choice, under an identifier that no origin and no other variable has. -/
theorem Genealogy.origin {i : NodeId} {f : Fork} (h : m.Genealogy log)
    (sets : m.graph.Sets i f.content m'.graph) (le : m.nextId ≤ m'.nextId) (issued : f.id < m'.nextId)
    (new : ∀ f' ∈ origins log, f'.id ≠ f.id)
    (free : ∀ j c, j ≠ i → m.graph.content? j = some c → c.tag = .free → f.id ≠ c.aux) :
    m'.Genealogy (log ++ [.origin f]) where
  issued := h.issued.sets sets issued le
  recorded f' hf := by
    rw [origins_append, List.mem_append] at hf
    rcases hf with hf | hf
    · exact Nat.lt_of_lt_of_le (h.recorded f' hf) le
    · rw [List.mem_singleton.mp hf]
      exact issued
  once := by
    rw [origins_append, List.map_append]
    refine List.nodup_append.mpr ⟨h.once, List.nodup_singleton _, fun z hz z' hz' => ?_⟩
    obtain ⟨f', hf', rfl⟩ := List.mem_map.mp hz
    rw [List.mem_singleton.mp hz']
    exact new f' hf'
  single j k c d hc hd choice choice' := by
    rcases sets.cases hc with ⟨-, rfl⟩ | ⟨-, oldc⟩
    · cases choice
    rcases sets.cases hd with ⟨-, rfl⟩ | ⟨-, oldd⟩
    · cases choice'
    exact h.single j k c d oldc oldd choice choice'
  pristine j c hc choice f' hf := by
    rcases sets.cases hc with ⟨-, rfl⟩ | ⟨other, old⟩
    · cases choice
    rw [origins_append, List.mem_append] at hf
    rcases hf with hf | hf
    · exact h.pristine j c old choice f' hf
    · rw [List.mem_singleton.mp hf]
      exact free j c other old choice
  choices j c hc choice := by
    rw [origins_append]
    rcases sets.cases hc with ⟨-, rfl⟩ | ⟨-, old⟩
    · exact ⟨f, List.mem_append_right _ List.mem_cons_self, f, rfl, .self⟩
    · obtain ⟨f', hf', g, rfl, descends⟩ := h.choices j c old choice
      exact ⟨f', List.mem_append_left _ hf', g, rfl, descends.mono (List.subset_append_left _ _)⟩

theorem Genealogy.pull {root left right : NodeId} {f : Fork} {c : Content} {k : Nat} (h : m.Genealogy log)
    (pulls : m.Pulls root f c k left right m') : m'.Genealogy (log ++ [.pull f c k left right]) := by
  have same : origins (log ++ [.pull f c k left right]) = origins log := by simp
  obtain ⟨t, p, -, -, found⟩ := pulls.below
  have others : ∀ j d, m'.graph.content? j = some d → d.tag = .free → m.graph.content? j = some d := by
    intro j d hd free
    refine pulls.names j d ?_ hd (.inl free)
    rintro rfl
    cases pulls.pulled.symm.trans hd
    cases free
  refine ⟨(Step.pull pulls).issues h.issued, ?_, ?_, fun j k c d hc hd free free' => ?_,
    fun j d hd free => ?_, fun j d hd choice => ?_⟩
  · rw [same, pulls.nextId]
    exact h.recorded
  · rw [same]
    exact h.once
  · exact h.single j k c d (others j c hc free) (others k d hd free') free free'
  · rw [same]
    exact h.pristine j d (others j d hd free) free
  · rw [same]
    by_cases here : j = root
    · subst here
      cases pulls.pulled.symm.trans hd
      obtain ⟨f', hf', g, held, descends⟩ := h.choices p f.content found rfl
      obtain rfl := Fork.content_inj held
      exact ⟨f', hf', _, rfl, .pulled (descends.mono (List.subset_append_left _ _))
        (List.mem_append_right _ List.mem_cons_self)⟩
    · obtain ⟨f', hf', g, rfl, descends⟩ := h.choices j d (pulls.names j d here hd (.inr choice)) choice
      exact ⟨f', hf', g, rfl, descends.mono (List.subset_append_left _ _)⟩

theorem Step.genealogy (step : m.Step events m') (h : m.Genealogy log) :
    m'.Genealogy (log ++ events) := by
  cases step with
  | plain names nextId => exact (List.append_nil log).symm ▸ h.plain names nextId
  | fresh sets nextId => exact (List.append_nil log).symm ▸ h.fresh sets nextId
  | choice symbol new sets nextId =>
    have later : m.nextId < m'.nextId := (Nat.lt_succ_self _).trans_eq nextId.symm
    refine h.origin sets later.le (new.trans_lt later) (fun f' hf' => ?_) fun j c _ hc free => ?_
    · exact new ▸ (h.recorded f' hf').ne
    · exact new ▸ (h.issued j c hc (.inl free)).ne'
  | narrowing symbol free sets nextId =>
    have issued := h.issued _ _ free (.inl rfl)
    refine h.origin sets nextId.ge (nextId ▸ issued) (fun f' hf' => h.pristine _ _ free rfl f' hf')
      fun j c other hc free' same => ?_
    exact other (h.single j _ c _ hc free free' rfl same.symm)
  | pull pulls => exact h.pull pulls

/-- Whatever history a machine has from one without variables and choices. -/
theorem History.genealogy (h : start.History log m)
    (unnamed : ∀ i c, start.graph.content? i = some c → ¬ c.Named) : m.Genealogy log := by
  induction h with
  | start => exact genealogy_of_unnamed unnamed
  | step _ step ih => exact step.genealogy ih

/-- No ordinary choice has the identifier of a variable or of a choice that was one. -/
theorem Genealogy.apart {i j : NodeId} {c d : Content} (h : m.Genealogy log)
    (hc : m.graph.content? i = some c) (hd : m.graph.content? j = some d) (choice : c.tag = .choice)
    (ordinary : c.symbol = Builtin.choice)
    (kind : d.tag = .free ∨ d.tag = .choice ∧ d.symbol = Builtin.narrowed) : c.aux ≠ d.aux := by
  intro same
  obtain ⟨f, hf, g, rfl, descends⟩ := h.choices i c hc choice
  obtain ⟨symbol, id⟩ := descends.kind
  rcases kind with free | ⟨choice', narrowed⟩
  · exact h.pristine j d hd free f hf (id.symm.trans same)
  · obtain ⟨f', hf', g', rfl, descends'⟩ := h.choices j d hd choice'
    obtain ⟨symbol', id'⟩ := descends'.kind
    obtain rfl := List.inj_on_of_nodup_map h.once hf hf' (id.symm.trans (same.trans id'))
    have narrowed : f.symbol = Builtin.narrowed := symbol'.symm.trans narrowed
    cases (symbol.symm.trans ordinary).symm.trans narrowed

/-- Choices with one identifier descend from one origin. -/
theorem Genealogy.kindred {i j : NodeId} {c d : Content} (h : m.Genealogy log)
    (hc : m.graph.content? i = some c) (hd : m.graph.content? j = some d) (choice : c.tag = .choice)
    (choice' : d.tag = .choice) (same : c.aux = d.aux) : ∃ f ∈ origins log, ∃ g g', c = g.content ∧
      d = g'.content ∧ f.Descends log g ∧ f.Descends log g' := by
  obtain ⟨f, hf, g, rfl, descends⟩ := h.choices i c hc choice
  obtain ⟨f', hf', g', rfl, descends'⟩ := h.choices j d hd choice'
  have id := descends.kind.2
  have id' := descends'.kind.2
  obtain rfl := List.inj_on_of_nodup_map h.once hf hf' (id.symm.trans (same.trans id'))
  exact ⟨f, hf, g, g', rfl, rfl, descends, descends'⟩

end Machine

end ChoiceGraph
