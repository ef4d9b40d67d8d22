import ChoiceGraph.Proofs.Reading
import ChoiceGraph.TermGraph.Show

/-! # Printing a machine that is sound

Printing unfolds a term, so that it ends only where no path leads back. On live nodes it does end,
and nothing is missing on the way: the symbols and types of literals are registered, a list has an
item and a rest, and the spine of a partial application ends in a function. -/
namespace ChoiceGraph.Machine

variable {m : Machine} {held : List NodeId} {ρ : Rank} {i j : NodeId} {c : Content} {k : Nat}

/-! ## Spines -/

/-- What is found at the end of a spine is registered, and its arguments lie below. -/
def SpineFound (m : Machine) (held : List NodeId) (ρ : Rank) (i : NodeId)
    (found : Option (SymbolId × List Link)) : Prop :=
  ∀ target args, found = some (target, args) →
    (∃ sym, m.signature.symbol? target = some sym) ∧
      ∀ a ∈ args, ∃ j, a = some j ∧ m.Live held j ∧ ρ j < ρ i

theorem Inv.read_partialSpine (h : m.Inv held ρ) (hi : m.Live held i) :
    ∃ found, m.partialSpine i = .ok found ∧ m.SpineFound held ρ i found := by
  obtain ⟨j, c, skip, leads, hc, tag⟩ := h.read_skip hi
  have hj := hi.leads leads
  have le := h.rank_leads hi leads
  have again := h.skip_eq hj (.refl j) hc tag
  have same : m.partialSpine i = m.partialSpine j := by
    simp only [TermGraph.partialSpine, skip, again]
  rw [same]
  -- only a partial application has a spine
  have spined : ∀ k, m.graph.Misses j k →
      ∃ found, m.partialSpine j = .ok found ∧ m.SpineFound held ρ i found := by
    intro k misses
    rcases h.read_spine hj misses with unfound | ⟨target, args, run, spine⟩
    · exact ⟨none, unfound, by simp [SpineFound]⟩
    · refine ⟨_, run, fun target' args' same => ?_⟩
      cases same
      obtain ⟨sym, found, -⟩ := spine.symbol
      refine ⟨⟨sym, found⟩, fun a ha => ?_⟩
      obtain ⟨x, hx, rfl⟩ := List.mem_map.mp ha
      exact ⟨x, rfl, (spine.args x hx).1, (spine.args x hx).2.trans_le le⟩
  have fits := h.fitsAt hj hc
  by_cases partial_ : c.symbol = Builtin.partialApplication
  · obtain ⟨missing, f, x, rfl⟩ := fits.of_partialApplication partial_
    exact spined missing (.argument hc (h.spines j _ hj hc missing f x rfl))
  · by_cases function_ : c.symbol = Builtin.function
    · obtain ⟨f, sym, -, -, rfl⟩ := fits.of_function function_
      exact spined _ (.function hc)
    · obtain ⟨s, node, -⟩ := TermGraph.node_content (t := m.toTermGraph) hc
      refine ⟨none, ?_, by simp [SpineFound]⟩
      simp only [TermGraph.partialSpine, again, bind, Except.bind, TermGraph.depthBound]
      unfold TermGraph.spineWithin
      simp only [node, bind, Except.bind, if_neg partial_, if_neg function_]
      rfl

/-! ## Labels -/

theorem Inv.read_literalLabel (h : m.Inv held ρ) (hi : m.Live held i)
    (hc : m.graph.content? i = some c) : ∃ text, m.literalLabel i = .ok text := by
  obtain ⟨sym, -, symbol⟩ := h.read_symbol hi hc
  have literal := TermGraph.literal_content (t := m.toTermGraph) hc
  have plain : c.cargo.literal? = none → ∃ text, m.literalLabel i = .ok text := fun none => by
    simp only [TermGraph.literalLabel, literal, none, symbol, bind, Except.bind]
    exact ⟨_, rfl⟩
  have holds : ∀ l, c.cargo.literal? = some l → (∃ text, m.literalText l = .ok text) →
      ∃ text, m.literalLabel i = .ok text := fun l some_ ⟨text, run⟩ => by
    simp only [TermGraph.literalLabel, literal, some_, run, bind, Except.bind]
    exact ⟨_, rfl⟩
  cases h.fitsAt hi hc with
  | int aux v => exact holds _ rfl ⟨_, rfl⟩
  | float aux v => exact holds _ rfl ⟨_, rfl⟩
  | char aux v => exact holds _ rfl ⟨_, rfl⟩
  | typed id t d hd =>
    refine holds _ rfl ⟨d.name, ?_⟩
    simp only [TermGraph.literalText, Signature.dataType, hd, bind, Except.bind]
    rfl
  | function f sym le hs =>
    refine holds _ rfl ⟨sym.name, ?_⟩
    simp only [TermGraph.literalText, Signature.symbol_of_some hs, bind, Except.bind]
    rfl
  | _ => exact plain rfl

theorem Inv.read_partialLabel (h : m.Inv held ρ) (hi : m.Live held i)
    (hc : m.graph.content? i = some c) : ∃ text, m.partialLabel i = .ok text := by
  obtain ⟨sym, -, symbol⟩ := h.read_symbol hi hc
  obtain ⟨found, run, spine⟩ := h.read_partialSpine hi
  rcases found with _ | ⟨target, args⟩
  · simp only [TermGraph.partialLabel, run, symbol, bind, Except.bind]
    exact ⟨_, rfl⟩
  · obtain ⟨⟨target', ht⟩, -⟩ := spine target args rfl
    simp only [TermGraph.partialLabel, run, Signature.symbol_of_some ht, bind, Except.bind]
    exact ⟨_, rfl⟩

/-- How the symbol of a node is printed, if the node is no indirection. -/
inductive PrintedAs (m : Machine) (c : Content) (sym : Symbol) : Prop where
  | plain (label : sym.label = .name ∨ sym.label = .free)
    (shown : sym.shown = .applicative ∨ sym.shown = .tuple)
  | list (label : sym.label = .name) (shown : sym.shown = .list) (arity : sym.arity = 2)
  | choice (label : sym.label = .choice) (shown : sym.shown = .choice) (tag : c.tag = .choice)
  | literal (label : sym.label = .literal) (shown : sym.shown = .literal)
  | partialApplication (label : sym.label = .partialApplication)
    (shown : sym.shown = .partialApplication)

theorem Inv.printedAs (h : m.Inv held ρ) (hi : m.Live held i) (hc : m.graph.content? i = some c)
    (tag : c.tag ≠ .forward) {sym : Symbol} (found : m.signature.symbol? c.symbol = some sym) :
    m.PrintedAs c sym := by
  have builtin : ∀ id, id < 10 → c.symbol = id → Signature.standard.symbol? id = some sym :=
    fun id lt same => (h.signature.prelude id (Nat.lt_trans lt (by decide))).symm.trans (same ▸ found)
  have proper : 10 ≤ c.symbol → m.PrintedAs c sym := fun le => by
    have printed := h.signature.printed c.symbol sym le found
    rcases printed.shown with shown | shown | ⟨shown, arity⟩
    · exact .plain (.inl printed.label) (.inl shown)
    · exact .plain (.inl printed.label) (.inr shown)
    · exact .list printed.label shown arity
  cases h.fitsAt hi hc with
  | failure =>
    cases builtin Builtin.fail (by decide) rfl
    exact .plain (.inl rfl) (.inl rfl)
  | forward => exact absurd rfl tag
  | choice =>
    cases builtin Builtin.choice (by decide) rfl
    exact .choice rfl rfl rfl
  | narrowed =>
    cases builtin Builtin.narrowed (by decide) rfl
    exact .choice rfl rfl rfl
  | untyped =>
    cases builtin Builtin.free (by decide) rfl
    exact .plain (.inr rfl) (.inl rfl)
  | typed =>
    cases builtin Builtin.free (by decide) rfl
    exact .plain (.inr rfl) (.inl rfl)
  | int =>
    cases builtin Builtin.int (by decide) rfl
    exact .literal rfl rfl
  | float =>
    cases builtin Builtin.float (by decide) rfl
    exact .literal rfl rfl
  | char =>
    cases builtin Builtin.char (by decide) rfl
    exact .literal rfl rfl
  | partialApplication =>
    cases builtin Builtin.partialApplication (by decide) rfl
    exact .partialApplication rfl rfl
  | function =>
    cases builtin Builtin.function (by decide) rfl
    exact .partialApplication rfl rfl
  | constructor id sym' type index aux ls le => exact proper le
  | call id sym' aux ls le => exact proper le

theorem Inv.read_label (h : m.Inv held ρ) (hi : m.Live held i) (hc : m.graph.content? i = some c)
    (tag : c.tag ≠ .forward) : ∃ text, m.label i = .ok text := by
  obtain ⟨sym, found, symbol⟩ := h.read_symbol hi hc
  have aux := TermGraph.aux_content (t := m.toTermGraph) hc
  unfold TermGraph.label
  simp only [symbol, bind, Except.bind]
  cases h.printedAs hi hc tag found with
  | plain label shown =>
    rcases label with label | label <;>
      simp only [label, TermGraph.ownLabel, symbol, aux, bind, Except.bind] <;> exact ⟨_, rfl⟩
  | list label =>
    simp only [label, TermGraph.ownLabel, symbol, bind, Except.bind]
    exact ⟨_, rfl⟩
  | choice label =>
    simp only [label, TermGraph.ownLabel, aux, bind, Except.bind]
    exact ⟨_, rfl⟩
  | literal label =>
    simp only [label, TermGraph.ownLabel]
    exact h.read_literalLabel hi hc
  | partialApplication label =>
    simp only [label, TermGraph.ownLabel]
    exact h.read_partialLabel hi hc

/-! ## Terms -/

private theorem mapM_ok {α β : Type} {f : α → Except Fault β} : ∀ l : List α,
    (∀ a ∈ l, ∃ b, f a = .ok b) → ∃ bs, l.mapM f = .ok bs
  | [], _ => ⟨[], rfl⟩
  | a :: l, h => by
    obtain ⟨b, first⟩ := h a List.mem_cons_self
    obtain ⟨bs, rest⟩ := mapM_ok l fun x hx => h x (List.mem_cons_of_mem _ hx)
    exact ⟨b :: bs, by rw [List.mapM_cons, first, rest]; rfl⟩

/-- The items of a list, and where it ends. -/
structure Listed (m : Machine) (held : List NodeId) (ρ : Rank) (i : NodeId) (items : List Link)
    (last : NodeId) : Prop where
  below : ∀ a ∈ items, ∃ j, a = some j ∧ m.Live held j ∧ ρ j < ρ i
  live : m.Live held last
  rank : last = i ∨ ρ last < ρ i

private theorem listWithin_ok (h : m.Inv held ρ) {cons : SymbolId} {sym : Symbol}
    (found : m.signature.symbol? cons = some sym) (arity : sym.arity = 2) :
    ∀ (bound : Nat) (i : NodeId), m.Live held i → m.graph.depth ρ i < bound →
      ∃ items last, m.toTermGraph.listWithin cons bound i = .ok (items, last) ∧
        m.Listed held ρ i items last ∧ (m.toTermGraph.symbolId i = .ok cons → ρ last < ρ i) := by
  intro bound
  induction bound with
  | zero => exact fun _ _ lt => absurd lt (Nat.not_lt_zero _)
  | succ bound ih =>
    intro i hi lt
    obtain ⟨c, hc, -⟩ := h.fits i hi
    have id := TermGraph.symbolId_content (t := m.toTermGraph) hc
    unfold TermGraph.listWithin
    simp only [id, bind, Except.bind]
    by_cases same : c.symbol = cons
    · rw [if_pos same]
      obtain ⟨sym', found', -, length⟩ := h.symbolAt hi hc
      rw [same, found] at found'
      cases found'
      obtain ⟨item, rest, links⟩ := List.length_eq_two.mp (length.trans arity)
      have hitem : c.links[0]? = some item := by rw [links]; rfl
      have hrest : c.links[1]? = some rest := by rw [links]; rfl
      obtain ⟨p, d, skip, leads, -, -⟩ := h.read_successorSkip hi hc hrest
      have below := h.below hi hc (List.mem_of_getElem? hrest) leads
      have deeper := Graph.depth_lt (h.lt below.1) below.2
      obtain ⟨items, last, run, listed, -⟩ :=
        ih p below.1 (Nat.lt_of_lt_of_le deeper (Nat.le_of_lt_succ lt))
      have lower : ρ last < ρ i := by
        rcases listed.rank with rfl | lower
        · exact below.2
        · exact lower.trans below.2
      simp only [h.read_successor hi hc hitem, skip, run]
      refine ⟨_, _, rfl, ⟨fun a ha => ?_, listed.live, .inr lower⟩, fun _ => lower⟩
      rcases List.mem_cons.mp ha with rfl | ha
      · have mem := List.mem_of_getElem? hitem
        exact ⟨item, rfl, hi.link hc mem, h.ranked i item c hi hc mem⟩
      · obtain ⟨j, rfl, hj, rank⟩ := listed.below a ha
        exact ⟨j, rfl, hj, rank.trans below.2⟩
    · rw [if_neg same]
      refine ⟨_, _, rfl, ⟨fun a ha => absurd ha List.not_mem_nil, hi, .inl rfl⟩, fun id' => ?_⟩
      exact absurd (Except.ok.inj id') same

/-- Whatever lies below a node is printed. -/
def PrintsBelow (m : Machine) (held : List NodeId) (ρ : Rank) (i : NodeId)
    (sub : TermGraph.Printer) : Prop :=
  ∀ j alone, m.Live held j → ρ j < ρ i → ∃ text, sub (some j) alone = .ok text

variable {sub : TermGraph.Printer} {alone : Bool}

private theorem showApplicative_ok (h : m.Inv held ρ) (hi : m.Live held i)
    (hc : m.graph.content? i = some c) (tag : c.tag ≠ .forward) (hsub : m.PrintsBelow held ρ i sub) :
    ∃ text, m.showApplicative sub i alone = .ok text := by
  obtain ⟨label, labelled⟩ := h.read_label hi hc tag
  obtain ⟨texts, run⟩ := mapM_ok (f := fun a => sub a false) (c.links.map some) fun a ha => by
    obtain ⟨j, hj, rfl⟩ := List.mem_map.mp ha
    exact hsub j false (hi.link hc hj) (h.ranked i j c hi hc hj)
  simp only [TermGraph.showApplicative, TermGraph.showApplication, h.read_successors hi hc, labelled,
    run, bind, Except.bind]
  exact ⟨_, rfl⟩

private theorem showNode_ok (h : m.Inv held ρ) (hi : m.Live held i)
    (hc : m.graph.content? i = some c) (tag : c.tag ≠ .forward) (hsub : m.PrintsBelow held ρ i sub) :
    ∃ text, m.showNode sub i alone = .ok text := by
  obtain ⟨sym, found, symbol⟩ := h.read_symbol hi hc
  have items : ∀ (wrap : Bool) (links : List Link),
      (∀ a ∈ links, ∃ j, a = some j ∧ m.Live held j ∧ ρ j < ρ i) →
      ∃ texts, links.mapM (fun a => sub a wrap) = .ok texts := fun wrap links below =>
    mapM_ok links fun a ha => by
      obtain ⟨j, rfl, hj, rank⟩ := below a ha
      exact hsub j wrap hj rank
  have linked : ∀ a ∈ c.links.map some, ∃ j, a = some j ∧ m.Live held j ∧ ρ j < ρ i := fun a ha => by
    obtain ⟨j, hj, rfl⟩ := List.mem_map.mp ha
    exact ⟨j, rfl, hi.link hc hj, h.ranked i j c hi hc hj⟩
  unfold TermGraph.showNode
  simp only [symbol, bind, Except.bind]
  cases h.printedAs hi hc tag found with
  | plain label shown =>
    rcases shown with shown | shown
    · simp only [shown]
      exact showApplicative_ok h hi hc tag hsub
    · obtain ⟨texts, run⟩ := items true _ linked
      simp only [shown, TermGraph.showTuple, h.read_successors hi hc, run, bind, Except.bind]
      exact ⟨_, rfl⟩
  | list label shown arity =>
    simp only [shown, TermGraph.showList, symbol, bind, Except.bind]
    split
    · next type index kind =>
      have id := TermGraph.symbolId_content (t := m.toTermGraph) hc
      obtain ⟨links, last, run, listed, lower⟩ := listWithin_ok h found arity m.depthBound i hi
        (Nat.lt_succ_of_le Graph.depth_le)
      obtain ⟨d, hd, -⟩ := h.fits last listed.live
      obtain ⟨sym', -, symbol'⟩ := h.read_symbol listed.live hd
      obtain ⟨inner, innerRun⟩ := items true links listed.below
      obtain ⟨outer, outerRun⟩ := items false links listed.below
      obtain ⟨rest, restRun⟩ := hsub last false listed.live (lower id)
      simp only [id, run, symbol', innerRun, outerRun, restRun]
      split <;> exact ⟨_, rfl⟩
    · exact showApplicative_ok h hi hc tag hsub
  | choice label shown choice =>
    obtain ⟨symbol, id, left, right, rfl, -⟩ := (h.fitsAt hi hc).of_choice choice
    obtain ⟨l, leftRun⟩ := hsub left false (hi.link hc List.mem_cons_self)
      (h.ranked i left _ hi hc List.mem_cons_self)
    have mem : right ∈ [left, right] := List.mem_cons_of_mem _ List.mem_cons_self
    obtain ⟨r, rightRun⟩ := hsub right false (hi.link hc mem) (h.ranked i right _ hi hc mem)
    simp only [shown, TermGraph.showChoice, h.read_successor (k := 0) hi hc rfl, leftRun,
      TermGraph.aux_content hc, h.read_successor (k := 1) hi hc rfl, rightRun, bind, Except.bind]
    exact ⟨_, rfl⟩
  | literal label shown =>
    obtain ⟨text, labelled⟩ := h.read_literalLabel hi hc
    simp only [shown, TermGraph.showLiteral, TermGraph.literal_content hc, labelled, bind, Except.bind]
    exact ⟨_, rfl⟩
  | partialApplication label shown =>
    obtain ⟨spine, run, below⟩ := h.read_partialSpine hi
    rcases spine with _ | ⟨target, args⟩
    · simp only [shown, TermGraph.showPartial, run, bind, Except.bind]
      exact ⟨_, rfl⟩
    · obtain ⟨⟨target', ht⟩, args_⟩ := below target args rfl
      obtain ⟨texts, printed⟩ := items false args args_
      simp only [shown, TermGraph.showPartial, TermGraph.showApplication, run,
        Signature.symbol_of_some ht, printed, bind, Except.bind]
      exact ⟨_, rfl⟩

private theorem showWithin_ok (h : m.Inv held ρ) : ∀ (bound : Nat) (i : NodeId) (alone : Bool),
    m.Live held i → m.graph.depth ρ i < bound →
    ∃ text, m.toTermGraph.showWithin bound (some i) alone = .ok text := by
  intro bound
  induction bound with
  | zero => exact fun _ _ _ lt => absurd lt (Nat.not_lt_zero _)
  | succ bound ih =>
    intro i alone hi lt
    obtain ⟨p, c, skip, leads, hc, tag⟩ := h.read_skip hi
    unfold TermGraph.showWithin
    simp only [Link.target, skip, bind, Except.bind]
    refine showNode_ok h (hi.leads leads) hc tag fun j alone hj rank => ?_
    have deeper := Graph.depth_lt (h.lt hj) (rank.trans_le (h.rank_leads hi leads))
    exact ih j alone hj (Nat.lt_of_lt_of_le deeper (Nat.le_of_lt_succ lt))

theorem Inv.read_showTerm (h : m.Inv held ρ) (hi : m.Live held i) :
    ∃ text, m.showTerm i = .ok text :=
  showWithin_ok h _ i true hi (Nat.lt_succ_of_le Graph.depth_le)

end ChoiceGraph.Machine
