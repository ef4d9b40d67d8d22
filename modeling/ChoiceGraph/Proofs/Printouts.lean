import ChoiceGraph.Proofs.Legibility
import ChoiceGraph.Proofs.Linking
import ChoiceGraph.Proofs.Unfoldings

/-! # Printed values are unambiguous

A node that unfolds to a finite tree of numbers, tuples, proper lists and plain constructors is printed as
the datum that the tree denotes, whatever is shared and wherever indirections stand. Since the text of a
datum determines it, two such nodes of one text unfold to trees that match. -/
namespace ChoiceGraph

/-! ## Ranks from unfoldings -/

namespace Graph

variable {g : Graph} {ρ : Rank} {i j : NodeId} {s : Unfolding} {c : Content}

/-- Along all edges below nodes that unfold, ranks fall. -/
def Graded (g : Graph) (ρ : Rank) : Prop :=
  ∀ i s j, g.UnfoldsTo i s → g.Edge i j → ρ j < ρ i

theorem UnfoldsTo.content (h : g.UnfoldsTo i s) : ∃ c, g.content? i = some c := by
  obtain ⟨leads, hc, -⟩ := h
  cases leads with
  | refl => exact ⟨_, hc⟩
  | step here => exact ⟨_, here⟩

theorem UnfoldsTo.of_edge (h : g.UnfoldsTo i s) (edge : g.Edge i j) : ∃ s', g.UnfoldsTo j s' := by
  obtain ⟨leads, hc, plain, length, each⟩ := h
  cases leads with
  | refl =>
    obtain ⟨k, hk⟩ := List.mem_iff_getElem?.mp ((edge_of_content hc).mp edge)
    have lt := length ▸ (List.getElem?_eq_some_iff.mp hk).1
    exact ⟨_, each k j _ hk (List.getElem?_eq_getElem lt)⟩
  | step here leads =>
    obtain rfl := List.mem_singleton.mp ((edge_of_content here).mp edge)
    exact ⟨_, .node leads hc plain length each⟩

/-- There is no endless way down from a node that unfolds. -/
theorem UnfoldsTo.acc (h : g.UnfoldsTo i s) : Acc (fun j i => g.Edge i j) i := by
  induction h with
  | node leads hc plain length each ih =>
    induction leads with
    | refl =>
      refine .intro _ fun j edge => ?_
      obtain ⟨k, hk⟩ := List.mem_iff_getElem?.mp ((edge_of_content hc).mp edge)
      have lt := length ▸ (List.getElem?_eq_some_iff.mp hk).1
      exact ih k j _ hk (List.getElem?_eq_getElem lt)
    | step here _ down =>
      refine .intro _ fun j edge => ?_
      obtain rfl := List.mem_singleton.mp ((edge_of_content here).mp edge)
      exact down hc

theorem not_transGen_of_acc {r : NodeId → NodeId → Prop} (h : Acc r i) : ¬ Relation.TransGen r i i :=
  fun loop => by
    induction acc_transGen_iff.mpr h with
    | intro i _ ih => exact ih i loop (h.inv_of_transGen loop) loop

/-- A node is ranked by how many lie below it. -/
theorem exists_graded (g : Graph) : ∃ ρ : Rank, g.Graded ρ := by
  classical
  let below (i : NodeId) : Finset NodeId :=
    (Finset.range g.capacity).filter fun j => Relation.TransGen g.Edge i j
  refine ⟨fun i => (below i).card, fun i s j h edge => ?_⟩
  obtain ⟨s', down⟩ := h.of_edge edge
  obtain ⟨c, hc⟩ := down.content
  have fewer : below j ⊂ below i := by
    refine Finset.ssubset_iff_of_subset (fun k hk => ?_) |>.mpr ⟨j, ?_, fun hk => ?_⟩
    · obtain ⟨lt, path⟩ := Finset.mem_filter.mp hk
      exact Finset.mem_filter.mpr ⟨lt, .head edge path⟩
    · exact Finset.mem_filter.mpr ⟨Finset.mem_range.mpr (content_lt hc), .single edge⟩
    · exact not_transGen_of_acc down.acc (Relation.transGen_swap.mpr (Finset.mem_filter.mp hk).2)
  exact Nat.cast_lt.mpr (Finset.card_lt_card fewer)

end Graph

/-! ## Vocabularies -/

namespace Signature

variable {σ : Signature}

/-- The name of a symbol. -/
def nameOf (σ : Signature) (id : SymbolId) : String :=
  match σ.symbol? id with
  | some sym => sym.name
  | none => ""

theorem nameOf_of_some {id : SymbolId} {sym : Symbol} (found : σ.symbol? id = some sym) :
    σ.nameOf id = sym.name := by
  unfold nameOf
  rw [found]

/-- The signature begins with the prelude, and these constructors of other types have identifiers for
names, each its own, and none that a constructor of the prelude has. -/
structure Names (σ : Signature) (U : SymbolId → Prop) : Prop where
  prelude : standard.Extends σ
  identifier : ∀ id, U id → IsIdentifier (σ.nameOf id)
  fresh : ∀ id, U id → ∀ type ∈ Prelude.typeTable, ∀ constructor ∈ type.2, σ.nameOf id ≠ constructor.1
  distinct : ∀ id id', U id → U id' → σ.nameOf id = σ.nameOf id' → id = id'

end Signature

namespace Prelude

/-- The constructors of the prelude that have identifiers for names: those of truth values, of orderings,
and of success. -/
def identified (p : Prelude) : List SymbolId := [p.false_, p.true_, p.success, p.lt, p.eq, p.gt]

/-- The constructors of tuples, with how many parts they have. -/
def tuples (p : Prelude) : List (SymbolId × Nat) := [(p.unit, 0), (p.pair, 2), (p.triple, 3)]

end Prelude

namespace Signature

variable {σ : Signature} {U : SymbolId → Prop}

/-- What may be printed by its name: constructors of the prelude and others. -/
def Plain (U : SymbolId → Prop) (id : SymbolId) : Prop := id ∈ Prelude.standard.identified ∨ U id

/-- The names of the prelude and the others make a vocabulary. -/
theorem Names.vocabulary (names : σ.Names U) : Vocabulary (Plain U) σ.nameOf := by
  have listed : ∀ id ∈ Prelude.standard.identified, ∃ type ∈ Prelude.typeTable,
      ∃ constructor ∈ type.2, (standard.symbol? id).map Symbol.name = some constructor.1 := by decide +kernel
  have solid : ∀ id ∈ Prelude.standard.identified, IsIdentifier (standard.nameOf id) := by decide +kernel
  have own : ∀ id ∈ Prelude.standard.identified, ∀ id' ∈ Prelude.standard.identified,
      standard.nameOf id = standard.nameOf id' → id = id' := by decide +kernel
  have known_name : ∀ id ∈ Prelude.standard.identified, σ.nameOf id = standard.nameOf id := fun id known => by
    obtain ⟨_, _, _, _, name⟩ := listed id known
    obtain ⟨sym, found, -⟩ := Option.map_eq_some_iff.mp name
    rw [nameOf_of_some found, nameOf_of_some (names.prelude id sym found)]
  refine ⟨fun id known => ?_, fun id id' known known' same => ?_⟩
  · rcases known with known | known
    · rw [known_name id known]
      exact solid id known
    · exact names.identifier id known
  · have apart : ∀ id id', id ∈ Prelude.standard.identified → U id' → σ.nameOf id ≠ σ.nameOf id' :=
      fun id id' known known' same => by
        obtain ⟨type, ht, constructor, hc, name⟩ := listed id known
        obtain ⟨sym, found, name⟩ := Option.map_eq_some_iff.mp name
        rw [known_name id known, nameOf_of_some found, name] at same
        exact names.fresh id' known' type ht constructor hc same.symm
    rcases known with known | known <;> rcases known' with known' | known'
    · rw [known_name id known, known_name id' known'] at same
      exact own id known id' known' same
    · exact absurd same (apart id id' known known')
    · exact absurd same.symm (apart id' id known' known)
    · exact names.distinct id id' known known' same

end Signature

/-! ## What trees denote -/

namespace Unfolding

variable {σ : Signature} {U : SymbolId → Prop} {s s' rest : Unfolding} {ss ss' : List Unfolding} {d : Datum}

/-- The tree is a proper list of these items. -/
inductive Chain : Unfolding → List Unfolding → Prop where
  | nil (aux : Nat) : Chain (.node ⟨.constructor 0, Prelude.standard.nil, aux, none⟩ []) []
  | cons {aux : Nat} {s rest : Unfolding} {ss : List Unfolding} (chain : Chain rest ss) :
      Chain (.node ⟨.constructor 1, Prelude.standard.cons, aux, none⟩ [s, rest]) (s :: ss)

/-- The tree is built from numbers, the tuples and proper lists of the prelude, and plain constructors, and
it stands for this datum. -/
inductive Denotes (σ : Signature) (U : SymbolId → Prop) : Unfolding → Datum → Prop where
  | number (aux : Nat) (v : Int64) :
      Denotes σ U (.node ⟨.constructor 0, Builtin.int, aux, some (.int v)⟩ []) (.number v)
  | tuple {id aux : Nat} {ss : List Unfolding} {ds : List Datum}
      (shape : (id, ss.length) ∈ Prelude.standard.tuples) (length : ss.length = ds.length)
      (each : ∀ (k : Nat) (s : Unfolding) (d : Datum), ss[k]? = some s → ds[k]? = some d → Denotes σ U s d) :
      Denotes σ U (.node ⟨.constructor 0, id, aux, none⟩ ss) (.tuple ds)
  | list {s : Unfolding} {ss : List Unfolding} {ds : List Datum} (chain : s.Chain ss)
      (length : ss.length = ds.length)
      (each : ∀ (k : Nat) (s : Unfolding) (d : Datum), ss[k]? = some s → ds[k]? = some d → Denotes σ U s d) :
      Denotes σ U s (.list ds)
  | named {id aux type index arity : Nat} {name : String} {ss : List Unfolding} {ds : List Datum}
      (plain : Signature.Plain U id)
      (found : σ.symbol? id = some (.constructor name arity type index)) (full : ss.length = arity)
      (length : ss.length = ds.length)
      (each : ∀ (k : Nat) (s : Unfolding) (d : Datum), ss[k]? = some s → ds[k]? = some d → Denotes σ U s d) :
      Denotes σ U (.node ⟨.constructor index, id, aux, none⟩ ss) (.named id ds)

theorem exists_of_mem {ds : List Datum} {P : Unfolding → Datum → Prop} (length : ss.length = ds.length)
    (each : ∀ (k : Nat) (s : Unfolding) (d : Datum), ss[k]? = some s → ds[k]? = some d → P s d) :
    ∀ d ∈ ds, ∃ s, P s d := fun d mem => by
  obtain ⟨k, hd⟩ := List.mem_iff_getElem?.mp mem
  have lt := length ▸ (List.getElem?_eq_some_iff.mp hd).1
  exact ⟨_, each k _ d (List.getElem?_eq_getElem lt) hd⟩

theorem Denotes.spelled (h : s.Denotes σ U d) : d.Over (Signature.Plain U) := by
  induction h with
  | number aux v => exact .number v
  | @tuple id aux ss ds shape length each ih =>
    refine .tuple (fun one => ?_) fun d mem => (exists_of_mem length ih d mem).choose_spec
    rw [length, one] at shape
    have several : ∀ e ∈ Prelude.standard.tuples, e.2 ≠ 1 := by decide
    exact several _ shape rfl
  | list chain length each ih =>
    exact .list fun d mem => (exists_of_mem length ih d mem).choose_spec
  | named plain found full length each ih =>
    exact .named plain fun d mem => (exists_of_mem length ih d mem).choose_spec

theorem matches_of_head {tag : Tag} {symbol aux aux' : Nat} {literal? : Option Literal}
    (numberless : tag ≠ .free ∧ tag ≠ .choice)
    (literal : Option.Rel (fun v w => v.same w = true) literal? literal?)
    (below : List.Forall₂ Matches ss ss') :
    (node ⟨tag, symbol, aux, literal?⟩ ss).Matches (node ⟨tag, symbol, aux', literal?⟩ ss') :=
  matches_node.mpr ⟨⟨rfl, rfl, fun numbered =>
    absurd numbered (not_or.mpr numberless), literal⟩, below⟩

theorem Chain.matches (h : s.Chain ss) (h' : s'.Chain ss') (below : List.Forall₂ Matches ss ss') :
    s.Matches s' := by
  induction h generalizing s' ss' with
  | nil aux =>
    cases below
    cases h' with
    | nil aux' => exact matches_of_head ⟨nofun, nofun⟩ .none .nil
  | cons chain ih =>
    cases below with
    | cons first below =>
      cases h' with
      | cons chain' => exact matches_of_head ⟨nofun, nofun⟩ .none (.cons first (.cons (ih chain' below) .nil))

/-- Trees that denote one datum match. -/
theorem Denotes.matches (h : s.Denotes σ U d) (h' : s'.Denotes σ U d) : s.Matches s' := by
  -- the parts of both trees denote the parts of the datum one by one
  have pairs : ∀ {ss ss' : List Unfolding} {ds : List Datum}, ss.length = ds.length →
      ss'.length = ds.length →
      (∀ (k : Nat) (s : Unfolding) (d : Datum), ss[k]? = some s → ds[k]? = some d →
        ∀ {s'}, s'.Denotes σ U d → s.Matches s') →
      (∀ (k : Nat) (s : Unfolding) (d : Datum), ss'[k]? = some s → ds[k]? = some d → s.Denotes σ U d) →
      List.Forall₂ Matches ss ss' := fun {ss ss' ds} length length' ih each =>
    List.forall₂_iff_get.mpr ⟨length.trans length'.symm, fun k lt lt' =>
      ih k _ _ (List.getElem?_eq_getElem lt) (List.getElem?_eq_getElem (length ▸ lt))
        (each k _ _ (List.getElem?_eq_getElem lt') (List.getElem?_eq_getElem (length ▸ lt)))⟩
  induction h generalizing s' with
  | number aux v =>
    cases h' with
    | number aux' => exact matches_of_head ⟨nofun, nofun⟩ (.some (beq_iff_eq.mpr rfl)) .nil
  | @tuple id aux ss ds shape length each ih =>
    cases h' with
    | @tuple id' aux' ss' _ shape' length' each' =>
      rw [length] at shape
      rw [length'] at shape'
      have one : ∀ e ∈ Prelude.standard.tuples, ∀ e' ∈ Prelude.standard.tuples, e.2 = e'.2 → e.1 = e'.1 := by
        decide
      obtain rfl : id = id' := one _ shape _ shape' rfl
      exact matches_of_head ⟨nofun, nofun⟩ .none (pairs length length' ih each')
  | list chain length each ih =>
    cases h' with
    | list chain' length' each' => exact chain.matches chain' (pairs length length' ih each')
  | named plain found full length each ih =>
    cases h' with
    | named plain' found' full' length' each' =>
      cases found.symm.trans found'
      exact matches_of_head ⟨nofun, nofun⟩ .none (pairs length length' ih each')

end Unfolding

/-! ## Printing what a tree denotes -/

namespace TermGraph

variable {t : TermGraph} {U : SymbolId → Prop} {ρ : Rank} {i j : NodeId} {s : Unfolding} {d : Datum}
  {ss : List Unfolding} {ds : List Datum} {head : Head} {sub : Printer} {alone : Bool} {c : Content}

/-- Below these links hang these trees, and the links are less deep than the bound. -/
def Hangs (t : TermGraph) (ρ : Rank) (bound : Nat) (ls : List NodeId) (ss : List Unfolding) : Prop :=
  List.Forall₂ (fun l s => t.graph.UnfoldsTo l s ∧ t.graph.depth ρ l < bound) ls ss

/-- Indirections lead from a node to one with this head, and below that one hang these trees. -/
structure Lands (t : TermGraph) (ρ : Rank) (i : NodeId) (top : Head) (ss : List Unfolding) (j : NodeId)
    (c : Content) : Prop where
  skip : t.skip i = .ok j
  again : t.skip j = .ok j
  content : t.graph.content? j = some c
  head : c.head = top
  unfolds : t.graph.UnfoldsTo j (.node top ss)
  deep : t.graph.depth ρ j ≤ t.graph.depth ρ i
  hangs : t.Hangs ρ (t.graph.depth ρ j) c.links ss

theorem exists_landing (graded : t.graph.Graded ρ) (h : t.graph.UnfoldsTo i (.node head ss)) :
    ∃ j c, t.Lands ρ i head ss j c := by
  cases h with
  | @node _ j c _ leads hc plain length each =>
    have there : t.graph.UnfoldsTo j (.node c.head ss) := .node (.refl j) hc plain length each
    have all : t.graph.UnfoldsTo i (.node c.head ss) := .node leads hc plain length each
    refine ⟨j, c, Machine.skip_of_leads leads hc plain, skip_self hc plain,
      hc, rfl, there, ?_, List.forall₂_iff_get.mpr ⟨length, fun k lt lt' => ?_⟩⟩
    · clear there
      induction leads with
      | refl => exact le_rfl
      | @step i next _ _ _ here leads ih =>
        have down : t.graph.UnfoldsTo next (.node c.head ss) := .node leads hc plain length each
        obtain ⟨e, he⟩ := down.content
        have edge := (Graph.edge_of_content here).mpr List.mem_cons_self
        exact (ih hc down).trans (Graph.depth_lt (Graph.content_lt he) (graded i _ next all edge)).le
    · have down := each k _ _ (List.getElem?_eq_getElem lt) (List.getElem?_eq_getElem lt')
      obtain ⟨e, he⟩ := down.content
      have edge := (Graph.edge_of_content hc).mpr (List.getElem_mem lt)
      exact ⟨down, Graph.depth_lt (Graph.content_lt he) (graded j _ _ there edge)⟩

theorem Lands.symbol {top : Head} (lands : t.Lands ρ i top ss j c) {sym : Symbol}
    (found : t.signature.symbol? top.symbol = some sym) : t.symbol j = .ok sym :=
  symbol_content lands.content (by rw [← found, ← lands.head]; rfl)

theorem Lands.literal {top : Head} (lands : t.Lands ρ i top ss j c) : t.literal? j = .ok top.literal? := by
  rw [literal_content lands.content, ← lands.head]
  rfl

/-- What a node is printed as is told by the style of the symbol that it lands on. -/
theorem Lands.shown {top : Head} (lands : t.Lands ρ i top ss j c) {sym : Symbol}
    (found : t.signature.symbol? top.symbol = some sym) (bound : Nat) :
    t.showWithin (bound + 1) (some i) alone = match sym.shown with
      | .applicative => t.showApplicative (t.showWithin bound) j alone
      | .tuple => t.showTuple (t.showWithin bound) j
      | .list => t.showList (t.showWithin bound) j alone
      | .forward => do t.showWithin bound (← t.successor j 0) alone
      | .choice => t.showChoice (t.showWithin bound) j alone
      | .literal => t.showLiteral j alone
      | .partialApplication => t.showPartial (t.showWithin bound) j alone := by
  rw [showWithin]
  cases shown : sym.shown <;>
    simp only [Link.target, lands.skip, showNode, lands.symbol found, shown, bind, Except.bind]

/-- Texts of trees in a row are those of the data that they denote. -/
theorem mapM_texts {bound : Nat} {ls : List NodeId} {names : SymbolId → String}
    (hangs : t.Hangs ρ bound ls ss) (length : ss.length = ds.length)
    (each : ∀ (k : Nat) (s : Unfolding) (d : Datum), ss[k]? = some s → ds[k]? = some d →
      ∀ i, t.graph.UnfoldsTo i s → t.graph.depth ρ i < bound → sub (some i) alone = .ok (d.text names alone)) :
    (ls.map some).mapM (fun a => sub a alone) = .ok (Datum.texts names alone ds) := by
  rw [Datum.texts_eq_map]
  refine Reduction.mapM_forall₂ (List.forall₂_iff_get.mpr ⟨by simp [hangs.length_eq, length], ?_⟩)
  intro k lt lt'
  rw [List.length_map] at lt lt'
  have deep := hangs.get lt (length ▸ lt')
  simpa using each k _ _ (List.getElem?_eq_getElem (length ▸ lt')) (List.getElem?_eq_getElem lt') _ deep.1 deep.2

/-- An applicative node is printed as a name with its arguments. -/
theorem Lands.showApplicative {top : Head} (lands : t.Lands ρ i top ss j c) {sym : Symbol}
    (found : t.signature.symbol? top.symbol = some sym) (label : sym.label = .name)
    (full : ss.length = sym.arity) (length : ss.length = ds.length)
    (each : ∀ (k : Nat) (s : Unfolding) (d : Datum), ss[k]? = some s → ds[k]? = some d →
      ∀ i, t.graph.UnfoldsTo i s → t.graph.depth ρ i < t.graph.depth ρ j →
        sub (some i) false = .ok (d.text t.signature.nameOf false)) :
    t.showApplicative sub j alone = .ok ((Datum.named top.symbol ds).text t.signature.nameOf alone) := by
  have stored : t.signature.symbol? c.symbol = some sym := by rw [← found, ← lands.head]; rfl
  have successors := successors_content lands.content stored (lands.hangs.length_eq.trans full)
  have name := Signature.nameOf_of_some found
  have empty : (c.links.map some).isEmpty = ds.isEmpty := by
    have same := lands.hangs.length_eq.trans length
    rw [Bool.eq_iff_iff, List.isEmpty_iff_length_eq_zero, List.isEmpty_iff_length_eq_zero, List.length_map, same]
  simp only [TermGraph.showApplicative, showApplication, successors, TermGraph.label, lands.symbol found, label,
    ownLabel, mapM_texts lands.hangs length each, bind, Except.bind, Datum.text, name, empty]
  rfl

/-- An applicative node without arguments is printed as its name. -/
theorem Lands.showConstant {top : Head} (lands : t.Lands ρ i top [] j c) {sym : Symbol}
    (found : t.signature.symbol? top.symbol = some sym) (label : sym.label = .name) (none : sym.arity = 0) :
    t.showApplicative sub j alone = .ok sym.name := by
  have whole : t.showApplicative sub j alone = .ok ((Datum.named top.symbol []).text t.signature.nameOf alone) :=
    lands.showApplicative found label none.symm rfl nofun
  rw [whole, ← Signature.nameOf_of_some found]
  simp [Datum.text, Datum.texts, parenthesized, String.intercalate_singleton]

/-- A node with brackets for its style is printed as the tuple of its parts. -/
theorem Lands.showTuple {top : Head} (lands : t.Lands ρ i top ss j c) {sym : Symbol}
    (found : t.signature.symbol? top.symbol = some sym) (full : ss.length = sym.arity)
    (length : ss.length = ds.length)
    (each : ∀ (k : Nat) (s : Unfolding) (d : Datum), ss[k]? = some s → ds[k]? = some d →
      ∀ i, t.graph.UnfoldsTo i s → t.graph.depth ρ i < t.graph.depth ρ j →
        sub (some i) true = .ok (d.text t.signature.nameOf true)) :
    t.showTuple sub j = .ok ((Datum.tuple ds).text t.signature.nameOf alone) := by
  have stored : t.signature.symbol? c.symbol = some sym := by rw [← found, ← lands.head]; rfl
  have successors := successors_content lands.content stored (lands.hangs.length_eq.trans full)
  simp only [TermGraph.showTuple, successors, mapM_texts lands.hangs length each, bind, Except.bind, Datum.text]
  rfl

theorem Hangs.mono {bound bound' : Nat} {ls : List NodeId} (h : t.Hangs ρ bound ls ss) (le : bound ≤ bound') :
    t.Hangs ρ bound' ls ss :=
  h.imp fun _ _ deep => ⟨deep.1, deep.2.trans_le le⟩

/-- A proper list is read up to the empty list at its end. -/
theorem listWithin_chain (graded : t.graph.Graded ρ) (names : t.signature.Names U) (chain : s.Chain ss)
    (h : t.graph.UnfoldsTo i s) (skip : t.skip i = .ok i) {bound : Nat} (lt : t.graph.depth ρ i < bound) :
    ∃ ls last, t.listWithin Prelude.standard.cons bound i = .ok (ls.map some, last) ∧
      t.symbol last = .ok (.constructor "[]" 0 5 0) ∧ t.Hangs ρ (t.graph.depth ρ i) ls ss := by
  induction chain generalizing i bound with
  | nil aux =>
    obtain ⟨bound, rfl⟩ := Nat.exists_eq_add_of_lt lt
    obtain ⟨j, c, lands⟩ := exists_landing graded h
    obtain rfl := Except.ok.inj (skip.symm.trans lands.skip)
    have nil : c.symbol = Prelude.standard.nil := congrArg Head.symbol lands.head
    refine ⟨[], i, ?_, ?_, .nil⟩
    · unfold listWithin
      simp only [symbolId_content lands.content, nil, bind, Except.bind]
      rfl
    · refine symbol_content lands.content ?_
      rw [nil]
      exact names.prelude _ _ rfl
  | @cons aux s rest ss chain ih =>
    obtain ⟨bound, rfl⟩ := Nat.exists_eq_add_of_lt lt
    obtain ⟨j, c, lands⟩ := exists_landing graded h
    obtain rfl := Except.ok.inj (skip.symm.trans lands.skip)
    have cons : c.symbol = Prelude.standard.cons := congrArg Head.symbol lands.head
    have found : t.signature.symbol? c.symbol =
        some { Symbol.constructor ":" 2 5 1 with shown := .list } := by
      rw [cons]
      exact names.prelude _ _ rfl
    have hangs := lands.hangs
    have full := hangs.length_eq
    obtain ⟨item, next, links⟩ := List.length_eq_two.mp full
    rw [links] at hangs
    cases hangs with | cons first hangs =>
    cases hangs with | cons tail _ =>
    have hitem : c.links[0]? = some item := by rw [links]; rfl
    have hnext : c.links[1]? = some next := by rw [links]; rfl
    obtain ⟨head, below⟩ := rest
    obtain ⟨p, d, landing⟩ := exists_landing graded tail.1
    have deeper : t.graph.depth ρ p < t.graph.depth ρ i + bound :=
      (landing.deep.trans_lt tail.2).trans_le (Nat.le_add_right _ _)
    obtain ⟨ls, last, run, ends, items⟩ := ih landing.unfolds landing.again deeper
    refine ⟨item :: ls, last, ?_, ends, .cons first (items.mono (landing.deep.trans tail.2.le))⟩
    unfold listWithin
    simp only [symbolId_content lands.content, cons, successor_content lands.content found full hitem,
      successorSkip, successor_content lands.content found full hnext, Link.target, landing.skip, run, bind,
      Except.bind, if_true]
    rfl

/-- A proper list that is not empty is printed with its items between brackets. -/
theorem Lands.showList {top : Head} {below : List Unfolding} (lands : t.Lands ρ i top below j c)
    (graded : t.graph.Graded ρ) (names : t.signature.Names U) (cons : top.symbol = Prelude.standard.cons)
    (chain : (Unfolding.node top below).Chain ss) (length : ss.length = ds.length)
    (each : ∀ (k : Nat) (s : Unfolding) (d : Datum), ss[k]? = some s → ds[k]? = some d →
      ∀ i, t.graph.UnfoldsTo i s → t.graph.depth ρ i < t.graph.depth ρ j →
        sub (some i) true = .ok (d.text t.signature.nameOf true)) :
    t.showList sub j alone = .ok ((Datum.list ds).text t.signature.nameOf alone) := by
  obtain ⟨ls, last, run, ends, hangs⟩ := listWithin_chain graded names chain lands.unfolds lands.again
    (Nat.lt_succ_of_le Graph.depth_le)
  have found : t.signature.symbol? top.symbol = some { Symbol.constructor ":" 2 5 1 with shown := .list } := by
    rw [cons]
    exact names.prelude _ _ rfl
  have id : t.symbolId j = .ok Prelude.standard.cons :=
    (symbolId_content lands.content).trans (cons ▸ congrArg (fun top => Except.ok top.symbol) lands.head)
  simp only [TermGraph.showList, lands.symbol found, id, depthBound, run, ends, mapM_texts hangs length each,
    bind, Except.bind, Symbol.constructor, Symbol.builtin]
  rfl

/-- A node is printed as the datum that its tree denotes. -/
theorem showWithin_text (graded : t.graph.Graded ρ) (names : t.signature.Names U)
    (denotes : s.Denotes t.signature U d) (h : t.graph.UnfoldsTo i s) {bound : Nat}
    (lt : t.graph.depth ρ i < bound) :
    t.showWithin bound (some i) alone = .ok (d.text t.signature.nameOf alone) := by
  induction denotes generalizing i bound alone with
  | number aux v =>
    obtain ⟨bound, rfl⟩ := Nat.exists_eq_add_of_lt lt
    obtain ⟨j, c, lands⟩ := exists_landing graded h
    rw [lands.shown (names.prelude Builtin.int _ rfl)]
    change t.showLiteral j alone = _
    simp only [showLiteral, lands.literal, literalLabel, literalText, bind, Except.bind]
    rfl
  | @tuple id aux ss ds shape length each ih =>
    obtain ⟨bound, rfl⟩ := Nat.exists_eq_add_of_lt lt
    obtain ⟨j, c, lands⟩ := exists_landing graded h
    have shallow : t.graph.depth ρ j ≤ t.graph.depth ρ i + bound := lands.deep.trans (Nat.le_add_right _ _)
    have below : ∀ alone (k : Nat) (s : Unfolding) (d : Datum), ss[k]? = some s → ds[k]? = some d →
        ∀ i', t.graph.UnfoldsTo i' s → t.graph.depth ρ i' < t.graph.depth ρ j →
          t.showWithin (t.graph.depth ρ i + bound) (some i') alone = .ok (d.text t.signature.nameOf alone) :=
      fun alone k s d hs hd i' h' lt' => ih k s d hs hd h' (lt'.trans_le shallow)
    simp only [Prelude.tuples, List.mem_cons, List.not_mem_nil, or_false, Prod.mk.injEq] at shape
    rcases shape with ⟨rfl, full⟩ | ⟨rfl, full⟩ | ⟨rfl, full⟩
    · have found := names.prelude Prelude.standard.unit _ rfl
      rw [lands.shown found]
      obtain rfl := List.length_eq_zero_iff.mp full
      obtain rfl := List.length_eq_zero_iff.mp length.symm
      exact lands.showConstant found rfl rfl
    · have found := names.prelude Prelude.standard.pair _ rfl
      rw [lands.shown found]
      exact lands.showTuple found full length (below true)
    · have found := names.prelude Prelude.standard.triple _ rfl
      rw [lands.shown found]
      exact lands.showTuple found full length (below true)
  | @list s ss ds chain length each ih =>
    obtain ⟨bound, rfl⟩ := Nat.exists_eq_add_of_lt lt
    cases chain with
    | nil aux =>
      obtain ⟨j, c, lands⟩ := exists_landing graded h
      have found := names.prelude Prelude.standard.nil _ rfl
      obtain rfl := List.length_eq_zero_iff.mp length.symm
      rw [lands.shown found]
      exact lands.showConstant found rfl rfl
    | cons chain =>
      obtain ⟨j, c, lands⟩ := exists_landing graded h
      have shallow : t.graph.depth ρ j ≤ t.graph.depth ρ i + bound := lands.deep.trans (Nat.le_add_right _ _)
      rw [lands.shown (names.prelude Prelude.standard.cons _ rfl)]
      exact lands.showList graded names rfl (.cons chain) length fun k s d hs hd i' h' lt' =>
        ih k s d hs hd h' (lt'.trans_le shallow)
  | @named id aux type index arity name ss ds plain found full length each ih =>
    obtain ⟨bound, rfl⟩ := Nat.exists_eq_add_of_lt lt
    obtain ⟨j, c, lands⟩ := exists_landing graded h
    have shallow : t.graph.depth ρ j ≤ t.graph.depth ρ i + bound := lands.deep.trans (Nat.le_add_right _ _)
    rw [lands.shown found]
    exact lands.showApplicative found rfl full length fun k s d hs hd i' h' lt' =>
      ih k s d hs hd h' (lt'.trans_le shallow)

/-! ## Equal texts -/

/-- Two terms that print alike are alike. Both are printed, and if the texts are the same, then the trees
that they unfold to match; whatever is shared, and wherever indirections stand. -/
theorem showTerm_inj {t' : TermGraph} {s' : Unfolding} {d' : Datum} (names : t.signature.Names U)
    (signature : t'.signature = t.signature) (h : t.graph.UnfoldsTo i s) (h' : t'.graph.UnfoldsTo j s')
    (denotes : s.Denotes t.signature U d) (denotes' : s'.Denotes t.signature U d') :
    ∃ text text', t.showTerm i = .ok text ∧ t'.showTerm j = .ok text' ∧ (text = text' → s.Matches s') := by
  obtain ⟨ρ, graded⟩ := t.graph.exists_graded
  obtain ⟨ρ', graded'⟩ := t'.graph.exists_graded
  have names' : t'.signature.Names U := signature ▸ names
  refine ⟨_, _, showWithin_text graded names denotes h (Nat.lt_succ_of_le Graph.depth_le),
    showWithin_text graded' names' (signature.symm ▸ denotes') h' (Nat.lt_succ_of_le Graph.depth_le), fun same => ?_⟩
  rw [signature] at same
  obtain rfl := denotes.spelled.text_inj names.vocabulary denotes'.spelled same
  exact denotes.matches denotes'

/-- `(Line (-3) Dot, [Line (-3) Dot])` twice: in the one pair both lines are one node, which the list has
behind an indirection; the other pair has a line of its own for its first part. -/
theorem showTerm_inj_line : ∃ (t : TermGraph) (s s' : Unfolding),
    t.graph.content? 3 = some ⟨.forward, Builtin.forward, 0, .links [2]⟩ ∧
    t.graph.content? 6 = some ⟨.constructor 0, Prelude.standard.pair, 0, .links [2, 5]⟩ ∧
    t.graph.content? 8 = some ⟨.constructor 0, Prelude.standard.pair, 0, .links [7, 5]⟩ ∧
    t.graph.UnfoldsTo 6 s ∧ t.graph.UnfoldsTo 8 s' ∧
    t.showTerm 6 = .ok "(Line (-3) Dot, [Line (-3) Dot])" ∧
    t.showTerm 8 = .ok "(Line (-3) Dot, [Line (-3) Dot])" ∧ s.Matches s' := by
  let p := Prelude.standard
  let shapes : Signature := (Signature.standard.defineType "Shape" [("Dot", 0), ("Line", 2)]).2.2
  let line : Content := ⟨.constructor 1, 38, 0, .links [0, 1]⟩
  let table : List Content := [⟨.constructor 0, Builtin.int, 0, .literal (.int (-3))⟩,
    ⟨.constructor 0, 37, 0, .links []⟩, line, ⟨.forward, Builtin.forward, 0, .links [2]⟩,
    ⟨.constructor 0, p.nil, 0, .links []⟩, ⟨.constructor 1, p.cons, 0, .links [3, 4]⟩,
    ⟨.constructor 0, p.pair, 0, .links [2, 5]⟩, line, ⟨.constructor 0, p.pair, 0, .links [7, 5]⟩]
  let text := "(Line (-3) Dot, [Line (-3) Dot])"
  have result : (Operation.script (.ofConfig (.fixedPool 64)) [.defineType "Shape" [("Dot", 0), ("Line", 2)],
      .int (-3), .make 37 [], .make 38 [0, 1], .forward 2, .make p.nil [], .make p.cons [3, 4],
      .make p.pair [2, 5], .make 38 [0, 1], .make p.pair [7, 5]]).map (fun m => (m.tabled table,
        (TermGraph.mk shapes m.graph).showTerm 6 |>.toOption,
        (TermGraph.mk shapes m.graph).showTerm 8 |>.toOption)) = some (true, some text, some text) := by
    decide +kernel
  obtain ⟨m, -, facts⟩ := Option.map_eq_some_iff.mp result
  simp only [Prod.mk.injEq] at facts
  obtain ⟨tabled, shown, shown'⟩ := facts
  let t : TermGraph := ⟨shapes, m.graph⟩
  have content : ∀ {k c}, table[k]? = some c → t.graph.content? k = some c := Machine.content_of_tabled tabled
  let three : Unfolding := .node ⟨.constructor 0, Builtin.int, 0, some (.int (-3))⟩ []
  let dot : Unfolding := .node ⟨.constructor 0, 37, 0, none⟩ []
  let lined : Unfolding := .node ⟨.constructor 1, 38, 0, none⟩ [three, dot]
  let empty : Unfolding := .node ⟨.constructor 0, p.nil, 0, none⟩ []
  let listed : Unfolding := .node ⟨.constructor 1, p.cons, 0, none⟩ [lined, empty]
  let paired : Unfolding := .node ⟨.constructor 0, p.pair, 0, none⟩ [lined, listed]
  have h₀ : t.graph.UnfoldsTo 0 three := .of_below (.refl 0) (content rfl) nofun .nil
  have h₁ : t.graph.UnfoldsTo 1 dot := .of_below (.refl 1) (content rfl) nofun .nil
  have h₂ : t.graph.UnfoldsTo 2 lined := .of_below (.refl 2) (content rfl) nofun (.cons h₀ (.cons h₁ .nil))
  have h₃ : t.graph.UnfoldsTo 3 lined :=
    .of_below (.step (content rfl) (.refl 2)) (content rfl) nofun (.cons h₀ (.cons h₁ .nil))
  have h₄ : t.graph.UnfoldsTo 4 empty := .of_below (.refl 4) (content rfl) nofun .nil
  have h₅ : t.graph.UnfoldsTo 5 listed := .of_below (.refl 5) (content rfl) nofun (.cons h₃ (.cons h₄ .nil))
  have h₆ : t.graph.UnfoldsTo 6 paired := .of_below (.refl 6) (content rfl) nofun (.cons h₂ (.cons h₅ .nil))
  have h₇ : t.graph.UnfoldsTo 7 lined := .of_below (.refl 7) (content rfl) nofun (.cons h₀ (.cons h₁ .nil))
  have h₈ : t.graph.UnfoldsTo 8 paired := .of_below (.refl 8) (content rfl) nofun (.cons h₇ (.cons h₅ .nil))
  have distinct : ∀ id ∈ [37, 38], ∀ id' ∈ [37, 38], shapes.nameOf id = shapes.nameOf id' → id = id' := by
    decide +kernel
  have solid : ∀ id ∈ [37, 38], IsIdentifier (shapes.nameOf id) := by decide +kernel
  have fresh : ∀ id ∈ [37, 38], ∀ type ∈ Prelude.typeTable, ∀ constructor ∈ type.2,
      shapes.nameOf id ≠ constructor.1 := by decide +kernel
  have names : t.signature.Names (· ∈ [37, 38]) :=
    { prelude := (Signature.standard_sound.defineType_extends "Shape"
        (show [("Dot", 0), ("Line", 2)].length ≤ 2 ^ 31 by decide)).1
      identifier := solid
      fresh := fresh
      distinct := fun id id' known known' => distinct id known id' known' }
  have zip : ∀ {ss : List Unfolding} {ds : List Datum}, List.Forall₂ (·.Denotes shapes (· ∈ [37, 38])) ss ds →
      ∀ (k : Nat) (s : Unfolding) (d : Datum), ss[k]? = some s → ds[k]? = some d →
        s.Denotes shapes (· ∈ [37, 38]) d := fun below k s d hs hd => by
    obtain ⟨lt, rfl⟩ := List.getElem?_eq_some_iff.mp hs
    obtain ⟨lt', rfl⟩ := List.getElem?_eq_some_iff.mp hd
    exact below.get lt lt'
  have line' : lined.Denotes shapes (· ∈ [37, 38]) (.named 38 [.number (-3), .named 37 []]) :=
    .named (.inr (by decide)) rfl rfl rfl (zip (.cons (.number 0 (-3)) (.cons
      (.named (.inr (by decide)) rfl rfl rfl (zip .nil)) .nil)))
  have pair' : paired.Denotes shapes (· ∈ [37, 38]) _ :=
    .tuple (by decide) rfl (zip (.cons line' (.cons
      (.list (.cons (.nil 0)) rfl (zip (.cons line' .nil))) .nil)))
  obtain ⟨_, _, run, run', same⟩ := showTerm_inj names rfl h₆ h₈ pair' pair'
  rw [run] at shown
  rw [run'] at shown'
  obtain rfl := Option.some.inj shown
  obtain rfl := Option.some.inj shown'
  exact ⟨t, paired, paired, content rfl, content rfl, content rfl, h₆, h₈, run, run', same rfl⟩

end TermGraph

end ChoiceGraph
