import ChoiceGraph.Machine.Basic
import ChoiceGraph.Proofs.Collection
import ChoiceGraph.Proofs.Signatures

/-! # Contents that fit a signature

A content fits when its tag is that of its symbol, when it has as many links as the symbol has
arguments, and when it holds a literal where the symbol calls for one. What a node with a fitting
content reads as does not depend on where its links are stored. -/
namespace ChoiceGraph

/-- The kinds of nodes, each with what it carries. -/
inductive Content.Fits (s : Signature) : Content → Prop where
  | failure (aux : Nat) : Fits s ⟨.failure, Builtin.fail, aux, .links []⟩
  | forward (aux : Nat) (next : NodeId) : Fits s ⟨.forward, Builtin.forward, aux, .links [next]⟩
  | choice (id : Nat) (left right : NodeId) :
    Fits s ⟨.choice, Builtin.choice, id, .links [left, right]⟩
  | narrowed (id : Nat) (left right : NodeId) :
    Fits s ⟨.choice, Builtin.narrowed, id, .links [left, right]⟩
  | untyped (id : Nat) : Fits s ⟨.free, Builtin.free, id, .links []⟩
  | typed (id : Nat) (t : TypeId) (d : DataType) (hd : s.types[t]? = some d) :
    Fits s ⟨.free, Builtin.free, id, .literal (.type t)⟩
  | int (aux : Nat) (v : Int64) : Fits s ⟨.constructor 0, Builtin.int, aux, .literal (.int v)⟩
  | float (aux : Nat) (v : Double) :
    Fits s ⟨.constructor 0, Builtin.float, aux, .literal (.float v)⟩
  | char (aux : Nat) (v : Char) : Fits s ⟨.constructor 0, Builtin.char, aux, .literal (.char v)⟩
  | partialApplication (missing : Nat) (f x : NodeId) :
    Fits s ⟨.operation, Builtin.partialApplication, missing, .links [f, x]⟩
  | function (f : SymbolId) (sym : Symbol) (le : 10 ≤ f) (hs : s.symbol? f = some sym) :
    Fits s ⟨.operation, Builtin.function, sym.arity, .literal (.symbol f)⟩
  | constructor (id : SymbolId) (sym : Symbol) (type index aux : Nat) (ls : List NodeId)
    (le : 10 ≤ id) (hs : s.symbol? id = some sym) (hc : sym.IsConstructor type index)
    (length : ls.length = sym.arity) : Fits s ⟨.constructor index, id, aux, .links ls⟩
  | call (id : SymbolId) (sym : Symbol) (aux : Nat) (ls : List NodeId) (le : 10 ≤ id)
    (hs : s.symbol? id = some sym) (hc : sym.IsCall) (length : ls.length = sym.arity) :
    Fits s ⟨.operation, id, aux, .links ls⟩

namespace Content

variable {s s' : Signature} {c : Content}

/-- No reduction rewrites a node of this kind. -/
def Inert (c : Content) : Prop :=
  c.tag = .forward ∨ c.tag = .choice ∨ c.tag = .failure ∨ c.symbol = Builtin.partialApplication ∨
    c.symbol = Builtin.function

instance (c : Content) : Decidable c.Inert :=
  inferInstanceAs (Decidable (_ ∨ _))

/-- The same content with another link at position `k`. -/
def setLink (c : Content) (k : Nat) (i : NodeId) : Content :=
  { c with cargo := .links (c.links.set k i) }

@[simp] theorem setLink_links {k : Nat} {i : NodeId} : (c.setLink k i).links = c.links.set k i :=
  rfl

theorem blank_fits : blank.Fits s := .failure 0

/-- The symbol of a fitting content is registered and agrees with its tag and its links. -/
theorem Fits.symbol (h : c.Fits s) (hs : s.Sound) : ∃ sym, s.symbol? c.symbol = some sym ∧
    s.tagFor c.symbol = .ok c.tag ∧ c.links.length = sym.arity := by
  have builtin : ∀ (id : SymbolId) {sym : Symbol} {t : Tag} {n : Nat}, id < 10 →
      Signature.standard.symbol? id = some sym → Signature.standard.tagFor id = .ok t →
      n = sym.arity →
      ∃ sym, s.symbol? id = some sym ∧ s.tagFor id = .ok t ∧ n = sym.arity := by
    intro id sym t n lt found tag length
    exact ⟨sym, (hs.prelude id (Nat.lt_trans lt (by decide))).trans found,
      (Signature.tagFor_builtin hs lt).trans tag, length⟩
  cases h with
  | failure => exact builtin Builtin.fail (by decide) rfl rfl rfl
  | forward => exact builtin Builtin.forward (by decide) rfl rfl rfl
  | choice => exact builtin Builtin.choice (by decide) rfl rfl rfl
  | narrowed => exact builtin Builtin.narrowed (by decide) rfl rfl rfl
  | untyped => exact builtin Builtin.free (by decide) rfl rfl rfl
  | typed => exact builtin Builtin.free (by decide) rfl rfl rfl
  | int => exact builtin Builtin.int (by decide) rfl rfl rfl
  | float => exact builtin Builtin.float (by decide) rfl rfl rfl
  | char => exact builtin Builtin.char (by decide) rfl rfl rfl
  | partialApplication => exact builtin Builtin.partialApplication (by decide) rfl rfl rfl
  | function => exact builtin Builtin.function (by decide) rfl rfl rfl
  | constructor id sym type index aux ls _ found hc length =>
    exact ⟨sym, found, Signature.Symbol.IsConstructor.tagFor found hc, length⟩
  | call id sym aux ls _ found hc length =>
    exact ⟨sym, found, Signature.Symbol.IsCall.tagFor found hc, length⟩

/-- The content has links, as many as its symbol has arguments. -/
structure Linked (s : Signature) (c : Content) : Prop where
  symbol : ∃ sym, s.symbol? c.symbol = some sym ∧ c.links.length = sym.arity
  stored : c.cargo = .links c.links

theorem Fits.linked (h : c.Fits s) (hs : s.Sound) {k : Nat} (lt : k < c.links.length) : c.Linked s where
  symbol := (h.symbol hs).imp fun _ found => ⟨found.1, found.2.2⟩
  stored := by
    cases h <;> first | rfl | exact absurd lt (Nat.not_lt_zero k)

theorem Fits.mono (h : c.Fits s) (ext : s.Extends s')
    (types : ∀ (t : TypeId) (d : DataType), s.types[t]? = some d → s'.types[t]? = some d) : c.Fits s' := by
  cases h with
  | failure => exact .failure _
  | forward => exact .forward _ _
  | choice => exact .choice _ _ _
  | narrowed => exact .narrowed _ _ _
  | untyped => exact .untyped _
  | typed _ _ d hd => exact .typed _ _ d (types _ _ hd)
  | int => exact .int _ _
  | float => exact .float _ _
  | char => exact .char _ _
  | partialApplication => exact .partialApplication _ _ _
  | function f sym le found => exact .function f sym le (ext _ _ found)
  | constructor id sym type index aux ls le found hc length =>
    exact .constructor id sym type index aux ls le (ext _ _ found) hc length
  | call id sym aux ls le found hc length =>
    exact .call id sym aux ls le (ext _ _ found) hc length

theorem Fits.setLink (h : c.Fits s) {k : Nat} (lt : k < c.links.length) (i : NodeId) :
    (c.setLink k i).Fits s := by
  have pair : ∀ {a b : NodeId} {ls : List NodeId}, ls = [a, b] → k < ls.length →
      ∃ a' b', ls.set k i = [a', b'] := by
    rintro a b _ rfl lt
    rcases k with _ | _ | k
    · exact ⟨i, b, rfl⟩
    · exact ⟨a, i, rfl⟩
    · simp only [List.length_cons, List.length_nil] at lt
      omega
  cases h with
  | failure => exact absurd lt (Nat.not_lt_zero k)
  | untyped => exact absurd lt (Nat.not_lt_zero k)
  | typed => exact absurd lt (Nat.not_lt_zero k)
  | int => exact absurd lt (Nat.not_lt_zero k)
  | float => exact absurd lt (Nat.not_lt_zero k)
  | char => exact absurd lt (Nat.not_lt_zero k)
  | function => exact absurd lt (Nat.not_lt_zero k)
  | forward aux next =>
    rcases k with _ | k
    · exact .forward aux i
    · exact absurd lt (by simp [links, Cargo.successors])
  | choice id l r =>
    obtain ⟨a, b, same⟩ := pair rfl lt
    simp only [Content.setLink, links, Cargo.successors, same]
    exact .choice id a b
  | narrowed id l r =>
    obtain ⟨a, b, same⟩ := pair rfl lt
    simp only [Content.setLink, links, Cargo.successors, same]
    exact .narrowed id a b
  | partialApplication missing f x =>
    obtain ⟨a, b, same⟩ := pair rfl lt
    simp only [Content.setLink, links, Cargo.successors, same]
    exact .partialApplication missing a b
  | constructor id sym type index aux ls le found hc length =>
    exact .constructor id sym type index aux _ le found hc
      (by simpa [links, Cargo.successors] using length)
  | call id sym aux ls le found hc length =>
    exact .call id sym aux _ le found hc (by simpa [links, Cargo.successors] using length)

theorem Fits.links_of_free (h : c.Fits s) (ht : c.tag = .free) : c.links = [] := by
  cases h <;> first | rfl | cases ht

theorem Fits.of_forward (h : c.Fits s) (ht : c.tag = .forward) :
    ∃ aux next, c = ⟨.forward, Builtin.forward, aux, .links [next]⟩ := by
  cases h <;> first | exact ⟨_, _, rfl⟩ | cases ht

theorem Fits.of_choice (h : c.Fits s) (ht : c.tag = .choice) :
    ∃ symbol id left right, c = ⟨.choice, symbol, id, .links [left, right]⟩ ∧
      (symbol = Builtin.choice ∨ symbol = Builtin.narrowed) := by
  cases h <;> first | exact ⟨_, _, _, _, rfl, .inl rfl⟩ | exact ⟨_, _, _, _, rfl, .inr rfl⟩ | cases ht

theorem Fits.of_free (h : c.Fits s) (ht : c.tag = .free) :
    (∃ id, c = ⟨.free, Builtin.free, id, .links []⟩) ∨ ∃ id t d, s.types[t]? = some d ∧
      c = ⟨.free, Builtin.free, id, .literal (.type t)⟩ := by
  cases h with
  | untyped id => exact .inl ⟨id, rfl⟩
  | typed id t d hd => exact .inr ⟨id, t, d, hd, rfl⟩
  | _ => cases ht

theorem Fits.of_choiceSymbol (h : c.Fits s)
    (hs : c.symbol = Builtin.choice ∨ c.symbol = Builtin.narrowed) : c.tag = .choice := by
  cases h with
  | choice => rfl
  | narrowed => rfl
  | constructor id sym type index aux ls le =>
    rcases hs with rfl | rfl <;> exact absurd le (by decide)
  | call id sym aux ls le =>
    rcases hs with rfl | rfl <;> exact absurd le (by decide)
  | _ => rcases hs with hs | hs <;> cases hs

theorem Fits.of_partialApplication (h : c.Fits s) (hs : c.symbol = Builtin.partialApplication) :
    ∃ missing f x, c = ⟨.operation, Builtin.partialApplication, missing, .links [f, x]⟩ := by
  cases h with
  | partialApplication missing f x => exact ⟨missing, f, x, rfl⟩
  | constructor id sym type index aux ls le =>
    subst hs
    exact absurd le (by decide)
  | call id sym aux ls le =>
    subst hs
    exact absurd le (by decide)
  | _ => cases hs

theorem Fits.of_function (h : c.Fits s) (hs : c.symbol = Builtin.function) :
    ∃ f sym, 10 ≤ f ∧ s.symbol? f = some sym ∧
      c = ⟨.operation, Builtin.function, sym.arity, .literal (.symbol f)⟩ := by
  cases h with
  | function f sym le found => exact ⟨f, sym, le, found, rfl⟩
  | constructor id sym type index aux ls le =>
    subst hs
    exact absurd le (by decide)
  | call id sym aux ls le =>
    subst hs
    exact absurd le (by decide)
  | _ => cases hs

theorem Fits.tag_ne_unassigned (h : c.Fits s) (below : Nat) : c.tag ≠ .unassigned below := by
  cases h <;> exact Tag.noConfusion

end Content

/-! ## Reading -/

namespace TermGraph

variable {t : TermGraph} {i j : NodeId} {c : Content} {sym : Symbol} {k : Nat}

theorem node_content (h : t.graph.content? i = some c) :
    ∃ s, t.node i = .ok ⟨c.tag, c.symbol, c.aux, s⟩ ∧ t.graph.cargo? s = some c.cargo :=
  Graph.node_of_content h

theorem tag_content (h : t.graph.content? i = some c) : t.tag i = .ok c.tag := by
  obtain ⟨s, hn, -⟩ := node_content h
  simp only [tag, hn, bind, Except.bind]
  rfl

theorem aux_content (h : t.graph.content? i = some c) : t.aux i = .ok c.aux := by
  obtain ⟨s, hn, -⟩ := node_content h
  simp only [aux, hn, bind, Except.bind]
  rfl

theorem symbolId_content (h : t.graph.content? i = some c) : t.symbolId i = .ok c.symbol := by
  obtain ⟨s, hn, -⟩ := node_content h
  simp only [symbolId, hn, bind, Except.bind]
  rfl

theorem symbol_content (h : t.graph.content? i = some c)
    (hs : t.signature.symbol? c.symbol = some sym) : t.symbol i = .ok sym := by
  simp only [symbol, symbolId_content h, bind, Except.bind]
  exact Signature.symbol_of_some hs

theorem arity_content (h : t.graph.content? i = some c)
    (hs : t.signature.symbol? c.symbol = some sym) : t.arity i = .ok sym.arity := by
  simp only [arity, symbol_content h hs, bind, Except.bind]
  rfl

/-- The literal in slots is that of their cargo. -/
theorem literal_cargo {g : Graph} {s : Slots} {cargo : Cargo} (h : g.cargo? s = some cargo) :
    s.literal? = cargo.literal? := by
  cases s with
  | inline a b => rcases a with _ | a <;> rcases b with _ | b <;> cases h <;> rfl
  | pooled b =>
    obtain ⟨ls, rfl, -⟩ := Graph.cargo_pooled.mp h
    rfl
  | data l =>
    cases h
    rfl

theorem literal_content (h : t.graph.content? i = some c) :
    t.literal? i = .ok c.cargo.literal? := by
  obtain ⟨s, hn, hc⟩ := node_content h
  simp only [literal?, hn, bind, Except.bind, literal_cargo hc]
  rfl

theorem successors_content (h : t.graph.content? i = some c)
    (hs : t.signature.symbol? c.symbol = some sym) (length : c.links.length = sym.arity) :
    t.successors i = .ok (c.links.map some) := by
  obtain ⟨s, hn, hc⟩ := node_content h
  simp only [successors, arity_content h hs, hn, bind, Except.bind, ← length, Content.links]
  cases s with
  | inline a b =>
    rcases a with _ | a <;> rcases b with _ | b <;> simp only [Graph.cargo?] at hc
    all_goals first | (cases hc) | skip
    all_goals
      simp only [← Option.some.inj hc]
      rfl
  | pooled b =>
    obtain ⟨ls, hl, hb, -⟩ := Graph.cargo_pooled.mp hc
    simp only [hl, Cargo.successors, Graph.block, hb]
  | data l =>
    simp only [← Option.some.inj hc]
    rfl

theorem successor_content (h : t.graph.content? i = some c)
    (hs : t.signature.symbol? c.symbol = some sym) (length : c.links.length = sym.arity)
    (hk : c.links[k]? = some j) : t.successor i k = .ok (some j) := by
  obtain ⟨s, hn, hc⟩ := node_content h
  have lt : k < c.links.length := (List.getElem?_eq_some_iff.mp hk).1
  simp only [successor, arity_content h hs, hn, bind, Except.bind, ← length,
    if_neg (Nat.not_le_of_lt lt)]
  cases s with
  | inline a b =>
    simp only [Content.links] at hk
    rcases a with _ | a <;> rcases b with _ | b <;> simp only [Graph.cargo?] at hc
    all_goals first | (cases hc) | skip
    all_goals
      rw [← Option.some.inj hc] at hk
      simp only [Cargo.successors] at hk
    · cases hk
    · rcases k with _ | k
      · cases hk
        rfl
      · cases hk
    · rcases k with _ | _ | k
      · cases hk
        rfl
      · cases hk
        rfl
      · cases hk
  | pooled b =>
    obtain ⟨ls, hl, hb, -⟩ := Graph.cargo_pooled.mp hc
    simp only [Content.links, hl, Cargo.successors] at hk
    simp only [Graph.block, hb, List.getElem?_map, hk, Option.map_some]
    rfl
  | data l =>
    simp only [Content.links, ← Option.some.inj hc, Cargo.successors] at hk
    cases hk

end TermGraph

end ChoiceGraph
