import ChoiceGraph.Proofs.Footprint
import ChoiceGraph.Proofs.Reading
import ChoiceGraph.Proofs.Settling

/-! # Ground terms

A ground term is what a node unfolds to when there are only constructors and literals below it,
indirections skipped. Sharing does not show in it. A reduction may redirect a link of a constructor
to a node that indirections lead to; the term below stays the same, and so does every comparison. -/
namespace ChoiceGraph

inductive Ground where
  | literal (value : Literal)
  | data (symbol : SymbolId) (args : List Ground)

namespace Ground

mutual

/-- The same term, literals compared by their values. -/
def same : Ground → Ground → Bool
  | literal v, literal w => v.same w
  | data s xs, data s' ys => s == s' && sameAll xs ys
  | literal _, data _ _ => false
  | data _ _, literal _ => false

def sameAll : List Ground → List Ground → Bool
  | [], [] => true
  | x :: xs, y :: ys => same x y && sameAll xs ys
  | [], _ :: _ => false
  | _ :: _, [] => false

end

mutual

/-- The arguments in a term, at all depths. -/
def edges : Ground → Nat
  | literal _ => 0
  | data _ args => edgesAll args

def edgesAll : List Ground → Nat
  | [] => 0
  | x :: xs => 1 + edges x + edgesAll xs

end

mutual

/-- None of the numbers in the term is a NaN. -/
def Numeric : Ground → Prop
  | literal v => ∀ x, v = .float x → x.isNaN = false
  | data _ args => NumericAll args

def NumericAll : List Ground → Prop
  | [] => True
  | x :: xs => Numeric x ∧ NumericAll xs

end

theorem NumericAll.get {xs : List Ground} (h : NumericAll xs) {k : Nat} {x : Ground}
    (hk : xs[k]? = some x) : x.Numeric := by
  induction xs generalizing k with
  | nil => cases hk
  | cons y ys ih =>
    cases k with
    | zero =>
      cases hk
      exact h.1
    | succ k => exact ih h.2 hk

theorem edgesAll_eq : ∀ xs : List Ground, edgesAll xs = xs.length + (xs.map edges).sum
  | [] => rfl
  | x :: xs => by
    rw [edgesAll, edgesAll_eq xs, List.map_cons, List.sum_cons, List.length_cons]
    omega

/-- An argument has fewer arguments than the whole term. -/
theorem edges_lt {xs : List Ground} {k : Nat} {x : Ground} (hk : xs[k]? = some x) :
    x.edges < edgesAll xs := by
  induction xs generalizing k with
  | nil => cases hk
  | cons y ys ih =>
    rw [edgesAll]
    cases k with
    | zero =>
      cases hk
      omega
    | succ k =>
      have := ih hk
      omega

theorem sameAll_refl : ∀ xs : List Ground, (∀ x ∈ xs, same x x = true) → sameAll xs xs = true
  | [], _ => rfl
  | x :: xs, h => by
    rw [sameAll, h x List.mem_cons_self, Bool.true_and]
    exact sameAll_refl xs fun y hy => h y (List.mem_cons_of_mem _ hy)

end Ground

theorem Literal.same_self {v : Literal} (h : ∀ x, v = .float x → x.isNaN = false) :
    v.same v = true := by
  cases v with
  | float x =>
    rw [Literal.same, Double.same, h x rfl, beq_self_eq_true]
    rfl
  | _ => exact beq_self_eq_true _

namespace TermGraph

variable {t t' : TermGraph} {i j l : NodeId} {g g' : Ground}

/-- Below a node, indirections skipped, lies this term. -/
inductive Unfolds (t : TermGraph) : Ground → NodeId → Prop where
  | literal {i j : NodeId} {index aux : Nat} {symbol : SymbolId} {v : Literal}
    (leads : t.graph.Leads i j)
    (hc : t.graph.content? j = some ⟨.constructor index, symbol, aux, .literal v⟩) :
    Unfolds t (.literal v) i
  | data {i j : NodeId} {index aux : Nat} {symbol : SymbolId} {args : List Ground} {ls : List NodeId}
    (leads : t.graph.Leads i j)
    (hc : t.graph.content? j = some ⟨.constructor index, symbol, aux, .links ls⟩)
    (length : args.length = ls.length)
    (below : ∀ (k : Nat) (g : Ground) (l : NodeId), args[k]? = some g → ls[k]? = some l →
      Unfolds t g l) : Unfolds t (.data symbol args) i

theorem Unfolds.leads (h : t.Unfolds g j) (leads : t.graph.Leads i j) : t.Unfolds g i := by
  cases h with
  | literal further hc => exact .literal (leads.trans further) hc
  | data further hc length below => exact .data (leads.trans further) hc length below

/-- Whatever indirections lead to unfolds to the same term. -/
theorem Unfolds.of_leads (h : t.Unfolds g i) (leads : t.graph.Leads i j) : t.Unfolds g j := by
  induction leads with
  | refl => exact h
  | step hc _ ih =>
    apply ih
    cases h with
    | literal leads hd =>
      cases leads with
      | refl => cases hc.symm.trans hd
      | step hc' rest =>
        cases hc.symm.trans hc'
        exact .literal rest hd
    | data leads hd length below =>
      cases leads with
      | refl => cases hc.symm.trans hd
      | step hc' rest =>
        cases hc.symm.trans hc'
        exact .data rest hd length below

/-- A node unfolds to one term only. -/
theorem Unfolds.unique (h : t.Unfolds g i) (h' : t.Unfolds g' i) : g = g' := by
  induction h generalizing g' with
  | literal leads hc =>
    cases h' with
    | literal leads' hc' =>
      cases Machine.leads_unique leads leads' hc nofun hc' nofun
      cases hc.symm.trans hc'
      rfl
    | data leads' hc' =>
      cases Machine.leads_unique leads leads' hc nofun hc' nofun
      cases hc.symm.trans hc'
  | data leads hc length below ih =>
    cases h' with
    | literal leads' hc' =>
      cases Machine.leads_unique leads leads' hc nofun hc' nofun
      cases hc.symm.trans hc'
    | data leads' hc' length' below' =>
      cases Machine.leads_unique leads leads' hc nofun hc' nofun
      cases hc.symm.trans hc'
      congr 1
      refine List.ext_getElem (length.trans length'.symm) fun k hk hk' => ?_
      have link := List.getElem?_eq_getElem (length ▸ hk)
      exact ih k _ _ (List.getElem?_eq_getElem hk) link
        (below' k _ _ (List.getElem?_eq_getElem hk') link)

/-- A term whose numbers are none of them a NaN is the same as itself. -/
theorem Unfolds.same_self (h : t.Unfolds g i) (numeric : g.Numeric) : g.same g = true := by
  induction h with
  | literal => exact Literal.same_self numeric
  | @data i j index aux symbol args ls leads hc length below ih =>
    rw [Ground.same, beq_self_eq_true, Bool.true_and]
    refine Ground.sameAll_refl args fun x hx => ?_
    obtain ⟨k, hk, rfl⟩ := List.mem_iff_getElem.mp hx
    have there := List.getElem?_eq_getElem hk
    exact ih k _ _ there (List.getElem?_eq_getElem (length ▸ hk)) (numeric.get there)

end TermGraph

/-! ## Graphs with links that skip indirections -/

/-- The same content, except that links of a constructor may be those that the old ones lead to. -/
inductive Content.Skips (g : Graph) (c : Content) : Content → Prop where
  | same : Skips g c c
  | relinked (data : c.IsData) (ls : List NodeId) (cargo : c.cargo = .links c.links)
    (length : ls.length = c.links.length)
    (links : ∀ (k : Nat) (p q : NodeId), c.links[k]? = some p → ls[k]? = some q → g.Leads p q) :
    Skips g c { c with cargo := .links ls }

namespace Content

variable {g : Graph} {c c' : Content} {s : Signature} {k : Nat} {p q : NodeId}

theorem cargo_of_link (h : c.links[k]? = some p) : c.cargo = .links c.links := by
  obtain ⟨tag, symbol, aux, cargo⟩ := c
  cases cargo with
  | links ls => rfl
  | literal v => cases h

namespace Skips

theorem head (h : c.Skips g c') : c'.tag = c.tag ∧ c'.symbol = c.symbol ∧
    c'.links.length = c.links.length := by
  cases h with
  | same => exact ⟨rfl, rfl, rfl⟩
  | relinked _ _ _ length => exact ⟨rfl, rfl, length⟩

theorem eq (h : c.Skips g c') (other : ¬ c.IsData) : c' = c := by
  cases h with
  | same => rfl
  | relinked data => exact absurd data other

theorem link (h : c.Skips g c') (hp : c.links[k]? = some p) (hq : c'.links[k]? = some q) :
    g.Leads p q := by
  cases h with
  | same =>
    cases hp.symm.trans hq
    exact .refl p
  | relinked _ _ _ _ links => exact links k p q hp hq

/-- A constructor with links keeps its number of links. -/
theorem links {tag : Tag} {symbol aux : Nat} {ls : List NodeId}
    (h : Skips g ⟨tag, symbol, aux, .links ls⟩ c') :
    ∃ ls', c' = ⟨tag, symbol, aux, .links ls'⟩ ∧ ls'.length = ls.length := by
  cases h with
  | same => exact ⟨ls, rfl, rfl⟩
  | relinked _ ls' _ length => exact ⟨ls', rfl, length⟩

theorem literal {tag : Tag} {symbol aux : Nat} {v : Literal}
    (h : Skips g ⟨tag, symbol, aux, .literal v⟩ c') : c' = ⟨tag, symbol, aux, .literal v⟩ := by
  cases h with
  | same => rfl
  | relinked _ _ cargo => cases cargo

theorem fits (h : c.Skips g c') (fits : c.Fits s) : c'.Fits s := by
  cases h with
  | same => exact fits
  | relinked data ls cargo length =>
    obtain ⟨⟨index, tag⟩, le⟩ := data
    cases fits with
    | constructor id sym type index aux ls' le' hs hc length' =>
      exact .constructor id sym type index aux ls le' hs hc (length.trans length')
    | int => cases cargo
    | float => cases cargo
    | char => cases cargo
    | _ => cases tag

theorem setLink (h : c.Skips g c') (data : c.IsData) (hp : c.links[k]? = some p)
    (leads : g.Leads p q) : c.Skips g (c'.setLink k q) := by
  have length : (c'.links.set k q).length = c.links.length :=
    List.length_set.trans h.head.2.2
  have links : ∀ (n : Nat) (a b : NodeId), c.links[n]? = some a →
      (c'.links.set k q)[n]? = some b → g.Leads a b := by
    intro n a b ha hb
    by_cases hn : k = n
    · subst hn
      cases hp.symm.trans ha
      have lt : k < c'.links.length := h.head.2.2 ▸ (List.getElem?_eq_some_iff.mp ha).1
      rw [List.getElem?_set_self lt] at hb
      cases hb
      exact leads
    · rw [List.getElem?_set_ne hn] at hb
      exact h.link ha hb
  have relinked := Skips.relinked data _ (cargo_of_link hp) length links
  cases h with
  | same => exact relinked
  | relinked => exact relinked

end Skips

end Content

namespace Machine

variable {m₀ m m' : Machine} {ρ : Rank} {i j a b : NodeId} {c d : Content} {s t : Ground} {k : Nat}

/-- The node was not in use, or was a call. -/
def Spare (m₀ : Machine) (i : NodeId) : Prop :=
  ∀ c, m₀.Live [] i → m₀.graph.content? i = some c → c.IsCall

/-- What was live and is no call is still there, with links that skip indirections at most. -/
structure Retains (m₀ m : Machine) : Prop where
  signature : m.signature = m₀.signature
  sound : m.graph.Sound
  capacity : m.graph.capacity = m₀.graph.capacity
  unfree : ∀ i, m₀.Live [] i → i ∉ m.graph.free
  kept : ∀ i c, m₀.Live [] i → m₀.graph.content? i = some c → ¬ c.IsCall →
    ∃ c', m.graph.content? i = some c' ∧ c.Skips m₀.graph c'

namespace Retains

theorem refl (h : m₀.Inv [] ρ) : m₀.Retains m₀ :=
  ⟨rfl, h.storage, rfl, h.unfree, fun _ c _ hc _ => ⟨c, hc, .same⟩⟩

theorem spare_of_free (h : m₀.Retains m) (hi : i ∈ m.graph.free) : m₀.Spare i :=
  fun _ live _ => absurd hi (h.unfree i live)

/-- Calls, and slots that were not in use, may be written. -/
theorem touches {S : NodeId → Prop} (h : m₀.Retains m)
    (touches : m.toTermGraph.Touches S m'.toTermGraph) (spare : ∀ i, S i → m₀.Spare i) :
    m₀.Retains m' where
  signature := touches.signature.trans h.signature
  sound := touches.sound
  capacity := touches.capacity.trans h.capacity
  unfree i hi := touches.unfree i (h.unfree i hi)
  kept i c hi hc call := by
    obtain ⟨c', hc', skips⟩ := h.kept i c hi hc call
    exact ⟨c', (touches.others i (fun hs => call (spare i hs c hi hc)) (h.unfree i hi)).trans hc', skips⟩

/-- A link of a constructor may be redirected to where indirections lead. -/
theorem relink {g' : Graph} {c' : Content} (h : m₀.Retains m) (live : m₀.Live [] i)
    (hc : m₀.graph.content? i = some c) (data : c.IsData) (hc' : m.graph.content? i = some c')
    (sets : m.graph.Sets i (c'.setLink k j) g') (hp : c.links[k]? = some a)
    (leads : m₀.graph.Leads a j) : m₀.Retains (m.setGraph g') where
  signature := h.signature
  sound := sets.sound
  capacity := sets.capacity.trans h.capacity
  unfree p hp := sets.free.symm ▸ h.unfree p hp
  kept p d hp' hd call := by
    obtain ⟨d', hd', skips⟩ := h.kept p d hp' hd call
    by_cases same : p = i
    · subst same
      cases hc.symm.trans hd
      cases hc'.symm.trans hd'
      exact ⟨_, sets.same, skips.setLink data hp leads⟩
    · exact ⟨d', (sets.others p same).trans hd', skips⟩

theorem leads (h : m₀.Retains m) (live : m₀.Live [] i) (leads : m₀.graph.Leads i j) :
    m.graph.Leads i j := by
  induction leads with
  | refl => exact .refl _
  | step hc _ ih =>
    obtain ⟨c', hc', skips⟩ := h.kept _ _ live hc (fun call => by cases call.1)
    obtain rfl := skips.eq fun data => data.not_forward rfl
    exact .step hc' (ih (live.link hc List.mem_cons_self))

theorem unfolds (h : m₀.Retains m) (live : m₀.Live [] i) (unfolds : m₀.toTermGraph.Unfolds s i) :
    m.toTermGraph.Unfolds s i := by
  induction unfolds with
  | literal leads hc =>
    obtain ⟨c', hc', skips⟩ := h.kept _ _ (live.leads leads) hc fun call => by cases call.1
    obtain rfl := skips.literal
    exact .literal (h.leads live leads) hc'
  | @data i j index aux symbol args ls leads hc length below ih =>
    have there := live.leads leads
    obtain ⟨c', hc', skips⟩ := h.kept _ _ there hc fun call => by cases call.1
    obtain ⟨ls', rfl, length'⟩ := skips.links
    refine .data (h.leads live leads) hc' (length.trans length'.symm) fun k g q hg hq => ?_
    have hk : k < ls.length := length' ▸ (List.getElem?_eq_some_iff.mp hq).1
    have hp := List.getElem?_eq_getElem hk
    have child : m₀.Live [] ls[k] := there.link hc (List.getElem_mem hk)
    exact (ih k g _ hg hp child).of_leads (h.leads child (skips.link hp hq))

/-- What was live and is no call reads as before. -/
theorem read (h₀ : m₀.Inv [] ρ) (h : m₀.Retains m) (live : m₀.Live [] i)
    (hc : m₀.graph.content? i = some c) (call : ¬ c.IsCall) :
    ∃ c' sym, m.graph.content? i = some c' ∧ c.Skips m₀.graph c' ∧
      m.signature.symbol? c'.symbol = some sym ∧ c'.links.length = sym.arity := by
  obtain ⟨c', hc', skips⟩ := h.kept i c live hc call
  obtain ⟨sym, found, -, length⟩ := (skips.fits (h₀.fitsAt live hc)).symbol h₀.signature
  exact ⟨c', sym, hc', skips, h.signature.symm ▸ found, length⟩

private theorem skipWithin (h₀ : m₀.Inv [] ρ) (h : m₀.Retains m)
    (hc : m₀.graph.content? j = some c) (tag : c.tag ≠ .forward) (call : ¬ c.IsCall) :
    ∀ (bound : Nat) (i : NodeId), m₀.Live [] i → m₀.graph.Leads i j →
      m₀.graph.depth ρ i < bound → m.graph.skipWithin bound i = .ok j := by
  intro bound
  induction bound with
  | zero => exact fun _ _ _ lt => absurd lt (Nat.not_lt_zero _)
  | succ bound ih =>
    intro i live leads lt
    unfold Graph.skipWithin
    cases leads with
    | refl =>
      obtain ⟨c', hc', skips⟩ := h.kept j c live hc call
      obtain ⟨s, node, -⟩ := Graph.node_of_content hc'
      simp only [node, bind, Except.bind]
      rw [forward_none (skips.head.1 ▸ tag)]
      rfl
    | @step _ next _ symbol aux hd rest =>
      obtain ⟨d', hd', skips⟩ := h.kept i _ live hd fun call => by cases call.1
      obtain rfl := skips.eq fun data => data.not_forward rfl
      obtain ⟨s, node, cargo⟩ := Graph.node_of_content hd'
      have below := live.link hd List.mem_cons_self
      have deeper := Graph.depth_lt (h₀.lt below) (h₀.ranked i next _ live hd List.mem_cons_self)
      simp only [node, bind, Except.bind, forward_some cargo]
      exact ih next below rest (Nat.lt_of_lt_of_le deeper (Nat.le_of_lt_succ lt))

theorem skip (h₀ : m₀.Inv [] ρ) (h : m₀.Retains m) (live : m₀.Live [] i)
    (leads : m₀.graph.Leads i j) (hc : m₀.graph.content? j = some c) (tag : c.tag ≠ .forward)
    (call : ¬ c.IsCall) : m.skip i = .ok j := by
  refine h.skipWithin h₀ hc tag call _ i live leads (Nat.lt_succ_of_le ?_)
  rw [h.capacity]
  exact Graph.depth_le

end Retains

/-! ## Comparing ground terms -/

/-- A literal is held by the node itself. -/
theorem slots_of_literal {g : Graph} {slots : Slots} {v : Literal}
    (h : g.cargo? slots = some (.literal v)) : slots = .data v := by
  have held := TermGraph.literal_cargo h
  cases slots with
  | data w =>
    cases held
    rfl
  | _ => cases held

/-- Comparing arguments from left to right compares all of them. -/
theorem allEqual_sameAll {sub : Link → Link → Except Fault Bool} : ∀ (xs ys : List Ground)
    (ls ls' : List NodeId), xs.length = ls.length → ys.length = ls'.length →
    xs.length = ys.length → (∀ (k : Nat) (x y : Ground) (l l' : NodeId), xs[k]? = some x →
      ys[k]? = some y → ls[k]? = some l → ls'[k]? = some l' →
      sub (some l) (some l') = .ok (x.same y)) →
    TermGraph.allEqual sub (ls.map some) (ls'.map some) = .ok (Ground.sameAll xs ys)
  | [], [], [], [], _, _, _, _ => rfl
  | x :: xs, y :: ys, l :: ls, l' :: ls', hx, hy, hxy, h => by
    have head := h 0 x y l l' rfl rfl rfl rfl
    have tail := allEqual_sameAll xs ys ls ls' (Nat.succ.inj hx) (Nat.succ.inj hy)
      (Nat.succ.inj hxy) fun k => h (k + 1)
    simp only [List.map_cons, TermGraph.allEqual, head, bind, Except.bind, Ground.sameAll]
    cases x.same y with
    | true => exact tail
    | false => rfl

/-- The content at the root of a ground term, given what lies below its links. -/
inductive Depicts (P : Ground → NodeId → Prop) : Ground → Content → Prop where
  | literal {index aux : Nat} {symbol : SymbolId} {v : Literal} :
    Depicts P (.literal v) ⟨.constructor index, symbol, aux, .literal v⟩
  | data {index aux : Nat} {symbol : SymbolId} {args : List Ground} {ls : List NodeId}
    (length : args.length = ls.length)
    (below : ∀ (k : Nat) (g : Ground) (l : NodeId), args[k]? = some g → ls[k]? = some l → P g l) :
    Depicts P (.data symbol args) ⟨.constructor index, symbol, aux, .links ls⟩

/-- Two roots of ground terms are told apart by their symbols, or are of one kind. -/
inductive Compared (P Q : Ground → NodeId → Prop) : Ground → Content → Ground → Content → Prop where
  | apart {s t : Ground} {c d : Content} (symbol : c.symbol ≠ d.symbol) (other : s.same t = false) :
    Compared P Q s c t d
  | literals {index symbol aux aux' : Nat} {v w : Literal} :
    Compared P Q (.literal v) ⟨.constructor index, symbol, aux, .literal v⟩
      (.literal w) ⟨.constructor index, symbol, aux', .literal w⟩
  | data {index symbol aux aux' : Nat} {xs ys : List Ground} {ls ls' : List NodeId}
    (hx : xs.length = ls.length) (hy : ys.length = ls'.length) (length : xs.length = ys.length)
    (left : ∀ (k : Nat) (g : Ground) (l : NodeId), xs[k]? = some g → ls[k]? = some l → P g l)
    (right : ∀ (k : Nat) (g : Ground) (l : NodeId), ys[k]? = some g → ls'[k]? = some l → Q g l) :
    Compared P Q (.data symbol xs) ⟨.constructor index, symbol, aux, .links ls⟩
      (.data symbol ys) ⟨.constructor index, symbol, aux', .links ls'⟩

theorem Depicts.compare {P Q : Ground → NodeId → Prop} {σ : Signature} (hσ : σ.Sound)
    (hs : Depicts P s c) (ht : Depicts Q t d) (fits : c.Fits σ) (fits' : d.Fits σ) :
    Compared P Q s c t d := by
  obtain ⟨sym, found, tag, length⟩ := fits.symbol hσ
  obtain ⟨sym', found', tag', length'⟩ := fits'.symbol hσ
  by_cases symbol : c.symbol = d.symbol
  · rw [symbol] at found tag
    cases found.symm.trans found'
    have same := Except.ok.inj (tag.symm.trans tag')
    cases hs with
    | literal =>
      cases ht with
      | literal =>
        cases symbol
        cases same
        exact .literals
      | data =>
        cases symbol
        cases fits with
        | int => cases fits' with | constructor _ _ _ _ _ _ le => exact absurd le (by decide)
        | float => cases fits' with | constructor _ _ _ _ _ _ le => exact absurd le (by decide)
        | char => cases fits' with | constructor _ _ _ _ _ _ le => exact absurd le (by decide)
    | data hx left =>
      cases ht with
      | literal =>
        cases symbol
        cases fits' with
        | int => cases fits with | constructor _ _ _ _ _ _ le => exact absurd le (by decide)
        | float => cases fits with | constructor _ _ _ _ _ _ le => exact absurd le (by decide)
        | char => cases fits with | constructor _ _ _ _ _ _ le => exact absurd le (by decide)
      | data hy right =>
        cases symbol
        cases same
        exact .data hx hy (hx.trans ((length.trans length'.symm).trans hy.symm)) left right
  · refine .apart symbol ?_
    cases hs with
    | literal =>
      cases ht with
      | data => rfl
      | literal => cases fits <;> cases fits' <;> first | rfl | exact absurd rfl symbol
    | data =>
      cases ht with
      | literal => rfl
      | data =>
        rw [Ground.same, beq_false_of_ne symbol]
        rfl

/-- Where a node that unfolds to a ground term leads, and what is there. -/
structure Shows (m₀ : Machine) (ρ : Rank) (m : Machine) (g : Ground) (i j : NodeId) (c : Content) :
    Prop where
  live : m₀.Live [] j
  leads : m₀.graph.Leads i j
  root : ∃ c₀, m₀.graph.content? j = some c₀ ∧ ∃ index, c₀.tag = .constructor index
  skip : m.skip i = .ok j
  hc : m.graph.content? j = some c
  fits : c.Fits m.signature
  depicts : Depicts (fun g l => m₀.Live [] l ∧ ρ l < ρ j ∧ m₀.toTermGraph.Unfolds g l) g c

theorem Retains.shows (h₀ : m₀.Inv [] ρ) (h : m₀.Retains m) (live : m₀.Live [] i)
    (unfolds : m₀.toTermGraph.Unfolds s i) : ∃ j c, Shows m₀ ρ m s i j c := by
  have fits : ∀ {j c c'}, m₀.Live [] j → m₀.graph.content? j = some c → c.Skips m₀.graph c' →
      c'.Fits m.signature := fun live hc skips =>
    h.signature.symm ▸ skips.fits (h₀.fitsAt live hc)
  have unforwarded : ∀ {index symbol aux cargo},
      ¬ Content.IsCall ⟨.constructor index, symbol, aux, cargo⟩ := fun call => by cases call.1
  cases unfolds with
  | literal leads hc =>
    have there := live.leads leads
    obtain ⟨c', hc', skips⟩ := h.kept _ _ there hc unforwarded
    have fits' := fits there hc skips
    obtain rfl := skips.literal
    exact ⟨_, _, there, leads, ⟨_, hc, _, rfl⟩, h.skip h₀ live leads hc nofun unforwarded, hc', fits',
      .literal⟩
  | @data i j index aux symbol args ls leads hc length below =>
    have there := live.leads leads
    obtain ⟨c', hc', skips⟩ := h.kept _ _ there hc unforwarded
    have fits' := fits there hc skips
    obtain ⟨ls', rfl, length'⟩ := skips.links
    refine ⟨_, _, there, leads, ⟨_, hc, _, rfl⟩, h.skip h₀ live leads hc nofun unforwarded, hc', fits',
      .data (length.trans length'.symm) fun k g q hg hq => ?_⟩
    have hk : k < ls.length := length' ▸ (List.getElem?_eq_some_iff.mp hq).1
    have hp := List.getElem?_eq_getElem hk
    have mem : ls[k] ∈ ls := List.getElem_mem hk
    have child : m₀.Live [] ls[k] := there.link hc mem
    have further := skips.link hp hq
    exact ⟨child.leads further, (h₀.rank_leads child further).trans_lt (h₀.ranked _ _ _ there hc mem),
      (below k g _ hg hp).of_leads further⟩

/-- A node leads to one root only, whatever becomes of the graph. -/
theorem Shows.unique {j' : NodeId} (h : Shows m₀ ρ m s i j c) (h' : Shows m₀ ρ m' t i j' d) :
    j = j' := by
  obtain ⟨c₀, hc, index, tag⟩ := h.root
  obtain ⟨d₀, hd, index', tag'⟩ := h'.root
  exact leads_unique h.leads h'.leads hc (by rw [tag]; nofun) hd (by rw [tag']; nofun)

theorem Depicts.tag {P : Ground → NodeId → Prop} (h : Depicts P s c) :
    ∃ index, c.tag = .constructor index := by
  cases h with
  | literal => exact ⟨_, rfl⟩
  | data => exact ⟨_, rfl⟩

theorem Retains.read_symbol (h₀ : m₀.Inv [] ρ) (h : m₀.Retains m) (live : m₀.Live [] i)
    (unfolds : m₀.toTermGraph.Unfolds s i) : ∃ sym, m.symbol i = .ok sym := by
  have read : ∀ c, m₀.graph.content? i = some c → c.tag ≠ .operation → ∃ sym, m.symbol i = .ok sym := by
    intro c hc tag
    obtain ⟨c', hc', skips⟩ := h.kept i c live hc fun call => tag call.1
    obtain ⟨sym, found, -⟩ := (skips.fits (h₀.fitsAt live hc)).symbol h₀.signature
    exact ⟨sym, TermGraph.symbol_content hc' (h.signature.symm ▸ found)⟩
  have start : ∀ {j index symbol aux cargo}, m₀.graph.Leads i j →
      m₀.graph.content? j = some ⟨.constructor index, symbol, aux, cargo⟩ →
      ∃ sym, m.symbol i = .ok sym := by
    intro j index symbol aux cargo leads hc
    cases leads with
    | refl => exact read _ hc nofun
    | step hd _ => exact read _ hd nofun
  cases unfolds with
  | literal leads hc => exact start leads hc
  | data leads hc => exact start leads hc

private theorem equalsWithin_same (h₀ : m₀.Inv [] ρ) (h : m₀.Retains m) :
    ∀ (bound : Nat) (i j : NodeId) (s t : Ground), m₀.Live [] i → m₀.Live [] j →
      m₀.toTermGraph.Unfolds s i → m₀.toTermGraph.Unfolds t j → s.Numeric →
      m₀.graph.depth ρ i < bound →
      m.toTermGraph.equalsWithin bound (some i) (some j) = .ok (s.same t) := by
  intro bound
  induction bound with
  | zero => exact fun _ _ _ _ _ _ _ _ _ lt => absurd lt (Nat.not_lt_zero _)
  | succ bound ih =>
    intro i j s t hi hj hs ht numeric lt
    obtain ⟨sym, symbol⟩ := h.read_symbol h₀ hi hs
    obtain ⟨p, c, sp⟩ := h.shows h₀ hi hs
    obtain ⟨q, d, sq⟩ := h.shows h₀ hj ht
    have rank := h₀.rank_leads hi sp.leads
    unfold TermGraph.equalsWithin
    simp only [Link.target, symbol, sp.skip, sq.skip, bind, Except.bind]
    unfold TermGraph.equalsNodes
    by_cases shared : p = q
    · subst shared
      obtain rfl := (hs.of_leads sp.leads).unique (ht.of_leads sq.leads)
      rw [if_pos rfl, hs.same_self numeric]
      rfl
    · rw [if_neg shared]
      obtain ⟨slots, node, cargo⟩ := TermGraph.node_content (t := m.toTermGraph) sp.hc
      obtain ⟨slots', node', cargo'⟩ := TermGraph.node_content (t := m.toTermGraph) sq.hc
      simp only [node, node', bind, Except.bind]
      have signature : m.signature.Sound := h.signature.symm ▸ h₀.signature
      obtain ⟨sym, found, -, length⟩ := sp.fits.symbol signature
      obtain ⟨sym', found', -, length'⟩ := sq.fits.symbol signature
      have xs := TermGraph.successors_content (t := m.toTermGraph) sp.hc found length
      have ys := TermGraph.successors_content (t := m.toTermGraph) sq.hc found' length'
      have compared := sp.depicts.compare signature sq.depicts sp.fits sq.fits
      cases compared with
      | apart symbol other =>
        rw [if_pos (.inr symbol), other]
        rfl
      | literals =>
        obtain rfl := slots_of_literal cargo
        obtain rfl := slots_of_literal cargo'
        simp only [ne_eq, not_true_eq_false, or_self, if_false, TermGraph.comparesAux]
        rfl
      | @data index symbol aux aux' args args' ls ls' hx hy alike left right =>
        have below : ∀ (k : Nat) (x y : Ground) (l l' : NodeId), args[k]? = some x →
            args'[k]? = some y → ls[k]? = some l → ls'[k]? = some l' →
            m.toTermGraph.equalsWithin bound (some l) (some l') = .ok (x.same y) := by
          intro k x y l l' hx hy hl hl'
          obtain ⟨live, lower, unfolds⟩ := left k x l hx hl
          obtain ⟨live', -, unfolds'⟩ := right k y l' hy hl'
          have deeper := Graph.depth_lt (h₀.lt live) (lower.trans_le rank)
          exact ih l l' x y live live' unfolds unfolds' (Ground.NumericAll.get numeric hx)
            (Nat.lt_of_lt_of_le deeper (Nat.le_of_lt_succ lt))
        have all := allEqual_sameAll args args' ls ls' hx hy alike below
        have same : Ground.same (.data symbol args) (.data symbol args') =
            Ground.sameAll args args' := by
          rw [Ground.same, beq_self_eq_true, Bool.true_and]
        have linked : slots.literal? = none := TermGraph.literal_cargo cargo
        simp only [xs, ys, ne_eq, not_true_eq_false, or_self, if_false, TermGraph.comparesAux]
        rw [same]
        cases slots with
        | data v => cases linked
        | _ => exact all

theorem Retains.equals (h₀ : m₀.Inv [] ρ) (h : m₀.Retains m) (hi : m₀.Live [] i)
    (hj : m₀.Live [] j) (hs : m₀.toTermGraph.Unfolds s i) (ht : m₀.toTermGraph.Unfolds t j)
    (numeric : s.Numeric) : m.equals i j = .ok (s.same t) := by
  refine equalsWithin_same h₀ h _ i j s t hi hj hs ht numeric (Nat.lt_succ_of_le ?_)
  rw [h.capacity]
  exact Graph.depth_le

/-! ## What unfolds -/

private theorem exists_args {P : Ground → NodeId → Prop} : ∀ ls : List NodeId, (∀ l ∈ ls, ∃ g, P g l) →
    ∃ args : List Ground, args.length = ls.length ∧
      ∀ (k : Nat) (g : Ground) (l : NodeId), args[k]? = some g → ls[k]? = some l → P g l
  | [], _ => ⟨[], rfl, nofun⟩
  | l :: ls, h => by
    obtain ⟨g, hg⟩ := h l List.mem_cons_self
    obtain ⟨args, length, rest⟩ := exists_args ls fun l hl => h l (List.mem_cons_of_mem _ hl)
    refine ⟨g :: args, congrArg Nat.succ length, fun k g' l' hk hl => ?_⟩
    cases k with
    | zero =>
      cases hk
      cases hl
      exact hg
    | succ k => exact rest k g' l' hk hl

/-- A node below which there are only constructors, literals and indirections unfolds to a ground
term. -/
theorem Inv.unfolds (h : m.Inv [] ρ) : ∀ (bound : Nat) (i : NodeId), m.Live [] i →
    (∀ j c, Relation.ReflTransGen m.graph.Edge i j → m.graph.content? j = some c →
      c.tag = .forward ∨ ∃ index, c.tag = .constructor index) →
    m.graph.depth ρ i < bound → ∃ s, m.toTermGraph.Unfolds s i := by
  intro bound
  induction bound with
  | zero => exact fun _ _ _ lt => absurd lt (Nat.not_lt_zero _)
  | succ bound ih =>
    intro i live ground lt
    obtain ⟨c, hc, fits⟩ := h.fits i live
    have below : ∀ l ∈ c.links, ∃ s, m.toTermGraph.Unfolds s l := by
      intro l hl
      have child := live.link hc hl
      have deeper := Graph.depth_lt (h.lt child) (h.ranked i l c live hc hl)
      exact ih l child (fun j d path => ground j d (.head ((Graph.edge_of_content hc).mpr hl) path))
        (by omega)
    rcases ground i c .refl hc with forward | ⟨index, tag⟩
    · obtain ⟨aux, next, rfl⟩ := fits.of_forward forward
      obtain ⟨s, unfolds⟩ := below next List.mem_cons_self
      exact ⟨s, unfolds.leads (.step hc (.refl next))⟩
    · obtain ⟨args, length, unfold_⟩ := exists_args c.links below
      cases fits with
      | int | float | char => exact ⟨_, .literal (.refl i) hc⟩
      | constructor => exact ⟨_, .data (.refl i) hc length unfold_⟩
      | _ => cases tag

end Machine

end ChoiceGraph
