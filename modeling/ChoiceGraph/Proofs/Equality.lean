import ChoiceGraph.Proofs.Unification

/-! # Equality tests of ground terms

Normalizing a ground term only redirects links of constructors, each to the node that indirections
lead to. An equality test of two ground terms normalizes both, compares what is there then, and
becomes a truth value. -/
namespace ChoiceGraph

namespace Content

variable {σ : Signature} {index symbol aux : Nat} {g : Graph} {c c' : Content}

/-- A literal is told from a constructor by its symbol. -/
theorem Fits.literal_not_data {v : Literal}
    (fits : Fits σ ⟨.constructor index, symbol, aux, .literal v⟩) :
    ¬ IsData ⟨.constructor index, symbol, aux, .literal v⟩ := by
  rintro ⟨-, (le : 10 ≤ symbol)⟩
  cases fits with
  | int => exact absurd le (by decide)
  | float => exact absurd le (by decide)
  | char => exact absurd le (by decide)

theorem Fits.data_of_links {ls : List NodeId}
    (fits : Fits σ ⟨.constructor index, symbol, aux, .links ls⟩) :
    IsData ⟨.constructor index, symbol, aux, .links ls⟩ := by
  cases fits with
  | constructor _ _ _ _ _ _ le => exact ⟨⟨index, rfl⟩, le⟩

theorem Skips.isData (h : c.Skips g c') : c'.IsData ↔ c.IsData := by
  unfold IsData
  rw [h.head.1, h.head.2.1]

/-- What an equality test is rewritten to. -/
def truth (b : Bool) : Content :=
  if b then constant 1 Prelude.standard.true_ else constant 0 Prelude.standard.false_

theorem truth_plain {b : Bool} (type : TypeId) : (truth b).cargo ≠ .literal (.type type) := by
  cases b <;> nofun

end Content

namespace Reduction

open Eff Machine

variable {m₀ m m₁ : Machine} {ρ : Rank} {i j u p x y a b : NodeId} {c d : Content} {sym : Symbol}
  {s t : Ground} {F k : Nat} {r : Reducer}

/-! ## Normalizing ground terms -/

theorem normalize_paid (going : m.slice.isOver = false) :
    normalize (F + 1) i m = normalWork (reducer F) i { m with slice := m.slice.spend } := by
  rw [normalize_eq]
  exact bind_ok (tick_goes going)

/-- An indirection is normalized by what it leads to. -/
theorem normalize_forward (going : m.slice.isOver = false) (hσ : m.signature.Sound) (hc : m.graph.content? i = some c)
    (fits : c.Fits m.signature) (tag : c.tag = .forward) (hj : c.links[0]? = some j) :
    normalize (F + 1) i m = normalize F j { m with slice := m.slice.spend } := by
  obtain ⟨sym, found, -, arity⟩ := fits.symbol hσ
  have symbol := TermGraph.symbol_content (t := m.toTermGraph) hc found
  have read := TermGraph.successor_content (t := m.toTermGraph) hc found arity hj
  rw [normalize_paid going]
  refine (bind_ok (look_ok symbol)).trans ?_
  rw [fits.of_forward_symbol hσ found tag]
  exact (bind_ok (look_ok read)).trans (bind_ok (look_ok (r := fun _ => Link.target (some j)) rfl))

/-- Nothing is done about a literal, a variable, a failure or a choice. -/
theorem normalize_still (going : m.slice.isOver = false) (hσ : m.signature.Sound) (hc : m.graph.content? i = some c)
    (fits : c.Fits m.signature) (forward : c.tag ≠ .forward) (call : ¬ c.IsCall) (data : ¬ c.IsData) :
    normalize (F + 1) i m = .ok () { m with slice := m.slice.spend } := by
  obtain ⟨sym, found, -⟩ := fits.symbol hσ
  have symbol := TermGraph.symbol_content (t := m.toTermGraph) hc found
  rw [normalize_paid going]
  refine (bind_ok (look_ok symbol)).trans ?_
  rw [fits.of_still hσ found forward call data]
  rfl

/-- A constructor is normalized argument by argument. -/
theorem normalize_data (going : m.slice.isOver = false) (hσ : m.signature.Sound) (hc : m.graph.content? i = some c)
    (fits : c.Fits m.signature) (data : c.IsData) : normalize (F + 1) i m =
      normalizeFields (reducer F) i c.links.length 0 { m with slice := m.slice.spend } := by
  obtain ⟨sym, found, -, arity⟩ := fits.symbol hσ
  have symbol := TermGraph.symbol_content (t := m.toTermGraph) hc found
  have read := TermGraph.arity_content (t := m.toTermGraph) hc found
  rw [normalize_paid going]
  refine (bind_ok (look_ok symbol)).trans ?_
  rw [fits.of_isData found data, arity]
  exact bind_ok (look_ok read)

/-- A constructor of the base machine. -/
def Built (m₀ : Machine) (i : NodeId) : Prop :=
  ∃ c, m₀.Live [] i ∧ m₀.graph.content? i = some c ∧ c.IsData

/-- Normalizing redirects links of constructors, at most. -/
def Settled (m₀ m m' : Machine) : Prop := m.Uses (Built m₀) 0 m' ∧ m₀.Retains m'

theorem Settled.refl (retains : m₀.Retains m) (going : m.Unbounded) : Settled m₀ m m :=
  ⟨.refl retains.sound going, retains⟩

theorem Settled.spend (retains : m₀.Retains m) (going : m.Unbounded) :
    Settled m₀ m { m with slice := m.slice.spend } :=
  ⟨⟨.refl retains.sound, Nat.le_refl _, going.spend⟩, retains.spend⟩

theorem Settled.trans {m' : Machine} (h : Settled m₀ m m₁) (h' : Settled m₀ m₁ m') : Settled m₀ m m' :=
  ⟨h.1.trans h'.1 fun _ hi => .inl hi, h'.2⟩

/-- A link of a constructor is redirected to where indirections lead. -/
theorem relink_settles (h₀ : m₀.Inv [] ρ) (retains : m₀.Retains m) (going : m.Unbounded)
    (live : m₀.Live [] i) (hc : m₀.graph.content? i = some c) (data : c.IsData)
    (hp : c.links[k]? = some p) (leads : m₀.graph.Leads p x) (q : NodeId) :
    ∃ m', Settled m₀ m m' ∧ ∀ e : Eff Unit, (do
      if x ≠ q then setSuccessor i k (some x)
      e) m = e m' := by
  by_cases same : x = q
  · refine ⟨m, .refl retains going, fun e => ?_⟩
    rw [if_neg fun other => other same]
  · obtain ⟨c', sym, hc', skips, -⟩ := retains.read h₀ live hc data.not_call
    have hσ : m.signature.Sound := retains.signature.symm ▸ h₀.signature
    have fits : c'.Fits m.signature := retains.signature.symm ▸ skips.fits (h₀.fitsAt live hc)
    have lt : k < c'.links.length := skips.head.2.2 ▸ (List.getElem?_eq_some_iff.mp hp).1
    obtain ⟨g', run, sets⟩ := (setSuccessor_writes retains.sound hσ hc' fits lt x).sets
      (faults_setSuccessor i k (some x))
    refine ⟨m.setGraph g', ⟨uses_of_sets going ⟨c, live, hc, data⟩ sets nofun,
      retains.relink live hc data hc' sets hp leads⟩, fun e => ?_⟩
    rw [if_pos same]
    exact bind_ok run

/-- The arguments of a constructor are normalized from left to right, and each is linked to. -/
theorem normalizeFields_ground (h₀ : m₀.Inv [] ρ) (live : m₀.Live [] i)
    (hc : m₀.graph.content? i = some c) (data : c.IsData) {args : List Ground}
    (length : args.length = c.links.length)
    (below : ∀ (k : Nat) (g : Ground) (l : NodeId), args[k]? = some g → c.links[k]? = some l →
      m₀.toTermGraph.Unfolds g l)
    (normal : ∀ (g : Ground) (l : NodeId), m₀.Live [] l → ρ l < ρ i → m₀.toTermGraph.Unfolds g l →
      ∀ m, m₀.Retains m → m.Unbounded → (normalize F l).Returns m fun _ => Settled m₀ m) :
    ∀ (count k : Nat) (m : Machine), k + count = c.links.length → m₀.Retains m → m.Unbounded →
      (normalizeFields (reducer F) i count k).Returns m fun _ => Settled m₀ m := by
  intro count
  induction count with
  | zero => exact fun k m _ retains going => ⟨(), m, rfl, .refl retains going⟩
  | succ count ih =>
    intro k m total retains going
    have hk : k < c.links.length := by omega
    have hp := List.getElem?_eq_getElem hk
    have hg := List.getElem?_eq_getElem (length ▸ hk : k < args.length)
    have mem : c.links[k] ∈ c.links := List.getElem_mem hk
    have child := live.link hc mem
    obtain ⟨c', sym, hc', skips, found, arity⟩ := retains.read h₀ live hc data.not_call
    obtain ⟨q, hq⟩ : ∃ q, c'.links[k]? = some q :=
      ⟨_, List.getElem?_eq_getElem (skips.head.2.2 ▸ hk : k < c'.links.length)⟩
    have further := skips.link hp hq
    have unfolds := (below k _ _ hg hp).of_leads further
    have lower := (h₀.rank_leads child further).trans_lt (h₀.ranked _ _ _ live hc mem)
    have there := child.leads further
    -- the argument is normalized, the link follows it, and the rest is normalized after that
    obtain ⟨_, m₁, ran, first⟩ := normal _ q there lower unfolds m retains going
    obtain ⟨x, d, sx⟩ := first.2.shows h₀ there unfolds
    obtain ⟨m₂, second, moved⟩ := relink_settles h₀ first.2 first.1.unbounded live hc data hp
      (further.trans sx.leads) q
    obtain ⟨x', d', sx'⟩ := second.2.shows h₀ there unfolds
    obtain rfl := sx.unique sx'
    obtain ⟨_, m₃, rest, third⟩ := ih (k + 1) m₂ (by omega) second.2 second.1.unbounded
    refine ⟨(), m₃, ?_, (first.trans second).trans third⟩
    obtain ⟨index, tag⟩ := sx'.depicts.tag
    have read : m.successor i k = .ok (some q) := TermGraph.successor_content hc' found arity hq
    have value : m₂.tag x = .ok (.constructor index) :=
      (TermGraph.tag_content sx'.hc).trans (congrArg Except.ok tag)
    calc normalizeFields (reducer F) i (count + 1) k m
        = takeField (reducer F) i count k q m₁ :=
          (bind_ok (look_ok read)).trans
            ((bind_ok (look_ok (r := fun _ => Link.target (some q)) rfl)).trans (bind_ok ran))
      _ = passField (reducer F) i count k x m₂ := (bind_ok (look_ok sx.skip)).trans (moved _)
      _ = _ := (bind_ok (look_ok (r := fun m => m.tag x) value)).trans rest

/-- A node that unfolds to a ground term is normalized. -/
theorem normalize_ground (h₀ : m₀.Inv [] ρ) : ∀ (fuel : Nat) (i : NodeId) (s : Ground),
    m₀.Live [] i → m₀.toTermGraph.Unfolds s i → m₀.graph.depth ρ i < fuel → ∀ m, m₀.Retains m →
      m.Unbounded → (normalize fuel i).Returns m fun _ => Settled m₀ m := by
  intro fuel
  induction fuel with
  | zero => exact fun _ _ _ _ lt => absurd lt (Nat.not_lt_zero _)
  | succ F ih =>
    intro i s live unfolds lt m retains going
    have hσ : m.signature.Sound := retains.signature.symm ▸ h₀.signature
    have fits : ∀ {c c'}, m₀.graph.content? i = some c → c.Skips m₀.graph c' →
        c'.Fits m.signature := fun hc skips =>
      retains.signature.symm ▸ skips.fits (h₀.fitsAt live hc)
    have onward : ∀ {symbol aux j k}, m₀.graph.content? i = some ⟨.forward, symbol, aux, .links [j]⟩ →
        m₀.graph.Leads j k → (normalize (F + 1) i).Returns m fun _ => Settled m₀ m := by
      intro symbol aux j k hc leads
      obtain ⟨c', hc', skips⟩ := retains.kept i _ live hc fun call => by cases call.1
      obtain rfl := skips.eq fun data => data.not_forward rfl
      have child := live.link hc List.mem_cons_self
      have deeper := Graph.depth_lt (h₀.lt child) (h₀.ranked i j _ live hc List.mem_cons_self)
      obtain ⟨_, m₁, ran, settled⟩ := ih j s child (unfolds.of_leads (.step hc (.refl j)))
        (by omega) _ retains.spend going.spend
      exact ⟨(), m₁, (normalize_forward going.goes hσ hc' (fits hc skips) rfl rfl).trans ran,
        (Settled.spend retains going).trans settled⟩
    cases unfolds with
    | literal leads hc =>
      cases leads with
      | step hd rest => exact onward hd rest
      | refl =>
        obtain ⟨c', hc', skips⟩ := retains.kept i _ live hc fun call => by cases call.1
        have fits' := fits hc skips
        obtain rfl := skips.literal
        exact ⟨(), _, normalize_still going.goes hσ hc' fits' nofun (fun call => by cases call.1)
          fits'.literal_not_data, .spend retains going⟩
    | data leads hc length below =>
      cases leads with
      | step hd rest => exact onward hd rest
      | refl =>
        obtain ⟨c', hc', skips⟩ := retains.kept i _ live hc fun call => by cases call.1
        have data := (h₀.fitsAt live hc).data_of_links
        have data' := skips.isData.mpr data
        obtain ⟨_, m₁, ran, settled⟩ := normalizeFields_ground h₀ live hc data length below
          (fun g l hl lower unfolds m retains going => ih l g hl unfolds (by
            have deeper := Graph.depth_lt (h₀.lt hl) lower
            omega) m retains going) _ 0 _ (Nat.zero_add _) retains.spend going.spend
        refine ⟨(), m₁, (normalize_data going.goes hσ hc' (fits hc skips) data').trans ?_,
          (Settled.spend retains going).trans settled⟩
        rw [skips.head.2.2]
        exact ran

/-! ## Equality tests -/

theorem Built.not_spare (built : Built m₀ i) (spare : m₀.Spare i) : False := by
  obtain ⟨c, live, hc, data⟩ := built
  exact data.not_call (spare c live hc)

theorem truth_sets (h : m.graph.Sound) (hσ : m.signature.Sound) (lt : u < m.graph.capacity)
    (b : Bool) : ∃ g', rewriteTo u (if b then Prelude.standard.true_ else Prelude.standard.false_) [] m =
      .ok () (m.setGraph g') ∧ m.graph.Sets u (.truth b) g' := by
  cases b with
  | true =>
    have tag : m.signature.tagFor Prelude.standard.true_ = .ok (.constructor 1) :=
      hσ.constant (by decide) rfl
    exact rewriteTo_sets [] h lt tag (Nat.zero_le 2)
  | false =>
    have tag : m.signature.tagFor Prelude.standard.false_ = .ok (.constructor 0) :=
      hσ.constant (by decide) rfl
    exact rewriteTo_sets [] h lt tag (Nat.zero_le 2)

/-- What is reached when an argument has been normalized. -/
structure Argued (m₀ : Machine) (u : NodeId) (c : Content) (k : Nat) (s : Ground) (x : NodeId)
    (m' : Machine) : Prop where
  retains : m₀.Retains m'
  unbounded : m'.Unbounded
  unfree : u ∉ m'.graph.free
  content : m'.graph.content? u = some (c.setLink k x)
  live : m₀.Live [] x
  unfolds : m₀.toTermGraph.Unfolds s x

/-- An argument that unfolds to a ground term is normalized, and its root takes its place. -/
theorem normalArg_ground (h₀ : m₀.Inv [] ρ) (retains : m₀.Retains m) (going : m.Unbounded)
    (unfree : u ∉ m.graph.free) (spare : m₀.Spare u) (hc : m.graph.content? u = some c)
    (fits : c.Fits m.signature) (reads : m.successor u k = .ok (some p)) (hk : c.links[k]? = some p)
    (live : m₀.Live [] p) (unfolds : m₀.toTermGraph.Unfolds s p)
    (deep : m₀.graph.capacity < F) :
    ∃ x m', normalArg (reducer F) u k m = .ok (.value x) m' ∧ Argued m₀ u c k s x m' := by
  have hσ : m.signature.Sound := retains.signature.symm ▸ h₀.signature
  obtain ⟨x, d, sx⟩ := retains.shows h₀ live unfolds
  obtain ⟨F, rfl⟩ : ∃ f, F = f + 1 := ⟨F - 1, by omega⟩
  have apart : x ≠ u := by
    rintro rfl
    obtain ⟨c₀, hc₀, index, tag⟩ := sx.root
    have call := spare c₀ sx.live hc₀
    cases tag.symm.trans call.1
  obtain ⟨index, tag⟩ := sx.depicts.tag
  obtain ⟨g, sets, forced⟩ := headArg_value (r := reducer (F + 1)) reads
    (headNormalize_idle sx.skip sx.hc (by rw [tag]; nofun)) retains.sound hσ hc fits hk apart sx.hc tag
  have first := uses_of_sets (S := Only u) going (only_self u) sets nofun
  have retains₁ := retains.uses first fun i hi => hi.symm ▸ spare
  have unfree₁ := first.touches.unfree u unfree
  have there := unfolds.of_leads sx.leads
  obtain ⟨_, m₂, ran, settled⟩ := normalize_ground h₀ (F + 1) x s sx.live there
    (Nat.lt_of_le_of_lt Graph.depth_le deep) _ retains₁ first.unbounded
  obtain ⟨x', d', sx'⟩ := settled.2.shows h₀ sx.live there
  obtain rfl : x = x' := by
    obtain ⟨c₀, hc₀, index, tag⟩ := sx.root
    obtain ⟨d₀, hd₀, index', tag'⟩ := sx'.root
    exact leads_unique (.refl x) sx'.leads hc₀ (by rw [tag]; nofun) hd₀ (by rw [tag']; nofun)
  obtain ⟨index', tag'⟩ := sx'.depicts.tag
  have value : m₂.tag x = .ok (.constructor index') :=
    (TermGraph.tag_content sx'.hc).trans (congrArg Except.ok tag')
  have kept : m₂.graph.content? u = some (c.setLink k x) :=
    (settled.1.touches.others u (fun built => built.not_spare spare) unfree₁).trans sets.same
  refine ⟨x, m₂, ?_, settled.2, settled.1.unbounded, settled.1.touches.unfree u unfree₁, kept, sx.live,
    there⟩
  calc normalArg (reducer (F + 1)) u k m
      = _ := bind_ok forced
    _ = _ := bind_ok ran
    _ = _ := bind_ok (look_ok sx'.skip)
    _ = _ := bind_ok (look_ok (r := fun m => m.tag x) value)

/-- A call of an equality test with ground arguments becomes a truth value. -/
theorem equals_returns (h₀ : m₀.Inv [] ρ) (retains : m₀.Retains m) (going : m.Unbounded)
    (unfree : u ∉ m.graph.free) (spare : m₀.Spare u) {aux : Nat}
    (hc : m.graph.content? u = some (.binary Prelude.standard.equals aux a b))
    (hs : m₀.Live [] a ∧ m₀.toTermGraph.Unfolds s a) (ht : m₀.Live [] b ∧ m₀.toTermGraph.Unfolds t b)
    (numeric : s.Numeric) (deep : m₀.graph.capacity < F) :
    (runHead (reducer F) u .equals).Returns m fun _ m' =>
      m₀.Retains m' ∧ m'.Unbounded ∧ m'.graph.content? u = some (.truth (s.same t)) := by
  have hσ : m.signature.Sound := retains.signature.symm ▸ h₀.signature
  obtain ⟨x, m₁, first, left⟩ := normalArg_ground h₀ retains going unfree spare hc
    (Prelude.equals_binary.fits hσ aux a b) (Prelude.equals_binary.successor hσ hc).1 rfl hs.1 hs.2 deep
  have hσ₁ : m₁.signature.Sound := left.retains.signature.symm ▸ h₀.signature
  have hc₁ : m₁.graph.content? u = some (.binary Prelude.standard.equals aux x b) := left.content
  obtain ⟨y, m₂, second, right⟩ := normalArg_ground h₀ left.retains left.unbounded left.unfree spare hc₁
    (Prelude.equals_binary.fits hσ₁ aux x b) (Prelude.equals_binary.successor hσ₁ hc₁).2 rfl ht.1 ht.2
    deep
  have same := right.retains.equals h₀ left.live right.live left.unfolds right.unfolds numeric
  have hσ₂ : m₂.signature.Sound := right.retains.signature.symm ▸ h₀.signature
  obtain ⟨g, rewritten, sets⟩ := truth_sets right.retains.sound hσ₂ (Graph.content_lt right.content)
    (s.same t)
  have last := uses_of_sets (S := Only u) right.unbounded (only_self u) sets Content.truth_plain
  refine ⟨(), m₂.setGraph g, ?_, right.retains.uses last fun i hi => hi.symm ▸ spare, last.unbounded,
    sets.same⟩
  calc runHead (reducer F) u .equals m
      = _ := (bind_ok first).trans (bind_ok second)
    _ = _ := bind_ok (look_ok same)
    _ = _ := rewritten

/-- The functions of the prelude that decide equality. -/
inductive EqualityTest where
  | unify
  | equals

namespace EqualityTest

def symbol : EqualityTest → SymbolId
  | unify => Prelude.standard.unify
  | equals => Prelude.standard.equals

/-- What a test becomes: a success or a failure, or a truth value. -/
def outcome : EqualityTest → Bool → Content
  | unify => .verdict
  | equals => .truth

theorem isCall (test : EqualityTest) (aux a b : Nat) : (Content.binary test.symbol aux a b).IsCall := by
  cases test
  · exact ⟨rfl, by rintro (h | h | h | h | h) <;> cases h⟩
  · exact ⟨rfl, by rintro (h | h | h | h | h) <;> cases h⟩

/-- It is a failure, or a constant. -/
theorem outcome_kind {σ : Signature} (hσ : σ.Sound) (test : EqualityTest) (v : Bool) :
    test.outcome v = .blank ∨ ∃ index id, test.outcome v = .constant index id ∧ 10 ≤ id ∧
      (Content.constant index id).Fits σ := by
  have constant : ∀ {id sym type index}, 10 ≤ id → id < Signature.preludeEnd →
      Signature.standard.symbol? id = some sym → sym.IsConstructor type index → sym.arity = 0 →
      (Content.constant index id).Fits σ := fun le lt listed hc arity =>
    .constructor _ _ _ _ 0 [] le ((hσ.prelude _ lt).trans listed) hc arity.symm
  have kind : ∀ {sym : Symbol} {type index}, sym.kind = .constructor type index → index < 2 ^ 31 →
      sym.normal = .constructor → sym.head = .none → sym.IsConstructor type index :=
    fun kind bound normal head => ⟨kind, bound, normal, head⟩
  cases test <;> cases v
  · exact .inl rfl
  · exact .inr ⟨_, _, rfl, by decide,
      constant (by decide) (by decide) rfl (kind rfl (by decide) rfl rfl) rfl⟩
  · exact .inr ⟨_, _, rfl, by decide,
      constant (by decide) (by decide) rfl (kind rfl (by decide) rfl rfl) rfl⟩
  · exact .inr ⟨_, _, rfl, by decide,
      constant (by decide) (by decide) rfl (kind rfl (by decide) rfl rfl) rfl⟩

end EqualityTest

/-- A test has come to its outcome. -/
structure Tested (m₀ : Machine) (u : NodeId) (d : Content) (e : NodeId) (m' : Machine) : Prop where
  retains : m₀.Retains m'
  unbounded : m'.Unbounded
  leads : m'.graph.Leads u e
  content : m'.graph.content? e = some d

/-- A test of two ground terms is driven to its outcome. -/
theorem headNormalize_test (h₀ : m₀.Inv [] ρ) (test : EqualityTest) (s t : Ground)
    (numeric : s.Numeric) : ∃ bound, ∀ fuel ≥ bound, ∀ (m : Machine) (u aux a b : Nat),
      m₀.Retains m → m.Unbounded → u ∉ m.graph.free → m₀.Spare u →
      m.graph.content? u = some (.binary test.symbol aux a b) →
      (m₀.Live [] a ∧ m₀.toTermGraph.Unfolds s a) → (m₀.Live [] b ∧ m₀.toTermGraph.Unfolds t b) →
      2 * s.edges ≤ m.graph.free.length →
      (headNormalize fuel u).Returns m (Tested m₀ u (test.outcome (s.same t))) := by
  cases test with
  | unify =>
    obtain ⟨bound, decides⟩ := decides h₀ s t
    refine ⟨bound, fun fuel le m u aux a b retains going unfree spare hc hs ht room => ?_⟩
    refine (decides fuel le m u aux a b retains going unfree spare hc hs ht room).mono fun e m' h => ?_
    exact ⟨retains.uses h.uses fun i hi => hi.symm ▸ spare, h.uses.unbounded, h.leads, h.content⟩
  | equals =>
    refine ⟨m₀.graph.capacity + 3, fun fuel le m u aux a b retains going unfree spare hc hs ht _ => ?_⟩
    obtain ⟨F, rfl⟩ : ∃ F, fuel = F + 2 := ⟨fuel - 2, by omega⟩
    have hσ : m.signature.Sound := retains.signature.symm ▸ h₀.signature
    obtain ⟨sym, found, -, kind, head, -⟩ := Prelude.equals_binary.found hσ
    have start : headNormalize (F + 2) u m = _ :=
      headNormalize_call going.goes (TermGraph.skip_self hc nofun) hc rfl found kind
    rw [head] at start
    obtain ⟨_, m₁, ran, retains₁, going₁, content⟩ := equals_returns (F := F + 1) h₀ retains.spend
      going.spend unfree spare hc hs ht numeric (by omega)
    have idle : ∀ b : Bool, (Content.truth b).tag ≠ .forward ∧ (Content.truth b).tag ≠ .operation := by
      intro b
      cases b <;> exact ⟨nofun, nofun⟩
    have ends : headNormalize (F + 1) u m₁ = .ok u m₁ :=
      headNormalize_idle (TermGraph.skip_self content (idle _).1) content (idle _).2
    exact ⟨u, m₁, start.trans ((bind_ok ran).trans ends), retains₁, going₁, .refl u, content⟩

/-- What a test has become is in normal form. -/
theorem takeHead_outcome (test : EqualityTest) (v : Bool) (hσ : m.signature.Sound) (going : m.Unbounded)
    (hc : m.graph.content? i = some (test.outcome v)) :
    ∃ slice, takeHead (reducer (F + 1)) i m = .ok () { m with slice := slice } := by
  obtain fails | ⟨index, id, same, le, fits⟩ := test.outcome_kind hσ v
  · rw [fails] at hc
    have tag : m.tag i = .ok .failure := TermGraph.tag_content hc
    exact ⟨m.slice, bind_ok (look_ok (r := fun m => m.tag i) tag)⟩
  · rw [same] at hc
    have tag : m.tag i = .ok (.constructor index) := TermGraph.tag_content hc
    have done : normalize (F + 1) i m = .ok () { m with slice := m.slice.spend } :=
      normalize_data going.goes hσ hc fits ⟨⟨index, rfl⟩, le⟩
    exact ⟨m.slice.spend, (bind_ok (look_ok (r := fun m => m.tag i) tag)).trans done⟩

/-- A call is normalized as its head normal form is. -/
theorem normalize_call (going : m.slice.isOver = false) (hσ : m.signature.Sound) (hc : m.graph.content? i = some c)
    (fits : c.Fits m.signature) (call : c.IsCall) : normalize (F + 1) i m =
      (headNormalize F i >>= takeHead (reducer F)) { m with slice := m.slice.spend } := by
  obtain ⟨sym, found, -⟩ := fits.symbol hσ
  have symbol := TermGraph.symbol_content (t := m.toTermGraph) hc found
  rw [normalize_paid going]
  refine (bind_ok (look_ok symbol)).trans ?_
  rw [(fits.of_isCall found call).normal]
  rfl

end Reduction

open Eff Reduction

theorem withRoots_ok {α : Type} {e : Eff α} {m m' : Machine} {links : List Link} {a : α}
    (h : e (m.push links) = .ok a m') : withRoots links e m = .ok a (m'.pop links.length) := by
  have pushed : e { m with roots := links.reverse ++ m.roots } = .ok a m' := h
  unfold withRoots
  rw [pushed]
  rfl

/-- Unification and equality decide the same about ground terms: whether they are equal, literals by
value. Either test leaves the terms what they were. -/
theorem Machine.tests_decide_equality {config : Config} {start m : Machine}
    (new : Machine.new config = .ok start) (run : Operation.Run start m) (going : m.Unbounded)
    {root a b : NodeId} {aux : Nat} {s t : Ground} (reachable : m.Reachable root) (test : EqualityTest)
    (content : m.graph.content? root = some (.binary test.symbol aux a b))
    (left : m.toTermGraph.Unfolds s a) (right : m.toTermGraph.Unfolds t b)
    (numeric : s.Numeric) (room : 2 * s.edges ≤ m.graph.free.length) :
    ∃ bound, ∀ fuel ≥ bound, ∃ m' e, Machine.normalize fuel root m = .ok () m' ∧
      m'.graph.Leads root e ∧ m'.graph.content? e = some (test.outcome (s.same t)) ∧
      m'.toTermGraph.Unfolds s a ∧ m'.toTermGraph.Unfolds t b := by
  obtain ⟨ρ, h⟩ := run.sound new
  have live := live_iff.mpr reachable
  have h₀ := h.pushed live
  have live₀ := live_pushed live
  have call := test.isCall aux a b
  have ha : (m.push [some root]).Live [] a := live₀.link content List.mem_cons_self
  have hb : (m.push [some root]).Live [] b := live₀.link content (List.mem_cons_of_mem _ List.mem_cons_self)
  have spare : (m.push [some root]).Spare root := by
    intro c _ hc
    cases content.symm.trans hc
    exact call
  obtain ⟨bound, tested⟩ := headNormalize_test h₀ test s t numeric
  refine ⟨bound + 2, fun fuel le => ?_⟩
  obtain ⟨F, rfl⟩ : ∃ F, fuel = F + 2 := ⟨fuel - 2, by omega⟩
  have going₀ : (m.push [some root]).Unbounded := ⟨going.remaining, going.preempt⟩
  obtain ⟨e, m₁, headed, h₁⟩ := tested (F + 1) (by omega) _ root aux a b (Retains.refl h₀).spend
    going₀.spend (h₀.unfree root live₀) spare content ⟨ha, left⟩ ⟨hb, right⟩ room
  have hσ₁ : m₁.signature.Sound := h₁.retains.signature.symm ▸ h₀.signature
  obtain ⟨slice, taken⟩ := takeHead_outcome (F := F) test _ hσ₁ h₁.unbounded h₁.content
  have normalized : Reduction.normalize (F + 2) root (m.push [some root]) =
      .ok () { m₁ with slice := slice } := by
    rw [normalize_call going₀.goes h₀.signature content (h₀.fitsAt live₀ content) call]
    exact (bind_ok headed).trans taken
  refine ⟨{ m₁ with slice := slice, roots := m₁.roots.drop 1 }, e, ?_, h₁.leads, h₁.content,
    h₁.retains.unfolds ha left, h₁.retains.unfolds hb right⟩
  exact withRoots_ok normalized

/-- `(1, (2, 1))` twice, once with a shared number and an indirection to it, once with an indirection
to the inner pair, unified; and the first of them compared to its own inner pair. -/
def nestedPairs : List Operation :=
  let p := Prelude.standard
  [.int 1, .int 2, .forward 0, .make p.pair [1, 0], .make p.pair [2, 3], .int 1, .int 2,
    .make p.pair [6, 5], .forward 7, .make p.pair [5, 8], .make p.unify [4, 9], .make p.equals [4, 3]]

theorem Machine.tests_decide_equality_nestedPairs : ∃ start m s t,
    Machine.new (.fixedPool 24) = .ok start ∧ Operation.Run start m ∧
    (∃ fuel m' e, Machine.normalize fuel 10 m = .ok () m' ∧ m'.graph.Leads 10 e ∧
      m'.graph.content? e = some (.verdict true) ∧ m'.toTermGraph.Unfolds s 4 ∧
      m'.toTermGraph.Unfolds s 9) ∧
    ∃ fuel m' e, Machine.normalize fuel 11 m = .ok () m' ∧ m'.graph.Leads 11 e ∧
      m'.graph.content? e = some (.truth false) ∧ m'.toTermGraph.Unfolds s 4 ∧
      m'.toTermGraph.Unfolds t 3 := by
  let p := Prelude.standard
  let start : Machine := .ofConfig (.fixedPool 24)
  let pair (a b : NodeId) : Content := ⟨.constructor 0, p.pair, 0, .links [a, b]⟩
  let number (v : Int64) : Content := ⟨.constructor 0, Builtin.int, 0, .literal (.int v)⟩
  let forward (a : NodeId) : Content := ⟨.forward, Builtin.forward, 0, .links [a]⟩
  let contents : List Content := [number 1, number 2, forward 0, pair 1 0, pair 2 3, number 1, number 2,
    pair 6 5, forward 7, pair 5 8, .binary p.unify 0 4 9, .binary p.equals 0 4 3]
  have result : (Operation.script start nestedPairs).map (fun m => ((List.range 12).map m.graph.content?,
      m.slice.remaining, m.slice.preempt, m.roots.contains (some 10), m.roots.contains (some 11),
      m.graph.free.length)) =
      some (contents.map some, none, false, true, true, 12) := by decide +kernel
  obtain ⟨m, ran, facts⟩ := Option.map_eq_some_iff.mp result
  simp only [Prod.mk.injEq] at facts
  obtain ⟨stored, remaining, preempt, rooted, rooted', free⟩ := facts
  have reads : ∀ (i : Nat) (c : Content), i < 12 → contents[i]? = some c →
      m.graph.content? i = some c := by
    intro i c lt hc
    have read := congrArg (fun l => l[i]?) stored
    rw [List.getElem?_map, List.getElem?_map, List.getElem?_range lt, hc] at read
    exact Option.some.inj read
  have literal : ∀ (i : Nat) (v : Int64), i < 12 → contents[i]? = some (number v) →
      m.toTermGraph.Unfolds (.literal (.int v)) i := fun i v lt hc =>
    .literal (.refl i) (reads i _ lt hc)
  have data : ∀ (i a b : Nat) (x y : Ground), i < 12 → contents[i]? = some (pair a b) →
      m.toTermGraph.Unfolds x a → m.toTermGraph.Unfolds y b →
      m.toTermGraph.Unfolds (.data p.pair [x, y]) i := by
    intro i a b x y lt hc hx hy
    refine .data (.refl i) (reads i _ lt hc) rfl fun k g l hg hl => ?_
    match k with
    | 0 =>
      cases hg
      cases hl
      exact hx
    | 1 =>
      cases hg
      cases hl
      exact hy
  have skips : ∀ (i j : Nat) (x : Ground), i < 12 → contents[i]? = some (forward j) →
      m.toTermGraph.Unfolds x j → m.toTermGraph.Unfolds x i := fun i j x lt hc hx =>
    hx.leads (.step (reads i _ lt hc) (.refl j))
  let one : Ground := .literal (.int 1)
  let inner : Ground := .data p.pair [.literal (.int 2), one]
  let outer : Ground := .data p.pair [one, inner]
  have below : m.toTermGraph.Unfolds inner 3 :=
    data 3 1 0 _ _ (by decide) rfl (literal 1 2 (by decide) rfl) (literal 0 1 (by decide) rfl)
  have left : m.toTermGraph.Unfolds outer 4 :=
    data 4 2 3 _ _ (by decide) rfl (skips 2 0 _ (by decide) rfl (literal 0 1 (by decide) rfl)) below
  have right : m.toTermGraph.Unfolds outer 9 :=
    data 9 5 8 _ _ (by decide) rfl (literal 5 1 (by decide) rfl) <| skips 8 7 _ (by decide) rfl <|
      data 7 6 5 _ _ (by decide) rfl (literal 6 2 (by decide) rfl) (literal 5 1 (by decide) rfl)
  have numeric : outer.Numeric := ⟨nofun, ⟨nofun, nofun, trivial⟩, trivial⟩
  have new : Machine.new (.fixedPool 24) = .ok start := rfl
  have run : Operation.Run start m := Operation.Run.start.script ran
  have room : 2 * outer.edges ≤ m.graph.free.length := by rw [free]; decide
  obtain ⟨bound, unified⟩ := tests_decide_equality new run ⟨remaining, preempt⟩
    (Operation.reachable_of_contains rooted) .unify (reads 10 _ (by decide) rfl) left right numeric room
  obtain ⟨bound', compared⟩ := tests_decide_equality new run
    ⟨remaining, preempt⟩ (Operation.reachable_of_contains rooted') .equals (reads 11 _ (by decide) rfl)
    left below numeric room
  exact ⟨start, m, outer, inner, new, run, ⟨bound, unified bound le_rfl⟩, bound',
    compared bound' le_rfl⟩

end ChoiceGraph
