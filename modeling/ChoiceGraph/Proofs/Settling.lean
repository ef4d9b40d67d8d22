import ChoiceGraph.Proofs.Footprint
import ChoiceGraph.Proofs.Reading

/-! # Settling graphs

A reduction that pulls no tab and narrows nothing only settles a graph: calls are rewritten, and a
constructor may skip an indirection on the way to an argument. All other nodes in use stay what they
are. So what a reduction has brought into head normal form or into normal form stays in it, however
the graph settles further. -/
namespace ChoiceGraph

namespace Content

/-- A call, which a head step may rewrite. -/
def IsCall (c : Content) : Prop := c.tag = .operation ∧ ¬ c.Inert

/-- A constructor of a data type, which may have arguments. -/
def IsData (c : Content) : Prop := (∃ index, c.tag = .constructor index) ∧ 10 ≤ c.symbol

/-- The same content, except that a constructor may have other links in place of those that do not
lead to an idle node at once. -/
inductive Kept (idle : NodeId → Prop) (c : Content) : Content → Prop where
  | same : Kept idle c c
  | relinked (data : c.IsData) (ls : List NodeId) (length : ls.length = c.links.length)
    (links : ∀ (k : Nat) (p : NodeId), c.links[k]? = some p → idle p → ls[k]? = some p) :
    Kept idle c { c with cargo := .links ls }

/-- The data type of a variable. -/
def variableType? (c : Content) : Option TypeId :=
  match c.cargo with
  | .literal (.type type) => some type
  | _ => none

variable {c c' c'' : Content} {idle idle' : NodeId → Prop} {s : Signature} {sym : Symbol}

theorem IsData.not_forward (h : c.IsData) : c.tag ≠ .forward := by
  obtain ⟨⟨index, tag⟩, -⟩ := h
  rw [tag]
  nofun

theorem IsData.not_call (h : c.IsData) : ¬ c.IsCall := by
  obtain ⟨⟨index, tag⟩, -⟩ := h
  intro call
  rw [IsCall, tag] at call
  cases call.1

theorem IsData.plain (h : c.IsData) : ¬ c.Inert := by
  obtain ⟨⟨index, tag⟩, le⟩ := h
  rintro (h | h | h | h | h)
  · cases tag.symm.trans h
  · cases tag.symm.trans h
  · cases tag.symm.trans h
  · exact absurd (h ▸ le) (by decide)
  · exact absurd (h ▸ le) (by decide)

theorem IsCall.not_forward (h : c.IsCall) : c.tag ≠ .forward := by
  rw [h.1]
  nofun

theorem Kept.head (h : c.Kept idle c') :
    c'.tag = c.tag ∧ c'.symbol = c.symbol ∧ c'.aux = c.aux ∧ c'.links.length = c.links.length := by
  cases h with
  | same => exact ⟨rfl, rfl, rfl, rfl⟩
  | relinked _ _ length => exact ⟨rfl, rfl, rfl, length⟩

theorem Kept.isCall (h : c.Kept idle c') : c'.IsCall ↔ c.IsCall := by
  cases h with
  | same => exact .rfl
  | relinked => exact .rfl

theorem Kept.isData (h : c.Kept idle c') : c'.IsData ↔ c.IsData := by
  cases h with
  | same => exact .rfl
  | relinked => exact .rfl

theorem Kept.eq (h : c.Kept idle c') (other : ¬ c.IsData) : c' = c := by
  cases h with
  | same => rfl
  | relinked data => exact absurd data other

theorem Kept.link {k : Nat} {p : NodeId} (h : c.Kept idle c') (hk : c.links[k]? = some p)
    (hp : idle p) : c'.links[k]? = some p := by
  cases h with
  | same => exact hk
  | relinked _ _ _ links => exact links k p hk hp

theorem Kept.trans (h : c.Kept idle c') (h' : c'.Kept idle' c'') (sub : ∀ p, idle p → idle' p) :
    c.Kept idle c'' := by
  cases h with
  | same =>
    cases h' with
    | same => exact .same
    | relinked data ls length links =>
      exact .relinked data ls length fun k p hk hp => links k p hk (sub p hp)
  | relinked data ls length links =>
    cases h' with
    | same => exact .relinked data ls length links
    | relinked _ ls' length' links' =>
      exact .relinked data ls' (length'.trans length) fun k p hk hp =>
        links' k p (links k p hk hp) (sub p hp)

/-! ## What symbols say about contents -/

theorem Fits.of_isCall (fits : c.Fits s) (found : s.symbol? c.symbol = some sym) (call : c.IsCall) :
    sym.IsCall := by
  cases fits with
  | call id sym' aux ls le hs hc =>
    cases hs.symm.trans found
    exact hc
  | partialApplication => exact absurd (.inr (.inr (.inr (.inl rfl)))) call.2
  | function => exact absurd (.inr (.inr (.inr (.inr rfl)))) call.2
  | _ => cases call.1

theorem Fits.of_isData (fits : c.Fits s) (found : s.symbol? c.symbol = some sym) (data : c.IsData) :
    sym.normal = .constructor := by
  obtain ⟨⟨index, tag⟩, le⟩ := data
  have literal : ∀ id : SymbolId, id < 10 → c.symbol ≠ id := by
    rintro _ lt rfl
    exact Nat.not_le_of_lt lt le
  cases fits with
  | constructor id sym' type index aux ls le hs hc =>
    cases hs.symm.trans found
    exact hc.normal
  | int => exact absurd rfl (literal Builtin.int (by decide))
  | float => exact absurd rfl (literal Builtin.float (by decide))
  | char => exact absurd rfl (literal Builtin.char (by decide))
  | _ => cases tag

theorem Fits.of_still (fits : c.Fits s) (hs : s.Sound) (found : s.symbol? c.symbol = some sym)
    (forward : c.tag ≠ .forward) (call : ¬ c.IsCall) (data : ¬ c.IsData) : sym.normal = .none := by
  have builtin : ∀ {n : SymbolId} {sym' : Symbol}, s.symbol? n = some sym →
      Signature.standard.symbol? n = some sym' → n < 10 → sym'.normal = .none →
      sym.normal = .none := by
    intro n sym' found standard lt normal
    rw [hs.prelude n (Nat.lt_trans lt (by decide))] at found
    cases found.symm.trans standard
    exact normal
  cases fits with
  | failure => exact builtin (n := Builtin.fail) found rfl (by decide) rfl
  | forward => exact absurd rfl forward
  | choice => exact builtin (n := Builtin.choice) found rfl (by decide) rfl
  | narrowed => exact builtin (n := Builtin.narrowed) found rfl (by decide) rfl
  | untyped => exact builtin (n := Builtin.free) found rfl (by decide) rfl
  | typed => exact builtin (n := Builtin.free) found rfl (by decide) rfl
  | int => exact builtin (n := Builtin.int) found rfl (by decide) rfl
  | float => exact builtin (n := Builtin.float) found rfl (by decide) rfl
  | char => exact builtin (n := Builtin.char) found rfl (by decide) rfl
  | partialApplication => exact builtin (n := Builtin.partialApplication) found rfl (by decide) rfl
  | function => exact builtin (n := Builtin.function) found rfl (by decide) rfl
  | constructor id sym' type index aux ls le => exact absurd ⟨⟨index, rfl⟩, le⟩ data
  | call id sym' aux ls le hs' hc =>
    refine absurd ⟨rfl, ?_⟩ call
    rintro (h | h | h | h | h)
    · cases h
    · cases h
    · cases h
    · obtain rfl : id = Builtin.partialApplication := h
      exact absurd le (by decide)
    · obtain rfl : id = Builtin.function := h
      exact absurd le (by decide)

theorem Fits.of_forward_symbol (fits : c.Fits s) (hs : s.Sound)
    (found : s.symbol? c.symbol = some sym) (tag : c.tag = .forward) : sym.normal = .forward := by
  obtain ⟨aux, next, rfl⟩ := fits.of_forward tag
  have standard : Signature.standard.symbol? Builtin.forward = some sym :=
    (hs.prelude Builtin.forward (by decide)).symm.trans found
  cases standard
  rfl

/-- A partial application, although its tag is that of a call, is of a kind of its own. -/
theorem inert_kind (hs : s.Sound) (found : s.symbol? c.symbol = some sym)
    (tag : c.tag = .operation) (inert : c.Inert) : sym.kind = .partialApplication := by
  have builtin : ∀ {n : SymbolId} {sym' : Symbol}, s.symbol? n = some sym →
      Signature.standard.symbol? n = some sym' → n < 10 → sym'.kind = .partialApplication →
      sym.kind = .partialApplication := by
    intro n sym' found standard lt kind
    rw [hs.prelude n (Nat.lt_trans lt (by decide))] at found
    cases found.symm.trans standard
    exact kind
  rcases inert with h | h | h | h | h
  · cases tag.symm.trans h
  · cases tag.symm.trans h
  · cases tag.symm.trans h
  · rw [h] at found
    exact builtin found rfl (by decide) rfl
  · rw [h] at found
    exact builtin found rfl (by decide) rfl

end Content

namespace TermGraph

variable {t t' t'' : TermGraph} {i j l root p x : NodeId} {c : Content} {k : Nat}

/-- A node in head normal form. -/
def Idle (t : TermGraph) (i : NodeId) : Prop :=
  i ∉ t.graph.free ∧ ∃ c, t.graph.content? i = some c ∧ c.tag ≠ .forward ∧ ¬ c.IsCall

/-- A node that is neither a failure nor a choice. -/
def Determinate (t : TermGraph) (i : NodeId) : Prop :=
  ∃ c, t.graph.content? i = some c ∧ c.tag ≠ .failure ∧ c.tag ≠ .choice

/-- A node in normal form, with no failure and no choice in it. -/
inductive Normal (t : TermGraph) : NodeId → Prop where
  | still {i : NodeId} {c : Content} (unfree : i ∉ t.graph.free) (hc : t.graph.content? i = some c)
    (tag : c.tag ≠ .forward ∧ c.tag ≠ .failure ∧ c.tag ≠ .choice) (call : ¬ c.IsCall)
    (data : ¬ c.IsData) : Normal t i
  | data {i : NodeId} {c : Content} (unfree : i ∉ t.graph.free) (hc : t.graph.content? i = some c)
    (data : c.IsData) (links : ∀ j ∈ c.links, Normal t j) : Normal t i

/-- Indirections in use lead from one node to another. -/
inductive Through (t : TermGraph) : NodeId → NodeId → Prop where
  | refl (i : NodeId) : Through t i i
  | step {i j k : NodeId} {symbol aux : Nat} (unfree : i ∉ t.graph.free)
    (h : t.graph.content? i = some ⟨.forward, symbol, aux, .links [j]⟩) (hj : Through t j k) :
    Through t i k

/-- What a determinate reduction may do to a graph. -/
structure Settles (t t' : TermGraph) : Prop where
  signature : t'.signature = t.signature
  unfree : ∀ i, i ∉ t.graph.free → i ∉ t'.graph.free
  kept : ∀ i c, i ∉ t.graph.free → t.graph.content? i = some c → ¬ c.IsCall →
    ∃ c', t'.graph.content? i = some c' ∧ c.Kept t.Idle c'
  typed : ∀ i c type, t'.graph.content? i = some c → c.cargo = .literal (.type type) →
    t.graph.content? i = some c

/-- Every free variable of a data type has a choice, or none at all: no type of a variable has
exactly one constructor. -/
def Branching (t : TermGraph) : Prop :=
  ∀ i c type d, t.graph.content? i = some c → c.cargo = .literal (.type type) →
    t.signature.types[type]? = some d → d.constructors.length ≠ 1

/-- The types of the variables of a graph. -/
def variableTypes (t : TermGraph) : List TypeId :=
  (List.range t.graph.capacity).filterMap fun i => (t.graph.content? i).bind Content.variableType?

theorem mem_variableTypes (hc : t.graph.content? i = some c)
    (cargo : c.cargo = .literal (.type type)) : type ∈ t.variableTypes := by
  refine List.mem_filterMap.mpr ⟨i, List.mem_range.mpr (Graph.content_lt hc), ?_⟩
  rw [hc, Option.bind_some, Content.variableType?, cargo]

/-- Variables without a type have no constructors to choose from. -/
theorem branching_of_untyped (h : t.variableTypes = []) : t.Branching := by
  intro i c type d hc cargo
  have typed := mem_variableTypes hc cargo
  rw [h] at typed
  cases typed

/-! ## Head normal forms stay -/

theorem Settles.idle (h : t.Settles t') (hi : t.Idle i) : t'.Idle i := by
  obtain ⟨unfree, c, hc, tag, call⟩ := hi
  obtain ⟨c', hc', kept⟩ := h.kept i c unfree hc call
  exact ⟨h.unfree i unfree, c', hc', kept.head.1.symm ▸ tag, kept.isCall.not.mpr call⟩

theorem Settles.refl (t : TermGraph) : t.Settles t :=
  ⟨rfl, fun _ hi => hi, fun _ c _ hc _ => ⟨c, hc, .same⟩, fun _ _ _ hc _ => hc⟩

theorem Settles.trans (h : t.Settles t') (h' : t'.Settles t'') : t.Settles t'' where
  signature := h'.signature.trans h.signature
  unfree i hi := h'.unfree i (h.unfree i hi)
  kept i c unfree hc call := by
    obtain ⟨c', hc', kept⟩ := h.kept i c unfree hc call
    obtain ⟨c'', hc'', kept'⟩ := h'.kept i c' (h.unfree i unfree) hc' (kept.isCall.not.mpr call)
    exact ⟨c'', hc'', kept.trans kept' fun p hp => h.idle hp⟩
  typed i c type hc literal := h.typed i c type (h'.typed i c type hc literal) literal

/-- A head normal form keeps its tag. -/
theorem Settles.tag (h : t.Settles t') (hi : t.Idle i) (hc : t.graph.content? i = some c) :
    ∃ c', t'.graph.content? i = some c' ∧ c'.tag = c.tag := by
  obtain ⟨unfree, d, hd, -, call⟩ := hi
  cases hc.symm.trans hd
  obtain ⟨c', hc', kept⟩ := h.kept i c unfree hc call
  exact ⟨c', hc', kept.head.1⟩

theorem Settles.determinate (h : t.Settles t') (hi : t.Idle i) :
    t'.Determinate i ↔ t.Determinate i := by
  obtain ⟨c, hc, -⟩ := hi.2
  obtain ⟨c', hc', tag⟩ := h.tag hi hc
  constructor
  · rintro ⟨d, hd, ht⟩
    cases hc'.symm.trans hd
    exact ⟨c, hc, tag ▸ ht⟩
  · rintro ⟨d, hd, ht⟩
    cases hc.symm.trans hd
    exact ⟨c', hc', tag.symm ▸ ht⟩

theorem Settles.branching (h : t.Settles t') (branching : t.Branching) : t'.Branching := by
  intro i c type d hc literal hd
  rw [h.signature] at hd
  exact branching i c type d (h.typed i c type hc literal) literal hd

theorem Settles.through (h : t.Settles t') (hi : t.Through i j) : t'.Through i j := by
  induction hi with
  | refl i => exact .refl i
  | step unfree hc _ ih =>
    obtain ⟨c', hc', kept⟩ := h.kept _ _ unfree hc (by rintro ⟨tag, -⟩; cases tag)
    have same := kept.eq (by rintro ⟨⟨_, tag⟩, -⟩; cases tag)
    exact .step (h.unfree _ unfree) (same ▸ hc') ih

theorem Normal.idle (h : t.Normal i) : t.Idle i := by
  cases h with
  | still unfree hc tag call _ => exact ⟨unfree, _, hc, tag.1, call⟩
  | data unfree hc data _ => exact ⟨unfree, _, hc, data.not_forward, data.not_call⟩

theorem Normal.determinate (h : t.Normal i) : t.Determinate i := by
  cases h with
  | still unfree hc tag _ _ => exact ⟨_, hc, tag.2⟩
  | data unfree hc data _ =>
    obtain ⟨⟨index, tag⟩, -⟩ := data
    exact ⟨_, hc, by rw [tag]; exact ⟨nofun, nofun⟩⟩

theorem Settles.normal (h : t.Settles t') (hi : t.Normal i) : t'.Normal i := by
  induction hi with
  | still unfree hc tag call data =>
    obtain ⟨c', hc', kept⟩ := h.kept _ _ unfree hc call
    have same := kept.eq data
    exact .still (h.unfree _ unfree) (same ▸ hc') tag call data
  | @data i c unfree hc data links ih =>
    obtain ⟨c', hc', kept⟩ := h.kept _ _ unfree hc data.not_call
    refine .data (h.unfree _ unfree) hc' (kept.isData.mpr data) fun j hj => ?_
    -- every link leads to a node in normal form at once, so that none of them has changed
    obtain ⟨k, lt, here⟩ := List.mem_iff_getElem.mp hj
    have before : k < c.links.length := kept.head.2.2.2 ▸ lt
    have old := List.getElem?_eq_getElem before
    have normal : c.links[k] ∈ c.links := List.getElem_mem before
    have new := kept.link old (links _ normal).idle
    rw [List.getElem?_eq_getElem lt, here] at new
    rw [Option.some.inj new]
    exact ih _ normal

/-! ## Indirections in use -/

theorem Through.leads (h : t.Through i j) : t.graph.Leads i j := by
  induction h with
  | refl i => exact .refl i
  | step _ hc _ ih => exact .step hc ih

theorem Through.trans (h : t.Through i j) (h' : t.Through j l) : t.Through i l := by
  induction h with
  | refl => exact h'
  | step unfree hc _ ih => exact .step unfree hc (ih h')

/-- Where indirections end is determined. -/
theorem Through.unique (h : t.Through i j) (h' : t.Through i l) (hj : t.Idle j) (hl : t.Idle l) :
    j = l := by
  obtain ⟨-, c, hc, tag, -⟩ := hj
  obtain ⟨-, d, hd, tag', -⟩ := hl
  exact Machine.leads_unique h.leads h'.leads hc tag hd tag'

/-- No indirection leads on from a node that is none. -/
theorem Through.eq (h : t.Through i j) (hc : t.graph.content? i = some c) (tag : c.tag ≠ .forward) :
    j = i := by
  cases h with
  | refl => rfl
  | step _ hs _ =>
    cases hc.symm.trans hs
    exact absurd rfl tag

/-! ## Changes that settle a graph -/

/-- A call may be rewritten to anything. -/
theorem Touches.settles (h : t.Touches (Only root) t') (hc : t.graph.content? root = some c)
    (call : c.IsCall) : t.Settles t' where
  signature := h.signature
  unfree := h.unfree
  kept i d unfree hd other := by
    have away : i ≠ root := by
      rintro rfl
      cases hc.symm.trans hd
      exact other call
    exact ⟨d, (h.others i away unfree).trans hd, .same⟩
  typed := h.typed

/-- A link of a call, or one of a constructor that leads to an indirection, may be redirected. -/
theorem settles_of_sets {g' : Graph} (sets : t.graph.Sets root (c.setLink k x) g')
    (hc : t.graph.content? root = some c) (hk : c.links[k]? = some p)
    (skips : c.IsCall ∨ c.IsData ∧ ¬ t.Idle p) : t.Settles ⟨t.signature, g'⟩ where
  signature := rfl
  unfree i hi := sets.free.symm ▸ hi
  kept i d unfree hd other := by
    by_cases away : i = root
    · subst away
      cases hc.symm.trans hd
      obtain ⟨data, busy⟩ := skips.resolve_left other
      refine ⟨c.setLink k x, sets.same, .relinked data _ List.length_set fun n q hn idle => ?_⟩
      have ne : k ≠ n := by
        rintro rfl
        cases hk.symm.trans hn
        exact busy idle
      exact (List.getElem?_set_ne ne).trans hn
    · exact ⟨d, (sets.others i away).trans hd, .same⟩
  typed i d type hd literal := by
    by_cases away : i = root
    · subst away
      cases sets.same.symm.trans hd
      cases literal
    · exact (sets.others i away).symm.trans hd

end TermGraph

namespace Machine

variable {m : Machine} {ρ : Rank} {i j : NodeId} {c : Content}

/-- Below a live node all indirections are in use. -/
theorem Inv.through (h : m.Inv [] ρ) (hi : m.Live [] i) (leads : m.graph.Leads i j) :
    m.toTermGraph.Through i j := by
  induction leads with
  | refl => exact .refl _
  | step hc _ ih => exact .step (h.unfree _ hi) hc (ih (hi.link hc List.mem_cons_self))

/-- A live node is an indirection, a call, or in head normal form. -/
theorem Inv.idle (h : m.Inv [] ρ) (hi : m.Live [] i) (hc : m.graph.content? i = some c)
    (tag : c.tag ≠ .forward) (call : ¬ c.IsCall) : m.toTermGraph.Idle i :=
  ⟨h.unfree i hi, c, hc, tag, call⟩

end Machine

end ChoiceGraph
