import ChoiceGraph.Proofs.Conclusions
import ChoiceGraph.Proofs.Mirrors
import ChoiceGraph.Proofs.Unification

/-! # Machines that reflect each other

Two machines whose graphs mirror each other are changed on both sides alike: a pair of nodes is written,
or a pair of new nodes is drafted. Or one side skips an indirection that the other does not have. The
graphs mirror each other afterwards. -/
namespace ChoiceGraph

namespace TermGraph

variable {ν : Numbering} {R R' : NodeId → NodeId → Prop} {S : NodeId → Prop} {t t' t₁ t₁' t₂ : TermGraph}
  {i j a i' j' a' p p' x : NodeId} {c c' d d' : Content} {g g' : Graph} {k : Nat}

/-! ## Changes of mirrored graphs -/

/-- Nodes of `S` are indirections as they were, or carry something else that is none. -/
structure Reshapes (S : NodeId → Prop) (t t' : TermGraph) : Prop where
  signature : t'.signature = t.signature
  kept : ∀ i c, S i → t.graph.content? i = some c → c.Fits t.signature →
    ∃ d, t'.graph.content? i = some d ∧ d.Fits t.signature ∧ (c.tag = .forward → d = c) ∧
      (c.tag ≠ .forward → d.tag ≠ .forward)

theorem Reshapes.refl (S : NodeId → Prop) (t : TermGraph) : t.Reshapes S t :=
  ⟨rfl, fun _ c _ hc fits => ⟨c, hc, fits, fun _ => rfl, id⟩⟩

theorem reshapes_of_kept (signature : t'.signature = t.signature)
    (kept : ∀ i, S i → t'.graph.content? i = t.graph.content? i) : t.Reshapes S t' :=
  ⟨signature, fun i c hi hc fits => ⟨c, (kept i hi).trans hc, fits, fun _ => rfl, id⟩⟩

/-- One node is written. -/
theorem reshapes_of_sets (sets : t.graph.Sets i d g) (hc : t.graph.content? i = some c)
    (plain : c.tag ≠ .forward) (plain' : d.tag ≠ .forward) (fits : d.Fits t.signature) :
    t.Reshapes S ⟨t.signature, g⟩ := by
  refine ⟨rfl, fun j e _ he fits' => ?_⟩
  by_cases here : j = i
  · subst here
    cases hc.symm.trans he
    exact ⟨d, sets.same, fits, fun forward => absurd forward plain, fun _ => plain'⟩
  · exact ⟨e, (sets.others j here).trans he, fits', fun _ => rfl, id⟩

namespace Mirrors

/-- Both graphs are reshaped so that corresponding nodes still carry the same. -/
theorem reshape (h : Mirrors ν R t t') (left : t.Reshapes (fun i => ∃ i', R i i') t₁)
    (right : t'.Reshapes (fun i' => ∃ i, R i i') t₁')
    (twins : ∀ p p' c c' d d', Twins ν R t t' p p' c c' → t₁.graph.content? p = some d →
      t₁'.graph.content? p' = some d' → d.Mirrors ν R d') : Mirrors ν R t₁ t₁' := by
  have before : ∀ i i' d, R i i' → t₁.graph.content? i = some d → ∃ c, t.graph.content? i = some c ∧
      d.Fits t.signature ∧ (c.tag = .forward → d = c) ∧ (c.tag ≠ .forward → d.tag ≠ .forward) := by
    intro i i' d hi hd
    obtain ⟨c, hc, fits⟩ := h.fits i i' hi
    obtain ⟨d', hd', shape⟩ := left.kept i c ⟨i', hi⟩ hc fits
    cases hd.symm.trans hd'
    exact ⟨c, hc, shape⟩
  have before' : ∀ i i' d, R i i' → t₁'.graph.content? i' = some d → ∃ c, t'.graph.content? i' = some c ∧
      d.Fits t'.signature ∧ (c.tag = .forward → d = c) ∧ (c.tag ≠ .forward → d.tag ≠ .forward) := by
    intro i i' d hi hd
    obtain ⟨c, hc, fits⟩ := h.fits' i i' hi
    obtain ⟨d', hd', shape⟩ := right.kept i' c ⟨i, hi⟩ hc (h.signature ▸ fits)
    cases hd.symm.trans hd'
    exact ⟨c, hc, shape⟩
  constructor
  case sound => exact left.signature ▸ h.sound
  case signature => exact right.signature.trans (h.signature.trans left.signature.symm)
  case fits =>
    intro i i' hi
    obtain ⟨c, hc, fits⟩ := h.fits i i' hi
    obtain ⟨d, hd, fits', -⟩ := left.kept i c ⟨i', hi⟩ hc fits
    exact ⟨d, hd, left.signature.symm ▸ fits'⟩
  case fits' =>
    intro i i' hi
    obtain ⟨c, hc, fits⟩ := h.fits' i i' hi
    obtain ⟨d, hd, fits', -⟩ := right.kept i' c ⟨i, hi⟩ hc (h.signature ▸ fits)
    exact ⟨d, hd, left.signature.symm ▸ h.signature ▸ fits'⟩
  case next =>
    intro i i' d j hi hd forward hj
    obtain ⟨c, hc, -, same, other⟩ := before i i' d hi hd
    by_cases tag : c.tag = .forward
    · cases same tag
      exact h.next i i' _ j hi hc forward hj
    · exact absurd forward (other tag)
  case next' =>
    intro i i' d j hi hd forward hj
    obtain ⟨c, hc, -, same, other⟩ := before' i i' d hi hd
    by_cases tag : c.tag = .forward
    · cases same tag
      exact h.next' i i' _ j hi hc forward hj
    · exact absurd forward (other tag)
  case same =>
    intro i i' d d' hi hd hd' plain plain'
    obtain ⟨c, hc, -, same, -⟩ := before i i' d hi hd
    obtain ⟨c', hc', -, same', -⟩ := before' i i' d' hi hd'
    exact twins i i' c c' d d' (h.twins hi hc hc' (fun tag => plain (same tag ▸ tag))
      fun tag => plain' (same' tag ▸ tag)) hd hd'
  case one =>
    intro i j i' d e hi hj hd he plain plain'
    obtain ⟨c, hc, -, same, -⟩ := before i i' d hi hd
    obtain ⟨c', hc', -, same', -⟩ := before j i' e hj he
    exact h.one i j i' c c' hi hj hc hc' (fun tag => plain (same tag ▸ tag))
      fun tag => plain' (same' tag ▸ tag)
  case one' =>
    intro i i' j' d e hi hj hd he plain plain'
    obtain ⟨c, hc, -, same, -⟩ := before' i i' d hi hd
    obtain ⟨c', hc', -, same', -⟩ := before' i j' e hj he
    exact h.one' i i' j' c c' hi hj hc hc' (fun tag => plain (same tag ▸ tag))
      fun tag => plain' (same' tag ▸ tag)

/-- Two corresponding nodes are written alike. -/
theorem rewrite (h : Mirrors ν R t t') (w : Twins ν R t t' i i' c c') (sets : t.graph.Sets i d g)
    (sets' : t'.graph.Sets i' d' g') (plain : d.tag ≠ .forward) (fits : d.Fits t.signature)
    (fits' : d'.Fits t.signature) (mirrors : d.Mirrors ν R d') :
    Mirrors ν R ⟨t.signature, g⟩ ⟨t'.signature, g'⟩ := by
  refine h.reshape (reshapes_of_sets sets w.content w.plain plain fits)
    (reshapes_of_sets sets' w.content' (w.mirrors.tag ▸ w.plain) (mirrors.tag ▸ plain)
      (h.signature ▸ fits')) fun p p' e e' b b' v hb hb' => ?_
  by_cases here : p = i
  · subst here
    have here' : p' = i' := (h.same_iff v w).mp rfl
    subst here'
    cases sets.same.symm.trans hb
    cases sets'.same.symm.trans hb'
    exact mirrors
  · have there : p' ≠ i' := fun same => here ((h.same_iff v w).mpr same)
    cases ((sets.others p here).trans v.content).symm.trans hb
    cases ((sets'.others p' there).trans v.content').symm.trans hb'
    exact v.mirrors

theorem leads_left (h : Mirrors ν R t t') (leads : t.graph.Leads p x) (hp : R p p') : R x p' := by
  induction leads with
  | refl => exact hp
  | step hc _ ih => exact ih (h.next _ _ _ _ hp hc rfl List.mem_cons_self)

/-- A link skips indirections on one side only. -/
theorem relink (h : Mirrors ν R t t') (hi : R i i') (hc : t.graph.content? i = some c)
    (plain : c.tag ≠ .forward) (hk : c.links[k]? = some p) (leads : t.graph.Leads p x)
    (sets : t.graph.Sets i (c.setLink k x) g) : Mirrors ν R ⟨t.signature, g⟩ t' := by
  obtain ⟨e, he, fits⟩ := h.fits i i' hi
  cases hc.symm.trans he
  have lt := (List.getElem?_eq_some_iff.mp hk).1
  have stored : c.cargo = .links c.links := by
    cases fits <;> first | rfl | exact absurd lt (Nat.not_lt_zero k)
  refine h.reshape (reshapes_of_sets sets hc plain plain (fits.setLink lt x)) (.refl _ t')
    fun p₀ p₀' e e' b b' v hb hb' => ?_
  cases v.content'.symm.trans hb'
  by_cases here : p₀ = i
  · subst here
    cases hc.symm.trans v.content
    cases sets.same.symm.trans hb
    refine ⟨v.mirrors.tag, v.mirrors.symbol, v.mirrors.aux, v.mirrors.number, ?_, ?_⟩
    · rw [← v.mirrors.literal, stored]
      rfl
    · rw [Content.setLink_links, List.forall₂_iff_get]
      refine ⟨by rw [List.length_set, v.mirrors.links.length_eq], fun n lt lt' => ?_⟩
      rw [List.length_set] at lt
      have old := v.mirrors.links.get lt lt'
      simp only [List.get_eq_getElem] at old ⊢
      by_cases at_ : k = n
      · subst at_
        rw [List.getElem_set_self]
        obtain ⟨_, same⟩ := List.getElem?_eq_some_iff.mp hk
        rw [same] at old
        exact h.leads_left leads old
      · rwa [List.getElem_set_ne at_]
  · cases ((sets.others p₀ here).trans v.content).symm.trans hb
    exact v.mirrors

/-- A pair of new nodes. -/
theorem insert (h : Mirrors ν R t t') (sets : t.graph.Sets a d g) (sets' : t'.graph.Sets a' d' g')
    (new : ∀ i', ¬ R a i') (new' : ∀ i, ¬ R i a') (plain : d.tag ≠ .forward) (fits : d.Fits t.signature)
    (fits' : d'.Fits t.signature) (mirrors : d.Mirrors ν R d') :
    Mirrors ν (fun i i' => R i i' ∨ i = a ∧ i' = a') ⟨t.signature, g⟩ ⟨t'.signature, g'⟩ := by
  have plain' : d'.tag ≠ .forward := mirrors.tag ▸ plain
  have old : ∀ {i i'}, R i i' → g.content? i = t.graph.content? i := fun hi =>
    sets.others _ fun same => new _ (same ▸ hi)
  have old' : ∀ {i i'}, R i i' → g'.content? i' = t'.graph.content? i' := fun hi =>
    sets'.others _ fun same => new' _ (same ▸ hi)
  constructor
  case sound => exact h.sound
  case signature => exact h.signature
  case fits =>
    rintro i i' (hi | ⟨rfl, rfl⟩)
    · obtain ⟨c, hc, fits⟩ := h.fits i i' hi
      exact ⟨c, (old hi).trans hc, fits⟩
    · exact ⟨d, sets.same, fits⟩
  case fits' =>
    rintro i i' (hi | ⟨rfl, rfl⟩)
    · obtain ⟨c, hc, fits⟩ := h.fits' i i' hi
      exact ⟨c, (old' hi).trans hc, fits⟩
    · exact ⟨d', sets'.same, fits'⟩
  case next =>
    rintro i i' c j (hi | ⟨rfl, rfl⟩) hc forward hj
    · exact .inl (h.next i i' c j hi ((old hi).symm.trans hc) forward hj)
    · cases sets.same.symm.trans hc
      exact absurd forward plain
  case next' =>
    rintro i i' c j (hi | ⟨rfl, rfl⟩) hc forward hj
    · exact .inl (h.next' i i' c j hi ((old' hi).symm.trans hc) forward hj)
    · cases sets'.same.symm.trans hc
      exact absurd forward plain'
  case same =>
    rintro i i' c c' (hi | ⟨rfl, rfl⟩) hc hc' tag tag'
    · exact (h.same i i' c c' hi ((old hi).symm.trans hc) ((old' hi).symm.trans hc') tag tag').mono
        fun _ _ => .inl
    · cases sets.same.symm.trans hc
      cases sets'.same.symm.trans hc'
      exact mirrors.mono fun _ _ => .inl
  case one =>
    rintro i j i' c e (hi | ⟨rfl, rfl⟩) (hj | ⟨rfl, same⟩) hc he tag tag'
    · exact h.one i j i' c e hi hj ((old hi).symm.trans hc) ((old hj).symm.trans he) tag tag'
    · exact absurd (same ▸ hi) (new' i)
    · exact absurd hj (new' j)
    · rfl
  case one' =>
    rintro i i' j' c e (hi | ⟨rfl, rfl⟩) (hj | ⟨same, rfl⟩) hc he tag tag'
    · exact h.one' i i' j' c e hi hj ((old' hi).symm.trans hc) ((old' hj).symm.trans he) tag tag'
    · exact absurd (same ▸ hi) (new i')
    · exact absurd hj (new j')
    · rfl

/-- Two corresponding nodes become indirections to corresponding nodes. What corresponded to one of the
former then corresponds to what corresponded to one of the latter as well. -/
theorem redirect (h : Mirrors ν R t t') (w : Twins ν R t t' i i' c c') (hj : R j j')
    (sets : t.graph.Sets i ⟨.forward, Builtin.forward, 0, .links [j]⟩ g)
    (sets' : t'.graph.Sets i' ⟨.forward, Builtin.forward, 0, .links [j']⟩ g') :
    Mirrors ν (fun a b => R a b ∨ R a i' ∧ R j b ∨ R i b ∧ R a j') ⟨t.signature, g⟩ ⟨t'.signature, g'⟩ := by
  have plain' : c'.tag ≠ .forward := w.mirrors.tag ▸ w.plain
  -- where the indirections lead does not change for other nodes
  have here : ∀ {a d}, g.content? a = some d → d.tag ≠ .forward → a ≠ i ∧ t.graph.content? a = some d := by
    rintro a d hd tag
    have ne : a ≠ i := by
      rintro rfl
      cases sets.same.symm.trans hd
      exact tag rfl
    exact ⟨ne, (sets.others a ne).symm.trans hd⟩
  have here' : ∀ {b d}, g'.content? b = some d → d.tag ≠ .forward →
      b ≠ i' ∧ t'.graph.content? b = some d := by
    rintro b d hd tag
    have ne : b ≠ i' := by
      rintro rfl
      cases sets'.same.symm.trans hd
      exact tag rfl
    exact ⟨ne, (sets'.others b ne).symm.trans hd⟩
  have only : ∀ {a d}, R a i' → t.graph.content? a = some d → d.tag ≠ .forward → a = i := fun ha hd tag =>
    h.one _ _ _ _ _ ha w.related hd w.content tag w.plain
  have only' : ∀ {b d}, R i b → t'.graph.content? b = some d → d.tag ≠ .forward → b = i' :=
    fun hb hd tag => h.one' _ _ _ _ _ hb w.related hd w.content' tag plain'
  have left : ∀ {a b}, R a b ∨ R a i' ∧ R j b ∨ R i b ∧ R a j' → ∃ b, R a b := by
    rintro a b (hab | ⟨ha, -⟩ | ⟨-, ha⟩)
    exacts [⟨_, hab⟩, ⟨_, ha⟩, ⟨_, ha⟩]
  have right : ∀ {a b}, R a b ∨ R a i' ∧ R j b ∨ R i b ∧ R a j' → ∃ a, R a b := by
    rintro a b (hab | ⟨-, hb⟩ | ⟨hb, -⟩)
    exacts [⟨_, hab⟩, ⟨_, hb⟩, ⟨_, hb⟩]
  constructor
  case sound => exact h.sound
  case signature => exact h.signature
  case fits =>
    intro a b hab
    by_cases at_ : a = i
    · exact ⟨_, at_ ▸ sets.same, .forward 0 j⟩
    · obtain ⟨b, hab⟩ := left hab
      obtain ⟨d, hd, fits⟩ := h.fits a b hab
      exact ⟨d, (sets.others a at_).trans hd, fits⟩
  case fits' =>
    intro a b hab
    by_cases at_ : b = i'
    · exact ⟨_, at_ ▸ sets'.same, .forward 0 j'⟩
    · obtain ⟨a, hab⟩ := right hab
      obtain ⟨d, hd, fits⟩ := h.fits' a b hab
      exact ⟨d, (sets'.others b at_).trans hd, fits⟩
  case next =>
    intro a b d x hab hd forward hx
    by_cases at_ : a = i
    · subst at_
      cases sets.same.symm.trans hd
      obtain rfl := List.mem_singleton.mp hx
      rcases hab with hab | ⟨-, hb⟩ | ⟨hb, -⟩
      exacts [.inr (.inr ⟨hab, hj⟩), .inl hb, .inr (.inr ⟨hb, hj⟩)]
    · have hd := (sets.others a at_).symm.trans hd
      have go : ∀ {b}, R a b → R x b := fun hab => h.next a _ d x hab hd forward hx
      exact hab.imp go (Or.imp (And.imp_left go) (And.imp_right go))
  case next' =>
    intro a b d x hab hd forward hx
    by_cases at_ : b = i'
    · subst at_
      cases sets'.same.symm.trans hd
      obtain rfl := List.mem_singleton.mp hx
      rcases hab with hab | ⟨ha, -⟩ | ⟨-, ha⟩
      exacts [.inr (.inl ⟨hab, hj⟩), .inr (.inl ⟨ha, hj⟩), .inl ha]
    · have hd := (sets'.others b at_).symm.trans hd
      have go : ∀ {a}, R a b → R a x := fun hab => h.next' _ b d x hab hd forward hx
      exact hab.imp go (Or.imp (And.imp_right go) (And.imp_left go))
  case same =>
    intro a b d d' hab hd hd' tag tag'
    obtain ⟨ne, hd⟩ := here hd tag
    obtain ⟨ne', hd'⟩ := here' hd' tag'
    rcases hab with hab | ⟨ha, -⟩ | ⟨hb, -⟩
    · exact (h.same a b d d' hab hd hd' tag tag').mono fun _ _ => .inl
    · exact absurd (only ha hd tag) ne
    · exact absurd (only' hb hd' tag') ne'
  case one =>
    intro a a₂ b d e hab hab₂ hd he tag tag'
    obtain ⟨ne, hd⟩ := here hd tag
    obtain ⟨ne₂, he⟩ := here he tag'
    have apart : ∀ {a d}, R a b → R i b → t.graph.content? a = some d → d.tag ≠ .forward → a = i :=
      fun ha hb hd tag => h.one _ _ _ _ _ ha hb hd w.content tag w.plain
    rcases hab with hab | ⟨ha, -⟩ | ⟨hb, ha⟩
    · rcases hab₂ with hab₂ | ⟨ha₂, -⟩ | ⟨hb, -⟩
      · exact h.one a a₂ b d e hab hab₂ hd he tag tag'
      · exact absurd (only ha₂ he tag') ne₂
      · exact absurd (apart hab hb hd tag) ne
    · exact absurd (only ha hd tag) ne
    · rcases hab₂ with hab₂ | ⟨ha₂, -⟩ | ⟨-, ha₂⟩
      · exact absurd (apart hab₂ hb he tag') ne₂
      · exact absurd (only ha₂ he tag') ne₂
      · exact h.one a a₂ j' d e ha ha₂ hd he tag tag'
  case one' =>
    intro a b b₂ d e hab hab₂ hd he tag tag'
    obtain ⟨ne, hd⟩ := here' hd tag
    obtain ⟨ne₂, he⟩ := here' he tag'
    have apart : ∀ {b d}, R a b → R a i' → t'.graph.content? b = some d → d.tag ≠ .forward → b = i' :=
      fun hb ha hd tag => h.one' _ _ _ _ _ hb ha hd w.content' tag plain'
    rcases hab with hab | ⟨ha, hb⟩ | ⟨hb, -⟩
    · rcases hab₂ with hab₂ | ⟨ha, -⟩ | ⟨hb₂, -⟩
      · exact h.one' a b b₂ d e hab hab₂ hd he tag tag'
      · exact absurd (apart hab ha hd tag) ne
      · exact absurd (only' hb₂ he tag') ne₂
    · rcases hab₂ with hab₂ | ⟨-, hb₂⟩ | ⟨hb₂, -⟩
      · exact absurd (apart hab₂ ha he tag') ne₂
      · exact h.one' j b b₂ d e hb hb₂ hd he tag tag'
      · exact absurd (only' hb₂ he tag') ne₂
    · exact absurd (only' hb hd tag) ne

end Mirrors

end TermGraph


/-! ## What may be called -/

theorem Content.Mirrors.isCall {ν : Numbering} {R : NodeId → NodeId → Prop} {c c' : Content}
    (h : c.Mirrors ν R c') : c'.IsCall ↔ c.IsCall := by
  rw [IsCall, IsCall, Inert, Inert, h.tag, h.symbol]

/-- A symbol whose head step, if it has one, neither spins nor only follows its argument. -/
def Signature.Tame (s : Signature) (f : SymbolId) : Prop :=
  ∀ sym, s.symbol? f = some sym → sym.head ≠ .spin ∧ sym.head ≠ .forward

/-- No variable, and nothing that a variable was narrowed to. What is called, or stands for a function
to be called, is tame. -/
structure Content.Tame (s : Signature) (c : Content) : Prop where
  bound : c.tag ≠ .free
  numbered : c.symbol ≠ Builtin.narrowed
  call : c.IsCall → s.Tame c.symbol
  function : ∀ f, c.cargo = .literal (.symbol f) → s.Tame f

/-- All constructors are tame, and all functions of the prelude but the one that spins. -/
theorem Signature.Sound.tame {s : Signature} (h : s.Sound) {f : SymbolId} (le : 10 ≤ f)
    (lt : f < Signature.preludeEnd) (other : f ≠ Prelude.standard.spin) : s.Tame f := by
  intro sym found
  rw [h.prelude f lt] at found
  interval_cases f <;> first | exact absurd rfl other | (cases found; exact ⟨nofun, nofun⟩)

/-! ## Reflections -/

/-- Two machines outside of searches whose graphs mirror each other. Choices that are numbered next have
numbers that belong together. -/
structure Reflection (ν : Numbering) where
  rel : NodeId → NodeId → Prop
  left : Machine
  right : Machine
  mirrors : left.toTermGraph.Mirrors ν rel right.toTermGraph
  unfree : ∀ i i', rel i i' → i ∉ left.graph.free ∧ i' ∉ right.graph.free
  tame : ∀ i i' c, rel i i' → left.graph.content? i = some c → c.Tame left.signature
  sound : left.graph.Sound ∧ right.graph.Sound
  pools : left.graph.pools.size = right.graph.pools.size
  fresh : ∀ k, ν.Same (left.nextId + k) (right.nextId + k)
  unhindered : left.Unhindered ∧ right.Unhindered

namespace Reflection

variable {ν : Numbering}

/-- What corresponds still does, and what is in head normal form stays in it. -/
structure Grows (W W₁ : Reflection ν) : Prop where
  rel : ∀ i i', W.rel i i' → W₁.rel i i'
  left : ∀ i i', W.rel i i' → W.left.toTermGraph.Idle i → W₁.left.toTermGraph.Idle i
  right : ∀ i i', W.rel i i' → W.right.toTermGraph.Idle i' → W₁.right.toTermGraph.Idle i'

/-- New nodes that correspond to nothing yet. -/
structure Fresh (W : Reflection ν) (ids ids' : List NodeId) : Prop where
  nodup : ids.Nodup ∧ ids'.Nodup
  left : ∀ a ∈ ids, a < W.left.graph.capacity ∧ a ∉ W.left.graph.free ∧ ∀ i', ¬ W.rel a i'
  right : ∀ a' ∈ ids', a' < W.right.graph.capacity ∧ a' ∉ W.right.graph.free ∧ ∀ i, ¬ W.rel i a'

/-- Corresponding nodes, neither of them an indirection. -/
abbrev Twins (W : Reflection ν) (p p' : NodeId) (c c' : Content) : Prop :=
  TermGraph.Twins ν W.rel W.left.toTermGraph W.right.toTermGraph p p' c c'

variable {W W₁ W₂ : Reflection ν} {i j a i' j' a' p p' x x' : NodeId} {c c' d d' : Content}
  {g g' : Graph} {k n : Nat} {ids ids' : List NodeId}

theorem Grows.refl (W : Reflection ν) : W.Grows W :=
  ⟨fun _ _ hi => hi, fun _ _ _ idle => idle, fun _ _ _ idle => idle⟩

theorem Grows.trans (h : W.Grows W₁) (h' : W₁.Grows W₂) : W.Grows W₂ where
  rel i i' hi := h'.rel i i' (h.rel i i' hi)
  left i i' hi idle := h'.left i i' (h.rel i i' hi) (h.left i i' hi idle)
  right i i' hi idle := h'.right i i' (h.rel i i' hi) (h.right i i' hi idle)

theorem Fresh.perm {l l' : List NodeId} (h : W.Fresh ids ids') (p : ids.Perm l) (p' : ids'.Perm l') :
    W.Fresh l l' where
  nodup := ⟨p.nodup_iff.mp h.nodup.1, p'.nodup_iff.mp h.nodup.2⟩
  left a ha := h.left a (p.mem_iff.mpr ha)
  right a ha := h.right a (p'.mem_iff.mpr ha)

/-- Nodes in head normal form that correspond are twins. -/
theorem twins_of_idle (W : Reflection ν) (hx : W.rel x x') (idle : W.left.toTermGraph.Idle x)
    (idle' : W.right.toTermGraph.Idle x') : ∃ d d', W.Twins x x' d d' := by
  obtain ⟨-, d, hd, tag, -⟩ := idle
  obtain ⟨-, d', hd', tag', -⟩ := idle'
  exact ⟨d, d', W.mirrors.twins hx hd hd' tag tag'⟩

/-! ## Writing on both sides -/

/-- Other graphs, and what corresponds in them. -/
def become (W : Reflection ν) {R : NodeId → NodeId → Prop} {g g' : Graph}
    (mirrors : TermGraph.Mirrors ν R ⟨W.left.signature, g⟩ ⟨W.right.signature, g'⟩)
    (unfree : ∀ i i', R i i' → i ∉ g.free ∧ i' ∉ g'.free)
    (tame : ∀ i i' c, R i i' → g.content? i = some c → c.Tame W.left.signature)
    (sound : g.Sound ∧ g'.Sound)
    (pools : g.pools.size = g'.pools.size) : Reflection ν :=
  { W with
    rel := R
    left := W.left.setGraph g
    right := W.right.setGraph g'
    mirrors := mirrors
    unfree := unfree
    tame := tame
    sound := sound
    pools := pools
    unhindered :=
      ⟨⟨W.unhindered.1.outside, W.unhindered.1.unlimited, W.unhindered.1.going⟩,
        ⟨W.unhindered.2.outside, W.unhindered.2.unlimited, W.unhindered.2.going⟩⟩ }

theorem idle_of_sets {m : Machine} (sets : m.graph.Sets i d g) (hc : m.graph.content? i = some c)
    (call : c.IsCall ∨ d.tag ≠ .forward ∧ ¬ d.IsCall) (idle : m.toTermGraph.Idle x) :
    (m.setGraph g).toTermGraph.Idle x := by
  obtain ⟨unfree, e, he, tag, other⟩ := idle
  refine ⟨fun free => unfree (sets.free ▸ free), ?_⟩
  by_cases here : x = i
  · subst here
    cases hc.symm.trans he
    exact ⟨d, sets.same, call.resolve_left other⟩
  · exact ⟨e, (sets.others x here).trans he, tag, other⟩

theorem idle_of_draft {m : Machine} (sets : m.graph.Sets a d g) (ne : x ≠ a) (idle : m.toTermGraph.Idle x) :
    (m.setGraph g).toTermGraph.Idle x := by
  obtain ⟨unfree, e, he, other⟩ := idle
  exact ⟨fun free => unfree (sets.free ▸ free), e, (sets.others x ne).trans he, other⟩

section Writing

variable (sets : W.left.graph.Sets i d g) (sets' : W.right.graph.Sets i' d' g')
include sets sets'

theorem unfree_of_sets {b b' : NodeId} (hb : b ∉ W.left.graph.free ∧ b' ∉ W.right.graph.free) :
    b ∉ g.free ∧ b' ∉ g'.free := by
  rw [sets.free, sets'.free]
  exact hb

theorem pools_of_sets : g.pools.size = g'.pools.size := by
  rw [sets.pools, sets'.pools]
  exact W.pools

/-- A pair of nodes is written. -/
theorem rewrite (w : W.Twins i i' c c') (plain : d.tag ≠ .forward) (fits : d.Fits W.left.signature)
    (fits' : d'.Fits W.left.signature) (tame : d.Tame W.left.signature) (mirrors : d.Mirrors ν W.rel d')
    (call : d.IsCall → c.IsCall) :
    ∃ W₁ : Reflection ν, W₁.left = W.left.setGraph g ∧ W₁.right = W.right.setGraph g' ∧ W.Grows W₁ := by
  have idles : c.IsCall ∨ d.tag ≠ .forward ∧ ¬ d.IsCall :=
    (em c.IsCall).imp_right fun other => ⟨plain, fun h => other (call h)⟩
  have idles' : c'.IsCall ∨ d'.tag ≠ .forward ∧ ¬ d'.IsCall := by
    rw [w.mirrors.isCall, mirrors.isCall, ← mirrors.tag]
    exact idles
  refine ⟨W.become (W.mirrors.rewrite w sets sets' plain fits fits' mirrors)
    (fun j j' hj => unfree_of_sets sets sets' (W.unfree j j' hj)) (fun j j' e hj he => ?_)
    ⟨sets.sound, sets'.sound⟩ (pools_of_sets sets sets'), rfl, rfl, fun _ _ hj => hj,
    fun j _ _ => idle_of_sets sets w.content idles, fun _ j' _ => idle_of_sets sets' w.content' idles'⟩
  by_cases here : j = i
  · subst here
    cases sets.same.symm.trans he
    exact tame
  · exact W.tame j j' e hj ((sets.others j here).symm.trans he)

/-- A pair of calls becomes indirections to nodes that correspond. -/
theorem redirect {j j' : NodeId} (w : W.Twins i i' c c') (call : c.IsCall) (hj : W.rel j j')
    (target : d = ⟨.forward, Builtin.forward, 0, .links [j]⟩)
    (target' : d' = ⟨.forward, Builtin.forward, 0, .links [j']⟩) :
    ∃ W₁ : Reflection ν, W₁.left = W.left.setGraph g ∧ W₁.right = W.right.setGraph g' ∧ W.Grows W₁ := by
  subst target target'
  have call' := w.mirrors.isCall.mpr call
  refine ⟨W.become (W.mirrors.redirect w hj sets sets') (fun a b hab => ?_) (fun a b e hab he => ?_)
    ⟨sets.sound, sets'.sound⟩ (pools_of_sets sets sets'), rfl, rfl, fun _ _ => .inl,
    fun x _ _ => idle_of_sets sets w.content (.inl call),
    fun _ x' _ => idle_of_sets sets' w.content' (.inl call')⟩
  · refine unfree_of_sets sets sets' ?_
    rcases hab with hab | ⟨ha, hb⟩ | ⟨hb, ha⟩
    exacts [W.unfree a b hab, ⟨(W.unfree a _ ha).1, (W.unfree _ b hb).2⟩,
      ⟨(W.unfree a _ ha).1, (W.unfree _ b hb).2⟩]
  · by_cases here : a = i
    · subst here
      cases sets.same.symm.trans he
      exact ⟨nofun, (by decide : Builtin.forward ≠ Builtin.narrowed), nofun, nofun⟩
    · have he := (sets.others a here).symm.trans he
      rcases hab with hab | ⟨ha, -⟩ | ⟨-, ha⟩
      exacts [W.tame a b e hab he, W.tame a _ e ha he, W.tame a _ e ha he]

end Writing

/-- A pair of new nodes is drafted. -/
theorem draft (fresh : W.Fresh (a :: ids) (a' :: ids')) (sets : W.left.graph.Sets a d g)
    (sets' : W.right.graph.Sets a' d' g') (plain : d.tag ≠ .forward) (fits : d.Fits W.left.signature)
    (fits' : d'.Fits W.left.signature) (tame : d.Tame W.left.signature) (mirrors : d.Mirrors ν W.rel d') :
    ∃ W₁ : Reflection ν, W₁.left = W.left.setGraph g ∧ W₁.right = W.right.setGraph g' ∧ W.Grows W₁ ∧
      W₁.rel a a' ∧ W₁.Fresh ids ids' := by
  obtain ⟨-, unfree, new⟩ := fresh.left a List.mem_cons_self
  obtain ⟨-, unfree', new'⟩ := fresh.right a' List.mem_cons_self
  obtain ⟨out, nodup⟩ := List.nodup_cons.mp fresh.nodup.1
  obtain ⟨out', nodup'⟩ := List.nodup_cons.mp fresh.nodup.2
  have ne : ∀ {i i'}, W.rel i i' → i ≠ a ∧ i' ≠ a' := fun hi =>
    ⟨fun same => new _ (same ▸ hi), fun same => new' _ (same ▸ hi)⟩
  refine ⟨W.become (W.mirrors.insert sets sets' new new' plain fits fits' mirrors) ?_ ?_
    ⟨sets.sound, sets'.sound⟩ (pools_of_sets sets sets'), rfl, rfl,
    ⟨fun _ _ => .inl, fun i i' hi => idle_of_draft sets (ne hi).1,
      fun i i' hi => idle_of_draft sets' (ne hi).2⟩, .inr ⟨rfl, rfl⟩, ⟨nodup, nodup'⟩, ?_, ?_⟩
  · rintro i i' (hi | ⟨rfl, rfl⟩)
    · exact unfree_of_sets sets sets' (W.unfree i i' hi)
    · exact unfree_of_sets sets sets' ⟨unfree, unfree'⟩
  · rintro i i' c (hi | ⟨rfl, rfl⟩) hc
    · exact W.tame i i' c hi ((sets.others i (ne hi).1).symm.trans hc)
    · cases sets.same.symm.trans hc
      exact tame
  · intro b hb
    obtain ⟨lt, unfree, new⟩ := fresh.left b (List.mem_cons_of_mem a hb)
    refine ⟨sets.capacity.symm ▸ lt, fun free => unfree (sets.free ▸ free), ?_⟩
    rintro i' (hi | ⟨rfl, -⟩)
    · exact new i' hi
    · exact out hb
  · intro b hb
    obtain ⟨lt, unfree, new⟩ := fresh.right b (List.mem_cons_of_mem a' hb)
    refine ⟨sets'.capacity.symm ▸ lt, fun free => unfree (sets'.free ▸ free), ?_⟩
    rintro i (hi | ⟨-, rfl⟩)
    · exact new i hi
    · exact out' hb

/-- Free slots are handed out on both sides. -/
theorem take (W : Reflection ν) (n : Nat) :
    ∃ W₁ : Reflection ν, W₁.left = W.left.setGraph (W.left.graph.afterTake n) ∧
      W₁.right = W.right.setGraph (W.right.graph.afterTake n) ∧ W.Grows W₁ ∧ W₁.rel = W.rel ∧
      W₁.Fresh (W.left.graph.free.take n) (W.right.graph.free.take n) ∧
      ∀ i i', W.rel i i' → W₁.left.graph.content? i = W.left.graph.content? i ∧
        W₁.right.graph.content? i' = W.right.graph.content? i' := by
  have taken := Graph.afterTake_taken (n := n) W.sound.1
  have taken' := Graph.afterTake_taken (n := n) W.sound.2
  have kept : ∀ i i', W.rel i i' → (W.left.graph.afterTake n).content? i = W.left.graph.content? i ∧
      (W.right.graph.afterTake n).content? i' = W.right.graph.content? i' := fun i i' hi =>
    ⟨taken.kept i fun ht => (W.unfree i i' hi).1 (List.mem_of_mem_take ht),
      taken'.kept i' fun ht => (W.unfree i i' hi).2 (List.mem_of_mem_take ht)⟩
  have free : ∀ {i i'}, i ∉ W.left.graph.free ∧ i' ∉ W.right.graph.free →
      i ∉ (W.left.graph.afterTake n).free ∧ i' ∉ (W.right.graph.afterTake n).free := fun hi => by
    rw [taken.split, taken'.split] at hi
    exact ⟨fun h => hi.1 (List.mem_append_right _ h), fun h => hi.2 (List.mem_append_right _ h)⟩
  have mirrors : TermGraph.Mirrors ν W.rel ⟨W.left.signature, W.left.graph.afterTake n⟩
      ⟨W.right.signature, W.right.graph.afterTake n⟩ := by
    refine W.mirrors.reshape (TermGraph.reshapes_of_kept rfl fun i ⟨i', hi⟩ => (kept i i' hi).1)
      (TermGraph.reshapes_of_kept rfl fun i' ⟨i, hi⟩ => (kept i i' hi).2) fun p p' c c' d d' w hd hd' => ?_
    cases ((kept p p' w.related).1.trans w.content).symm.trans hd
    cases ((kept p p' w.related).2.trans w.content').symm.trans hd'
    exact w.mirrors
  refine ⟨W.become mirrors (fun i i' hi => free (W.unfree i i' hi))
    (fun i i' c hi hc => W.tame i i' c hi ((kept i i' hi).1.symm.trans hc)) ⟨taken.sound, taken'.sound⟩
    (taken.pools.trans (W.pools.trans taken'.pools.symm)), rfl, rfl,
    ⟨fun _ _ hi => hi, ?_, ?_⟩, rfl, ⟨⟨taken.nodup, taken'.nodup⟩, ?_, ?_⟩, kept⟩
  · rintro i i' hi ⟨-, c, hc, idle⟩
    exact ⟨(free (W.unfree i i' hi)).1, c, (kept i i' hi).1.trans hc, idle⟩
  · rintro i i' hi ⟨-, c, hc, idle⟩
    exact ⟨(free (W.unfree i i' hi)).2, c, (kept i i' hi).2.trans hc, idle⟩
  · intro b hb
    have free := List.mem_of_mem_take hb
    exact ⟨taken.capacity.symm ▸ W.sound.1.free_lt b free,
      List.disjoint_take_drop W.sound.1.free_nodup (Nat.le_refl n) hb,
      fun i' hi => (W.unfree b i' hi).1 free⟩
  · intro b hb
    have free := List.mem_of_mem_take hb
    exact ⟨taken'.capacity.symm ▸ W.sound.2.free_lt b free,
      List.disjoint_take_drop W.sound.2.free_nodup (Nat.le_refl n) hb,
      fun i hi => (W.unfree i b hi).2 free⟩

/-! ## Changes on one side -/

theorem tame_setLink {s : Signature} (h : c.Tame s) : (c.setLink k x).Tame s :=
  ⟨h.bound, h.numbered, h.call, nofun⟩

/-- The first machine skips an indirection. -/
theorem relink_left (hi : W.rel i i') (hc : W.left.graph.content? i = some c) (plain : c.tag ≠ .forward)
    (hk : c.links[k]? = some p) (leads : W.left.graph.Leads p x)
    (sets : W.left.graph.Sets i (c.setLink k x) g) :
    ∃ W₁ : Reflection ν, W₁.left = W.left.setGraph g ∧ W₁.right = W.right ∧ W₁.rel = W.rel ∧ W.Grows W₁ := by
  refine ⟨W.become (W.mirrors.relink hi hc plain hk leads sets) (fun b b' hb => ?_) (fun b b' e hb he => ?_)
    ⟨sets.sound, W.sound.2⟩ (sets.pools.trans W.pools), rfl, rfl, rfl, fun _ _ hb => hb,
    fun b _ _ => idle_of_sets sets hc ((em c.IsCall).imp_right fun other => ⟨plain, other⟩),
    fun _ _ _ idle => idle⟩
  · rw [sets.free]
    exact W.unfree b b' hb
  · by_cases here : b = i
    · subst here
      cases sets.same.symm.trans he
      exact tame_setLink (W.tame b i' c hi hc)
    · exact W.tame b b' e hb ((sets.others b here).symm.trans he)

/-- The second machine skips an indirection. -/
theorem relink_right (hi : W.rel i i') (hc : W.right.graph.content? i' = some c) (plain : c.tag ≠ .forward)
    (hk : c.links[k]? = some p) (leads : W.right.graph.Leads p x)
    (sets : W.right.graph.Sets i' (c.setLink k x) g) :
    ∃ W₁ : Reflection ν, W₁.left = W.left ∧ W₁.right = W.right.setGraph g ∧ W₁.rel = W.rel ∧ W.Grows W₁ := by
  refine ⟨W.become (W.mirrors.flip.relink hi hc plain hk leads sets).flip (fun b b' hb => ?_) W.tame
    ⟨W.sound.1, sets.sound⟩ (W.pools.trans sets.pools.symm), rfl, rfl, rfl, fun _ _ hb => hb,
    fun _ _ _ idle => idle,
    fun _ b' _ => idle_of_sets sets hc ((em c.IsCall).imp_right fun other => ⟨plain, other⟩)⟩
  · rw [sets.free]
    exact W.unfree b b' hb

/-! ## Steps and numbers -/

/-- The first machine pays for a step. -/
def paidLeft (W : Reflection ν) : Reflection ν :=
  { W with
    left := { W.left with slice := W.left.slice.spend }
    mirrors := W.mirrors
    unhindered := ⟨W.unhindered.1.spent, W.unhindered.2⟩ }

/-- The second machine pays for a step. -/
def paidRight (W : Reflection ν) : Reflection ν :=
  { W with
    right := { W.right with slice := W.right.slice.spend }
    mirrors := W.mirrors
    unhindered := ⟨W.unhindered.1, W.unhindered.2.spent⟩ }

theorem grows_paidLeft (W : Reflection ν) : W.Grows W.paidLeft :=
  ⟨fun _ _ hi => hi, fun _ _ _ idle => idle, fun _ _ _ idle => idle⟩

theorem grows_paidRight (W : Reflection ν) : W.Grows W.paidRight :=
  ⟨fun _ _ hi => hi, fun _ _ _ idle => idle, fun _ _ _ idle => idle⟩

/-- Both machines use a number for a choice. -/
def numbered (W : Reflection ν) : Reflection ν :=
  { W with
    left := { W.left with nextId := W.left.nextId + 1 }
    right := { W.right with nextId := W.right.nextId + 1 }
    mirrors := W.mirrors
    fresh := fun k => by
      have later := W.fresh (k + 1)
      rwa [← Nat.add_assoc, ← Nat.add_assoc, Nat.add_right_comm, Nat.add_right_comm W.right.nextId] at later
    unhindered :=
      ⟨⟨W.unhindered.1.outside, W.unhindered.1.unlimited, W.unhindered.1.going⟩,
        ⟨W.unhindered.2.outside, W.unhindered.2.unlimited, W.unhindered.2.going⟩⟩ }

theorem grows_numbered (W : Reflection ν) : W.Grows W.numbered :=
  ⟨fun _ _ hi => hi, fun _ _ _ idle => idle, fun _ _ _ idle => idle⟩

end Reflection

end ChoiceGraph
