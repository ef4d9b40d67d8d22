import ChoiceGraph.Proofs.Printing
import ChoiceGraph.Proofs.TermOrder

/-! # Graphs that mirror each other

Two graphs mirror each other if they differ in their indirections only, in the places of their nodes and
in the numbers of their choices. Whatever reads a term follows the indirections in front of a node before
it looks at the node. So wherever it returns in both graphs, it returns the same. -/
namespace ChoiceGraph

/-! ## Numberings -/

/-- The numbers of choices in two graphs: numbers that belong together compare alike. -/
structure Numbering where
  Same : ChoiceId → ChoiceId → Prop
  compare : ∀ {a a' b b'}, Same a a' → Same b b' → compare a b = compare a' b'

namespace Numbering

variable {ν : Numbering} {a a' b b' : ChoiceId} {s s' u u' : String}

theorem iff (ν : Numbering) (ha : ν.Same a a') (hb : ν.Same b b') : a = b ↔ a' = b' := by
  rw [← compare_eq_iff_eq, ν.compare ha hb, compare_eq_iff_eq]

/-- The same numbers on both sides. -/
def plain : Numbering where
  Same := Eq
  compare := by rintro a _ b _ rfl rfl; rfl

/-- The two sides change places. -/
def flip (ν : Numbering) : Numbering where
  Same a b := ν.Same b a
  compare ha hb := (ν.compare ha hb).symm

/-- Numbers that both counters have passed are the same; those that they come to next correspond. -/
def shifted (n n' : Nat) : Numbering where
  Same (a a' : Nat) := (a = a' ∧ (a < n ∧ a < n' ∨ n = n')) ∨ ∃ k, a = n + k ∧ a' = n' + k
  compare := by
    have total : ∀ a b a' b' : Nat, (a < b ↔ a' < b') → (a = b ↔ a' = b') →
        Ord.compare a b = Ord.compare a' b' := by
      intro a b a' b' less same
      simp only [Nat.compare_eq_ite_lt, less]
      split
      · rfl
      · have swapped : b < a ↔ b' < a' := by omega
        simp only [swapped]
    rintro a a' b b' (⟨rfl, old⟩ | ⟨k, rfl, rfl⟩) (⟨rfl, old'⟩ | ⟨l, rfl, rfl⟩) <;>
      exact total _ _ _ _ (by omega) (by omega)

/-- Two texts that differ in the numbers of choices only. -/
inductive Texts (ν : Numbering) : String → String → Prop where
  | same (s : String) : Texts ν s s
  | number {a a' : ChoiceId} (h : ν.Same a a') : Texts ν ("?" ++ toString a) ("?" ++ toString a')
  | append {s s' u u' : String} (h : Texts ν s s') (h' : Texts ν u u') : Texts ν (s ++ u) (s' ++ u')

theorem Texts.intercalate {sep : String} {ss ss' : List String} (h : List.Forall₂ ν.Texts ss ss') :
    ν.Texts (sep.intercalate ss) (sep.intercalate ss') := by
  induction h with
  | nil => exact .same _
  | @cons s s' ss ss' first rest ih =>
    cases rest with
    | nil => simpa only [String.intercalate_singleton] using first
    | cons => simpa only [String.intercalate_cons_cons] using (first.append (.same sep)).append ih

theorem Texts.eq (h : plain.Texts s s') : s = s' := by
  induction h with
  | same => rfl
  | number h => rw [show _ = _ from h]
  | append _ _ ih ih' => rw [ih, ih']

theorem Texts.flip (h : ν.Texts s s') : ν.flip.Texts s' s := by
  induction h with
  | same s => exact .same s
  | number h => exact .number h
  | append _ _ ih ih' => exact ih.append ih'

end Numbering

/-! ## Readers that agree -/

/-- If both return, then what they return is related. -/
def Agree {α β : Type} (R : α → β → Prop) (x : Except Fault α) (y : Except Fault β) : Prop :=
  ∀ a b, x = .ok a → y = .ok b → R a b

section Agree

variable {α β γ δ : Type} {R : α → β → Prop} {S : γ → δ → Prop} {x : Except Fault α} {y : Except Fault β}
  {f : α → Except Fault γ} {g : β → Except Fault δ} {a : α} {b : β} {e : Fault}

theorem agree_pure (h : R a b) : Agree R (pure a) (pure b) := by
  rintro _ _ ⟨⟩ ⟨⟩
  exact h

theorem agree_left (e : Fault) : Agree R (.error e) y := nofun

theorem agree_right (e : Fault) : Agree R x (.error e) := nofun

theorem Agree.bind (h : Agree R x y) (hf : ∀ a b, R a b → Agree S (f a) (g b)) :
    Agree S (x >>= f) (y >>= g) := by
  cases x with
  | error e => exact agree_left e
  | ok a =>
    cases y with
    | error e => exact agree_right e
    | ok b => exact hf a b (h a b rfl rfl)

/-- What is known to return needs no relation. -/
theorem agree_read (hx : x = .ok a) (hy : y = .ok b) (h : Agree S (f a) (g b)) :
    Agree S (x >>= f) (y >>= g) := by
  rw [hx, hy]
  exact h

theorem agree_mapM {l : List α} {l' : List β} (h : List.Forall₂ R l l')
    (each : ∀ a b, R a b → Agree S (f a) (g b)) : Agree (List.Forall₂ S) (l.mapM f) (l'.mapM g) := by
  induction h with
  | nil => exact agree_pure .nil
  | cons first _ ih =>
    rw [List.mapM_cons, List.mapM_cons]
    refine (each _ _ first).bind fun c d hcd => ih.bind fun cs ds hcds => ?_
    exact agree_pure (.cons hcd hcds)

end Agree

/-! ## Mirrors -/

/-- Two contents that differ in their links, and in their number if they are choices. -/
structure Content.Mirrors (ν : Numbering) (R : NodeId → NodeId → Prop) (c c' : Content) : Prop where
  tag : c.tag = c'.tag
  symbol : c.symbol = c'.symbol
  aux : c.tag ≠ .choice → c.aux = c'.aux
  number : c.tag = .choice → ν.Same c.aux c'.aux
  literal : c.cargo.literal? = c'.cargo.literal?
  links : List.Forall₂ R c.links c'.links

theorem Content.Mirrors.mono {ν : Numbering} {R R' : NodeId → NodeId → Prop} {c c' : Content}
    (h : c.Mirrors ν R c') (le : ∀ i i', R i i' → R' i i') : c.Mirrors ν R' c' :=
  { h with links := h.links.imp le }

namespace TermGraph

/-- Corresponding nodes of two graphs lead through indirections to nodes that carry the same, and whose
links correspond. No two of these correspond to one. -/
structure Mirrors (ν : Numbering) (R : NodeId → NodeId → Prop) (t t' : TermGraph) : Prop where
  sound : t.signature.Sound
  signature : t'.signature = t.signature
  fits : ∀ i i', R i i' → ∃ c, t.graph.content? i = some c ∧ c.Fits t.signature
  fits' : ∀ i i', R i i' → ∃ c', t'.graph.content? i' = some c' ∧ c'.Fits t.signature
  next : ∀ i i' c j, R i i' → t.graph.content? i = some c → c.tag = .forward → j ∈ c.links → R j i'
  next' : ∀ i i' c' j', R i i' → t'.graph.content? i' = some c' → c'.tag = .forward → j' ∈ c'.links →
    R i j'
  same : ∀ i i' c c', R i i' → t.graph.content? i = some c → t'.graph.content? i' = some c' →
    c.tag ≠ .forward → c'.tag ≠ .forward → c.Mirrors ν R c'
  one : ∀ i j i' c d, R i i' → R j i' → t.graph.content? i = some c → t.graph.content? j = some d →
    c.tag ≠ .forward → d.tag ≠ .forward → i = j
  one' : ∀ i i' j' c' d', R i i' → R i j' → t'.graph.content? i' = some c' →
    t'.graph.content? j' = some d' → c'.tag ≠ .forward → d'.tag ≠ .forward → i' = j'

/-- Two corresponding nodes, neither of them an indirection. -/
structure Twins (ν : Numbering) (R : NodeId → NodeId → Prop) (t t' : TermGraph) (p p' : NodeId)
    (c c' : Content) : Prop where
  related : R p p'
  content : t.graph.content? p = some c
  content' : t'.graph.content? p' = some c'
  plain : c.tag ≠ .forward
  fits : c.Fits t.signature
  fits' : c'.Fits t.signature
  mirrors : c.Mirrors ν R c'

variable {ν : Numbering} {R : NodeId → NodeId → Prop} {t t' : TermGraph} {i j i' j' p p' q q' : NodeId}
  {c c' d d' : Content} {k : Nat}

namespace Mirrors

theorem flip (h : Mirrors ν R t t') : Mirrors ν.flip (fun i i' => R i' i) t' t where
  sound := by
    rw [h.signature]
    exact h.sound
  signature := h.signature.symm
  fits i i' hi := by
    rw [h.signature]
    exact h.fits' i' i hi
  fits' i i' hi := by
    rw [h.signature]
    exact h.fits i' i hi
  next i i' c j hi := h.next' i' i c j hi
  next' i i' c j hi := h.next i' i c j hi
  same i i' c c' hi hc hc' tag tag' := by
    have m := h.same i' i c' c hi hc' hc tag' tag
    exact ⟨m.tag.symm, m.symbol.symm, fun plain => (m.aux (m.tag ▸ plain)).symm,
      fun choice => m.number (m.tag.trans choice), m.literal.symm, m.links.flip⟩
  one i j i' c d hi hj := h.one' i' i j c d hi hj
  one' i i' j' c d hi hj := h.one i' j' i c d hi hj

theorem twins (h : Mirrors ν R t t') (hi : R p p') (hc : t.graph.content? p = some c)
    (hc' : t'.graph.content? p' = some c') (plain : c.tag ≠ .forward) (plain' : c'.tag ≠ .forward) :
    Twins ν R t t' p p' c c' := by
  obtain ⟨d, hd, fits⟩ := h.fits p p' hi
  obtain ⟨d', hd', fits'⟩ := h.fits' p p' hi
  cases hc.symm.trans hd
  cases hc'.symm.trans hd'
  exact ⟨hi, hc, hc', plain, fits, fits', h.same p p' c c' hi hc hc' plain plain'⟩

private theorem skips_left (h : Mirrors ν R t t') : ∀ (bound : Nat) (i : NodeId), R i i' →
    t.graph.skipWithin bound i = .ok p → R p i' ∧ ∃ c, t.graph.content? p = some c ∧ c.tag ≠ .forward := by
  intro bound
  induction bound with
  | zero => exact fun _ _ run => nomatch run
  | succ bound ih =>
    intro i hi run
    obtain ⟨c, hc, fits⟩ := h.fits i i' hi
    obtain ⟨s, node, cargo⟩ := Graph.node_of_content hc
    unfold Graph.skipWithin at run
    by_cases tag : c.tag = .forward
    · obtain ⟨aux, next, rfl⟩ := fits.of_forward tag
      simp only [node, bind, Except.bind, Machine.forward_some cargo] at run
      exact ih next (h.next i i' _ next hi hc rfl List.mem_cons_self) run
    · simp only [node, bind, Except.bind] at run
      rw [Machine.forward_none tag] at run
      cases run
      exact ⟨hi, c, hc, tag⟩

/-- Skipping indirections leads to corresponding nodes. -/
theorem skips (h : Mirrors ν R t t') (hi : R i i') :
    Agree (fun p p' => ∃ c c', Twins ν R t t' p p' c c') (t.skip i) (t'.skip i') := by
  intro p p' run run'
  obtain ⟨hp, c, hc, tag⟩ := h.skips_left _ i hi run
  obtain ⟨hp', c', hc', tag'⟩ := h.flip.skips_left _ i' hp run'
  exact ⟨c, c', h.twins hp' hc hc' tag tag'⟩

/-- Corresponding nodes are the same on one side exactly if they are on the other. -/
theorem same_iff (h : Mirrors ν R t t') (hp : Twins ν R t t' p p' c c') (hq : Twins ν R t t' q q' d d') :
    p = q ↔ p' = q' := by
  have plain' := hp.mirrors.tag ▸ hp.plain
  have plain'' := hq.mirrors.tag ▸ hq.plain
  constructor
  · rintro rfl
    exact h.one' p p' q' c' d' hp.related hq.related hp.content' hq.content' plain' plain''
  · rintro rfl
    exact h.one p q p' c d hp.related hq.related hp.content hq.content hp.plain hq.plain

/-- Skipping indirections, and going on with corresponding nodes. -/
theorem skips_bind {α β : Type} {S : α → β → Prop} {f : NodeId → Except Fault α} {g : NodeId → Except Fault β}
    (h : Mirrors ν R t t') (hi : R i i')
    (go_on : ∀ p p' c c', Twins ν R t t' p p' c c' → Agree S (f p) (g p')) :
    Agree S (t.skip i >>= f) (t'.skip i' >>= g) := by
  refine (h.skips hi).bind ?_
  rintro p p' ⟨c, c', w⟩
  exact go_on p p' c c' w

theorem target {l l' : Link} (hl : Option.Rel R l l') : Agree R l.target l'.target := by
  cases hl with
  | some hi => exact agree_pure hi
  | none => exact agree_left _

end Mirrors

namespace Twins

variable (h : Mirrors ν R t t') (w : Twins ν R t t' p p' c c')
include h w

theorem symbol : ∃ sym, t.signature.symbol? c.symbol = some sym ∧ t.symbol p = .ok sym ∧
    t'.symbol p' = .ok sym := by
  obtain ⟨sym, found, -⟩ := w.fits.symbol h.sound
  refine ⟨sym, found, symbol_content w.content found, symbol_content w.content' ?_⟩
  rw [h.signature, ← w.mirrors.symbol]
  exact found

theorem successors : t.successors p = .ok (c.links.map some) ∧
    t'.successors p' = .ok (c'.links.map some) := by
  obtain ⟨sym, found, -, length⟩ := w.fits.symbol h.sound
  obtain ⟨sym', found', -, length'⟩ := w.fits'.symbol h.sound
  exact ⟨successors_content w.content found length,
    successors_content w.content' (h.signature ▸ found') length'⟩

omit h in
theorem links : List.Forall₂ (Option.Rel R) (c.links.map some) (c'.links.map some) := by
  rw [List.forall₂_map_left_iff, List.forall₂_map_right_iff]
  exact w.mirrors.links.imp fun _ _ hi => .some hi

theorem successor (k : Nat) : Agree (Option.Rel R) (t.successor p k) (t'.successor p' k) := by
  obtain ⟨sym, found, -, length⟩ := w.fits.symbol h.sound
  obtain ⟨sym', found', -, length'⟩ := w.fits'.symbol h.sound
  rw [← h.signature] at found'
  rcases Nat.lt_or_ge k c.links.length with lt | le
  · have lt' : k < c'.links.length := w.mirrors.links.length_eq ▸ lt
    rintro l l' run run'
    cases (successor_content w.content found length (List.getElem?_eq_getElem lt)).symm.trans run
    cases (successor_content w.content' found' length' (List.getElem?_eq_getElem lt')).symm.trans run'
    exact .some (w.mirrors.links.get lt lt')
  · rintro l l' run -
    simp only [TermGraph.successor, arity_content w.content found, bind, Except.bind] at run
    rw [if_pos (by omega)] at run
    cases run

theorem successorSkip_bind {α β : Type} {S : α → β → Prop} {f : NodeId → Except Fault α}
    {g : NodeId → Except Fault β} (k : Nat)
    (go_on : ∀ q q' d d', Twins ν R t t' q q' d d' → Agree S (f q) (g q')) :
    Agree S (t.successorSkip p k >>= f) (t'.successorSkip p' k >>= g) := by
  have skips : Agree (fun q q' => ∃ d d', Twins ν R t t' q q' d d') (t.successorSkip p k)
      (t'.successorSkip p' k) :=
    (w.successor h k).bind fun _ _ hl => (Mirrors.target hl).bind fun _ _ hi => h.skips hi
  refine skips.bind ?_
  rintro q q' ⟨d, d', v⟩
  exact go_on q q' d d' v

end Twins

namespace Mirrors

/-! ## Comparing -/

theorem allEqual_agrees {sub sub' : Link → Link → Except Fault Bool}
    (hsub : ∀ l l' m m', Option.Rel R l l' → Option.Rel R m m' → Agree Eq (sub l m) (sub' l' m'))
    {xs xs' ys ys' : List Link} (hxs : List.Forall₂ (Option.Rel R) xs xs')
    (hys : List.Forall₂ (Option.Rel R) ys ys') : Agree Eq (allEqual sub xs ys) (allEqual sub' xs' ys') := by
  induction hxs generalizing ys ys' with
  | nil =>
    unfold allEqual
    exact agree_pure rfl
  | cons first _ ih =>
    cases hys with
    | nil => exact agree_pure rfl
    | cons first' rest' =>
      unfold allEqual
      refine (hsub _ _ _ _ first first').bind ?_
      rintro same _ rfl
      cases same
      · exact agree_pure rfl
      · exact ih rest'

theorem equalsNodes_agrees {sub sub' : Link → Link → Except Fault Bool} (h : Mirrors ν R t t')
    (hsub : ∀ l l' m m', Option.Rel R l l' → Option.Rel R m m' → Agree Eq (sub l m) (sub' l' m'))
    (hp : Twins ν R t t' p p' c c') (hq : Twins ν R t t' q q' d d') :
    Agree Eq (t.equalsNodes sub p q) (t'.equalsNodes sub' p' q') := by
  by_cases same : p = q
  · have same' := (h.same_iff hp hq).mp same
    unfold equalsNodes
    rw [if_pos same, if_pos same']
    exact agree_pure rfl
  have apart' : p' ≠ q' := fun same' => same ((h.same_iff hp hq).mpr same')
  obtain ⟨left, left'⟩ := hp.successors h
  obtain ⟨right, right'⟩ := hq.successors h
  rw [equalsNodes_content same hp.content hq.content left right hp.fits.tag_ne_unassigned,
    equalsNodes_content apart' hp.content' hq.content' left' right' hp.fits'.tag_ne_unassigned,
    ← hp.mirrors.tag, ← hp.mirrors.symbol, ← hp.mirrors.literal, ← hq.mirrors.tag, ← hq.mirrors.symbol,
    ← hq.mirrors.literal]
  have numbers : c.tag = d.tag → (c.aux = d.aux ↔ c'.aux = d'.aux) := by
    intro tag
    by_cases choice : c.tag = .choice
    · exact ν.iff (hp.mirrors.number choice) (hq.mirrors.number (tag.symm.trans choice))
    · rw [hp.mirrors.aux choice, hq.mirrors.aux (tag ▸ choice)]
  have heads : (c.tag = d.tag ∧ c.symbol = d.symbol ∧ (c.tag = .free ∨ c.tag = .choice → c.aux = d.aux)) ↔
      (c.tag = d.tag ∧ c.symbol = d.symbol ∧ (c.tag = .free ∨ c.tag = .choice → c'.aux = d'.aux)) :=
    and_congr_right fun tag => and_congr_right fun _ => imp_congr_right fun _ => numbers tag
  simp only [heads]
  split
  · split
    · exact agree_pure rfl
    · exact allEqual_agrees hsub hp.links hq.links
  · exact agree_pure rfl

theorem equalsWithin_agrees (h : Mirrors ν R t t') : ∀ (bound bound' : Nat) (l l' m m' : Link),
    Option.Rel R l l' → Option.Rel R m m' →
      Agree Eq (t.equalsWithin bound l m) (t'.equalsWithin bound' l' m') := by
  intro bound
  induction bound with
  | zero => exact fun _ _ _ _ _ _ _ => agree_left _
  | succ bound ih =>
    rintro (_ | bound') l l' m m' hl hm
    · exact agree_right _
    unfold equalsWithin
    refine (target hl).bind fun i i' hi => ?_
    refine Agree.bind (R := fun _ _ => True) (fun _ _ _ _ => trivial) fun _ _ _ => ?_
    refine h.skips_bind hi fun p p' c c' hp => (target hm).bind fun j j' hj => ?_
    exact h.skips_bind hj fun q q' d d' hq =>
      h.equalsNodes_agrees (fun l l' m m' => ih bound' l l' m m') hp hq

/-- Equality does not depend on indirections. -/
theorem equals_agrees (h : Mirrors ν R t t') (hi : R i i') (hj : R j j') :
    Agree Eq (t.equals i j) (t'.equals i' j') :=
  h.equalsWithin_agrees _ _ _ _ _ _ (.some hi) (.some hj)

theorem firstDifference_agrees {sub sub' : Link → Link → Except Fault Ordering}
    (hsub : ∀ l l' m m', Option.Rel R l l' → Option.Rel R m m' → Agree Eq (sub l m) (sub' l' m'))
    {xs xs' ys ys' : List Link} (hxs : List.Forall₂ (Option.Rel R) xs xs')
    (hys : List.Forall₂ (Option.Rel R) ys ys') : Agree Eq (firstDifference sub xs ys) (firstDifference sub' xs' ys') := by
  induction hxs generalizing ys ys' with
  | nil =>
    unfold firstDifference
    exact agree_pure rfl
  | cons first _ ih =>
    cases hys with
    | nil => exact agree_pure rfl
    | cons first' rest' =>
      unfold firstDifference
      refine (hsub _ _ _ _ first first').bind ?_
      rintro order _ rfl
      cases order
      · exact agree_pure rfl
      · exact ih rest'
      · exact agree_pure rfl

theorem orderNodes_agrees {sub sub' : Link → Link → Except Fault Ordering} (h : Mirrors ν R t t')
    (hsub : ∀ l l' m m', Option.Rel R l l' → Option.Rel R m m' → Agree Eq (sub l m) (sub' l' m'))
    (hp : Twins ν R t t' p p' c c') (hq : Twins ν R t t' q q' d d') :
    Agree Eq (t.orderNodes sub p q) (t'.orderNodes sub' p' q') := by
  by_cases same : p = q
  · have same' := (h.same_iff hp hq).mp same
    unfold orderNodes
    rw [if_pos same, if_pos same']
    exact agree_pure rfl
  have apart' : p' ≠ q' := fun same' => same ((h.same_iff hp hq).mpr same')
  obtain ⟨left, left'⟩ := hp.successors h
  obtain ⟨right, right'⟩ := hq.successors h
  have heads : c.head.order d.head = c'.head.order d'.head := by
    show (compare c.tag.code d.tag.code).then ((compare c.symbol d.symbol).then (compare c.aux d.aux)) =
      (compare c'.tag.code d'.tag.code).then ((compare c'.symbol d'.symbol).then (compare c'.aux d'.aux))
    rw [← hp.mirrors.tag, ← hp.mirrors.symbol, ← hq.mirrors.tag, ← hq.mirrors.symbol]
    by_cases tag : c.tag = d.tag
    · have numbers : compare c.aux d.aux = compare c'.aux d'.aux := by
        by_cases choice : c.tag = .choice
        · exact ν.compare (hp.mirrors.number choice) (hq.mirrors.number (tag.symm.trans choice))
        · rw [hp.mirrors.aux choice, hq.mirrors.aux (tag ▸ choice)]
      rw [numbers]
    · have apart : compare c.tag.code d.tag.code ≠ .eq := fun codes => tag <| by
        rw [← Tag.ofCode_code c.tag, compare_eq_iff_eq.mp codes, Tag.ofCode_code]
      cases order : compare c.tag.code d.tag.code with
      | eq => exact absurd order apart
      | _ => rfl
  rw [orderNodes_content same hp.content hq.content left right,
    orderNodes_content apart' hp.content' hq.content' left' right', ← heads, ← hp.mirrors.literal,
    ← hq.mirrors.literal]
  split
  · exact agree_pure rfl
  · split
    · exact agree_pure rfl
    · exact firstDifference_agrees hsub hp.links hq.links

theorem orderWithin_agrees (h : Mirrors ν R t t') : ∀ (bound bound' : Nat) (l l' m m' : Link),
    Option.Rel R l l' → Option.Rel R m m' →
      Agree Eq (t.orderWithin bound l m) (t'.orderWithin bound' l' m') := by
  intro bound
  induction bound with
  | zero => exact fun _ _ _ _ _ _ _ => agree_left _
  | succ bound ih =>
    rintro (_ | bound') l l' m m' hl hm
    · exact agree_right _
    unfold orderWithin
    refine (target hl).bind fun i i' hi => ?_
    refine Agree.bind (R := fun _ _ => True) (fun _ _ _ _ => trivial) fun _ _ _ => ?_
    refine h.skips_bind hi fun p p' c c' hp => (target hm).bind fun j j' hj => ?_
    exact h.skips_bind hj fun q q' d d' hq =>
      h.orderNodes_agrees (fun l l' m m' => ih bound' l l' m m') hp hq

/-- The order of terms does not depend on indirections. -/
theorem order_agrees (h : Mirrors ν R t t') (hi : R i i') (hj : R j j') :
    Agree Eq (t.order i j) (t'.order i' j') :=
  h.orderWithin_agrees _ _ _ _ _ _ (.some hi) (.some hj)

/-- The value of an integer is found behind indirections. -/
theorem intValue_agrees (h : Mirrors ν R t t') (hi : R i i') : Agree Eq (t.intValue? i) (t'.intValue? i') := by
  refine h.skips_bind hi fun p p' c c' w => ?_
  refine agree_read (literal_content w.content) (literal_content w.content') ?_
  rw [← w.mirrors.literal]
  split <;> exact agree_pure rfl

/-! ## Partial applications -/

/-- The same function, in a set that it is known to belong to, with corresponding arguments. -/
def Spines (R : NodeId → NodeId → Prop) (T : SymbolId → Prop)
    (found found' : Option (SymbolId × List Link)) : Prop :=
  Option.Rel (fun a b => a.1 = b.1 ∧ T a.1 ∧ List.Forall₂ (Option.Rel R) a.2 b.2) found found'

section Spines

variable {T : SymbolId → Prop} (h : Mirrors ν R t t')
  (functions : ∀ p p' c c' f, Twins ν R t t' p p' c c' → c.cargo = .literal (.symbol f) → T f)
include h functions

private theorem spineWithin_agrees : ∀ (bound bound' : Nat) (p p' : NodeId) (c c' : Content)
    (args args' : List Link), Twins ν R t t' p p' c c' → List.Forall₂ (Option.Rel R) args args' →
      Agree (Spines R T) (t.spineWithin bound p args) (t'.spineWithin bound' p' args') := by
  intro bound
  induction bound with
  | zero => exact fun _ _ _ _ _ _ _ _ _ => agree_left _
  | succ bound ih =>
    rintro (_ | bound') p p' c c' args args' w hargs
    · exact agree_right _
    obtain ⟨s, node, cargo⟩ := node_content w.content
    obtain ⟨s', node', cargo'⟩ := node_content w.content'
    unfold spineWithin
    refine agree_read node node' ?_
    dsimp only
    rw [← w.mirrors.symbol]
    split
    · refine (w.successor h 1).bind fun l l' hl => w.successorSkip_bind h 0 fun q q' d d' w' => ?_
      exact ih bound' q q' d d' _ _ w' (.cons hl hargs)
    · split
      · have literal := w.mirrors.literal
        rw [← literal_cargo cargo, ← literal_cargo cargo'] at literal
        rcases s with _ | _ | v <;> rcases s' with _ | _ | v' <;> cases literal
        case' succ.succ.isFalse.isTrue.data.data.refl => cases v
        case succ.succ.isFalse.isTrue.data.data.refl.symbol f =>
          exact agree_pure (.some ⟨rfl, functions p p' c c' f w (Option.some.inj cargo).symm, hargs⟩)
        all_goals exact agree_pure .none
      · exact agree_pure .none

/-- A partial application applies the same function to corresponding arguments. -/
theorem partialSpine_agrees (hi : R i i') : Agree (Spines R T) (t.partialSpine i) (t'.partialSpine i') :=
  h.skips_bind hi fun p p' c c' w => spineWithin_agrees h functions _ _ p p' c c' [] [] w .nil

end Spines

/-! ## Printing -/

theorem literalText_same (h : Mirrors ν R t t') (l : Literal) : t'.literalText l = t.literalText l := by
  unfold literalText
  rw [h.signature]

theorem literalLabel_agrees (h : Mirrors ν R t t') (w : Twins ν R t t' p p' c c') :
    Agree Eq (t.literalLabel p) (t'.literalLabel p') := by
  refine agree_read (literal_content w.content) (literal_content w.content') ?_
  rw [← w.mirrors.literal]
  obtain ⟨sym, -, symbol, symbol'⟩ := w.symbol h
  split
  · rw [h.literalText_same]
    rintro a b run run'
    exact Except.ok.inj (run.symm.trans run')
  · exact agree_read symbol symbol' (agree_pure rfl)

theorem partialLabel_agrees (h : Mirrors ν R t t') (w : Twins ν R t t' p p' c c') :
    Agree Eq (t.partialLabel p) (t'.partialLabel p') := by
  obtain ⟨sym, -, symbol, symbol'⟩ := w.symbol h
  refine (h.partialSpine_agrees (T := fun _ => True) (fun _ _ _ _ _ _ _ => trivial) w.related).bind ?_
  rintro _ _ (@⟨⟨target, args⟩, ⟨_, args'⟩, rfl, -⟩ | _)
  · dsimp only
    rw [h.signature]
    rintro a b run run'
    exact Except.ok.inj (run.symm.trans run')
  · exact agree_read symbol symbol' (agree_pure rfl)

/-- A choice is labelled as one. -/
theorem choice_label {c : Content} {sym : Symbol} {σ : Signature} (fits : c.Fits σ) (sound : σ.Sound)
    (found : σ.symbol? c.symbol = some sym) (tag : c.tag = .choice) : sym.label = .choice := by
  obtain ⟨symbol, id, l, r, rfl, rfl | rfl⟩ := fits.of_choice tag
  · rw [sound.prelude Builtin.choice (by decide)] at found
    cases found
    rfl
  · rw [sound.prelude Builtin.narrowed (by decide)] at found
    cases found
    rfl

theorem ownLabel_agrees (h : Mirrors ν R t t') (w : Twins ν R t t' p p' c c') {style : LabelStyle}
    (numbered : c.tag = .choice → style = .choice) :
    Agree ν.Texts (t.ownLabel p style) (t'.ownLabel p' style) := by
  have texts : ∀ {x y : Except Fault String}, Agree Eq x y → Agree ν.Texts x y := by
    rintro x y agree a b run run'
    rw [agree a b run run']
    exact .same b
  obtain ⟨sym, -, symbol, symbol'⟩ := w.symbol h
  cases style with
  | name => exact agree_read symbol symbol' (agree_pure (.same _))
  | choice =>
    refine agree_read (aux_content w.content) (aux_content w.content') (agree_pure ?_)
    by_cases choice : c.tag = .choice
    · exact .number (w.mirrors.number choice)
    · rw [w.mirrors.aux choice]
      exact .same _
  | free =>
    refine agree_read (aux_content w.content) (aux_content w.content') (agree_pure ?_)
    rw [w.mirrors.aux fun choice => nomatch numbered choice]
    exact .same _
  | literal => exact texts (h.literalLabel_agrees w)
  | partialApplication => exact texts (h.partialLabel_agrees w)
  | forward => exact agree_left _

theorem label_agrees (h : Mirrors ν R t t') (w : Twins ν R t t' p p' c c') :
    Agree ν.Texts (t.label p) (t'.label p') := by
  have own : ∀ {p p' c c'}, Twins ν R t t' p p' c c' → Agree ν.Texts
      (t.symbol p >>= fun sym => t.ownLabel p sym.label)
      (t'.symbol p' >>= fun sym => t'.ownLabel p' sym.label) := fun w => by
    obtain ⟨sym, found, symbol, symbol'⟩ := w.symbol h
    exact agree_read symbol symbol' (h.ownLabel_agrees w (choice_label w.fits h.sound found))
  obtain ⟨sym, found, symbol, symbol'⟩ := w.symbol h
  refine agree_read symbol symbol' ?_
  split
  · exact h.skips_bind w.related fun q q' d d' w' => own w'
  · exact h.ownLabel_agrees w (choice_label w.fits h.sound found)

variable {sub sub' : Printer} {alone : Bool}

theorem texts_parenthesized {s s' : String} (wrap : Bool) (h : ν.Texts s s') :
    ν.Texts (parenthesized wrap s) (parenthesized wrap s') := by
  unfold parenthesized
  split
  · exact ((Numbering.Texts.same "(").append h).append (.same ")")
  · exact h

/-- Corresponding links are printed alike. -/
def Prints (ν : Numbering) (R : NodeId → NodeId → Prop) (sub sub' : Printer) : Prop :=
  ∀ l l' alone, Option.Rel R l l' → Agree ν.Texts (sub l alone) (sub' l' alone)

theorem showApplication_agrees {name name' : String} {args args' : List Link} (hsub : Prints ν R sub sub')
    (hname : ν.Texts name name') (hargs : List.Forall₂ (Option.Rel R) args args') :
    Agree ν.Texts (showApplication sub name args alone) (showApplication sub' name' args' alone) := by
  have empty : args.isEmpty = args'.isEmpty := by cases hargs <;> rfl
  unfold showApplication
  refine (agree_mapM hargs fun l l' hl => hsub l l' false hl).bind fun ss ss' texts => ?_
  rw [empty]
  exact agree_pure (texts_parenthesized _ (.intercalate (.cons hname texts)))

theorem showApplicative_agrees (h : Mirrors ν R t t') (hsub : Prints ν R sub sub')
    (w : Twins ν R t t' p p' c c') :
    Agree ν.Texts (t.showApplicative sub p alone) (t'.showApplicative sub' p' alone) := by
  obtain ⟨left, right⟩ := w.successors h
  refine agree_read left right ((h.label_agrees w).bind fun name name' hname => ?_)
  exact showApplication_agrees hsub hname w.links

theorem showTuple_agrees (h : Mirrors ν R t t') (hsub : Prints ν R sub sub')
    (w : Twins ν R t t' p p' c c') : Agree ν.Texts (t.showTuple sub p) (t'.showTuple sub' p') := by
  obtain ⟨left, right⟩ := w.successors h
  refine agree_read left right ?_
  refine (agree_mapM w.links fun l l' hl => hsub l l' true hl).bind fun ss ss' texts => agree_pure ?_
  exact ((Numbering.Texts.same "(").append (.intercalate texts)).append (.same ")")

theorem listWithin_agrees (h : Mirrors ν R t t') (cons : SymbolId) : ∀ (bound bound' : Nat) (p p' : NodeId)
    (c c' : Content), Twins ν R t t' p p' c c' →
      Agree (fun a b => List.Forall₂ (Option.Rel R) a.1 b.1 ∧ ∃ d d', Twins ν R t t' a.2 b.2 d d')
        (t.listWithin cons bound p) (t'.listWithin cons bound' p') := by
  intro bound
  induction bound with
  | zero => exact fun _ _ _ _ _ _ => agree_left _
  | succ bound ih =>
    rintro (_ | bound') p p' c c' w
    · exact agree_right _
    unfold listWithin
    refine agree_read (symbolId_content w.content) (symbolId_content w.content') ?_
    rw [← w.mirrors.symbol]
    split
    · refine (w.successor h 0).bind fun l l' hl => w.successorSkip_bind h 1 fun q q' d d' w' => ?_
      refine (ih bound' q q' d d' w').bind ?_
      rintro ⟨items, last⟩ ⟨items', last'⟩ ⟨below, ends⟩
      exact agree_pure ⟨.cons hl below, ends⟩
    · exact agree_pure ⟨.nil, c, c', w⟩

theorem showList_agrees (h : Mirrors ν R t t') (hsub : Prints ν R sub sub')
    (w : Twins ν R t t' p p' c c') : Agree ν.Texts (t.showList sub p alone) (t'.showList sub' p' alone) := by
  obtain ⟨sym, found, symbol, symbol'⟩ := w.symbol h
  refine agree_read symbol symbol' ?_
  split
  · refine agree_read (symbolId_content w.content) (symbolId_content w.content') ?_
    rw [← w.mirrors.symbol]
    refine (h.listWithin_agrees c.symbol _ _ p p' c c' w).bind ?_
    rintro ⟨items, last⟩ ⟨items', last'⟩ ⟨below, d, d', w'⟩
    obtain ⟨sym', -, symbol, symbol'⟩ := w'.symbol h
    refine agree_read symbol symbol' ?_
    have each : ∀ wrap, Agree (List.Forall₂ ν.Texts) (items.mapM fun a => sub a wrap)
        (items'.mapM fun a => sub' a wrap) := fun wrap =>
      agree_mapM below fun l l' hl => hsub l l' wrap hl
    split
    · refine (each true).bind fun ss ss' texts => agree_pure ?_
      exact ((Numbering.Texts.same "[").append (.intercalate texts)).append (.same "]")
    · refine (each false).bind fun ss ss' texts => (hsub _ _ false (.some w'.related)).bind
        fun s s' rest => agree_pure ?_
      exact texts_parenthesized _ (.intercalate (List.rel_append texts (.cons rest .nil)))
  · exact h.showApplicative_agrees hsub w

theorem showChoice_agrees (h : Mirrors ν R t t') (hsub : Prints ν R sub sub')
    (w : Twins ν R t t' p p' c c') :
    Agree ν.Texts (t.showChoice sub p alone) (t'.showChoice sub' p' alone) := by
  refine (w.successor h 0).bind fun l l' hl => (hsub l l' false hl).bind fun s s' left => ?_
  refine agree_read (aux_content w.content) (aux_content w.content') ?_
  refine (w.successor h 1).bind fun r r' hr => (hsub r r' false hr).bind fun u u' right => agree_pure ?_
  have number : ν.Texts ("?" ++ toString c.aux) ("?" ++ toString c'.aux) := by
    by_cases choice : c.tag = .choice
    · exact .number (w.mirrors.number choice)
    · rw [w.mirrors.aux choice]
      exact .same _
  have middle := ((Numbering.Texts.same " ").append number).append (.same " ")
  rw [← String.append_assoc, ← String.append_assoc] at middle
  exact texts_parenthesized _ ((left.append middle).append right)

theorem showLiteral_agrees (h : Mirrors ν R t t') (w : Twins ν R t t' p p' c c') :
    Agree ν.Texts (t.showLiteral p alone) (t'.showLiteral p' alone) := by
  refine agree_read (literal_content w.content) (literal_content w.content') ?_
  rw [← w.mirrors.literal]
  refine (h.literalLabel_agrees w).bind ?_
  rintro s _ rfl
  exact agree_pure (.same _)

theorem showPartial_agrees (h : Mirrors ν R t t') (hsub : Prints ν R sub sub')
    (w : Twins ν R t t' p p' c c') :
    Agree ν.Texts (t.showPartial sub p alone) (t'.showPartial sub' p' alone) := by
  refine (h.partialSpine_agrees (T := fun _ => True) (fun _ _ _ _ _ _ _ => trivial) w.related).bind ?_
  rintro _ _ (@⟨⟨target, args⟩, ⟨_, args'⟩, rfl, -, hargs⟩ | _)
  · rw [h.signature]
    refine Agree.bind (R := Eq) ?_ ?_
    · rintro a b run run'
      exact Except.ok.inj (run.symm.trans run')
    · rintro sym _ rfl
      exact showApplication_agrees hsub (.same _) hargs
  · exact agree_pure (.same _)

theorem showNode_agrees (h : Mirrors ν R t t') (hsub : Prints ν R sub sub')
    (w : Twins ν R t t' p p' c c') :
    Agree ν.Texts (t.showNode sub p alone) (t'.showNode sub' p' alone) := by
  obtain ⟨sym, found, symbol, symbol'⟩ := w.symbol h
  refine agree_read symbol symbol' ?_
  cases sym.shown with
  | applicative => exact h.showApplicative_agrees hsub w
  | tuple => exact h.showTuple_agrees hsub w
  | list => exact h.showList_agrees hsub w
  | forward => exact (w.successor h 0).bind fun l l' hl => hsub l l' alone hl
  | choice => exact h.showChoice_agrees hsub w
  | literal => exact h.showLiteral_agrees w
  | partialApplication => exact h.showPartial_agrees hsub w

theorem showWithin_agrees (h : Mirrors ν R t t') : ∀ bound bound' : Nat,
    Prints ν R (t.showWithin bound) (t'.showWithin bound') := by
  intro bound
  induction bound with
  | zero => exact fun _ _ _ _ _ => agree_left _
  | succ bound ih =>
    rintro (_ | bound') l l' alone hl
    · exact agree_right _
    unfold showWithin
    refine (target hl).bind fun i i' hi => h.skips_bind hi fun p p' c c' w => ?_
    exact h.showNode_agrees (ih bound') w

/-- The text of a term does not depend on indirections. -/
theorem showTerm_agrees (h : Mirrors ν R t t') (hi : R i i') :
    Agree ν.Texts (t.showTerm i) (t'.showTerm i') :=
  h.showWithin_agrees _ _ _ _ true (.some hi)

end Mirrors

end TermGraph

end ChoiceGraph
