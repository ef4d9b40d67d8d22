import ChoiceGraph.Proofs.Attempts
import ChoiceGraph.Proofs.Echoes

/-! # Arguments that echo each other

Two corresponding calls bring corresponding arguments into head normal form. If the reductions of the
arguments echo each other, then so does what becomes of the calls: both skip the indirections in front of
their arguments, each as many as it has, and both are taken over by a failure or a choice, or neither is. -/
namespace ChoiceGraph.Reflection

open Eff Machine Reduction

variable {ν : Numbering} {W W₁ : Reflection ν} {α β γ δ : Type} {f : Unit → Eff γ} {f' : Nat → Unit → Eff δ}
  {Q : Reflection ν → γ → δ → Prop} {i i' p p' x x' a a' : NodeId} {c c' d d' : Content} {k F : Nat}
  {ls ls' ids ids' : List NodeId} {tag : Tag} {symbol : SymbolId} {aux aux' : Nat}

/-! ## Pairs of nodes -/

/-- Corresponding nodes that are live. -/
structure Alive (W : Reflection ν) (i i' : NodeId) : Prop where
  related : W.rel i i'
  left : ∃ ρ, W.left.Inv [] ρ ∧ W.left.Live [] i
  right : ∃ ρ, W.right.Inv [] ρ ∧ W.right.Live [] i'

/-- Corresponding nodes that a step works on. -/
structure Pair (W : Reflection ν) (i i' : NodeId) (c c' : Content) : Prop where
  twins : W.Twins i i' c c'
  left : ∃ s ρ, W.left.Call s ρ i c
  right : ∃ s ρ, W.right.Call s ρ i' c'

theorem Pair.alive (w : W.Pair i i' c c') : W.Alive i i' := by
  obtain ⟨twins, ⟨s, ρ, left⟩, ⟨s', ρ', right⟩⟩ := w
  exact ⟨twins.related, ⟨ρ, left.site.inv, left.site.live⟩, ⟨ρ', right.site.inv, right.site.live⟩⟩

theorem Alive.pair (h : W.Alive i i') (w : W.Twins i i' c c') (plain : ¬ c.Inert) : W.Pair i i' c c' := by
  obtain ⟨-, ⟨ρ, inv, live⟩, ⟨ρ', inv', live'⟩⟩ := h
  have plain' : ¬ c'.Inert := by rwa [Content.Inert, ← w.mirrors.tag, ← w.mirrors.symbol]
  exact ⟨w, ⟨_, ρ, site_below inv live w.content plain⟩, ⟨_, ρ', site_below inv' live' w.content' plain'⟩⟩

theorem Alive.leads (h : W.Alive i i') (leads : W.left.graph.Leads i x) (leads' : W.right.graph.Leads i' x')
    (hx : W.rel x x') : W.Alive x x' := by
  obtain ⟨-, ⟨ρ, inv, live⟩, ⟨ρ', inv', live'⟩⟩ := h
  exact ⟨hx, ⟨ρ, inv, live.leads leads⟩, ⟨ρ', inv', live'.leads leads'⟩⟩

/-- Indirections lead from live nodes that correspond to twins. -/
theorem Alive.skips (h : W.Alive i i') : ∃ x x' d d', W.left.skip i = .ok x ∧ W.right.skip i' = .ok x' ∧
    W.left.graph.Leads i x ∧ W.right.graph.Leads i' x' ∧ W.Twins x x' d d' := by
  obtain ⟨related, ⟨ρ, inv, live⟩, ρ', inv', live'⟩ := h
  obtain ⟨x, -, skip, leads, -⟩ := inv.read_skip live
  obtain ⟨x', -, skip', leads', -⟩ := inv'.read_skip live'
  obtain ⟨d, d', v⟩ := W.mirrors.skips related x x' skip skip'
  exact ⟨x, x', d, d', skip, skip', leads, leads', v⟩

theorem link_of_twins (w : W.Twins i i' c c') (hk : c.links[k]? = some p) :
    ∃ p', c'.links[k]? = some p' ∧ W.rel p p' := by
  obtain ⟨lt, rfl⟩ := List.getElem?_eq_some_iff.mp hk
  have lt' : k < c'.links.length := w.mirrors.links.length_eq ▸ lt
  exact ⟨_, List.getElem?_eq_getElem lt', w.mirrors.links.get lt lt'⟩

theorem Pair.link (w : W.Pair i i' c c') (hk : c.links[k]? = some p) :
    ∃ p', c'.links[k]? = some p' ∧ W.Alive p p' := by
  obtain ⟨p', hk', related⟩ := link_of_twins w.twins hk
  obtain ⟨s, ρ, left⟩ := w.left
  obtain ⟨s', ρ', right⟩ := w.right
  exact ⟨p', hk', related, ⟨ρ, left.site.inv, (left.site.link hk).1⟩,
    ⟨ρ', right.site.inv, (right.site.link hk').1⟩⟩

/-- The links of twins are read. -/
theorem reads_link (w : W.Twins i i' c c') (hk : c.links[k]? = some p) (hk' : c'.links[k]? = some p') :
    W.left.successor i k = .ok (some p) ∧ W.right.successor i' k = .ok (some p') := by
  obtain ⟨sym, found, -, length⟩ := w.fits.symbol W.mirrors.sound
  obtain ⟨sym', found', -, length'⟩ := w.fits'.symbol W.mirrors.sound
  exact ⟨TermGraph.successor_content w.content found length hk,
    TermGraph.successor_content w.content' (W.mirrors.signature ▸ found') length' hk'⟩

theorem reads_skip {t : TermGraph} (read : t.successor i k = .ok (some p)) (skip : t.skip p = .ok x) :
    t.successorSkip i k = .ok x := by
  simp only [TermGraph.successorSkip, read, bind, Except.bind, Link.target]
  exact skip

theorem skips_twins (v : W.Twins x x' d d') : W.left.skip x = .ok x ∧ W.right.skip x' = .ok x' :=
  ⟨TermGraph.skip_self v.content v.plain, TermGraph.skip_self v.content' (v.mirrors.tag ▸ v.plain)⟩

/-- Effects that keep to what lies below the two nodes leave these as they are. -/
theorem Pair.spare {e : Eff α} {e' : Eff β} {va : α} {vb : β} {P : α → Machine → Rank → Prop}
    {P' : β → Machine → Rank → Prop} (w : W.Pair i i' c c') (hk : c.links[k]? = some p)
    (hk' : c'.links[k]? = some p') (grows : W.Grows W₁)
    (keeps : ∀ ρ, W.left.Inv [] ρ → W.left.Live [] p → e.Keeps (.below (ρ p)) W.left ρ P)
    (keeps' : ∀ ρ, W.right.Inv [] ρ → W.right.Live [] p' → e'.Keeps (.below (ρ p')) W.right ρ P')
    (run : e W.left = .ok va W₁.left) (run' : e' W.right = .ok vb W₁.right) :
    W₁.Pair i i' c c' ∧ (∃ ρ, P va W₁.left ρ) ∧ ∃ ρ, P' vb W₁.right ρ := by
  obtain ⟨s, ρ, left⟩ := w.left
  obtain ⟨s', ρ', right⟩ := w.right
  have below := left.site.link hk
  have below' := right.site.link hk'
  obtain ⟨ρ₁, ev, post⟩ := (keeps ρ left.site.inv below.1).ok run
  obtain ⟨ρ₁', ev', post'⟩ := (keeps' ρ' right.site.inv below'.1).ok run'
  have site := (left.site.spare below.2 hk ev).1
  have site' := (right.site.spare below'.2 hk' ev').1
  exact ⟨⟨W₁.mirrors.twins (grows.rel i i' w.twins.related) site.content site'.content w.twins.plain
    (w.twins.mirrors.tag ▸ w.twins.plain), ⟨s, ρ₁, site, left.plain⟩, ⟨s', ρ₁', site', right.plain⟩⟩,
    ⟨ρ₁, post⟩, ⟨ρ₁', post'⟩⟩

/-! ## New nodes -/

/-- What is not free is not handed out before a collection. -/
theorem collects_allocateBeside {m : Machine} {n : Nat} (short : ¬ m.graph.hasFree n = true) :
    Collects (fun _ => allocateBeside i n) m := by
  refine ⟨0, fun _ _ r m' run => ?_⟩
  obtain ⟨m₁, inner, rfl⟩ := withRoots_outcome run
  rw [allocate_short (m := m.push [some i]) short] at inner
  have counted := allocateAfterCollection_counts inner
  exact counted

/-- As many new nodes are handed out on both sides, or on neither. -/
theorem echoes_allocateBeside (W : Reflection ν) (i i' : NodeId) (n : Nat) :
    W.Echoes (allocateBeside i n) (fun _ => allocateBeside i' n) fun W₁ ids ids' =>
      W₁.Fresh ids ids' ∧ ids.length = n ∧ ids'.length = n ∧
        ∀ p p' c c', W.Twins p p' c c' → W₁.Twins p p' c c' where
  returns ids m ends kept := by
    obtain ⟨enough, same, rfl⟩ := ((allocate_requests n).rooted [some i]).uncollected _ _ _ ends
    cases same
    have enough' : W.right.graph.hasFree n = true := by_contra fun short => kept (collects_allocateBeside short)
    have run' := ((allocate_requests n).rooted [some i']).served W.right enough'
    obtain ⟨W₁, left, right, grows, rel, fresh, same⟩ := W.take n
    refine ⟨0, _, W₁, grows, left, fun F _ => ends_of_ok (right ▸ run') (by rw [right]; rfl), fresh,
      List.length_take_of_le (Graph.hasFree_iff.mp enough),
      List.length_take_of_le (Graph.hasFree_iff.mp enough'), fun p p' c c' w => ?_⟩
    obtain ⟨here, there⟩ := same p p' w.related
    exact W₁.mirrors.twins (grows.rel p p' w.related) (here.trans w.content) (there.trans w.content')
      w.plain (w.mirrors.tag ▸ w.plain)
  stops stop m ends _ := nomatch (((allocate_requests n).rooted [some i]).uncollected _ _ _ ends).2.1

/-- Two new nodes are drafted. -/
theorem echoes_draft (fresh : W.Fresh (a :: ids) (a' :: ids')) (plain : tag ≠ .forward)
    (fits : Content.Fits W.left.signature ⟨tag, symbol, aux, .links ls⟩)
    (fits' : Content.Fits W.left.signature ⟨tag, symbol, aux', .links ls'⟩)
    (tame : Content.Tame W.left.signature ⟨tag, symbol, aux, .links ls⟩)
    (mirrors : Content.Mirrors ν W.rel ⟨tag, symbol, aux, .links ls⟩ ⟨tag, symbol, aux', .links ls'⟩)
    (go_on : ∀ W₁, W.Grows W₁ → (∀ p p' c c', W.Twins p p' c c' → W₁.Twins p p' c c') →
      W₁.rel a a' → W₁.Fresh ids ids' → W₁.Echoes (f ()) (fun F => f' F ()) Q) :
    W.Echoes (Eff.rewrite a tag symbol aux (ls.map some) >>= f)
      (fun F => Eff.rewrite a' tag symbol aux' (ls'.map some) >>= f' F) Q := by
  obtain ⟨lt, -, new⟩ := fresh.left a List.mem_cons_self
  obtain ⟨lt', -, new'⟩ := fresh.right a' List.mem_cons_self
  rcases W.rewrites lt lt' tag symbol aux aux' mirrors.links.length_eq with
    ⟨g, g', run, run', sets, sets'⟩ | ⟨stop, run, run'⟩
  · obtain ⟨W₁, left, right, grows, drafted, rest⟩ :=
      W.draft fresh sets sets' plain fits fits' tame mirrors
    refine echoes_step W₁ (left ▸ run) (right ▸ run') (by rw [left]; rfl) (by rw [right]; rfl) grows
      (go_on W₁ grows (fun p p' c c' w => ?_) drafted rest)
    have ne : p ≠ a := fun same => new _ (same ▸ w.related)
    have ne' : p' ≠ a' := fun same => new' _ (same ▸ w.related)
    refine W₁.mirrors.twins (grows.rel p p' w.related) ?_ ?_ w.plain (w.mirrors.tag ▸ w.plain)
    · rw [left]
      exact (sets.others p ne).trans w.content
    · rw [right]
      exact (sets'.others p' ne').trans w.content'
  · exact echoes_refused run run'

/-! ## Choices are pulled -/

/-- What twins carry with another link in one place. -/
theorem mirrors_set {l l' : NodeId} (w : W.Twins i i' c c') (hl : W.rel l l') :
    Content.Mirrors ν W.rel ⟨c.tag, c.symbol, c.aux, .links (c.links.set k l)⟩
      ⟨c.tag, c.symbol, c'.aux, .links (c'.links.set k l')⟩ where
  tag := rfl
  symbol := rfl
  aux := w.mirrors.aux
  number := w.mirrors.number
  literal := rfl
  links := by
    rw [List.forall₂_iff_get]
    refine ⟨by simp only [Content.links, Cargo.successors, List.length_set]; exact w.mirrors.links.length_eq,
      fun n lt lt' => ?_⟩
    simp only [Content.links, Cargo.successors, List.length_set, List.get_eq_getElem] at lt lt' ⊢
    by_cases at_ : k = n
    · subst at_
      rwa [List.getElem_set_self, List.getElem_set_self]
    · rw [List.getElem_set_ne at_, List.getElem_set_ne at_]
      exact w.mirrors.links.get lt lt'

theorem fits_set (w : W.Twins i i' c c') (hk : c.links[k]? = some p) (hk' : c'.links[k]? = some p')
    (l l' : NodeId) : Content.Fits W.left.signature ⟨c.tag, c.symbol, c.aux, .links (c.links.set k l)⟩ ∧
      Content.Fits W.left.signature ⟨c.tag, c.symbol, c'.aux, .links (c'.links.set k l')⟩ := by
  refine ⟨w.fits.setLink (List.getElem?_eq_some_iff.mp hk).1 l, ?_⟩
  rw [w.mirrors.tag, w.mirrors.symbol]
  exact w.fits'.setLink (List.getElem?_eq_some_iff.mp hk').1 l'

/-- What is done with the two nodes for the copies. -/
def copyTab (root : NodeId) (k : Nat) : List NodeId → Eff Unit
  | [left, right] => do
    let choice ← look fun m => m.successorSkip root k
    let c ← look (·.node choice)
    let l ← look (·.successor choice 0)
    let r ← look (·.successor choice 1)
    let node ← look (·.node root)
    let links ← look (·.successors root)
    Eff.rewrite left node.tag node.symbol node.aux (links.set k l)
    Eff.rewrite right node.tag node.symbol node.aux (links.set k r)
    Eff.rewrite root .choice c.symbol c.aux [some left, some right]
  | _ => fault .dangling

theorem pullTab_eq (root : NodeId) (k : Nat) :
    pullTab root k = allocateBeside root 2 >>= copyTab root k := rfl

theorem copyTab_moves (root : NodeId) (k : Nat) (fresh : List NodeId) : (copyTab root k fresh).Moves Pays := by
  unfold copyTab
  split
  · next left right =>
    refine (moves_look _).bind fun choice => (moves_look _).bind fun c => (moves_look _).bind fun l =>
      (moves_look _).bind fun r => (moves_look _).bind fun node => (moves_look _).bind fun links => ?_
    exact (rewrite_abides left _ _ _ _).moves.bind fun _ => (rewrite_abides right _ _ _ _).moves.bind
      fun _ => (rewrite_abides root _ _ _ _).moves
  · exact moves_throw _

/-- Corresponding choices are pulled above corresponding nodes. -/
theorem echoes_pullTab (w : W.Twins i i' c c') (hk : c.links[k]? = some x) (hk' : c'.links[k]? = some x')
    (v : W.Twins x x' d d') (choice : d.tag = .choice) :
    W.Echoes (pullTab i k) (fun _ => pullTab i' k) fun _ _ _ => True := by
  rw [pullTab_eq, pullTab_eq]
  refine (W.echoes_allocateBeside i i' 2).bind (allocateBeside_abides i 2).moves (copyTab_moves i k)
    (fun _ => copyTab_moves i' k) ?_
  rintro W₁ ids ids' grows - - ⟨fresh, two, two', kept⟩
  obtain ⟨a, b, rfl⟩ := List.length_eq_two.mp two
  obtain ⟨a', b', rfl⟩ := List.length_eq_two.mp two'
  have w₁ := kept i i' c c' w
  have v₁ := kept x x' d d' v
  obtain ⟨symbol, id, l, r, rfl, narrowed⟩ := v₁.fits.of_choice choice
  obtain ⟨symbol', id', l', r', rfl, -⟩ := v₁.fits'.of_choice (v₁.mirrors.tag.symm.trans choice)
  obtain rfl : symbol = symbol' := v₁.mirrors.symbol
  obtain rfl : symbol = Builtin.choice :=
    narrowed.resolve_right (W₁.tame x x' _ v₁.related v₁.content).numbered
  have number : ν.Same id id' := v₁.mirrors.number rfl
  obtain ⟨hl, hr⟩ : W₁.rel l l' ∧ W₁.rel r r' := by
    cases v₁.mirrors.links with
    | cons hl rest =>
      cases rest with
      | cons hr => exact ⟨hl, hr⟩
  obtain ⟨read, read'⟩ := reads_link w₁ hk hk'
  obtain ⟨skip, skip'⟩ := skips_twins v₁
  obtain ⟨s, node, -⟩ := TermGraph.node_content (t := W₁.left.toTermGraph) v₁.content
  obtain ⟨s', node', -⟩ := TermGraph.node_content (t := W₁.right.toTermGraph) v₁.content'
  obtain ⟨u, root, -⟩ := TermGraph.node_content (t := W₁.left.toTermGraph) w₁.content
  obtain ⟨u', root', -⟩ := TermGraph.node_content (t := W₁.right.toTermGraph) w₁.content'
  obtain ⟨first, first'⟩ := reads_link (k := 0) v₁ rfl rfl
  obtain ⟨second, second'⟩ := reads_link (k := 1) v₁ rfl rfl
  obtain ⟨links, links'⟩ := w₁.successors W₁.mirrors
  rw [← w₁.mirrors.tag, ← w₁.mirrors.symbol] at root'
  refine echoes_look (reads_skip read skip) (reads_skip read' skip') (echoes_look node node' (echoes_look first first'
    (echoes_look second second' (echoes_look root root' (echoes_look links links' ?_)))))
  rw [← List.map_set, ← List.map_set, ← List.map_set, ← List.map_set]
  have tame : ∀ {W : Reflection ν} (w : W.Twins i i' c c') l,
      Content.Tame W.left.signature ⟨c.tag, c.symbol, c.aux, .links (c.links.set k l)⟩ := fun w l =>
    tame_setLink (Reflection.tame _ i i' c w.related w.content)
  -- the copies, one for each alternative
  obtain ⟨fits, fits'⟩ := fits_set w₁ hk hk' l l'
  refine echoes_draft fresh w₁.plain fits fits' (tame w₁ l) (mirrors_set w₁ hl)
    fun W₂ grows₂ kept₂ ha fresh₂ => ?_
  have w₂ := kept₂ i i' c c' w₁
  obtain ⟨fits, fits'⟩ := fits_set w₂ hk hk' r r'
  refine echoes_draft fresh₂ w₂.plain fits fits' (tame w₂ r) (mirrors_set w₂ (grows₂.rel r r' hr))
    fun W₃ grows₃ kept₃ hb _ => ?_
  exact W₃.echoes_rewrite [a, b] [a', b'] (kept₃ i i' c c' w₂) nofun (.choice id a b)
    (.choice id' a' b') ⟨nofun, (by decide : Builtin.choice ≠ Builtin.narrowed), nofun, nofun⟩
    (by rw [if_pos rfl]; exact number) (.cons (grows₃.rel a a' ha) (.cons hb .nil)) nofun

theorem echoes_pull (w : W.Twins i i' c c') (hk : c.links[k]? = some x) (hk' : c'.links[k]? = some x')
    (v : W.Twins x x' d d') (choice : d.tag = .choice) :
    W.Echoes (pull i k) (fun _ => pull i' k) fun _ _ _ => True := by
  obtain ⟨read, read'⟩ := reads_link w hk hk'
  obtain ⟨skip, skip'⟩ := skips_twins v
  have ordinary := (W.tame x x' d v.related v.content).numbered
  refine echoes_look (reads_skip read skip) (reads_skip read' skip')
    (echoes_look (TermGraph.symbolId_content v.content) (TermGraph.symbolId_content v.content') ?_)
  rw [← v.mirrors.symbol, if_neg ordinary, if_neg ordinary]
  exact echoes_pullTab w hk hk' v choice

/-! ## Arguments -/

/-- Corresponding live nodes in head normal form. -/
structure Value (W : Reflection ν) (x x' : NodeId) : Prop where
  alive : W.Alive x x'
  idle : W.left.toTermGraph.Idle x
  idle' : W.right.toTermGraph.Idle x'

theorem Value.twins (h : W.Value x x') : ∃ d d', W.Twins x x' d d' :=
  W.twins_of_idle h.alive.related h.idle h.idle'

/-- What corresponding arguments have become: both have taken the node over, or the node links to values
that correspond. -/
inductive Argued (W : Reflection ν) (i i' : NodeId) (c c' : Content) (k : Nat) :
    Argument → Argument → Prop where
  | taken : Argued W i i' c c' k .taken .taken
  | value {x x' : NodeId} (pair : W.Pair i i' (c.setLink k x) (c'.setLink k x')) (value : W.Value x x') :
    Argued W i i' c c' k (.value x) (.value x')

/-- Corresponding head normal forms are settled alike. -/
theorem echoes_settle (w : W.Pair i i' (c.setLink k x) (c'.setLink k x')) (hk : c.links[k]? = some p)
    (hk' : c'.links[k]? = some p') (value : W.Value x x') :
    W.Echoes (settle i k x) (fun _ => settle i' k x') fun W₁ => W₁.Argued i i' c c' k := by
  obtain ⟨d, d', v⟩ := value.twins
  have link := Content.setLink_self (i := x) hk
  have link' := Content.setLink_self (i := x') hk'
  refine echoes_look (TermGraph.tag_content v.content) (TermGraph.tag_content v.content') ?_
  rw [← v.mirrors.tag]
  cases tag : d.tag with
  | failure =>
    exact (W.echoes_rewriteFail w.twins).bind (rewriteFail_abides i).moves (fun _ => moves_pure _)
      (fun _ _ => moves_pure _) fun _ _ _ _ _ _ _ => echoes_pure .taken
  | choice =>
    exact (echoes_pull w.twins link link' v tag).bind (pull_abides i k).moves (fun _ => moves_pure _)
      (fun _ _ => moves_pure _) fun _ _ _ _ _ _ _ => echoes_pure .taken
  | free => exact absurd tag (W.tame x x' d v.related v.content).bound
  | forward => exact absurd tag v.plain
  | unassigned below => exact absurd tag (v.fits.tag_ne_unassigned below)
  | operation => exact echoes_pure (.value w value)
  | constructor _ => exact echoes_pure (.value w value)

section Relinking

/-- Twins are twins afterwards, of the kind that they were. -/
def TagsKept (W W₁ : Reflection ν) : Prop :=
  ∀ y y' e e', W.Twins y y' e e' → ∃ d d', W₁.Twins y y' d d' ∧ d.tag = e.tag

theorem tagsKept_of_left {g : Graph} (hc : W.left.graph.content? i = some c) (plain : c.tag ≠ .forward)
    (sets : W.left.graph.Sets i (c.setLink k x) g) (grows : W.Grows W₁)
    (left : W₁.left = W.left.setGraph g) (right : W₁.right = W.right) : W.TagsKept W₁ := by
  intro y y' e e' v
  have content' : W₁.right.graph.content? y' = some e' := by
    rw [right]
    exact v.content'
  by_cases here : y = i
  · subst here
    cases hc.symm.trans v.content
    have content : W₁.left.graph.content? y = some (c.setLink k x) := by
      rw [left]
      exact sets.same
    exact ⟨_, e', W₁.mirrors.twins (grows.rel y y' v.related) content content' plain
      (v.mirrors.tag ▸ v.plain), rfl⟩
  · have content : W₁.left.graph.content? y = some e := by
      rw [left]
      exact (sets.others y here).trans v.content
    exact ⟨e, e', W₁.mirrors.twins (grows.rel y y' v.related) content content' v.plain
      (v.mirrors.tag ▸ v.plain), rfl⟩

theorem tagsKept_of_right {g : Graph} (hc : W.right.graph.content? i' = some c') (plain : c'.tag ≠ .forward)
    (sets : W.right.graph.Sets i' (c'.setLink k x') g) (grows : W.Grows W₁)
    (left : W₁.left = W.left) (right : W₁.right = W.right.setGraph g) : W.TagsKept W₁ := by
  intro y y' e e' v
  have content : W₁.left.graph.content? y = some e := by
    rw [left]
    exact v.content
  by_cases here : y' = i'
  · subst here
    cases hc.symm.trans v.content'
    have content' : W₁.right.graph.content? y' = some (c'.setLink k x') := by
      rw [right]
      exact sets.same
    exact ⟨e, _, W₁.mirrors.twins (grows.rel y y' v.related) content content' v.plain plain, rfl⟩
  · have content' : W₁.right.graph.content? y' = some e' := by
      rw [right]
      exact (sets.others y' here).trans v.content'
    exact ⟨e, e', W₁.mirrors.twins (grows.rel y y' v.related) content content' v.plain
      (v.mirrors.tag ▸ v.plain), rfl⟩

theorem TagsKept.trans {W₂ : Reflection ν} (h : W.TagsKept W₁) (h' : W₁.TagsKept W₂) : W.TagsKept W₂ := by
  intro y y' e e' v
  obtain ⟨d, d', v₁, tag⟩ := h y y' e e' v
  obtain ⟨b, b', v₂, tag'⟩ := h' y y' d d' v₁
  exact ⟨b, b', v₂, tag'.trans tag⟩

theorem TagsKept.refl (W : Reflection ν) : W.TagsKept W := fun _ _ e e' v => ⟨e, e', v, rfl⟩

variable {q : Prop} [Decidable q] {e : Eff γ} {e' : Nat → Eff δ}

/-- The first node skips the indirections in front of an argument. -/
theorem echoes_relink_left (w : W.Pair i i' c c') (hk : c.links[k]? = some p)
    (leads : W.left.graph.Leads p x) (differ : ¬ q → p = x)
    (go_on : ∀ W₁, W.Grows W₁ → W.TagsKept W₁ → W₁.right = W.right → W₁.Pair i i' (c.setLink k x) c' →
      W₁.Echoes e e' Q) :
    W.Echoes (do
      if q then setSuccessor i k (some x)
      e) e' Q := by
  dsimp only
  obtain ⟨s, ρ, left⟩ := w.left
  split
  · obtain ⟨g, run, sets⟩ := (setSuccessor_writes left.site.inv.storage left.site.inv.signature
      left.site.content left.site.fits (List.getElem?_eq_some_iff.mp hk).1 x).sets
      (faults_setSuccessor i k (some x))
    obtain ⟨W₁, hleft, hright, -, grows⟩ :=
      relink_left w.twins.related w.twins.content w.twins.plain hk leads sets
    obtain ⟨ρ₁, -, site, -⟩ := (setSuccessor_keeps left.site hk leads).ok run
    rw [← hleft] at site
    have kept := tagsKept_of_left w.twins.content w.twins.plain sets grows hleft hright
    refine echoes_left W₁ (hleft ▸ run) hright (by rw [hleft]; rfl) grows (go_on W₁ grows kept hright ?_)
    refine ⟨W₁.mirrors.twins (grows.rel i i' w.twins.related) site.content (hright ▸ w.twins.content')
      w.twins.plain (w.twins.mirrors.tag ▸ w.twins.plain), ⟨s, ρ₁, site, left.plain⟩, ?_⟩
    rw [hright]
    exact w.right
  · next same =>
    refine go_on W (.refl W) (.refl W) rfl ?_
    rw [← differ same, Content.setLink_eq left.site.fits hk]
    exact w

/-- The second node skips the indirections in front of an argument. -/
theorem echoes_relink_right (w : W.Pair i i' c c') (hk' : c'.links[k]? = some p')
    (leads' : W.right.graph.Leads p' x') (differ : ¬ q → p' = x')
    (go_on : ∀ W₁, W.Grows W₁ → W.TagsKept W₁ → W₁.Pair i i' c (c'.setLink k x') → W₁.Echoes e e' Q) :
    W.Echoes e (fun F => do
      if q then setSuccessor i' k (some x')
      e' F) Q := by
  dsimp only
  obtain ⟨s, ρ, right⟩ := w.right
  by_cases same : q
  · simp only [if_pos same]
    obtain ⟨g, run, sets⟩ := (setSuccessor_writes right.site.inv.storage right.site.inv.signature
      right.site.content right.site.fits (List.getElem?_eq_some_iff.mp hk').1 x').sets
      (faults_setSuccessor i' k (some x'))
    obtain ⟨W₁, hleft, hright, -, grows⟩ := relink_right w.twins.related w.twins.content'
      (w.twins.mirrors.tag ▸ w.twins.plain) hk' leads' sets
    obtain ⟨ρ₁, -, site, -⟩ := (setSuccessor_keeps right.site hk' leads').ok run
    rw [← hright] at site
    have kept := tagsKept_of_right w.twins.content' (w.twins.mirrors.tag ▸ w.twins.plain) sets grows hleft
      hright
    refine echoes_right W₁ hleft (hright ▸ run) (by rw [hright]; rfl) grows (go_on W₁ grows kept ?_)
    refine ⟨W₁.mirrors.twins (grows.rel i i' w.twins.related) (hleft ▸ w.twins.content) site.content
      w.twins.plain (w.twins.mirrors.tag ▸ w.twins.plain), ?_, ⟨s, ρ₁, site, right.plain⟩⟩
    rw [hleft]
    exact w.left
  · simp only [if_neg same]
    refine go_on W (.refl W) (.refl W) ?_
    rw [← differ same, Content.setLink_eq right.site.fits hk']
    exact w

end Relinking

/-- Corresponding head normal forms are taken for the arguments. -/
theorem echoes_takeArg (w : W.Pair i i' c c') (hk : c.links[k]? = some p) (hk' : c'.links[k]? = some p')
    (leads : W.left.graph.Leads p x) (leads' : W.right.graph.Leads p' x') (hx : W.rel x x')
    (idle : W.left.toTermGraph.Idle x) (idle' : W.right.toTermGraph.Idle x') :
    W.Echoes (takeArg i k (some p) x) (fun _ => takeArg i' k (some p') x')
      fun W₁ => W₁.Argued i i' c c' k := by
  refine echoes_relink_left w hk leads (by simp) fun W₁ grows₁ _ right₁ w₁ => ?_
  refine echoes_relink_right w₁ hk' (right₁ ▸ leads') (by simp) fun W₂ grows₂ _ w₂ => ?_
  have grows := grows₁.trans grows₂
  obtain ⟨x'', link', alive⟩ := w₂.link (Content.setLink_self (i := x) hk)
  cases (Content.setLink_self (i := x') hk').symm.trans link'
  have value : W₂.Value x x' := ⟨alive, grows.left x x' hx idle, grows.right x x' hx idle'⟩
  obtain ⟨d, d', v⟩ := value.twins
  obtain ⟨skip, skip'⟩ := skips_twins v
  have bound := (W₂.tame x x' d v.related v.content).bound
  refine echoes_look (TermGraph.tag_content v.content) (TermGraph.tag_content v.content') ?_
  rw [← v.mirrors.tag]
  simp only [if_neg bound]
  exact echoes_look skip skip' (echoes_settle w₂ hk hk' value)

/-- What the reducer does at live nodes, with calls nested so deep, is echoed. -/
structure Reflects (ν : Numbering) (F : Nat) : Prop where
  head : ∀ (W : Reflection ν) (i i' : NodeId), W.Alive i i' →
    W.Echoes ((reducer F).head i) (fun G => (reducer G).head i') fun W₁ j j' => W₁.rel j j'
  normal : ∀ (W : Reflection ν) (i i' : NodeId), W.Alive i i' →
    W.Echoes ((reducer F).normal i) (fun G => (reducer G).normal i') fun _ _ _ => True

theorem echoes_headArg (ih : Reflects ν F) (w : W.Pair i i' c c') (hk : c.links[k]? = some p) :
    W.Echoes (headArg (reducer F) i k) (fun G => headArg (reducer G) i' k)
      fun W₁ => W₁.Argued i i' c c' k := by
  obtain ⟨p', hk', alive⟩ := w.link hk
  obtain ⟨read, read'⟩ := reads_link w.twins hk hk'
  obtain ⟨ρ, inv, live⟩ := alive.left
  obtain ⟨ρ', inv', live'⟩ := alive.right
  refine echoes_look read read' (echoes_look (v := p) (b := p') rfl rfl ?_)
  refine (ih.head W p p' alive).bind ((reducer_known F).moves.head p)
    (fun x => takeArg_moves i k (some p) x) (fun _ x' => takeArg_moves i' k (some p') x') ?_
  rintro W₁ x x' grows ends ⟨G, ends'⟩ hx
  obtain ⟨w₁, ⟨-, leads⟩, -, leads'⟩ := w.spare hk hk' grows
    (fun ρ => (reducer_sound F).head W.left ρ p) (fun ρ => (reducer_sound G).head W.right ρ p')
    ends.run ends'.run
  exact echoes_takeArg w₁ hk hk' leads leads' hx (head_idle F _ _ ρ p x inv live ends.run)
    (head_idle G _ _ ρ' p' x' inv' live' ends'.run)

theorem echoes_normalArg (ih : Reflects ν F) (w : W.Pair i i' c c') (hk : c.links[k]? = some p) :
    W.Echoes (normalArg (reducer F) i k) (fun G => normalArg (reducer G) i' k)
      fun W₁ => W₁.Argued i i' c c' k := by
  have known := (reducer_known F).moves
  obtain ⟨p', hk', -⟩ := w.link hk
  refine (echoes_headArg ih w hk).bind (headArg_moves known i k) (fun a => ?_) (fun G a => ?_) ?_
  · cases a with
    | taken => exact moves_pure _
    | value x => exact (known.normal x).bind fun _ => (resettle_replays i k x).pays
  · cases a with
    | taken => exact moves_pure _
    | value x => exact ((reducer_known G).moves.normal x).bind fun _ => (resettle_replays i' k x).pays
  rintro W₁ _ _ - - - (_ | @⟨x, x', w₁, value⟩)
  · exact echoes_pure .taken
  refine (ih.normal W₁ x x' value.alive).bind (known.normal x) (fun _ => (resettle_replays i k x).pays)
    (fun _ _ => (resettle_replays i' k x').pays) ?_
  rintro W₂ _ _ grows ends ⟨G, ends'⟩ -
  have link := Content.setLink_self (i := x) hk
  have link' := Content.setLink_self (i := x') hk'
  obtain ⟨w₂, -, -⟩ := w₁.spare link link' grows (fun ρ => (reducer_sound F).normal W₁.left ρ x)
    (fun ρ => (reducer_sound G).normal W₁.right ρ x') ends.run ends'.run
  obtain ⟨x'', link'', alive⟩ := w₂.link link
  cases link'.symm.trans link''
  have value₂ : W₂.Value x x' := ⟨alive, grows.left x x' value.alive.related value.idle,
    grows.right x x' value.alive.related value.idle'⟩
  obtain ⟨d, d', v⟩ := value₂.twins
  obtain ⟨skip, skip'⟩ := skips_twins v
  exact echoes_look skip skip' (echoes_settle w₂ hk hk' value₂)

/-! ## Steps that force arguments -/

section Forcing

variable {e : Eff Argument} {e' : Nat → Eff Argument} {K : Argument → Eff Unit}
  {K' : Nat → Argument → Eff Unit} {body : NodeId → Eff Unit} {body' : Nat → NodeId → Eff Unit}
  {act act' : NodeId → NodeId → Eff Unit}

/-- What a step does with an argument, unless this takes its node over. -/
theorem Echoes.argued (h : W.Echoes e e' fun W₁ => W₁.Argued i i' c c' k) (pays : e.Moves Pays)
    (moves : ∀ a, (K a).Moves Pays) (moves' : ∀ G a, (K' G a).Moves Pays) (taken : K .taken = pure ()) (taken' : ∀ G, K' G .taken = pure ())
    (go_on : ∀ W₁ x x', W.Grows W₁ → W₁.Pair i i' (c.setLink k x) (c'.setLink k x') → W₁.Value x x' →
      W₁.Echoes (K (.value x)) (fun G => K' G (.value x')) fun _ _ _ => True) :
    W.Echoes (e >>= K) (fun G => e' G >>= K' G) fun _ _ _ => True := by
  refine h.bind pays moves moves' ?_
  rintro W₁ _ _ grows - - (_ | ⟨w₁, value⟩)
  · simp only [taken, taken']
    exact echoes_pure trivial
  · exact go_on W₁ _ _ grows w₁ value

theorem echoes_withHead (ih : Reflects ν F) (w : W.Pair i i' c c') (hk : c.links[k]? = some p)
    (moves : ∀ x, (body x).Moves Pays) (moves' : ∀ G x, (body' G x).Moves Pays)
    (go_on : ∀ W₁ x x', W.Grows W₁ → W₁.Pair i i' (c.setLink k x) (c'.setLink k x') → W₁.Value x x' →
      W₁.Echoes (body x) (fun G => body' G x') fun _ _ _ => True) :
    W.Echoes (withHead (reducer F) i k body) (fun G => withHead (reducer G) i' k (body' G))
      fun _ _ _ => True := by
  refine (echoes_headArg ih w hk).argued (headArg_moves (reducer_known F).moves i k) (fun a => ?_)
    (fun G a => ?_) rfl (fun _ => rfl) go_on
  · cases a with
    | taken => exact moves_pure ()
    | value x => exact moves x
  · cases a with
    | taken => exact moves_pure ()
    | value x => exact moves' G x

theorem echoes_withNormal (ih : Reflects ν F) (w : W.Pair i i' c c') (hk : c.links[k]? = some p)
    (moves : ∀ x, (body x).Moves Pays) (moves' : ∀ G x, (body' G x).Moves Pays)
    (go_on : ∀ W₁ x x', W.Grows W₁ → W₁.Pair i i' (c.setLink k x) (c'.setLink k x') → W₁.Value x x' →
      W₁.Echoes (body x) (fun G => body' G x') fun _ _ _ => True) :
    W.Echoes (withNormal (reducer F) i k body) (fun G => withNormal (reducer G) i' k (body' G))
      fun _ _ _ => True := by
  refine (echoes_normalArg ih w hk).argued (normalArg_moves (reducer_known F).moves i k) (fun a => ?_)
    (fun G a => ?_) rfl (fun _ => rfl) go_on
  · cases a with
    | taken => exact moves_pure ()
    | value x => exact moves x
  · cases a with
    | taken => exact moves_pure ()
    | value x => exact moves' G x

/-- The first argument is still a value once the second has been forced. -/
theorem Value.still {y y' : NodeId} {W₂ : Reflection ν} (value : W₁.Value x x') (grows : W₁.Grows W₂)
    (w : W₂.Pair i i' ((c.setLink 0 x).setLink 1 y) ((c'.setLink 0 x').setLink 1 y'))
    (ht : c.links[0]? = some p) (ht' : c'.links[0]? = some p') : W₂.Value x x' := by
  have link : ((c.setLink 0 x).setLink 1 y).links[0]? = some x :=
    (Content.setLink_other (by decide)).trans (Content.setLink_self ht)
  have link' : ((c'.setLink 0 x').setLink 1 y').links[0]? = some x' :=
    (Content.setLink_other (by decide)).trans (Content.setLink_self ht')
  obtain ⟨x'', link'', alive⟩ := w.link link
  cases link'.symm.trans link''
  exact ⟨alive, grows.left x x' value.alive.related value.idle,
    grows.right x x' value.alive.related value.idle'⟩

/-- Both arguments of corresponding calls have become values. -/
structure Operands (W : Reflection ν) (i i' x x' y y' : NodeId) : Prop where
  call : ∃ c c', W.Pair i i' c c' ∧ c.IsCall
  first : W.Value x x'
  second : W.Value y y'

theorem echoes_withHeads {u : NodeId} (ih : Reflects ν F) (w : W.Pair i i' c c') (call : c.IsCall)
    (ht : c.links[0]? = some p) (hu : c.links[1]? = some u) (moves : ∀ x y, (act x y).Moves Pays)
    (moves' : ∀ x y, (act' x y).Moves Pays)
    (go_on : ∀ (W₁ : Reflection ν) (x x' y y' : NodeId), W₁.Operands i i' x x' y y' →
      W₁.Echoes (act x y) (fun _ => act' x' y') fun _ _ _ => True) :
    W.Echoes (withHead (reducer F) i 0 fun x => withHead (reducer F) i 1 fun y => act x y)
      (fun G => withHead (reducer G) i' 0 fun x => withHead (reducer G) i' 1 fun y => act' x y)
      fun _ _ _ => True := by
  obtain ⟨p', ht', -⟩ := w.link ht
  have known := fun G => (reducer_known G).moves.abides
  refine echoes_withHead ih w ht (fun x => (withHead_abides (known F) fun y => (moves x y).abides).moves)
    (fun G x => (withHead_abides (known G) fun y => (moves' x y).abides).moves) fun W₁ x x' _ w₁ value => ?_
  refine echoes_withHead ih w₁ ((Content.setLink_other (by decide)).trans hu) (moves x) (fun _ => moves' x')
    fun W₂ y y' grows w₂ value' => ?_
  exact go_on W₂ x x' y y' ⟨⟨_, _, w₂, call⟩, value.still grows w₂ ht ht', value'⟩

theorem echoes_withNormals {u : NodeId} (ih : Reflects ν F) (w : W.Pair i i' c c') (call : c.IsCall)
    (ht : c.links[0]? = some p) (hu : c.links[1]? = some u) (moves : ∀ x y, (act x y).Moves Pays)
    (moves' : ∀ x y, (act' x y).Moves Pays)
    (go_on : ∀ (W₁ : Reflection ν) (x x' y y' : NodeId), W₁.Operands i i' x x' y y' →
      W₁.Echoes (act x y) (fun _ => act' x' y') fun _ _ _ => True) :
    W.Echoes (withNormal (reducer F) i 0 fun x => withNormal (reducer F) i 1 fun y => act x y)
      (fun G => withNormal (reducer G) i' 0 fun x => withNormal (reducer G) i' 1 fun y => act' x y)
      fun _ _ _ => True := by
  obtain ⟨p', ht', -⟩ := w.link ht
  have known := fun G => (reducer_known G).moves.abides
  refine echoes_withNormal ih w ht (fun x => (withNormal_abides (known F) fun y => (moves x y).abides).moves)
    (fun G x => (withNormal_abides (known G) fun y => (moves' x y).abides).moves) fun W₁ x x' _ w₁ value => ?_
  refine echoes_withNormal ih w₁ ((Content.setLink_other (by decide)).trans hu) (moves x) (fun _ => moves' x')
    fun W₂ y y' grows w₂ value' => ?_
  exact go_on W₂ x x' y y' ⟨⟨_, _, w₂, call⟩, value.still grows w₂ ht ht', value'⟩

end Forcing

end ChoiceGraph.Reflection
