import ChoiceGraph.Proofs.EchoedArguments

/-! # Head steps that echo each other

One lemma for each step of the prelude. Corresponding calls force corresponding arguments, and what the
steps read off the values is the same on both sides. So both become the same constant, or calls with
corresponding arguments, or indirections to corresponding nodes. -/
namespace ChoiceGraph.Reflection

open Eff Machine Reduction

variable {ν : Numbering} {W W₁ : Reflection ν} {γ δ : Type} {f : Unit → Eff γ} {f' : Nat → Unit → Eff δ}
  {Q : Reflection ν → γ → δ → Prop} {i i' p p' u u' x x' y y' a a' : NodeId} {c c' d d' : Content} {k F : Nat}
  {ls ls' ids ids' rest rest' nodes nodes' : List NodeId} {symbol : SymbolId} {sym : Symbol}

theorem Value.both (first : W.Value x x') (second : W.Value y y') :
    (∃ ρ, W.left.Inv [] ρ ∧ W.left.Live [] x ∧ W.left.Live [] y) ∧
      ∃ ρ, W.right.Inv [] ρ ∧ W.right.Live [] x' ∧ W.right.Live [] y' := by
  obtain ⟨⟨-, ⟨ρ, inv, live⟩, ρ', inv', live'⟩, -⟩ := first
  obtain ⟨⟨-, ⟨-, -, below⟩, -, -, below'⟩, -⟩ := second
  exact ⟨⟨ρ, inv, live, below⟩, ρ', inv', live', below'⟩

/-- Corresponding calls become a constant of the prelude. -/
theorem echoes_constant (w : W.Twins i i' c c') (call : c.IsCall) (le : 10 ≤ symbol)
    (lt : symbol < Signature.preludeEnd) (other : symbol ≠ Prelude.standard.spin)
    (arity : (Signature.standard.symbol? symbol).map Symbol.arity = some 0) :
    W.Echoes (rewriteTo i symbol []) (fun _ => rewriteTo i' symbol []) fun _ _ _ => True := by
  obtain ⟨sym, found, length⟩ := W.mirrors.sound.preludeArity symbol lt arity
  exact echoes_rewriteTo [] [] w call le found length.symm
    (W.mirrors.sound.tame le lt other) .nil

theorem echoes_succeed (w : W.Twins i i' c c') (call : c.IsCall) :
    W.Echoes (succeed i) (fun _ => succeed i') fun _ _ _ => True :=
  echoes_constant w call (by decide) (by decide) (by decide) rfl

/-- What is of the kind of partial applications misses as many arguments as it says. -/
theorem misses_of_kind {m : Machine} {ρ : Rank} (inv : m.Inv [] ρ) (live : m.Live [] x)
    (hc : m.graph.content? x = some d) (found : m.signature.symbol? d.symbol = some sym)
    (kind : sym.kind = .partialApplication) : d.tag = .operation ∧ m.graph.Misses x d.aux := by
  have fits := inv.fitsAt live hc
  rcases fits.of_partialKind inv.signature found kind with symbol | symbol
  · obtain ⟨missing, g, y, rfl⟩ := fits.of_partialApplication symbol
    exact ⟨rfl, .argument hc (inv.spines x _ live hc missing g y rfl)⟩
  · obtain ⟨g, sym, -, -, rfl⟩ := fits.of_function symbol
    exact ⟨rfl, .function hc⟩

/-! ## Unification -/

/-- What is told of new nodes once they have been written: they correspond, and others are left. -/
structure Drafted (W W₁ : Reflection ν) (rest rest' : List NodeId) : Prop where
  grows : W.Grows W₁
  kept : ∀ p p' c c', W.Twins p p' c c' → W₁.Twins p p' c c'
  fresh : W₁.Fresh rest rest'

theorem Drafted.trans {W₂ : Reflection ν} (h : W.Drafted W₁ ids ids') (h' : W₁.Drafted W₂ rest rest') :
    W.Drafted W₂ rest rest' :=
  ⟨h.grows.trans h'.grows, fun p p' c c' w => h'.kept p p' c c' (h.kept p p' c c' w), h'.fresh⟩

/-- Two new nodes are given the same symbol. -/
theorem echoes_draftTo (ls ls' : List NodeId) (fresh : W.Fresh (a :: ids) (a' :: ids')) (le : 10 ≤ symbol)
    (found : W.left.signature.symbol? symbol = some sym) (length : ls.length = sym.arity)
    (tame : W.left.signature.Tame symbol) (links : List.Forall₂ W.rel ls ls')
    (go_on : ∀ W₁, W.Drafted W₁ ids ids' → W₁.rel a a' → W₁.Echoes (f ()) (fun F => f' F ()) Q) :
    W.Echoes (rewriteTo a symbol (ls.map some) >>= f) (fun F => rewriteTo a' symbol (ls'.map some) >>= f' F)
      Q := by
  obtain ⟨tag, p⟩ := W.proper 0 le found length tame links
  have listed' : W.right.signature.tagFor symbol = .ok tag := by
    rw [W.mirrors.signature]
    exact p.listed
  have assoc : ∀ {γ : Type} (a : NodeId) (ls : List NodeId) (f : Unit → Eff γ),
      rewriteTo a symbol (ls.map some) >>= f = tagFor symbol >>= fun tag =>
        Eff.rewrite a tag symbol 0 (ls.map some) >>= f := fun a ls f => by
    unfold rewriteTo
    rw [bind_assoc]
  simp only [assoc]
  refine echoes_look p.listed listed' (echoes_draft fresh p.plain p.fits p.fits' p.tame p.mirrors ?_)
  exact fun W₁ grows kept drafted fresh => go_on W₁ ⟨grows, kept, fresh⟩ drafted

/-- Corresponding pairs of nodes are unified. -/
theorem echoes_unifyPairs : ∀ (pairs pairs' : List (NodeId × NodeId)) (nodes nodes' : List NodeId)
    (W : Reflection ν), nodes.length = pairs.length → nodes'.length = pairs'.length →
    W.Fresh (nodes ++ rest) (nodes' ++ rest') →
    List.Forall₂ (fun q q' => W.rel q.1 q'.1 ∧ W.rel q.2 q'.2) pairs pairs' →
    W.Echoes (unifyPairs nodes (pairs.map fun q => (some q.1, some q.2)))
      (fun _ => unifyPairs nodes' (pairs'.map fun q => (some q.1, some q.2))) fun W₁ _ _ =>
        List.Forall₂ W₁.rel nodes nodes' ∧ W.Drafted W₁ rest rest' := by
  intro pairs
  induction pairs with
  | nil =>
    intro pairs' nodes nodes' W length length' fresh related
    cases related
    rw [List.length_eq_zero_iff.mp length, List.length_eq_zero_iff.mp length'] at fresh ⊢
    exact echoes_pure ⟨.nil, .refl W, fun _ _ _ _ w => w, fresh⟩
  | cons q pairs ih =>
    intro pairs' nodes nodes' W length length' fresh related
    cases related with | @cons _ q' _ pairs' first others => ?_
    obtain ⟨node, nodes, rfl⟩ := List.exists_cons_of_length_eq_add_one length
    obtain ⟨node', nodes', rfl⟩ := List.exists_cons_of_length_eq_add_one length'
    obtain ⟨sym, found, arity⟩ := W.mirrors.sound.preludeArity Prelude.standard.unify (by decide) rfl
    refine echoes_draftTo [q.1, q.2] [q'.1, q'.2] fresh (by decide) found arity.symm
      (W.mirrors.sound.tame (by decide) (by decide) (by decide)) (.cons first.1 (.cons first.2 .nil))
      fun W₁ drafted related => ?_
    refine (ih pairs' nodes nodes' W₁ (Nat.succ.inj length) (Nat.succ.inj length') drafted.fresh
      (others.imp fun _ _ h => ⟨drafted.grows.rel _ _ h.1, drafted.grows.rel _ _ h.2⟩)).mono
      fun W₂ _ _ _ ⟨below, drafted'⟩ => ?_
    exact ⟨.cons (drafted'.grows.rel node node' related) below, drafted.trans drafted'⟩

/-- Corresponding nodes are joined by conjunctions. -/
theorem echoes_conjoin : ∀ (ids ids' nodes nodes' rest rest' : List NodeId) (W : Reflection ν),
    nodes.length = ids.length + 1 → ids.length = ids'.length → W.Fresh (ids ++ rest) (ids' ++ rest') →
    List.Forall₂ W.rel nodes nodes' →
    W.Echoes (conjoin nodes ids) (fun _ => conjoin nodes' ids') fun W₁ j j' =>
      W₁.rel j j' ∧ W.Drafted W₁ rest rest' := by
  intro ids
  induction ids with
  | nil =>
    intro ids' nodes nodes' rest rest' W length length' fresh related
    obtain rfl := List.length_eq_zero_iff.mp length'.symm
    obtain ⟨last, rfl⟩ := List.length_eq_one_iff.mp length
    cases related with | cons first none => ?_
    cases none
    exact echoes_pure ⟨first, .refl W, fun _ _ _ _ w => w, fresh⟩
  | cons a ids ih =>
    intro ids' nodes nodes' rest rest' W length length' fresh related
    obtain ⟨a', ids', rfl⟩ := List.exists_cons_of_length_eq_add_one length'.symm
    cases related with
    | nil => cases length
    | @cons node node' others others' first below => ?_
    cases below with
    | nil => cases length
    | @cons next next' nodes nodes' second below => ?_
    -- the conjunctions below are drafted while this one is new
    have order : ∀ (a : NodeId) (ids rest : List NodeId), (a :: ids ++ rest).Perm (ids ++ a :: rest) :=
      fun _ _ _ => List.perm_middle.symm
    refine (ih ids' (next :: nodes) (next' :: nodes') (a :: rest) (a' :: rest') W
      (Nat.succ.inj length) (Nat.succ.inj length') (fresh.perm (order a ids rest) (order a' ids' rest'))
      (.cons second below)).bind (conjoin_abides _ _).moves (fun _ => (rewriteTo_abides a _ _).moves.bind
        fun _ => moves_pure a) (fun _ _ => (rewriteTo_abides a' _ _).moves.bind fun _ => moves_pure a') ?_
    rintro W₁ j j' - - - ⟨hj, drafted⟩
    obtain ⟨sym, found, arity⟩ := W₁.mirrors.sound.preludeArity Prelude.standard.conjunction (by decide) rfl
    refine echoes_draftTo [node, j] [node', j'] drafted.fresh (by decide) found arity.symm
      (W₁.mirrors.sound.tame (by decide) (by decide) (by decide))
      (.cons (drafted.grows.rel _ _ first) (.cons hj .nil)) fun W₂ drafted' related => ?_
    exact echoes_pure ⟨related, drafted.trans drafted'⟩

theorem echoes_unifySuccessors {pairs pairs' : List (NodeId × NodeId)} (w : W.Twins i i' c c')
    (call : c.IsCall) (filled : pairs ≠ [])
    (related : List.Forall₂ (fun q q' => W.rel q.1 q'.1 ∧ W.rel q.2 q'.2) pairs pairs') :
    W.Echoes (unifySuccessors i (pairs.map fun q => (some q.1, some q.2)))
      (fun _ => unifySuccessors i' (pairs'.map fun q => (some q.1, some q.2))) fun _ _ _ => True := by
  have count : 1 ≤ pairs.length := List.length_pos_iff.mpr filled
  have same := related.length_eq
  unfold unifySuccessors
  simp only [List.length_map, ← same]
  have joined : ∀ (i : NodeId) ids nodes (_ : Unit),
      (conjoin ids nodes >>= fun last => rewriteForward i (some last)).Moves Pays := fun i ids nodes _ =>
    (conjoin_abides ids nodes).moves.bind fun last => (rewriteForward_abides i (some last)).moves
  refine (W.echoes_allocateBeside i i' (2 * pairs.length - 1)).bind (allocateBeside_abides i _).moves
    (fun _ => (unifyPairs_abides _ _).moves.bind (joined i _ _))
    (fun _ _ => (unifyPairs_abides _ _).moves.bind (joined i' _ _)) ?_
  rintro W₁ ids ids' grows - - ⟨fresh, size, size', kept⟩
  have size₁ : (ids.take pairs.length).length = pairs.length := by rw [List.length_take]; omega
  have size₁' : (ids'.take pairs.length).length = pairs'.length := by rw [List.length_take]; omega
  have size₂ : (ids.drop pairs.length).length = pairs.length - 1 := by rw [List.length_drop]; omega
  have size₂' : (ids'.drop pairs.length).length = pairs.length - 1 := by rw [List.length_drop]; omega
  rw [← List.take_append_drop pairs.length ids, ← List.take_append_drop pairs.length ids'] at fresh
  refine (echoes_unifyPairs pairs pairs' (ids.take pairs.length) (ids'.take pairs.length) W₁ size₁ size₁' fresh
    (related.imp fun _ _ h => ⟨grows.rel _ _ h.1, grows.rel _ _ h.2⟩)).bind (unifyPairs_abides _ _).moves
    (joined i _ _) (fun _ => joined i' _ _) ?_
  rintro W₂ _ _ - - - ⟨below, drafted⟩
  have fresh₂ := drafted.fresh
  rw [← List.append_nil (ids.drop pairs.length), ← List.append_nil (ids'.drop pairs.length)] at fresh₂
  refine (echoes_conjoin (ids.drop pairs.length) (ids'.drop pairs.length) _ _ [] [] W₂ (by omega) (by omega)
    fresh₂ below).bind (conjoin_abides _ _).moves (fun _ => (rewriteForward_abides i _).moves)
    (fun _ _ => (rewriteForward_abides i' _).moves) ?_
  rintro W₃ j j' - - - ⟨hj, drafted'⟩
  exact echoes_rewriteForward ((drafted.trans drafted').kept i i' c c' (kept i i' c c' w)) call hj

/-- Corresponding head normal forms are unified alike. -/
theorem echoes_unifyHeads (operands : W.Operands i i' x x' y y') :
    W.Echoes (unifyHeads i x y) (fun _ => unifyHeads i' x' y') fun _ _ _ => True := by
  obtain ⟨⟨c, c', w, call⟩, first, second⟩ := operands
  obtain ⟨d, d', v⟩ := first.twins
  obtain ⟨e, e', u⟩ := second.twins
  obtain ⟨s, node, cargo⟩ := TermGraph.node_content (t := W.left.toTermGraph) v.content
  obtain ⟨s', node', cargo'⟩ := TermGraph.node_content (t := W.right.toTermGraph) v.content'
  obtain ⟨q, nodeq, cargoq⟩ := TermGraph.node_content (t := W.left.toTermGraph) u.content
  obtain ⟨q', nodeq', cargoq'⟩ := TermGraph.node_content (t := W.right.toTermGraph) u.content'
  obtain ⟨sym, found, symbol, symbol'⟩ := v.symbol W.mirrors
  refine echoes_look node node' (echoes_look nodeq nodeq' ?_)
  dsimp only
  rw [← v.mirrors.symbol, ← u.mirrors.symbol]
  by_cases same : d.symbol = e.symbol
  swap
  · rw [if_pos same, if_pos same]
    exact W.echoes_rewriteFail w.twins
  rw [if_neg (not_not.mpr same), if_neg (not_not.mpr same)]
  refine echoes_look symbol symbol' ?_
  split
  · exact W.echoes_rewriteFail w.twins
  rw [TermGraph.literal_cargo cargo, TermGraph.literal_cargo cargo', TermGraph.literal_cargo cargoq,
    TermGraph.literal_cargo cargoq', ← v.mirrors.literal, ← u.mirrors.literal]
  split
  · split
    · exact echoes_succeed w.twins call
    · exact W.echoes_rewriteFail w.twins
  obtain ⟨links, links'⟩ := v.successors W.mirrors
  obtain ⟨linksq, linksq'⟩ := u.successors W.mirrors
  refine echoes_look links links' (echoes_look linksq linksq' ?_)
  have length : d.links.length = e.links.length := by
    obtain ⟨sym₁, found₁, -, length₁⟩ := v.fits.symbol W.mirrors.sound
    obtain ⟨sym₂, found₂, -, length₂⟩ := u.fits.symbol W.mirrors.sound
    rw [same] at found₁
    rw [length₁, length₂, Option.some.inj (found₁.symm.trans found₂)]
  have lengths := v.mirrors.links.length_eq
  have lengths' := u.mirrors.links.length_eq
  by_cases none : d.links = []
  · have none' : d'.links = [] := List.length_eq_zero_iff.mp (by rw [← lengths, none]; rfl)
    rw [none, none']
    exact echoes_succeed w.twins call
  have some_ : ∀ {ls : List NodeId}, ls ≠ [] → ¬ (ls.map some).isEmpty = true := fun h => by simpa using h
  have none' : d'.links ≠ [] := fun none' => none (List.length_eq_zero_iff.mp (by rw [lengths, none']; rfl))
  have pairs : ∀ ls ms : List NodeId, (ls.map some).zip (ms.map some) =
      (ls.zip ms).map fun q => (some q.1, some q.2) := fun ls ms => by
    rw [List.zip_map]
    rfl
  rw [if_neg (some_ none), if_neg (some_ none'), if_pos (by simp only [List.length_map]; omega),
    if_pos (by simp only [List.length_map]; omega), pairs, pairs]
  refine echoes_unifySuccessors w.twins call (fun empty => none ?_) ?_
  · have size := congrArg List.length empty
    rw [List.length_zip, ← length, Nat.min_self] at size
    exact List.length_eq_zero_iff.mp size
  · rw [List.forall₂_iff_get]
    refine ⟨by simp only [List.length_zip, lengths, lengths'], fun n lt lt' => ?_⟩
    rw [List.length_zip] at lt lt'
    simp only [List.get_eq_getElem, List.getElem_zip]
    exact ⟨v.mirrors.links.get (by omega) (by omega), u.mirrors.links.get (by omega) (by omega)⟩

section Steps

private theorem arithmetic_moves (i : NodeId) (op : Arithmetic) (x y : NodeId) : (do
    match ← look (·.literal? x), ← look (·.literal? y) with
    | some (.int a), some (.int b) =>
      match op.apply a b with
      | some v => rewriteInt i v
      | none => rewriteFail i
    | _, _ => rewriteFail i : Eff Unit).Moves Pays := by
  refine (moves_look _).bind fun l => (moves_look _).bind fun r => ?_
  split
  · split
    · exact (rewriteInt_abides i _).moves
    · exact (rewriteFail_abides i).moves
  · exact (rewriteFail_abides i).moves

private theorem applied_moves (i f : NodeId) : (do
    let x ← look (·.successor i 1)
    let missing ← look (·.aux f)
    if (← look (·.symbol f)).kind ≠ .partialApplication ∨ missing = 0 then
      rewriteFail i
    else if 1 < missing then
      Eff.rewrite i .operation Builtin.partialApplication (missing - 1) [some f, x]
    else
      match ← look (·.partialSpine f) with
      | none => rewriteFail i
      | some (target, args) => rewriteTo i target (args ++ [x]) : Eff Unit).Moves Pays := by
  refine (moves_look _).bind fun x => (moves_look _).bind fun missing => (moves_look _).bind fun sym => ?_
  split
  · exact (rewriteFail_abides i).moves
  · split
    · exact (rewrite_abides i _ _ _ _).moves
    · refine (moves_look _).bind fun spine => ?_
      split
      · exact (rewriteFail_abides i).moves
      · exact (rewriteTo_abides i _ _).moves

variable (ih : Reflects ν F) (w : W.Pair i i' c c') (call : c.IsCall) (ht : c.links[0]? = some p)

section Strict

include ih w call ht

theorem echoes_stepArithmetic (hu : c.links[1]? = some u) (op : Arithmetic) :
    W.Echoes (stepArithmetic (reducer F) op i) (fun G => stepArithmetic (reducer G) op i')
      fun _ _ _ => True := by
  refine echoes_withHeads ih w call ht hu (arithmetic_moves i op) (arithmetic_moves i' op)
    fun W₁ x x' y y' operands => ?_
  obtain ⟨⟨c₁, c₁', w₁, -⟩, first, second⟩ := operands
  obtain ⟨d, d', v⟩ := first.twins
  obtain ⟨e, e', v'⟩ := second.twins
  refine echoes_look (TermGraph.literal_content v.content) (TermGraph.literal_content v.content')
    (echoes_look (TermGraph.literal_content v'.content) (TermGraph.literal_content v'.content') ?_)
  rw [← v.mirrors.literal, ← v'.mirrors.literal]
  split
  · split
    · exact W₁.echoes_rewriteInt w₁.twins _
    · exact W₁.echoes_rewriteFail w₁.twins
  · exact W₁.echoes_rewriteFail w₁.twins

theorem echoes_stepEquals (hu : c.links[1]? = some u) :
    W.Echoes (stepEquals (reducer F) i) (fun G => stepEquals (reducer G) i') fun _ _ _ => True := by
  refine echoes_withNormals ih w call ht hu
    (fun x y => (moves_look _).bind fun same => (rewriteTo_abides i _ _).moves)
    (fun x y => (moves_look _).bind fun same => (rewriteTo_abides i' _ _).moves)
    fun W₁ x x' y y' operands => ?_
  obtain ⟨⟨c₁, c₁', w₁, call₁⟩, first, second⟩ := operands
  obtain ⟨⟨ρ, inv, live, below⟩, ρ', inv', live', below'⟩ := first.both second
  obtain ⟨same, read⟩ := inv.read_equals live below
  obtain ⟨same', read'⟩ := inv'.read_equals live' below'
  obtain rfl := W₁.mirrors.equals_agrees first.alive.related second.alive.related same same' read read'
  refine echoes_look read read' ?_
  cases same
  · exact echoes_constant w₁.twins call₁ (by decide) (by decide) (by decide) rfl
  · exact echoes_constant w₁.twins call₁ (by decide) (by decide) (by decide) rfl

theorem echoes_stepCompare (hu : c.links[1]? = some u) :
    W.Echoes (stepCompare (reducer F) i) (fun G => stepCompare (reducer G) i') fun _ _ _ => True := by
  refine echoes_withNormals ih w call ht hu
    (fun x y => (moves_look _).bind fun order => by cases order <;> exact (rewriteTo_abides i _ _).moves)
    (fun x y => (moves_look _).bind fun order => by cases order <;> exact (rewriteTo_abides i' _ _).moves)
    fun W₁ x x' y y' operands => ?_
  obtain ⟨⟨c₁, c₁', w₁, call₁⟩, first, second⟩ := operands
  obtain ⟨⟨ρ, inv, live, below⟩, ρ', inv', live', below'⟩ := first.both second
  obtain ⟨order, read⟩ := inv.read_order live below
  obtain ⟨order', read'⟩ := inv'.read_order live' below'
  obtain rfl := W₁.mirrors.order_agrees first.alive.related second.alive.related order order' read read'
  refine echoes_look read read' ?_
  cases order
  · exact echoes_constant w₁.twins call₁ (by decide) (by decide) (by decide) rfl
  · exact echoes_constant w₁.twins call₁ (by decide) (by decide) (by decide) rfl
  · exact echoes_constant w₁.twins call₁ (by decide) (by decide) (by decide) rfl

theorem echoes_stepConjunction (hu : c.links[1]? = some u) :
    W.Echoes (stepConjunction (reducer F) i) (fun G => stepConjunction (reducer G) i')
      fun _ _ _ => True := by
  refine echoes_withHeads ih w call ht hu (fun _ _ => succeed_moves i) (fun _ _ => succeed_moves i')
    fun W₁ _ _ _ _ operands => ?_
  obtain ⟨⟨c₁, c₁', w₁, call₁⟩, -⟩ := operands
  exact echoes_succeed w₁.twins call₁

theorem echoes_stepGuard (hu : c.links[1]? = some u) :
    W.Echoes (stepGuard (reducer F) i) (fun G => stepGuard (reducer G) i') fun _ _ _ => True := by
  refine echoes_withHead ih w ht (fun _ => (moves_look _).bind fun l => (rewriteForward_abides i l).moves)
    (fun _ _ => (moves_look _).bind fun l => (rewriteForward_abides i' l).moves) fun W₁ x x' _ w₁ _ => ?_
  have hu₁ : (c.setLink 0 x).links[1]? = some u := (Content.setLink_other (by decide)).trans hu
  obtain ⟨u', hu₁', alive⟩ := w₁.link hu₁
  obtain ⟨read, read'⟩ := reads_link w₁.twins hu₁ hu₁'
  exact echoes_look read read' (echoes_rewriteForward w₁.twins call alive.related)

theorem echoes_stepEnsureNotFree :
    W.Echoes (stepEnsureNotFree (reducer F) i) (fun G => stepEnsureNotFree (reducer G) i')
      fun _ _ _ => True :=
  echoes_withHead ih w ht (fun x => (rewriteForward_abides i (some x)).moves)
    (fun _ x => (rewriteForward_abides i' (some x)).moves) fun _ _ _ _ w₁ value =>
    echoes_rewriteForward w₁.twins call value.alive.related

theorem echoes_stepStrictApply (hu : c.links[1]? = some u) :
    W.Echoes (stepStrictApply (reducer F) i) (fun G => stepStrictApply (reducer G) i')
      fun _ _ _ => True := by
  have applied : ∀ i : NodeId, (do
      let f ← look (·.successor i 0)
      let x ← look (·.successor i 1)
      rewriteTo i Prelude.standard.apply [f, x] : Eff Unit).Moves Pays := fun i =>
    (moves_look _).bind fun f => (moves_look _).bind fun x => (rewriteTo_abides i _ _).moves
  refine echoes_withHead ih w hu (fun _ => applied i) (fun _ _ => applied i') fun W₁ x x' _ w₁ value => ?_
  have ht₁ : (c.setLink 1 x).links[0]? = some p := (Content.setLink_other (by decide)).trans ht
  have hu₁ : (c.setLink 1 x).links[1]? = some x := Content.setLink_self hu
  obtain ⟨p', ht₁', first⟩ := w₁.link ht₁
  obtain ⟨y', hu₁', second⟩ := w₁.link hu₁
  obtain ⟨read, read'⟩ := reads_link w₁.twins ht₁ ht₁'
  obtain ⟨read₁, read₁'⟩ := reads_link w₁.twins hu₁ hu₁'
  obtain ⟨sym, found, arity⟩ := W₁.mirrors.sound.preludeArity Prelude.standard.apply (by decide) rfl
  refine echoes_look read read' (echoes_look read₁ read₁' ?_)
  exact echoes_rewriteTo [p, x] [p', y'] w₁.twins call (by decide) found arity.symm
    (W₁.mirrors.sound.tame (by decide) (by decide) (by decide))
    (.cons first.related (.cons second.related .nil))

theorem echoes_stepUnify (hu : c.links[1]? = some u) :
    W.Echoes (stepUnify (reducer F) i) (fun G => stepUnify (reducer G) i') fun _ _ _ => True := by
  obtain ⟨p', ht', first⟩ := w.link ht
  obtain ⟨u', hu', second⟩ := w.link hu
  obtain ⟨read, read'⟩ := reads_link w.twins ht ht'
  obtain ⟨read₁, read₁'⟩ := reads_link w.twins hu hu'
  obtain ⟨a, a', d, d', skip, skip', -, -, v⟩ := first.skips
  obtain ⟨b, b', e, e', skip₁, skip₁', -, -, v'⟩ := second.skips
  refine echoes_look (reads_skip read skip) (reads_skip read' skip')
    (echoes_look (reads_skip read₁ skip₁) (reads_skip read₁' skip₁')
      (echoes_look (TermGraph.tag_content v.content) (TermGraph.tag_content v.content')
        (echoes_look (TermGraph.tag_content v'.content) (TermGraph.tag_content v'.content') ?_)))
  have bound : ¬ (d.tag = .free ∧ e.tag = .free) := fun both =>
    (W.tame a a' d v.related v.content).bound both.1
  rw [← v.mirrors.tag, ← v'.mirrors.tag]
  simp only [if_neg bound]
  exact echoes_withHeads ih w call ht hu (fun x y => (unifyHeads_abides i x y).moves)
    (fun x y => (unifyHeads_abides i' x y).moves)
    fun W₁ x x' y y' operands => echoes_unifyHeads operands

theorem echoes_stepApply (hu : c.links[1]? = some u) :
    W.Echoes (stepApply (reducer F) i) (fun G => stepApply (reducer G) i') fun _ _ _ => True := by
  refine echoes_withHead ih w ht (applied_moves i) (fun _ => applied_moves i') fun W₁ g g' _ w₁ value => ?_
  have hu₁ : (c.setLink 0 g).links[1]? = some u := (Content.setLink_other (by decide)).trans hu
  obtain ⟨u', hu₁', argument⟩ := w₁.link hu₁
  obtain ⟨read, read'⟩ := reads_link w₁.twins hu₁ hu₁'
  obtain ⟨d, d', v⟩ := value.twins
  obtain ⟨sym, found, reads, reads'⟩ := v.symbol W₁.mirrors
  refine echoes_look read read' (echoes_look (TermGraph.aux_content v.content)
    (TermGraph.aux_content v.content') (echoes_look reads reads' ?_))
  by_cases kind : sym.kind = .partialApplication
  swap
  · rw [if_pos (.inl kind), if_pos (.inl kind)]
    exact W₁.echoes_rewriteFail w₁.twins
  obtain ⟨ρ, inv, live⟩ := value.alive.left
  obtain ⟨ρ', inv', live'⟩ := value.alive.right
  have found' : W₁.right.signature.symbol? d'.symbol = some sym := by
    rw [← v.mirrors.symbol]
    exact (congrArg (·.symbol? d.symbol) W₁.mirrors.signature).trans found
  obtain ⟨operation, misses⟩ := misses_of_kind inv live v.content found kind
  obtain ⟨-, misses'⟩ := misses_of_kind inv' live' v.content' found' kind
  have aux : d.aux = d'.aux := v.mirrors.aux (operation ▸ nofun)
  rw [← aux]
  by_cases full : d.aux = 0
  · rw [if_pos (.inr full), if_pos (.inr full)]
    exact W₁.echoes_rewriteFail w₁.twins
  have proper : ¬ (sym.kind ≠ .partialApplication ∨ d.aux = 0) := not_or.mpr ⟨not_not.mpr kind, full⟩
  rw [if_neg proper, if_neg proper]
  by_cases more : 1 < d.aux
  · rw [if_pos more, if_pos more]
    have other : ∀ {n : Nat} {cargo : Cargo},
        ¬ Content.IsCall ⟨.operation, Builtin.partialApplication, n, cargo⟩ := fun call =>
      call.2 (.inr (.inr (.inr (.inl rfl))))
    exact W₁.echoes_rewrite [g, u] [g', u'] w₁.twins nofun (.partialApplication _ g u)
      (.partialApplication _ g' u')
      ⟨nofun, (by decide : Builtin.partialApplication ≠ Builtin.narrowed), fun call => absurd call other, nofun⟩
      (by rw [if_neg nofun]) (.cons value.alive.related (.cons argument.related .nil))
      fun call => absurd call other
  rw [if_neg more, if_neg more]
  have one : d.aux = 1 := by omega
  have agree := W₁.mirrors.partialSpine_agrees (T := W₁.left.signature.Tame)
    (fun p p' c c' f w cargo => (W₁.tame p p' c w.related w.content).function f cargo) value.alive.related
  rcases inv.read_spine live misses with run | ⟨target, args, run, spine⟩ <;>
    rcases inv'.read_spine live' misses' with run' | ⟨target', args', run', -⟩
  · exact echoes_look run run' (W₁.echoes_rewriteFail w₁.twins)
  · nomatch agree _ _ run run'
  · nomatch agree _ _ run run'
  obtain @⟨_, _, rfl, tame, related⟩ := agree _ _ run run'
  rw [List.forall₂_map_left_iff, List.forall₂_map_right_iff] at related
  obtain ⟨sym, found, count⟩ := spine.symbol
  refine echoes_look run run' ?_
  have links : ∀ (args : List NodeId) (u : NodeId), args.map some ++ [some u] = (args ++ [u]).map some :=
    fun args u => by rw [List.map_append]; rfl
  dsimp only
  rw [links, links]
  refine echoes_rewriteTo _ _ w₁.twins call spine.proper found ?_ tame (List.rel_append ?_ ?_)
  · rw [List.length_append, List.length_singleton, ← one, count]
  · exact related.imp fun _ _ h => by cases h; assumption
  · exact .cons argument.related .nil

end Strict

include w ht in
/-- Corresponding calls of the choice function become choices of corresponding nodes. -/
theorem echoes_stepChoose (hu : c.links[1]? = some u) :
    W.Echoes (stepChoose i) (fun _ => stepChoose i') fun _ _ _ => True := by
  obtain ⟨p', ht', first⟩ := w.link ht
  obtain ⟨u', hu', second⟩ := w.link hu
  obtain ⟨read, read'⟩ := reads_link w.twins ht ht'
  obtain ⟨read₁, read₁'⟩ := reads_link w.twins hu hu'
  refine echoes_look read read' (echoes_look read₁ read₁' ?_)
  refine echoes_step W.numbered (v := W.left.nextId) (b := W.right.nextId) rfl rfl rfl rfl
    W.grows_numbered ?_
  have w₁ : W.numbered.Twins i i' c c' := ⟨w.twins.related, w.twins.content, w.twins.content', w.twins.plain,
    w.twins.fits, w.twins.fits', w.twins.mirrors⟩
  exact W.numbered.echoes_rewrite [p, u] [p', u'] w₁ nofun (.choice _ p u) (.choice _ p' u')
    ⟨nofun, (by decide : Builtin.choice ≠ Builtin.narrowed), nofun, nofun⟩
    (by rw [if_pos rfl]; exact W.fresh 0) (.cons first.related (.cons second.related .nil)) nofun

include ih w in
/-- Corresponding calls have the arguments that their step reads. -/
theorem echoes_headWork (call : c.IsCall) :
    W.Echoes (headWork (reducer F) i) (fun G => headWork (reducer G) i') fun _ _ _ => True := by
  obtain ⟨sym, found, symbol, symbol'⟩ := w.twins.symbol W.mirrors
  obtain ⟨_, found', -, length⟩ := w.twins.fits.symbol W.mirrors.sound
  cases found.symm.trans found'
  obtain ⟨_, reads, le⟩ := (w.twins.fits.of_isCall found call).reads
  obtain ⟨spin, forward⟩ := (W.tame i i' c w.twins.related w.twins.content).call call sym found
  refine echoes_look symbol symbol' ?_
  have argument : ∀ k n, sym.head.reads? = some n → k < n → ∃ t, c.links[k]? = some t := by
    intro k n' reads' lt
    cases reads.symm.trans reads'
    exact ⟨_, List.getElem?_eq_getElem (length ▸ Nat.lt_of_lt_of_le lt le)⟩
  have pair : sym.head.reads? = some 2 → ∃ t u, c.links[0]? = some t ∧ c.links[1]? = some u :=
    fun reads => by
      obtain ⟨t, ht⟩ := argument 0 2 reads (by decide)
      obtain ⟨u, hu⟩ := argument 1 2 reads (by decide)
      exact ⟨t, u, ht, hu⟩
  cases head : sym.head with
  | none => exact echoes_pure trivial
  | fail => exact W.echoes_rewriteFail w.twins
  | spin => exact absurd head spin
  | forward => exact absurd head forward
  | rule rule =>
    rw [head] at reads
    cases reads
  | ensureNotFree =>
    obtain ⟨t, ht⟩ := argument 0 1 (head ▸ rfl) (by decide)
    exact echoes_stepEnsureNotFree ih w call ht
  | arithmetic op =>
    obtain ⟨t, u, ht, hu⟩ := pair (head ▸ rfl)
    exact echoes_stepArithmetic ih w call ht hu op
  | equals =>
    obtain ⟨t, u, ht, hu⟩ := pair (head ▸ rfl)
    exact echoes_stepEquals ih w call ht hu
  | compare =>
    obtain ⟨t, u, ht, hu⟩ := pair (head ▸ rfl)
    exact echoes_stepCompare ih w call ht hu
  | choose =>
    obtain ⟨t, u, ht, hu⟩ := pair (head ▸ rfl)
    exact echoes_stepChoose w ht hu
  | unify =>
    obtain ⟨t, u, ht, hu⟩ := pair (head ▸ rfl)
    exact echoes_stepUnify ih w call ht hu
  | conjunction =>
    obtain ⟨t, u, ht, hu⟩ := pair (head ▸ rfl)
    exact echoes_stepConjunction ih w call ht hu
  | guard =>
    obtain ⟨t, u, ht, hu⟩ := pair (head ▸ rfl)
    exact echoes_stepGuard ih w call ht hu
  | strictApply =>
    obtain ⟨t, u, ht, hu⟩ := pair (head ▸ rfl)
    exact echoes_stepStrictApply ih w call ht hu
  | apply =>
    obtain ⟨t, u, ht, hu⟩ := pair (head ▸ rfl)
    exact echoes_stepApply ih w call ht hu

end Steps

end ChoiceGraph.Reflection
