import ChoiceGraph.Proofs.Reflections
import ChoiceGraph.Proofs.Rewriting
import ChoiceGraph.Proofs.Sums

/-! # Effects that echo each other

Two machines reflect each other, and an effect runs on each of them. The one effect is echoed by the other
if both return alike or stop alike, and the machines still reflect each other after they have returned.
How deep the second one may nest is left open: it may have to follow indirections that the first one
does not meet. How many free slots each of them has is left open too: neither runs further than to a
collection. -/
namespace ChoiceGraph.Reflection

open Eff Machine

variable {ν : Numbering} {W : Reflection ν} {α β γ δ : Type} {e : Eff α} {e' : Nat → Eff β} {f : α → Eff γ} {f' : Nat → β → Eff δ}
  {P : Reflection ν → α → β → Prop} {Q : Reflection ν → γ → δ → Prop} {b : β} {v : α} {m m' : Machine}
  {stop : Stop} {r : Except Stop γ}

/-! ## Effects that collect -/

/-- From some of them on, the effects come to a collection, or to a fault. -/
def Collects (e' : Nat → Eff β) (m : Machine) : Prop :=
  ∃ N, ∀ F ≥ N, ∀ r m', e' F m = outcome r m' → m.collections < m'.collections ∨ ∃ x, r = .error (.fault x)

theorem Collects.bind (h : Collects e' m) (moves : ∀ F b, (f' F b).Moves Pays) :
    Collects (fun F => e' F >>= f' F) m := by
  obtain ⟨N, collects⟩ := h
  refine ⟨N, fun F enough r m' run => ?_⟩
  cases first : e' F m with
  | ok b m₁ =>
    have counted := ((moves F b).outcome ((bind_ok first).symm.trans run)).counts
    rcases collects F enough (.ok b) m₁ first with lt | ⟨x, same⟩
    · exact .inl (Nat.lt_of_lt_of_le lt counted)
    · cases same
  | error stop m₁ =>
    have stopped := (bind_error first).symm.trans run
    cases r with
    | ok d => cases stopped
    | error stop' =>
      cases stopped
      rcases collects F enough (.error stop) _ first with lt | ⟨x, same⟩
      · exact .inl lt
      · cases same
        exact .inr ⟨x, rfl⟩

theorem Collects.after {N : Nat} (h : Collects (fun F => f' F b) m')
    (first : ∀ F ≥ N, (e' F).Ends m (.ok b) m') : Collects (fun F => e' F >>= f' F) m := by
  obtain ⟨N', collects⟩ := h
  refine ⟨max N N', fun F enough r m₁ run => ?_⟩
  have ends := first F (by omega)
  rw [← ends.uncollected]
  exact collects F (by omega) r m₁ ((bind_ok ends.run).symm.trans run)

theorem collects_of_later (h : Collects (fun F => e' (F + 1)) m) : Collects e' m := by
  obtain ⟨N, collects⟩ := h
  refine ⟨N + 1, fun F enough r m' run => ?_⟩
  obtain ⟨F, rfl⟩ := Nat.exists_eq_add_of_le' (Nat.le_trans (Nat.le_add_left 1 N) enough)
  exact collects F (by omega) r m' run

/-! ## Echoes -/

/-- What the effect comes to on the first machine, the other effects come to on the second one, from
some of them on and unless they collect. -/
structure Echoes (W : Reflection ν) (e : Eff α) (e' : Nat → Eff β) (P : Reflection ν → α → β → Prop) :
    Prop where
  returns : ∀ a m, e.Ends W.left (.ok a) m → ¬ Collects e' W.right → ∃ N b W₁, W.Grows W₁ ∧ W₁.left = m ∧
    (∀ F ≥ N, (e' F).Ends W.right (.ok b) W₁.right) ∧ P W₁ a b
  stops : ∀ stop m, e.Ends W.left (.error stop) m → ¬ Collects e' W.right →
    ∃ N m', ∀ F ≥ N, (e' F).Ends W.right (.error stop) m'

theorem ends_andThen (first : e.Ends m (.ok v) m') {m₁ : Machine} (rest : (f v).Ends m' r m₁) :
    (e >>= f).Ends m r m₁ :=
  ⟨(bind_ok first.run).trans rest.run, rest.uncollected.trans first.uncollected, rest.final⟩

theorem ends_stopped (first : e.Ends m (.error stop) m') : (e >>= f).Ends m (.error stop) m' := by
  refine ⟨bind_error first.run, first.uncollected, ?_⟩
  rintro _ ⟨⟩
  exact first.final _ rfl

theorem echoes_pure (h : P W v b) : W.Echoes (pure v) (fun _ => pure b) P where
  returns a m ends _ := by
    obtain ⟨⟨⟩, rfl⟩ := ends_pure ends
    exact ⟨0, b, W, .refl W, rfl, fun _ _ => ends_of_ok rfl rfl, h⟩
  stops stop m ends _ := nomatch (ends_pure ends).1

theorem echoes_fault (x : Fault) : W.Echoes (fault x : Eff α) e' P where
  returns a m ends _ := nomatch ends.run
  stops stop m ends _ := by
    have run := ends.run
    cases run
    exact (ends.final _ rfl).elim

/-- What does not end needs no echo. -/
theorem echoes_starved (run : e W.left = .error .outOfFuel W.left) : W.Echoes e e' P where
  returns a m ends _ := nomatch run.symm.trans ends.run
  stops stop m ends _ := by
    have same := run.symm.trans ends.run
    cases same
    exact (ends.final _ rfl).elim

theorem Echoes.mono {P' : Reflection ν → α → β → Prop} (h : W.Echoes e e' P)
    (le : ∀ W₁ a b, W.Grows W₁ → P W₁ a b → P' W₁ a b) : W.Echoes e e' P' where
  returns a m ends kept := by
    obtain ⟨N, b, W₁, grows, left, right, p⟩ := h.returns a m ends kept
    exact ⟨N, b, W₁, grows, left, right, le W₁ a b grows p⟩
  stops := h.stops

/-- Effects before some bound make no difference. -/
theorem Echoes.later (h : W.Echoes e (fun F => e' (F + 1)) P) : W.Echoes e e' P where
  returns a m ends kept := by
    obtain ⟨N, b, W₁, grows, left, right, p⟩ := h.returns a m ends fun collects => kept (collects_of_later collects)
    refine ⟨N + 1, b, W₁, grows, left, fun F enough => ?_, p⟩
    obtain ⟨F, rfl⟩ := Nat.exists_eq_add_of_le' (Nat.le_trans (Nat.le_add_left 1 N) enough)
    exact right F (by omega)
  stops stop m ends kept := by
    obtain ⟨N, m', right⟩ := h.stops stop m ends fun collects => kept (collects_of_later collects)
    refine ⟨N + 1, m', fun F enough => ?_⟩
    obtain ⟨F, rfl⟩ := Nat.exists_eq_add_of_le' (Nat.le_trans (Nat.le_add_left 1 N) enough)
    exact right F (by omega)

/-- Effects in two parts echo each other if their parts do. -/
theorem Echoes.bind (h : W.Echoes e e' P) (moves : e.Moves Pays) (rest : ∀ a, (f a).Moves Pays)
    (rest' : ∀ F b, (f' F b).Moves Pays)
    (go_on : ∀ W₁ a b, W.Grows W₁ → e.Ends W.left (.ok a) W₁.left →
      (∃ F, (e' F).Ends W.right (.ok b) W₁.right) → P W₁ a b → W₁.Echoes (f a) (fun F => f' F b) Q) :
    W.Echoes (e >>= f) (fun F => e' F >>= f' F) Q where
  returns c m ends kept := by
    have spared : ¬ Collects e' W.right := fun collects => kept (collects.bind rest')
    obtain ⟨a, m₁, first, second⟩ | ⟨stop, same, -⟩ := ends.bind moves rest
    · obtain ⟨N, b, W₁, grows, rfl, right, p⟩ := h.returns a m₁ first spared
      obtain ⟨N', d, W₂, grows', rfl, right', q⟩ :=
        (go_on W₁ a b grows first ⟨N, right N le_rfl⟩ p).returns c m second
          fun collects => kept (collects.after right)
      refine ⟨max N N', d, W₂, grows.trans grows', rfl, fun F enough => ?_, q⟩
      exact ends_andThen (right F (by omega)) (right' F (by omega))
    · cases same
  stops stop m ends kept := by
    have spared : ¬ Collects e' W.right := fun collects => kept (collects.bind rest')
    obtain ⟨a, m₁, first, second⟩ | ⟨stop, ⟨⟩, first⟩ := ends.bind moves rest
    · obtain ⟨N, b, W₁, grows, rfl, right, p⟩ := h.returns a m₁ first spared
      obtain ⟨N', m', right'⟩ := (go_on W₁ a b grows first ⟨N, right N le_rfl⟩ p).stops stop m second
        fun collects => kept (collects.after right)
      refine ⟨max N N', m', fun F enough => ?_⟩
      exact ends_andThen (right F (by omega)) (right' F (by omega))
    · obtain ⟨N, m', right⟩ := h.stops stop m first spared
      exact ⟨N, m', fun F enough => ends_stopped (right F enough)⟩

/-- Both sides are changed before they go on. -/
theorem echoes_step {e' : Eff β} (W₁ : Reflection ν) (run : e W.left = .ok v W₁.left)
    (run' : e' W.right = .ok b W₁.right) (same : W₁.left.collections = W.left.collections)
    (same' : W₁.right.collections = W.right.collections) (grows : W.Grows W₁)
    (go_on : W₁.Echoes (f v) (fun F => f' F b) Q) :
    W.Echoes (e >>= f) (fun F => e' >>= f' F) Q where
  returns c m ends kept := by
    obtain ⟨N, d, W₂, grows', rfl, right, q⟩ := go_on.returns c m
      ⟨(bind_ok run).symm.trans ends.run, ends.uncollected.trans same.symm, ends.final⟩
      fun collects => kept (collects.after (N := 0) fun F _ => ends_of_ok run' same')
    exact ⟨N, d, W₂, grows.trans grows', rfl,
      fun F enough => ends_andThen (ends_of_ok run' same') (right F enough), q⟩
  stops stop m ends kept := by
    obtain ⟨N, m', right⟩ := go_on.stops stop m
      ⟨(bind_ok run).symm.trans ends.run, ends.uncollected.trans same.symm, ends.final⟩
      fun collects => kept (collects.after (N := 0) fun F _ => ends_of_ok run' same')
    exact ⟨N, m', fun F enough => ends_andThen (ends_of_ok run' same') (right F enough)⟩

/-- Only the first machine is changed. -/
theorem echoes_left {e' : Nat → Eff δ} (W₁ : Reflection ν) (run : e W.left = .ok v W₁.left)
    (still : W₁.right = W.right) (same : W₁.left.collections = W.left.collections) (grows : W.Grows W₁)
    (go_on : W₁.Echoes (f v) e' Q) : W.Echoes (e >>= f) e' Q := by
  have stays : (pure () : Eff Unit) W.right = .ok () W₁.right := by
    rw [still]
    rfl
  let later (F : Nat) (_ : Unit) : Eff δ := e' F
  have rest : W₁.Echoes (f v) (fun F => later F ()) Q := go_on
  exact echoes_step W₁ run stays same (congrArg _ still) grows rest

/-- Only the second machine is changed. -/
theorem echoes_right {e : Eff γ} {e' : Eff β} (W₁ : Reflection ν) (still : W₁.left = W.left)
    (run' : e' W.right = .ok b W₁.right) (same' : W₁.right.collections = W.right.collections)
    (grows : W.Grows W₁) (go_on : W₁.Echoes e (fun F => f' F b) Q) :
    W.Echoes e (fun F => e' >>= f' F) Q :=
  echoes_step (e := pure ()) (v := ()) (f := fun _ => e) W₁ (still ▸ rfl) run' (still ▸ rfl) same' grows go_on

theorem echoes_look {read : Machine → Except Fault α} {read' : Machine → Except Fault β}
    (value : read W.left = .ok v) (value' : read' W.right = .ok b)
    (go_on : W.Echoes (f v) (fun F => f' F b) Q) :
    W.Echoes (look read >>= f) (fun F => look read' >>= f' F) Q :=
  echoes_step W (look_ok value) (look_ok value') rfl rfl (.refl W) go_on

theorem echoes_look_left {read : Machine → Except Fault α} {e' : Nat → Eff δ} (value : read W.left = .ok v)
    (go_on : W.Echoes (f v) e' Q) : W.Echoes (look read >>= f) e' Q :=
  echoes_left W (look_ok value) rfl rfl (.refl W) go_on

theorem echoes_look_right {read : Machine → Except Fault β} {e : Eff γ} (value : read W.right = .ok b)
    (go_on : W.Echoes e (fun F => f' F b) Q) : W.Echoes e (fun F => look read >>= f' F) Q :=
  echoes_right W rfl (look_ok value) rfl (.refl W) go_on

/-- Both sides stop before anything is changed. -/
theorem echoes_refused {e' : Eff β} (run : e W.left = .error stop W.left)
    (run' : e' W.right = .error stop W.right) : W.Echoes (e >>= f) (fun F => e' >>= f' F) Q where
  returns c m ends _ := nomatch (bind_error run).symm.trans ends.run
  stops stop' m ends _ := by
    obtain rfl : stop = stop' := by
      have run := (bind_error run).symm.trans ends.run
      cases run
      rfl
    refine ⟨0, W.right, fun F _ => ⟨bind_error run', rfl, ?_⟩⟩
    rintro _ ⟨⟩
    exact ends.final _ rfl

/-- The end of two effects. -/
theorem echoes_last {e' : Eff β} (h : W.Echoes (e >>= pure) (fun _ => e' >>= pure) P) :
    W.Echoes e (fun _ => e') P := by
  simpa only [bind_pure] using h

/-! ## Paying -/

theorem tick_paid (free : m.Unhindered) : Reduction.tick m = .ok () { m with slice := m.slice.spend } := by
  unfold Reduction.tick
  rw [free.isOver]
  rfl

section Paying

variable {f : Unit → Eff γ} {e : Eff γ} {f' : Nat → Unit → Eff δ} {e' : Nat → Eff δ}

theorem echoes_paidLeft (h : W.paidLeft.Echoes (f ()) e' Q) : W.Echoes (Reduction.tick >>= f) e' Q :=
  echoes_left W.paidLeft (tick_paid W.unhindered.1) rfl rfl W.grows_paidLeft h

theorem echoes_paidRight (h : W.paidRight.Echoes e (fun F => f' F ()) Q) :
    W.Echoes e (fun F => Reduction.tick >>= f' F) Q :=
  echoes_right W.paidRight rfl (tick_paid W.unhindered.2) rfl W.grows_paidRight h

theorem echoes_paid (h : W.paidLeft.paidRight.Echoes (f ()) (fun F => f' F ()) Q) :
    W.Echoes (Reduction.tick >>= f) (fun F => Reduction.tick >>= f' F) Q :=
  echoes_paidLeft (echoes_paidRight h)

end Paying

/-! ## Writing -/

variable {i i' j j' : NodeId} {c c' d d' : Content} {ls ls' : List NodeId} {symbol : SymbolId} {sym : Symbol}

/-- The same number of links is stored on both sides, or refused alike. -/
theorem rewrites (lt : i < W.left.graph.capacity) (lt' : i' < W.right.graph.capacity) (tag : Tag)
    (symbol : SymbolId) (aux aux' : Nat) (length : ls.length = ls'.length) :
    (∃ g g', Eff.rewrite i tag symbol aux (ls.map some) W.left = .ok () (W.left.setGraph g) ∧
      Eff.rewrite i' tag symbol aux' (ls'.map some) W.right = .ok () (W.right.setGraph g') ∧
      W.left.graph.Sets i ⟨tag, symbol, aux, .links ls⟩ g ∧
      W.right.graph.Sets i' ⟨tag, symbol, aux', .links ls'⟩ g') ∨
    ∃ stop, Eff.rewrite i tag symbol aux (ls.map some) W.left = .error stop W.left ∧
      Eff.rewrite i' tag symbol aux' (ls'.map some) W.right = .error stop W.right := by
  by_cases fit : Eff.Fitting W.left ls.length
  · have fit' : Eff.Fitting W.right ls'.length := by
      rw [← length, Eff.Fitting, ← W.pools]
      exact fit
    obtain ⟨g, run, wrote⟩ := rewrite_wrote W.sound.1 lt tag symbol aux ls fit
    obtain ⟨g', run', wrote'⟩ := rewrite_wrote W.sound.2 lt' tag symbol aux' ls' fit'
    exact .inl ⟨g, g', run, run', wrote.toSets, wrote'.toSets⟩
  · have unfit : ¬ Eff.Fitting W.left (ls.map some).length := by rwa [List.length_map]
    have unfit' : ¬ Eff.Fitting W.right (ls'.map some).length := by
      rwa [List.length_map, ← length, Eff.Fitting, ← W.pools]
    have refused' := rewrite_refused (i := i') tag symbol aux' (ls'.map some) unfit'
    rw [List.length_map, ← length, ← W.pools] at refused'
    have refused := rewrite_refused (i := i) tag symbol aux (ls.map some) unfit
    rw [List.length_map] at refused
    exact .inr ⟨_, refused, refused'⟩

/-- The two sides are written at their ends. -/
theorem echoes_written {e e' : Eff Unit} {g g' : Graph} (run : e W.left = .ok () (W.left.setGraph g))
    (run' : e' W.right = .ok () (W.right.setGraph g')) (becomes : ∃ W₁ : Reflection ν,
      W₁.left = W.left.setGraph g ∧ W₁.right = W.right.setGraph g' ∧ W.Grows W₁) :
    W.Echoes e (fun _ => e') fun _ _ _ => True := by
  obtain ⟨W₁, left, right, grows⟩ := becomes
  refine echoes_last (echoes_step W₁ (left ▸ run) (right ▸ run') ?_ ?_ grows (echoes_pure trivial))
  · rw [left]
    rfl
  · rw [right]
    rfl

theorem echoes_rewrite {tag : Tag} {aux aux' : Nat} (ls ls' : List NodeId) (w : W.Twins i i' c c')
    (plain : tag ≠ .forward) (fits : Content.Fits W.left.signature ⟨tag, symbol, aux, .links ls⟩)
    (fits' : Content.Fits W.left.signature ⟨tag, symbol, aux', .links ls'⟩)
    (tame : Content.Tame W.left.signature ⟨tag, symbol, aux, .links ls⟩)
    (numbers : if tag = .choice then ν.Same aux aux' else aux = aux') (links : List.Forall₂ W.rel ls ls')
    (call : Content.IsCall ⟨tag, symbol, aux, .links ls⟩ → c.IsCall) :
    W.Echoes (Eff.rewrite i tag symbol aux (ls.map some)) (fun _ => Eff.rewrite i' tag symbol aux' (ls'.map some))
      fun _ _ _ => True := by
  have mirrors : Content.Mirrors ν W.rel ⟨tag, symbol, aux, .links ls⟩ ⟨tag, symbol, aux', .links ls'⟩ :=
    ⟨rfl, rfl, fun other => (if_neg other).mp numbers, fun choice => (if_pos choice).mp numbers, rfl, links⟩
  rcases W.rewrites (Graph.content_lt w.content) (Graph.content_lt w.content') tag symbol aux aux'
    links.length_eq with ⟨g, g', run, run', sets, sets'⟩ | ⟨stop, run, run'⟩
  · exact echoes_written run run' (W.rewrite sets sets' w plain fits fits' tame mirrors call)
  · exact echoes_last (echoes_refused run run')

theorem proper_tag {s : Signature} (fits : c.Fits s) (le : 10 ≤ c.symbol) :
    c.tag ≠ .forward ∧ c.tag ≠ .choice ∧ c.tag ≠ .free := by
  cases fits with
  | forward => exact absurd le (by decide : ¬ 10 ≤ Builtin.forward)
  | choice => exact absurd le (by decide : ¬ 10 ≤ Builtin.choice)
  | narrowed => exact absurd le (by decide : ¬ 10 ≤ Builtin.narrowed)
  | untyped => exact absurd le (by decide : ¬ 10 ≤ Builtin.free)
  | typed => exact absurd le (by decide : ¬ 10 ≤ Builtin.free)
  | _ => simp

/-- What a proper symbol with corresponding links is. -/
structure Proper (W : Reflection ν) (tag : Tag) (symbol : SymbolId) (aux : Nat) (ls ls' : List NodeId) :
    Prop where
  listed : W.left.signature.tagFor symbol = .ok tag
  fits : Content.Fits W.left.signature ⟨tag, symbol, aux, .links ls⟩
  fits' : Content.Fits W.left.signature ⟨tag, symbol, aux, .links ls'⟩
  plain : tag ≠ .forward
  tame : Content.Tame W.left.signature ⟨tag, symbol, aux, .links ls⟩
  mirrors : Content.Mirrors ν W.rel ⟨tag, symbol, aux, .links ls⟩ ⟨tag, symbol, aux, .links ls'⟩

theorem proper (aux : Nat) (le : 10 ≤ symbol) (found : W.left.signature.symbol? symbol = some sym)
    (length : ls.length = sym.arity) (tame : W.left.signature.Tame symbol)
    (links : List.Forall₂ W.rel ls ls') : ∃ tag, W.Proper tag symbol aux ls ls' := by
  have sound := W.mirrors.sound
  obtain ⟨tag, listed, fits⟩ := sound.fits le found aux ls length
  obtain ⟨tag', listed', fits'⟩ := sound.fits le found aux ls' (links.length_eq ▸ length)
  cases listed.symm.trans listed'
  obtain ⟨plain, choice, free⟩ := proper_tag fits le
  refine ⟨tag, listed, fits, fits', plain, ⟨free, ?_, fun _ => tame, nofun⟩,
    ⟨rfl, rfl, fun _ => rfl, fun h => absurd h choice, rfl, links⟩⟩
  rintro rfl
  exact absurd le (by decide)

/-- Two corresponding calls are given the same symbol. -/
theorem echoes_rewriteTo (ls ls' : List NodeId) (w : W.Twins i i' c c') (call : c.IsCall) (le : 10 ≤ symbol)
    (found : W.left.signature.symbol? symbol = some sym) (length : ls.length = sym.arity)
    (tame : W.left.signature.Tame symbol) (links : List.Forall₂ W.rel ls ls') :
    W.Echoes (rewriteTo i symbol (ls.map some)) (fun _ => rewriteTo i' symbol (ls'.map some))
      fun _ _ _ => True := by
  obtain ⟨tag, p⟩ := W.proper 0 le found length tame links
  have choice := (proper_tag p.fits le).2.1
  refine echoes_look (b := tag) p.listed ?_ ?_
  · show W.right.signature.tagFor symbol = _
    rw [W.mirrors.signature]
    exact p.listed
  · exact W.echoes_rewrite ls ls' w p.plain p.fits p.fits' p.tame (by rw [if_neg choice]) links fun _ => call

theorem echoes_rewriteFail (w : W.Twins i i' c c') :
    W.Echoes (rewriteFail i) (fun _ => rewriteFail i') fun _ _ _ => True := by
  obtain ⟨g, run, sets⟩ := rewriteFail_sets W.sound.1 (Graph.content_lt w.content)
  obtain ⟨g', run', sets'⟩ := rewriteFail_sets W.sound.2 (Graph.content_lt w.content')
  exact echoes_written run run' (W.rewrite sets sets' w nofun Content.blank_fits Content.blank_fits
    ⟨nofun, (by decide : Builtin.fail ≠ Builtin.narrowed), nofun, nofun⟩
    ⟨rfl, rfl, fun _ => rfl, nofun, rfl, .nil⟩ nofun)

theorem echoes_rewriteInt (w : W.Twins i i' c c') (v : Int64) :
    W.Echoes (rewriteInt i v) (fun _ => rewriteInt i' v) fun _ _ _ => True := by
  have hσ : W.right.signature.Sound := W.mirrors.signature.symm ▸ W.mirrors.sound
  obtain ⟨g, run, sets⟩ :=
    Reduction.rewriteInt_sets W.mirrors.sound W.sound.1 (Graph.content_lt w.content) v
  obtain ⟨g', run', sets'⟩ :=
    Reduction.rewriteInt_sets hσ W.sound.2 (Graph.content_lt w.content') v
  exact echoes_written run run' (W.rewrite sets sets' w nofun (.int 0 v) (.int 0 v)
    ⟨nofun, (by decide : Builtin.int ≠ Builtin.narrowed), nofun, nofun⟩
    ⟨rfl, rfl, fun _ => rfl, nofun, rfl, .nil⟩ nofun)

/-- Two corresponding calls become indirections to corresponding nodes. -/
theorem echoes_rewriteForward (w : W.Twins i i' c c') (call : c.IsCall) (hj : W.rel j j') :
    W.Echoes (rewriteForward i (some j)) (fun _ => rewriteForward i' (some j')) fun _ _ _ => True := by
  obtain ⟨g, run, sets⟩ := Reduction.rewriteForward_sets W.sound.1 (Graph.content_lt w.content) j
  obtain ⟨g', run', sets'⟩ := Reduction.rewriteForward_sets W.sound.2 (Graph.content_lt w.content') j'
  exact echoes_written run run' (W.redirect sets sets' w call hj rfl rfl)

end ChoiceGraph.Reflection
