import ChoiceGraph.Proofs.Resolving
import ChoiceGraph.Proofs.TermOrder
import ChoiceGraph.Reduction.PreludeStep

/-! # Meanings under decided choices

Once a side is taken of each choice, and of each call of the choice function, a node means one term, or
it fails. A call asks for the values of its arguments, or only for their heads. What a constructor
reports that has an argument which fails is a matter of reading: read lazily it has a head all the same,
read eagerly it has nothing. What is settled needs no choice and no call any more. A meaning is what can
be said of a node after so many rounds; nothing is said of failures. -/
namespace ChoiceGraph

/-- A side for each choice, and for each call of the choice function, which is named by its node. -/
structure Sides where
  choice : ChoiceId → Side
  call : NodeId → Side

/-- Whether a constructor has a head when an argument fails, and whether choices and calls count. -/
inductive Reading where
  | lazy
  | eager
  | settled
  deriving DecidableEq

/-- What is said of a node: that it has a head normal form, or which value it has. -/
inductive Report where
  | head
  | value (s : Unfolding)

/-- This is said of what has value `t`. -/
def Report.Tells : Report → Unfolding → Prop
  | head, _ => True
  | value s, t => s = t

namespace Unfolding

/-- A constructor without arguments. -/
def constant (index : Nat) (symbol : SymbolId) : Unfolding := .node ⟨.constructor index, symbol, 0, none⟩ []

def int (aux : Nat) (v : Int64) : Unfolding :=
  .node ⟨.constructor 0, Builtin.int, aux, some (.int v)⟩ []

def truth : Bool → Unfolding
  | true => constant 1 Prelude.standard.true_
  | false => constant 0 Prelude.standard.false_

def success : Unfolding := constant 0 Prelude.standard.success

def ofOrdering : Ordering → Unfolding
  | .lt => constant 0 Prelude.standard.lt
  | .eq => constant 1 Prelude.standard.eq
  | .gt => constant 2 Prelude.standard.gt

end Unfolding

namespace HeadStep

/-- What a function of the prelude makes of the values of its two arguments. -/
inductive Computes : HeadStep → Unfolding → Unfolding → Unfolding → Prop where
  | arithmetic {op : Arithmetic} {a b v : Int64} {aux aux' : Nat} (apply : op.apply a b = some v) :
    Computes (.arithmetic op) (.int aux a) (.int aux' b) (.int 0 v)
  | same {s t : Unfolding} (h : s.Matches t) : Computes .equals s t (.truth true)
  | different {s t : Unfolding} (h : ¬ s.Matches t) : Computes .equals s t (.truth false)
  | compared (s t : Unfolding) : Computes .compare s t (.ofOrdering (s.order t))
  | unified {s t : Unfolding} (h : s.Matches t) : Computes .unify s t .success

theorem Computes.unique {h : HeadStep} {s t u u' : Unfolding} (first : h.Computes s t u)
    (second : h.Computes s t u') : u = u' := by
  cases first with
  | arithmetic apply =>
    generalize hs : Unfolding.int _ _ = s, ht : Unfolding.int _ _ = t at second
    cases second with
    | arithmetic apply' =>
      cases hs
      cases ht
      cases apply.symm.trans apply'
      rfl
  | same yes =>
    cases second with
    | same => rfl
    | different no => exact absurd yes no
  | different no =>
    cases second with
    | same yes => exact absurd yes no
    | different => rfl
  | compared =>
    cases second
    rfl
  | unified =>
    cases second
    rfl

/-- What a call reports, given what is said of its arguments. -/
inductive Reports (κ : Sides) (R : NodeId → Report → Prop) (i : NodeId) (ls : List NodeId) :
    HeadStep → Report → Prop where
  | choose {l r : NodeId} {w : Report} (links : ls = [l, r]) (taken : R ((κ.call i).pick l r) w) :
    Reports κ R i ls .choose w
  | guard {x y : NodeId} {w : Report} (links : ls = [x, y]) (left : R x .head) (right : R y w) :
    Reports κ R i ls .guard w
  | conjunction {x y : NodeId} {w : Report} (links : ls = [x, y]) (left : R x .head) (right : R y .head)
    (tells : w.Tells .success) : Reports κ R i ls .conjunction w
  | ensureNotFree {x : NodeId} {w : Report} (links : ls = [x]) (argument : R x w) :
    Reports κ R i ls .ensureNotFree w
  | computed {h : HeadStep} {x y : NodeId} {s t u : Unfolding} {w : Report} (links : ls = [x, y])
    (left : R x (.value s)) (right : R y (.value t)) (computes : h.Computes s t u) (tells : w.Tells u) :
    Reports κ R i ls h w

/-- The head step of a function of the prelude. -/
def ofSymbol? (f : SymbolId) : Option HeadStep := (Signature.standard.symbol? f).map Symbol.head

end HeadStep

/-- A call of the choice function. -/
def Content.Chooses (c : Content) : Prop := c.tag = .operation ∧ HeadStep.ofSymbol? c.symbol = some .choose

namespace Content

variable {c : Content} {index : Nat}

theorem not_chooses_of_constructor (tag : c.tag = .constructor index) : ¬ c.Chooses := fun chooses =>
  nomatch tag.symm.trans chooses.1

theorem not_forward_of_constructor (tag : c.tag = .constructor index) : c.tag ≠ .forward := by
  rw [tag]
  nofun

theorem not_forward_of_halt (tag : c.tag = .choice ∨ c.tag = .failure) : c.tag ≠ .forward := by
  rcases tag with tag | tag <;> rw [tag] <;> nofun

end Content

/-- What a node with this content reports, given what is said of the nodes below it. -/
def Content.Reports (κ : Sides) (e : Reading) (R : NodeId → Report → Prop) (i : NodeId) (c : Content)
    (w : Report) : Prop :=
  match c.tag with
  | .constructor _ => (e = .lazy ∧ w = .head) ∨
    ∃ ss, List.Forall₂ (fun l s => R l (.value s)) c.links ss ∧ w.Tells (.node c.head ss)
  | .forward => ∃ l, c.links = [l] ∧ R l w
  | .choice => e ≠ .settled ∧ ∃ l r, c.links = [l, r] ∧ R ((κ.choice c.aux).pick l r) w
  | .operation => e ≠ .settled ∧ ∃ h, HeadStep.ofSymbol? c.symbol = some h ∧ h.Reports κ R i c.links w
  | _ => False

namespace Graph

/-- What is said of a node after so many rounds. -/
def MeansWithin (g : Graph) (κ : Sides) (e : Reading) : Nat → NodeId → Report → Prop
  | 0, _, _ => False
  | rounds + 1, i, w => ∃ c, g.content? i = some c ∧ c.Reports κ e (g.MeansWithin κ e rounds) i w

/-- What is said of a node. -/
def Means (g : Graph) (κ : Sides) (e : Reading) (i : NodeId) (w : Report) : Prop :=
  ∃ rounds, g.MeansWithin κ e rounds i w

end Graph

/-! ## Rounds -/

variable {κ : Sides} {e : Reading} {R R' : NodeId → Report → Prop} {i j l t : NodeId} {w : Report}
  {c c' : Content} {h : HeadStep} {ls : List NodeId} {g g' : Graph} {s s' : Unfolding} {k n : Nat}

/-- With other arguments, of which all is said that is said of these, a call reports the same. The choice
function also depends on the node. -/
theorem HeadStep.Reports.replace (reports : h.Reports κ R i ls w) {ls' : List NodeId}
    (links : List.Forall₂ (fun l l' => ∀ w, R l w → R' l' w) ls ls') (same : i = j ∨ h ≠ .choose) :
    h.Reports κ R' j ls' w := by
  cases reports with
  | choose here taken =>
    obtain rfl := same.resolve_right fun other => other rfl
    subst here
    obtain _ | ⟨left, _ | ⟨right, _ | _⟩⟩ := links
    refine .choose rfl ?_
    cases side : κ.call i with
    | left =>
      rw [side] at taken
      exact left w taken
    | right =>
      rw [side] at taken
      exact right w taken
  | guard here left right =>
    subst here
    obtain _ | ⟨first, _ | ⟨second, _ | _⟩⟩ := links
    exact .guard rfl (first _ left) (second _ right)
  | conjunction here left right tells =>
    subst here
    obtain _ | ⟨first, _ | ⟨second, _ | _⟩⟩ := links
    exact .conjunction rfl (first _ left) (second _ right) tells
  | ensureNotFree here argument =>
    subst here
    obtain _ | ⟨first, _ | _⟩ := links
    exact .ensureNotFree rfl (first _ argument)
  | computed here left right computes tells =>
    subst here
    obtain _ | ⟨first, _ | ⟨second, _ | _⟩⟩ := links
    exact .computed rfl (first _ left) (second _ right) computes tells

theorem Content.Reports.replace (reports : c.Reports κ e R i w) (head : c'.head = c.head)
    (links : List.Forall₂ (fun l l' => ∀ w, R l w → R' l' w) c.links c'.links)
    (same : i = j ∨ ¬ c.Chooses) : c'.Reports κ e R' j w := by
  have tag : c'.tag = c.tag := congrArg Head.tag head
  have symbol : c'.symbol = c.symbol := congrArg Head.symbol head
  have aux : c'.aux = c.aux := congrArg Head.aux head
  unfold Content.Reports at *
  rw [tag]
  split at reports
  · refine reports.imp_right ?_
    rintro ⟨ss, each, tells⟩
    refine ⟨ss, ?_, head ▸ tells⟩
    refine List.forall₂_iff_get.mpr ⟨links.length_eq.symm.trans each.length_eq, fun k lt lt' => ?_⟩
    have bound : k < c.links.length := each.length_eq ▸ lt'
    exact links.get bound lt _ (each.get bound lt')
  · obtain ⟨l, here, hl⟩ := reports
    rw [here] at links
    generalize c'.links = ls' at links ⊢
    obtain _ | ⟨first, _ | _⟩ := links
    exact ⟨_, rfl, first w hl⟩
  · obtain ⟨open_, l, r, here, taken⟩ := reports
    rw [here] at links
    generalize c'.links = ls' at links ⊢
    obtain _ | ⟨left, _ | ⟨right, _ | _⟩⟩ := links
    refine ⟨open_, _, _, rfl, ?_⟩
    rw [aux]
    cases side : κ.choice c.aux with
    | left =>
      rw [side] at taken
      exact left w taken
    | right =>
      rw [side] at taken
      exact right w taken
  · next operation =>
    obtain ⟨open_, h, step, reports⟩ := reports
    refine ⟨open_, h, symbol ▸ step, reports.replace links (same.imp_right ?_)⟩
    rintro other rfl
    exact other ⟨operation, step⟩
  · exact reports.elim

theorem Content.Reports.mono (reports : c.Reports κ e R i w)
    (le : ∀ j ∈ c.links, ∀ w, R j w → R' j w) : c.Reports κ e R' i w :=
  reports.replace rfl (List.forall₂_same.mpr le) (.inl rfl)

/-- What holds of each of two lists' items after some number of rounds holds after one number. -/
theorem forall₂_rounds {P : Nat → NodeId → Report → Prop} (mono : ∀ n n' j w, n ≤ n' → P n j w → P n' j w)
    {ss : List Unfolding} (each : List.Forall₂ (fun l s => ∃ n, P n l (.value s)) ls ss) :
    ∃ n, List.Forall₂ (fun l s => P n l (.value s)) ls ss := by
  induction each with
  | nil => exact ⟨0, .nil⟩
  | cons first _ ih =>
    obtain ⟨n, first⟩ := first
    obtain ⟨n', rest⟩ := ih
    exact ⟨max n n', .cons (mono _ _ _ _ (Nat.le_max_left n n') first)
      (rest.imp fun _ _ => mono _ _ _ _ (Nat.le_max_right n n'))⟩

namespace Graph

theorem MeansWithin.succ (means : g.MeansWithin κ e n i w) : g.MeansWithin κ e (n + 1) i w := by
  induction n generalizing i w with
  | zero => exact means.elim
  | succ n ih =>
    obtain ⟨c, hc, reports⟩ := means
    exact ⟨c, hc, reports.mono fun _ _ _ => ih⟩

theorem MeansWithin.mono {n' : Nat} (means : g.MeansWithin κ e n i w) (le : n ≤ n') :
    g.MeansWithin κ e n' i w := by
  induction le with
  | refl => exact means
  | step _ ih => exact ih.succ

/-- What a content reports from what is said below it, it reports after some number of rounds. -/
theorem reports_within (reports : c.Reports κ e (g.Means κ e) i w) :
    ∃ n, c.Reports κ e (g.MeansWithin κ e n) i w := by
  have pair : ∀ {x y : NodeId} {v w : Report}, g.Means κ e x v → g.Means κ e y w →
      ∃ n, g.MeansWithin κ e n x v ∧ g.MeansWithin κ e n y w := by
    rintro x y v w ⟨n, hx⟩ ⟨n', hy⟩
    exact ⟨max n n', hx.mono (Nat.le_max_left n n'), hy.mono (Nat.le_max_right n n')⟩
  unfold Content.Reports at *
  split at reports
  · rcases reports with head | ⟨ss, each, tells⟩
    · exact ⟨0, .inl head⟩
    · obtain ⟨n, each⟩ := forall₂_rounds (P := g.MeansWithin κ e) (fun _ _ _ _ le means => means.mono le) each
      exact ⟨n, .inr ⟨ss, each, tells⟩⟩
  · obtain ⟨l, links, n, hl⟩ := reports
    exact ⟨n, l, links, hl⟩
  · obtain ⟨open_, l, r, links, n, taken⟩ := reports
    exact ⟨n, open_, l, r, links, taken⟩
  · obtain ⟨open_, h, head, reports⟩ := reports
    suffices within : ∃ n, h.Reports κ (g.MeansWithin κ e n) i c.links w from
      within.imp fun n reports => ⟨open_, h, head, reports⟩
    cases reports with
    | choose links taken =>
      obtain ⟨n, taken⟩ := taken
      exact ⟨n, .choose links taken⟩
    | guard links left right =>
      obtain ⟨n, left, right⟩ := pair left right
      exact ⟨n, .guard links left right⟩
    | conjunction links left right tells =>
      obtain ⟨n, left, right⟩ := pair left right
      exact ⟨n, .conjunction links left right tells⟩
    | ensureNotFree links argument =>
      obtain ⟨n, argument⟩ := argument
      exact ⟨n, .ensureNotFree links argument⟩
    | computed links left right computes tells =>
      obtain ⟨n, left, right⟩ := pair left right
      exact ⟨n, .computed links left right computes tells⟩
  · exact reports.elim

theorem means_iff : g.Means κ e i w ↔ ∃ c, g.content? i = some c ∧ c.Reports κ e (g.Means κ e) i w := by
  constructor
  · rintro ⟨_ | n, means⟩
    · exact means.elim
    · obtain ⟨c, hc, reports⟩ := means
      exact ⟨c, hc, reports.mono fun _ _ _ means => ⟨n, means⟩⟩
  · rintro ⟨c, hc, reports⟩
    obtain ⟨n, reports⟩ := reports_within reports
    exact ⟨n + 1, c, hc, reports⟩

theorem means_content (hc : g.content? i = some c) :
    g.Means κ e i w ↔ c.Reports κ e (g.Means κ e) i w := by
  rw [means_iff]
  constructor
  · rintro ⟨d, hd, reports⟩
    cases hc.symm.trans hd
    exact reports
  · exact fun reports => ⟨c, hc, reports⟩

/-- Whatever agrees with the contents of nodes holds of all that is said of them. -/
theorem Means.induct {P : NodeId → Report → Prop} (means : g.Means κ e i w)
    (step : ∀ i c w, g.content? i = some c → c.Reports κ e P i w → P i w) : P i w := by
  obtain ⟨n, means⟩ := means
  induction n generalizing i w with
  | zero => exact means.elim
  | succ n ih =>
    obtain ⟨c, hc, reports⟩ := means
    exact step i c w hc (reports.mono fun _ _ _ means => ih means)

end Graph

/-! ## What contents report -/

section Shapes

variable {symbol aux : Nat} {ss : List Unfolding}

theorem reports_forward : Content.Reports κ e R i ⟨.forward, symbol, aux, .links [l]⟩ w ↔ R l w := by
  constructor
  · rintro ⟨l', links, hl⟩
    cases links
    exact hl
  · exact fun hl => ⟨l, rfl, hl⟩

theorem reports_choice {r : NodeId} : Content.Reports κ e R i ⟨.choice, symbol, aux, .links [l, r]⟩ w ↔
    e ≠ .settled ∧ R ((κ.choice aux).pick l r) w := by
  constructor
  · rintro ⟨open_, l', r', links, taken⟩
    cases links
    exact ⟨open_, taken⟩
  · exact fun ⟨open_, taken⟩ => ⟨open_, l, r, rfl, taken⟩

theorem reports_call (tag : c.tag = .operation) (head : HeadStep.ofSymbol? c.symbol = some h) :
    c.Reports κ e R i w ↔ e ≠ .settled ∧ h.Reports κ R i c.links w := by
  unfold Content.Reports
  rw [tag]
  constructor
  · rintro ⟨open_, h', head', reports⟩
    cases head.symm.trans head'
    exact ⟨open_, reports⟩
  · exact fun ⟨open_, reports⟩ => ⟨open_, h, head, reports⟩

theorem reports_chooses {r : NodeId} (chooses : c.Chooses) (links : c.links = [l, r]) :
    c.Reports κ e R i w ↔ e ≠ .settled ∧ R ((κ.call i).pick l r) w := by
  rw [reports_call chooses.1 chooses.2]
  refine and_congr_right fun _ => ⟨fun reports => ?_, fun taken => .choose links taken⟩
  cases reports with
  | choose links' taken =>
    cases links.symm.trans links'
    exact taken
  | computed _ _ _ computes => cases computes

theorem reports_data {index : Nat} (tag : c.tag = .constructor index) : c.Reports κ e R i w ↔
    (e = .lazy ∧ w = .head) ∨
      ∃ ss, List.Forall₂ (fun l s => R l (.value s)) c.links ss ∧ w.Tells (.node c.head ss) := by
  unfold Content.Reports
  rw [tag]

theorem not_reports_failure (tag : c.tag = .failure) : ¬ c.Reports κ e R i w := by
  unfold Content.Reports
  rw [tag]
  exact id

end Shapes

namespace Graph

theorem not_means_failure (hc : g.content? i = some c) (tag : c.tag = .failure) : ¬ g.Means κ e i w :=
  fun means => not_reports_failure tag ((means_content hc).mp means)

theorem Leads.means (leads : g.Leads i j) : g.Means κ e i w ↔ g.Means κ e j w := by
  induction leads with
  | refl => exact .rfl
  | step hc _ ih => exact (means_content hc).trans (reports_forward.trans ih)

end Graph

/-! ## Values and heads -/

/-- What has a value has a head. -/
theorem HeadStep.Reports.head (reports : h.Reports κ R i ls (.value s)) (le : ∀ j w, R j w → R' j w)
    (head : ∀ j, R j (.value s) → R' j .head) : h.Reports κ R' i ls .head := by
  cases reports with
  | choose links taken => exact .choose links (head _ taken)
  | guard links left right => exact .guard links (le _ _ left) (head _ right)
  | conjunction links left right tells => exact .conjunction links (le _ _ left) (le _ _ right) trivial
  | ensureNotFree links argument => exact .ensureNotFree links (head _ argument)
  | computed links left right computes tells =>
    exact .computed links (le _ _ left) (le _ _ right) computes trivial

theorem Content.Reports.head (reports : c.Reports κ e R i (.value s)) (le : ∀ j w, R j w → R' j w)
    (head : ∀ j, R j (.value s) → R' j .head) : c.Reports κ e R' i .head := by
  unfold Content.Reports at *
  split at reports
  · obtain ⟨ss, each, -⟩ := reports.resolve_left fun lazy => nomatch lazy.2
    exact .inr ⟨ss, each.imp fun _ _ => le _ _, trivial⟩
  · obtain ⟨l, links, hl⟩ := reports
    exact ⟨l, links, head l hl⟩
  · obtain ⟨open_, l, r, links, taken⟩ := reports
    exact ⟨open_, l, r, links, head _ taken⟩
  · obtain ⟨open_, h, step, reports⟩ := reports
    exact ⟨open_, h, step, reports.head le head⟩
  · exact reports

theorem HeadStep.Reports.unique (first : h.Reports κ R i ls (.value s))
    (second : h.Reports κ R' i ls (.value s'))
    (same : ∀ j s s', R j (.value s) → R' j (.value s') → s = s') : s = s' := by
  cases first with
  | choose links taken =>
    cases second with
    | choose links' taken' =>
      cases links.symm.trans links'
      exact same _ _ _ taken taken'
    | computed _ _ _ computes => cases computes
  | guard links left right =>
    cases second with
    | guard links' left' right' =>
      cases links.symm.trans links'
      exact same _ _ _ right right'
    | computed _ _ _ computes => cases computes
  | conjunction links left right tells =>
    cases second with
    | conjunction _ _ _ tells' => exact tells.trans tells'.symm
    | computed _ _ _ computes => cases computes
  | ensureNotFree links argument =>
    cases second with
    | ensureNotFree links' argument' =>
      cases links.symm.trans links'
      exact same _ _ _ argument argument'
    | computed _ _ _ computes => cases computes
  | computed links left right computes tells =>
    cases second with
    | computed links' left' right' computes' tells' =>
      cases links.symm.trans links'
      cases same _ _ _ left left'
      cases same _ _ _ right right'
      exact tells.trans ((computes.unique computes').trans tells'.symm)
    | choose => cases computes
    | guard => cases computes
    | conjunction => cases computes
    | ensureNotFree => cases computes

theorem Content.Reports.unique {e' : Reading} (first : c.Reports κ e R i (.value s))
    (second : c.Reports κ e' R' i (.value s'))
    (same : ∀ j s s', R j (.value s) → R' j (.value s') → s = s') : s = s' := by
  unfold Content.Reports at first second
  split at first <;> rename_i tag <;> simp only [tag] at second
  · obtain ⟨ss, each, rfl⟩ := first.resolve_left fun lazy => nomatch lazy.2
    obtain ⟨ss', each', rfl⟩ := second.resolve_left fun lazy => nomatch lazy.2
    congr 1
    refine List.ext_getElem (each.length_eq.symm.trans each'.length_eq) fun k lt lt' => ?_
    have bound : k < c.links.length := each.length_eq ▸ lt
    exact same _ _ _ (each.get bound lt) (each'.get bound lt')
  · obtain ⟨l, links, hl⟩ := first
    obtain ⟨l', links', hl'⟩ := second
    cases links.symm.trans links'
    exact same _ _ _ hl hl'
  · obtain ⟨-, l, r, links, taken⟩ := first
    obtain ⟨-, l', r', links', taken'⟩ := second
    cases links.symm.trans links'
    exact same _ _ _ taken taken'
  · obtain ⟨-, h, step, first⟩ := first
    obtain ⟨-, h', step', second⟩ := second
    cases step.symm.trans step'
    exact first.unique second same

/-- Nothing in the tree is left to be reduced. -/
def Unfolding.Data (s : Unfolding) : Prop := s.Over fun h _ => ∃ index, h.tag = .constructor index

namespace Graph

theorem Means.head (means : g.Means κ e i (.value s)) : g.Means κ e i .head := by
  suffices both : ∀ w, g.Means κ e i w → g.Means κ e i w ∧ (∀ s, w = .value s → g.Means κ e i .head) from
    (both _ means).2 s rfl
  intro w means
  refine means.induct (P := fun i w => g.Means κ e i w ∧ ∀ s, w = .value s → g.Means κ e i .head)
    fun i c w hc reports => ⟨(means_content hc).mpr (reports.mono fun _ _ _ both => both.1), ?_⟩
  rintro s rfl
  exact (means_content hc).mpr (reports.head (fun _ _ both => both.1) fun _ both => both.2 s rfl)

/-- A node means one value at most, however it is read. -/
theorem Means.unique {e' : Reading} (means : g.Means κ e i (.value s))
    (means' : g.Means κ e' i (.value s')) : s = s' := by
  refine means.induct (P := fun i w => ∀ s s', w = .value s → g.Means κ e' i (.value s') → s = s')
    (fun i c w hc reports s s' same means' => ?_) s s' rfl means'
  subst same
  exact reports.unique ((means_content hc).mp means') fun j s s' means means' => means s s' rfl means'

/-- What is said in one reading is said in any that lets as much pass. -/
theorem Means.weaken {e' : Reading} (means : g.Means κ e i w) (open_ : e' = .settled → e = .settled)
    (lazy : e = .lazy → e' = .lazy) : g.Means κ e' i w := by
  refine means.induct (P := fun i w => g.Means κ e' i w) fun i c w hc reports =>
    (means_content hc).mpr ?_
  unfold Content.Reports at *
  split at reports
  · exact reports.imp_left fun here => ⟨lazy here.1, here.2⟩
  · exact reports
  · exact ⟨fun settled => reports.1 (open_ settled), reports.2⟩
  · exact ⟨fun settled => reports.1 (open_ settled), reports.2⟩
  · exact reports

theorem Means.lazy (means : g.Means κ e i w) : g.Means κ .lazy i w := means.weaken nofun fun _ => rfl

/-- Only values have heads, if it is not read lazily. -/
theorem Means.valued (means : g.Means κ e i w) (strict : e ≠ .lazy) :
    ∃ s, g.Means κ e i (.value s) ∧ w.Tells s := by
  refine means.induct (P := fun i w => ∃ s, g.Means κ e i (.value s) ∧ w.Tells s) fun i c w hc reports => ?_
  suffices value : ∃ s, c.Reports κ e (g.Means κ e) i (.value s) ∧ w.Tells s from
    value.imp fun s both => ⟨(means_content hc).mpr both.1, both.2⟩
  unfold Content.Reports at *
  split at reports
  · obtain ⟨ss, each, tells⟩ := reports.resolve_left fun lazy => strict lazy.1
    refine ⟨_, .inr ⟨ss, each.imp ?_, rfl⟩, tells⟩
    rintro _ s ⟨s', means, rfl⟩
    exact means
  · obtain ⟨l, links, s, hl, tells⟩ := reports
    exact ⟨s, ⟨l, links, hl⟩, tells⟩
  · obtain ⟨open_, l, r, links, s, taken, tells⟩ := reports
    exact ⟨s, ⟨open_, l, r, links, taken⟩, tells⟩
  · obtain ⟨open_, h, step, reports⟩ := reports
    suffices value : ∃ s, h.Reports κ (g.Means κ e) i c.links (.value s) ∧ w.Tells s from
      value.imp fun s both => ⟨⟨open_, h, step, both.1⟩, both.2⟩
    cases reports with
    | choose links taken =>
      obtain ⟨s, taken, tells⟩ := taken
      exact ⟨s, .choose links taken, tells⟩
    | guard links left right =>
      obtain ⟨_, left, -⟩ := left
      obtain ⟨s, right, tells⟩ := right
      exact ⟨s, .guard links left.head right, tells⟩
    | conjunction links left right tells =>
      obtain ⟨_, left, -⟩ := left
      obtain ⟨_, right, -⟩ := right
      exact ⟨_, .conjunction links left.head right.head rfl, tells⟩
    | ensureNotFree links argument =>
      obtain ⟨s, argument, tells⟩ := argument
      exact ⟨s, .ensureNotFree links argument, tells⟩
    | computed links left right computes tells =>
      obtain ⟨_, left, rfl⟩ := left
      obtain ⟨_, right, rfl⟩ := right
      exact ⟨_, .computed links left right computes rfl, tells⟩
  · exact reports.elim

/-- A node that is fully evaluated means what it unfolds to. -/
theorem UnfoldsTo.means (unfolds : g.UnfoldsTo i s) (data : s.Data) : g.Means κ e i (.value s) := by
  induction unfolds with
  | @node i j c ss leads hc plain length each ih =>
    obtain ⟨⟨index, tag⟩, below⟩ := data
    refine leads.means.mpr ((means_content hc).mpr ((reports_data tag).mpr (.inr ⟨ss, ?_, rfl⟩)))
    exact List.forall₂_iff_get.mpr ⟨length, fun k lt lt' =>
      ih k _ _ (List.getElem?_eq_getElem lt) (List.getElem?_eq_getElem lt') (below _ (List.getElem_mem lt'))⟩

/-- A node that is settled is a term. -/
theorem Means.unfolds (means : g.Means κ .settled i (.value s)) : g.UnfoldsTo i s ∧ s.Data := by
  refine means.induct (P := fun i w => ∀ s, w = .value s → g.UnfoldsTo i s ∧ s.Data)
    (fun i c w hc reports s same => ?_) s rfl
  subst same
  unfold Content.Reports at reports
  split at reports
  · next index tag =>
    obtain ⟨ss, each, rfl⟩ := reports.resolve_left fun lazy => nomatch lazy.2
    have below : ∀ (k : Nat) (l : NodeId) (s : Unfolding), c.links[k]? = some l → ss[k]? = some s →
        g.UnfoldsTo l s ∧ s.Data := by
      intro k l s hl hs
      obtain ⟨lt, rfl⟩ := List.getElem?_eq_some_iff.mp hl
      obtain ⟨lt', rfl⟩ := List.getElem?_eq_some_iff.mp hs
      exact each.get lt lt' _ rfl
    refine ⟨.node (.refl i) hc (Content.not_forward_of_constructor tag) each.length_eq
      fun k l s hl hs => (below k l s hl hs).1, .node ⟨index, tag⟩ fun s hs => ?_⟩
    obtain ⟨k, lt, rfl⟩ := List.getElem_of_mem hs
    have lt' : k < c.links.length := each.length_eq ▸ lt
    exact (below k _ _ (List.getElem?_eq_getElem lt') (List.getElem?_eq_getElem lt)).2
  · next tag =>
    obtain ⟨l, links, below⟩ := reports
    obtain ⟨unfolds, data⟩ := below s rfl
    obtain ⟨_, symbol, aux, ls | v⟩ := c
    · cases tag
      cases links
      cases unfolds with
      | node leads hd plain length each => exact ⟨.node (.step hc leads) hd plain length each, data⟩
    · cases links
  · exact absurd rfl reports.1
  · exact absurd rfl reports.1
  · exact reports.elim

/-- The value of a node that indirections lead from to a constructor. -/
theorem Means.landed (means : g.Means κ e i (.value s)) (leads : g.Leads i j) (hc : g.content? j = some c)
    {index : Nat} (tag : c.tag = .constructor index) :
    ∃ ss, s = .node c.head ss ∧ List.Forall₂ (fun l s => g.Means κ e l (.value s)) c.links ss := by
  obtain ⟨ss, each, same⟩ := ((reports_data tag).mp ((means_content hc).mp (leads.means.mp means))).resolve_left
    fun lazy => nomatch lazy.2
  exact ⟨ss, same, each⟩

/-- Read lazily, a constructor has a head. -/
theorem Leads.means_head (leads : g.Leads i j) (hc : g.content? j = some c) {index : Nat}
    (tag : c.tag = .constructor index) : g.Means κ .lazy i .head :=
  leads.means.mpr ((means_content hc).mpr ((reports_data tag).mpr (.inl ⟨rfl, rfl⟩)))

/-! ## Changes of a graph -/

/-- Nothing changes for a node if nothing changes at it and below it. -/
theorem Means.congr {S : NodeId → Prop} (means : g.Means κ e i w) (hi : S i)
    (closed : ∀ p c, S p → g.content? p = some c → ∀ q ∈ c.links, S q)
    (same : ∀ p, S p → g'.content? p = g.content? p) : g'.Means κ e i w := by
  refine means.induct (P := fun i w => S i → g'.Means κ e i w) (fun i c w hc reports hi => ?_) hi
  exact (means_content ((same i hi).trans hc)).mpr
    (reports.mono fun j hj _ below => below (closed i c hi hc j hj))

section Writes

variable {S : NodeId → Prop} {root : NodeId} (closed : ∀ p c, S p → g.content? p = some c → ∀ q ∈ c.links, S q)
  (others : ∀ p, S p → p ≠ root → g'.content? p = g.content? p) (hc : g.content? root = some c)
  (hc' : g'.content? root = some c')

include closed others hc hc'

/-- Where one node differs, what it reported must be reported by what it holds now. -/
theorem Means.upheld (means : g.Means κ e i w) (hi : S i)
    (here : ∀ w, c.Reports κ e (g'.Means κ e) root w → c'.Reports κ e (g'.Means κ e) root w) :
    g'.Means κ e i w := by
  refine means.induct (P := fun i w => S i → g'.Means κ e i w) (fun i d w hd reports hi => ?_) hi
  have below : d.Reports κ e (g'.Means κ e) i w := reports.mono fun j hj _ below => below (closed i d hi hd j hj)
  by_cases at_root : i = root
  · subst at_root
    cases hc.symm.trans hd
    exact (means_content hc').mpr (here w below)
  · exact (means_content ((others i hi at_root).trans hd)).mpr below

/-- Nor may it report anything else. There may be new nodes below it. -/
theorem Means.reflected (means : g'.Means κ e i w) (hi : S i)
    (here : ∀ n, (∀ j w, S j → g'.MeansWithin κ e n j w → g.Means κ e j w) →
      ∀ w, c'.Reports κ e (g'.MeansWithin κ e n) root w → c.Reports κ e (g.Means κ e) root w) :
    g.Means κ e i w := by
  obtain ⟨n, means⟩ := means
  induction n generalizing i w with
  | zero => exact means.elim
  | succ n ih =>
    obtain ⟨d, hd, reports⟩ := means
    by_cases at_root : i = root
    · subst at_root
      cases hc'.symm.trans hd
      exact (means_content hc).mpr (here n (fun j w hj means => ih hj means) w reports)
    · have hd₀ := (others i hi at_root).symm.trans hd
      exact (means_content hd₀).mpr (reports.mono fun j hj _ means => ih (closed i d hi hd₀ j hj) means)

end Writes

end Graph

end ChoiceGraph
