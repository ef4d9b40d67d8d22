import ChoiceGraph.Proofs.RenderedArguments

/-! # Head steps keep meanings

What a function of the prelude makes of its arguments is what a call of it means: numbers are put together,
terms are compared, and the arguments of constructors are unified one by one. A call of the choice function
becomes a choice, under an identifier that the log notes. -/
namespace ChoiceGraph

open Eff Machine

/-! ## Reading simple nodes -/

namespace Content

variable {σ : Signature} {c d : Content} {κ : Sides} {e : Reading} {R : NodeId → Report → Prop} {i : NodeId}
  {v : Report}

/-- The only literals are integers. -/
theorem Simple.literal_iff (simple : c.Simple) (fits : c.Fits σ) :
    c.cargo.literal?.isSome ↔ c.symbol = Builtin.int := by
  have proper : ∀ {n : SymbolId}, 10 ≤ n → n ≠ Builtin.int := fun le same => absurd (same ▸ le) (by decide)
  cases fits with
  | int => exact iff_of_true rfl rfl
  | float aux v =>
    obtain ⟨a, same⟩ := simple _ rfl
    cases same
  | char aux v =>
    obtain ⟨a, same⟩ := simple _ rfl
    cases same
  | function f sym le found =>
    obtain ⟨h, symbol, simple⟩ := simple
    exact absurd (HeadStep.listed_of_simple symbol simple).1 (by decide : ¬ 10 ≤ Builtin.function)
  | typed => exact simple.elim
  | constructor _ _ _ _ _ _ le => exact iff_of_false nofun (proper le)
  | call _ _ _ _ le => exact iff_of_false nofun (proper le)
  | _ => exact iff_of_false nofun (Nat.ne_of_beq_eq_false rfl)

/-- A simple constructor is an integer, or has a symbol of its data type. -/
theorem Simple.of_constructor (simple : c.Simple) (fits : c.Fits σ) {index : Nat} (tag : c.tag = .constructor index) :
    (∃ aux a, c = ⟨.constructor 0, Builtin.int, aux, .literal (.int a)⟩) ∨
      10 ≤ c.symbol ∧ ∃ ls, c.cargo = .links ls := by
  cases fits with
  | int aux v => exact .inl ⟨aux, v, rfl⟩
  | float aux v =>
    obtain ⟨a, same⟩ := simple _ rfl
    cases same
  | char aux v =>
    obtain ⟨a, same⟩ := simple _ rfl
    cases same
  | constructor _ _ _ _ _ ls le => exact .inr ⟨le, ls, rfl⟩
  | _ => cases tag

/-- What a constructor without arguments reports. -/
theorem reports_leaf {index : Nat} (tag : c.tag = .constructor index) (links : c.links = []) :
    c.Reports κ e R i v ↔ v.Tells (.node c.head []) := by
  rw [reports_data tag, links]
  constructor
  · rintro (⟨-, rfl⟩ | ⟨ss, each, tells⟩)
    · trivial
    · cases each
      exact tells
  · exact fun tells => .inr ⟨[], .nil, tells⟩

end Content

namespace Machine

variable {m : Machine} {ρ : Rank} {x y : NodeId} {s t : Unfolding}

theorem Inv.readable_simple (h : m.Inv [] ρ) :
    m.toTermGraph.Readable (fun i => m.Live [] i ∧ m.graph.SimpleFrom i) ρ where
  signature := h.signature
  shaped i hi := (h.fits i hi.1).imp fun _ both => ⟨both.1, both.2.shaped h.signature⟩
  closed _ _ _ hi hc hj := ⟨hi.1.link hc hj, (hi.2.content hc).2 _ hj⟩
  ranked _ _ _ hi hc hj := h.ranked _ _ _ hi.1 hc hj

theorem Inv.equals_simple (h : m.Inv [] ρ) (hx : m.Live [] x ∧ m.graph.SimpleFrom x)
    (hy : m.Live [] y ∧ m.graph.SimpleFrom y) (unfolds : m.graph.UnfoldsTo x s) (unfolds' : m.graph.UnfoldsTo y t) :
    ∃ same, m.equals x y = .ok same ∧ (same = true ↔ s.Matches t) := by
  refine h.readable_simple.equals_decides ?_ ?_ _ x y s t hx hy (Nat.lt_succ_of_le Graph.depth_le) unfolds unfolds'
  · intro i j c d hi hj hc hd _ symbol _
    have iff := (hi.2.content hc).1.literal_iff (h.fitsAt hi.1 hc)
    have iff' := (hj.2.content hd).1.literal_iff (h.fitsAt hj.1 hd)
    rw [Bool.eq_iff_iff, iff, iff', symbol]
  · intro i c x hi hc held
    have fits := h.fitsAt hi.1 hc
    have simple := (hi.2.content hc).1
    cases fits <;> cases held
    obtain ⟨a, same⟩ := simple _ rfl
    cases same

theorem Inv.order_simple (h : m.Inv [] ρ) (hx : m.Live [] x ∧ m.graph.SimpleFrom x)
    (hy : m.Live [] y ∧ m.graph.SimpleFrom y) (unfolds : m.graph.UnfoldsTo x s) (unfolds' : m.graph.UnfoldsTo y t) :
    m.order x y = .ok (s.order t) :=
  h.readable_simple.order_unfolds _ x y s t hx hy (Nat.lt_succ_of_le Graph.depth_le) unfolds unfolds'

end Machine

/-! ## What a call needs -/

namespace HeadStep

/-- The arguments that a function of the prelude forces. -/
def demands : HeadStep → List Reduction.Demand
  | arithmetic _ | unify | conjunction => [.head 0, .head 1]
  | equals | compare => [.normal 0, .normal 1]
  | guard | ensureNotFree => [.head 0]
  | _ => []

/-- What is said of a call depends on what is said of the arguments that it forces. -/
theorem needs_demands (h : HeadStep) : ∀ d ∈ h.demands, d.index < h.arity ∧ h.Needs d.index d.form := by
  have both : ∀ {h : HeadStep} {form : Report → Prop}, h ≠ .choose → h ≠ .guard → h ≠ .conjunction →
      h ≠ .ensureNotFree → (∀ s, form (.value s)) → h.Needs 0 form ∧ h.Needs 1 form := by
    intro h form choose guard conjunction ensure valued
    refine ⟨fun κ R i ls w reports => ?_, fun κ R i ls w reports => ?_⟩ <;> cases reports with
    | choose => exact absurd rfl choose
    | guard => exact absurd rfl guard
    | conjunction => exact absurd rfl conjunction
    | ensureNotFree => exact absurd rfl ensure
    | computed links left right =>
      subst links
      first
        | exact ⟨_, _, rfl, valued _, left⟩
        | exact ⟨_, _, rfl, valued _, right⟩
  have pair : ∀ {h : HeadStep} (d d' : Reduction.Demand) {form : Report → Prop}, d.form = form → d'.form = form →
      d.index = 0 → d'.index = 1 → h.arity = 2 → h.Needs 0 form ∧ h.Needs 1 form →
      ∀ e ∈ [d, d'], e.index < h.arity ∧ h.Needs e.index e.form := by
    rintro h d d' _ rfl same zero one two ⟨first, second⟩ e he
    rcases List.mem_cons.mp he with rfl | he
    · rw [zero, two]
      exact ⟨by decide, first⟩
    · rw [List.mem_singleton.mp he, one, two, same]
      exact ⟨by decide, second⟩
  cases h with
  | arithmetic op => exact pair _ _ rfl rfl rfl rfl rfl (both nofun nofun nofun nofun fun _ => trivial)
  | unify => exact pair _ _ rfl rfl rfl rfl rfl (both nofun nofun nofun nofun fun _ => trivial)
  | equals => exact pair _ _ rfl rfl rfl rfl rfl (both nofun nofun nofun nofun fun _ => trivial)
  | compare => exact pair _ _ rfl rfl rfl rfl rfl (both nofun nofun nofun nofun fun _ => trivial)
  | conjunction =>
    refine pair _ _ rfl rfl rfl rfl rfl ⟨fun κ R i ls w reports => ?_, fun κ R i ls w reports => ?_⟩ <;>
      cases reports with
      | conjunction links left right =>
        subst links
        first
          | exact ⟨_, _, rfl, trivial, left⟩
          | exact ⟨_, _, rfl, trivial, right⟩
      | computed _ _ _ computes => cases computes
  | guard =>
    intro d hd
    rw [List.mem_singleton.mp hd]
    refine ⟨by decide, fun κ R i ls w reports => ?_⟩
    cases reports with
    | guard links left right =>
      subst links
      exact ⟨_, _, rfl, trivial, left⟩
    | computed _ _ _ computes => cases computes
  | ensureNotFree =>
    intro d hd
    rw [List.mem_singleton.mp hd]
    refine ⟨by decide, fun κ R i ls w reports => ?_⟩
    cases reports with
    | ensureNotFree links argument =>
      subst links
      exact ⟨_, _, rfl, trivial, argument⟩
    | computed _ _ _ computes => cases computes
  | _ => exact fun _ hd => absurd hd List.not_mem_nil

end HeadStep

/-! ## Rewriting a call -/

namespace Reduction

variable {m : Machine} {s : Scope} {ρ : Rank} {root x y l : NodeId} {c d cx cy : Content} {h : HeadStep} {r : Reducer}
  {κ : Sides} {e : Reading} {v : Report}

/-- A call becomes something that reports the same. -/
theorem writes_renders_call (call : m.SimpleCall s ρ root c h) {f : Eff Unit}
    (writes : f.Writes root d m) (plain : d.Simple) (tag : d.tag ≠ .operation)
    (links : ∀ q ∈ d.links, (m.Live [] q ∧ ρ q < ρ root) ∧ m.graph.SimpleFrom q)
    (back : ∀ κ v, d.Reports κ .lazy (m.graph.Means κ .lazy) root v →
      h.Reports κ (m.graph.Means κ .lazy) root c.links v)
    (kept : ∀ κ e v, h.Reports κ (m.graph.Means κ e) root c.links v →
      d.Reports κ e (m.graph.Means κ e) root v) :
    f.Renders s m ρ fun _ m' log => m.Clean s ρ log m' := by
  have w := call.site
  refine writes.renders w.content (fun chooses => tag chooses.1) fun m' rewritten => ⟨?_, ?_⟩
  · exact rewritten.rendered_direct w.inv w.live plain links
      (fun κ _ v reports => call.reports.mpr ⟨nofun, back κ v reports⟩)
      fun κ _ e _ v reports => kept κ e v (call.reports.mp reports).2
  · exact rewritten.clean_direct w.inv w.live (fun q hq => (links q hq).1)
      (fun κ _ v reports => kept κ .lazy v (call.reports.mp reports).2)
      fun index data => nomatch call.tag.symm.trans data

/-- A call becomes a constructor without arguments. -/
theorem leaf_renders (call : m.SimpleCall s ρ root c h) {f : Eff Unit}
    (writes : f.Writes root d m) (plain : d.Simple) {index : Nat} (tag : d.tag = .constructor index)
    (links : d.links = [])
    (back : ∀ κ v, v.Tells (.node d.head []) → h.Reports κ (m.graph.Means κ .lazy) root c.links v)
    (kept : ∀ κ e v, h.Reports κ (m.graph.Means κ e) root c.links v → v.Tells (.node d.head [])) :
    f.Renders s m ρ fun _ m' log => m.Clean s ρ log m' := by
  refine writes_renders_call call writes plain (by rw [tag]; nofun) ?_ ?_ ?_
  · rw [links]
    exact fun _ hq => absurd hq List.not_mem_nil
  · exact fun κ v reports => back κ v ((Content.reports_leaf tag links).mp reports)
  · exact fun κ e v reports => (Content.reports_leaf tag links).mpr (kept κ e v reports)

/-- A call of which nothing can be said fails. -/
theorem fail_renders (call : m.SimpleCall s ρ root c h)
    (dead : ∀ κ e v, ¬ h.Reports κ (m.graph.Means κ e) root c.links v) :
    (rewriteFail root).Renders s m ρ fun _ m' log => m.Clean s ρ log m' := by
  have w := call.site
  refine writes_renders_call call (rewriteFail_writes w.inv.storage (w.inv.lt w.live)) trivial nofun
    (fun _ hq => absurd hq List.not_mem_nil) (fun κ v reports => absurd reports (not_reports_failure rfl)) ?_
  exact fun κ e v reports => absurd reports (dead κ e v)

/-- A call becomes an indirection to what it means. -/
theorem forward_renders (call : m.SimpleCall s ρ root c h)
    (below : (m.Live [] l ∧ ρ l < ρ root) ∧ m.graph.SimpleFrom l)
    (back : ∀ κ v, m.graph.Means κ .lazy l v → h.Reports κ (m.graph.Means κ .lazy) root c.links v)
    (kept : ∀ κ e v, h.Reports κ (m.graph.Means κ e) root c.links v → m.graph.Means κ e l v) :
    (rewriteForward root (some l)).Renders s m ρ fun _ m' log => m.Clean s ρ log m' := by
  have w := call.site
  refine writes_renders_call call (rewriteForward_writes w.inv.storage (w.inv.lt w.live) l) trivial nofun
    (fun q hq => List.mem_singleton.mp hq ▸ below) ?_ ?_
  · exact fun κ v reports => back κ v (reports_forward.mp reports)
  · exact fun κ e v reports => reports_forward.mpr (kept κ e v reports)

/-- A call becomes a constant of the prelude. -/
theorem constant_renders (call : m.SimpleCall s ρ root c h) {symbol index : Nat}
    (lt : symbol < Signature.preludeEnd) (listed : Signature.standard.tagFor symbol = .ok (.constructor index))
    (back : ∀ κ v, v.Tells (.constant index symbol) → h.Reports κ (m.graph.Means κ .lazy) root c.links v)
    (kept : ∀ κ e v, h.Reports κ (m.graph.Means κ e) root c.links v → v.Tells (.constant index symbol)) :
    (rewriteTo root symbol []).Renders s m ρ fun _ m' log => m.Clean s ρ log m' := by
  have w := call.site
  have tag := w.inv.signature.constant lt listed
  exact leaf_renders (d := ⟨.constructor index, symbol, 0, .links []⟩) call
    (rewriteTo_writes w.inv.storage (w.inv.lt w.live) tag []) nofun rfl rfl back kept

/-! ## Calls with their arguments -/

/-- A call whose two arguments were forced. -/
structure ForcedPair (m : Machine) (s : Scope) (ρ : Rank) (root : NodeId) (c : Content) (h : HeadStep)
    (x y : NodeId) : Prop where
  call : m.SimpleCall s ρ root c h
  links : ∃ a b, c.links = [a, b] ∧ m.graph.Leads a x ∧ m.graph.Leads b y
  first : m.graph.Built x
  second : m.graph.Built y

namespace ForcedPair

variable (p : ForcedPair m s ρ root c h x y)

include p

/-- The call may as well be of the nodes that its links lead to. -/
theorem reports : h.Reports κ (m.graph.Means κ e) root c.links v ↔ h.Reports κ (m.graph.Means κ e) root [x, y] v := by
  obtain ⟨a, b, links, leads, leads'⟩ := p.links
  rw [links]
  constructor
  · exact fun reports => reports.replace
      (.cons (fun _ => leads.means.mp) (.cons (fun _ => leads'.means.mp) .nil)) (.inl rfl)
  · exact fun reports => reports.replace
      (.cons (fun _ => leads.means.mpr) (.cons (fun _ => leads'.means.mpr) .nil)) (.inl rfl)

theorem below : ((m.Live [] x ∧ ρ x < ρ root) ∧ m.graph.SimpleFrom x) ∧
    (m.Live [] y ∧ ρ y < ρ root) ∧ m.graph.SimpleFrom y := by
  obtain ⟨a, b, links, leads, leads'⟩ := p.links
  have w := p.call.site
  obtain ⟨-, graph⟩ := p.call.graph.content w.content
  have ha : c.links[0]? = some a := by rw [links]; rfl
  have hb : c.links[1]? = some b := by rw [links]; rfl
  exact ⟨⟨w.below ha leads, (graph a (List.mem_of_getElem? ha)).leads leads⟩,
    w.below hb leads', (graph b (List.mem_of_getElem? hb)).leads leads'⟩

end ForcedPair

theorem pair_renders (renders : r.Renders) (call : m.SimpleCall s ρ root c h) (choose : h ≠ .choose)
    {d d' : Demand} (demands : h.demands = [d, d']) (zero : d.index = 0) (one : d'.index = 1)
    {body : NodeId → NodeId → Eff Unit}
    (acts : ∀ m' ρ' c' x y, ForcedPair m' s ρ' root c' h x y → (∀ k, d = .normal k → m'.graph.Evaluated x) →
      (∀ k, d' = .normal k → m'.graph.Evaluated y) →
      (body x y).Renders s m' ρ' fun _ m'' log => m'.Clean s ρ' log m'') :
    (force r root h.demands (onPair body)).Renders s m ρ fun _ m' log =>
      m.Clean s ρ log m' ∨ m.Halts Report.Any root m' root log := by
  refine force_renders renders choose h.demands _ m ρ c [] call h.needs_demands
    (fun _ hp => absurd hp List.not_mem_nil) (by rw [demands]; simp [zero, one]) fun m' ρ' c' xs call' length met => ?_
  have two : h.arity = 2 := by
    have lt := (h.needs_demands d' (by rw [demands]; exact List.mem_cons_of_mem _ List.mem_cons_self)).1
    rw [one] at lt
    cases h <;> first | rfl | exact absurd lt (by decide)
  rw [demands] at length met
  rcases xs with _ | ⟨x, _ | ⟨y, _ | ⟨_, _⟩⟩⟩ <;> cases length
  obtain ⟨⟨a, ha, leads⟩, built, value⟩ := met (d, x) List.mem_cons_self
  obtain ⟨⟨b, hb, leads'⟩, built', value'⟩ := met (d', y) (List.mem_cons_of_mem _ List.mem_cons_self)
  rw [zero] at ha
  rw [one] at hb
  refine acts m' ρ' c' x y ⟨call', ⟨a, b, ?_, leads, leads'⟩, built, built'⟩ value value'
  have size := call'.length.trans two
  generalize c'.links = ls at ha hb size
  rcases ls with _ | ⟨_, _ | ⟨_, _ | ⟨_, _⟩⟩⟩ <;> cases size
  cases ha
  cases hb
  rfl

section Pairs

variable {m : Machine} {x y i : NodeId} {op : Arithmetic} {index index' : Nat} {g : Graph} {a b z : Int64}

theorem means_int {aux : Nat} (hx : g.content? x = some ⟨.constructor 0, Builtin.int, aux, .literal (.int a)⟩) :
    g.Means κ e x (.value (.int aux a)) :=
  (Graph.means_content hx).mpr ((Content.reports_leaf rfl rfl).mpr rfl)

/-- A call of an arithmetic operation means something only if its arguments are numbers. -/
theorem reports_arithmetic (hx : g.content? x = some cx) (tx : cx.tag = .constructor index)
    (hy : g.content? y = some cy) (ty : cy.tag = .constructor index')
    (reports : (HeadStep.arithmetic op).Reports κ (g.Means κ e) i [x, y] v) : ∃ a b z,
      cx.cargo.literal? = some (.int a) ∧ cy.cargo.literal? = some (.int b) ∧ op.apply a b = some z ∧
        v.Tells (.int 0 z) := by
  have held : ∀ {n : NodeId} {d : Content} {index aux : Nat} {a : Int64}, g.content? n = some d →
      d.tag = .constructor index → g.Means κ e n (.value (.int aux a)) → d.cargo.literal? = some (.int a) := by
    intro n d index aux a hd tag means
    obtain ⟨ss, same, -⟩ := means.landed (.refl n) hd tag
    injection same with head
    exact (congrArg Head.literal? head).symm
  cases reports with
  | computed links left right computes tells =>
    cases links
    cases computes with
    | arithmetic apply => exact ⟨_, _, _, held hx tx left, held hy ty right, apply, tells⟩

theorem stepArithmetic_renders (renders : r.Renders) (call : m.SimpleCall s ρ root c (.arithmetic op)) :
    (stepArithmetic r op root).Renders s m ρ fun _ m' log =>
      m.Clean s ρ log m' ∨ m.Halts Report.Any root m' root log := by
  refine pair_renders renders call nofun rfl rfl rfl fun m' ρ' c' x y p _ _ => ?_
  obtain ⟨cx, index, hx, tx⟩ := p.first
  obtain ⟨cy, index', hy, ty⟩ := p.second
  obtain ⟨⟨⟨live, -⟩, simple⟩, ⟨live', -⟩, simple'⟩ := p.below
  have w := p.call.site
  have known := fun (κ : Sides) (e : Reading) (v : Report)
      (reports : (HeadStep.arithmetic op).Reports κ (m'.graph.Means κ e) root c'.links v) =>
    reports_arithmetic hx tx hy ty (p.reports.mp reports)
  refine renders_read (TermGraph.literal_content hx) (renders_read (TermGraph.literal_content hy) ?_)
  split
  · next a b held held' =>
    have apply_ : ∀ {κ e v}, (HeadStep.arithmetic op).Reports κ (m'.graph.Means κ e) root c'.links v →
        ∃ z, op.apply a b = some z ∧ v.Tells (.int 0 z) := by
      intro κ e v reports
      obtain ⟨a', b', z, here, here', value, tells⟩ := known κ e v reports
      cases held.symm.trans here
      cases held'.symm.trans here'
      exact ⟨z, value, tells⟩
    split
    · next z value =>
      have tag : m'.signature.tagFor Builtin.int = .ok (.constructor 0) :=
        (Signature.tagFor_builtin w.inv.signature (by decide)).trans rfl
      refine leaf_renders p.call (rewriteData_writes w.inv.storage (w.inv.lt w.live) tag 0 _) ?_ rfl rfl ?_ ?_
      · exact fun v hv => ⟨z, (Option.mem_some.mp hv).symm⟩
      · intro κ v tells
        rcases (simple.content hx).1.of_constructor (w.inv.fitsAt live hx) tx with
          ⟨aux, a', rfl⟩ | ⟨-, ls, linked⟩
        · rcases (simple'.content hy).1.of_constructor (w.inv.fitsAt live' hy) ty with
            ⟨aux', b', rfl⟩ | ⟨-, ls, linked⟩
          · cases held
            cases held'
            exact p.reports.mpr (.computed rfl (means_int hx) (means_int hy) (.arithmetic value) tells)
          · rw [linked] at held'
            cases held'
        · rw [linked] at held
          cases held
      · intro κ e v reports
        obtain ⟨z', value', tells⟩ := apply_ reports
        cases value.symm.trans value'
        exact tells
    · next none =>
      refine fail_renders p.call fun κ e v reports => ?_
      obtain ⟨z', value', -⟩ := apply_ reports
      cases none.symm.trans value'
  · next other =>
    refine fail_renders p.call fun κ e v reports => ?_
    obtain ⟨a, b, z, held, held', -⟩ := known κ e v reports
    exact other a b held held'

/-! ## Comparing terms -/

theorem stepEquals_renders (renders : r.Renders) (call : m.SimpleCall s ρ root c .equals) :
    (stepEquals r root).Renders s m ρ fun _ m' log =>
      m.Clean s ρ log m' ∨ m.Halts Report.Any root m' root log := by
  refine pair_renders renders call nofun rfl rfl rfl fun m' ρ' c' x y p value value' => ?_
  obtain ⟨t, unfolds, data⟩ := value 0 rfl
  obtain ⟨t', unfolds', data'⟩ := value' 1 rfl
  obtain ⟨⟨⟨live, -⟩, simple⟩, ⟨live', -⟩, simple'⟩ := p.below
  obtain ⟨same, read, iff⟩ := p.call.site.inv.equals_simple ⟨live, simple⟩ ⟨live', simple'⟩ unfolds unfolds'
  have back : ∀ κ v, v.Tells (.truth same) → HeadStep.equals.Reports κ (m'.graph.Means κ .lazy) root c'.links v := by
    intro κ v tells
    refine p.reports.mpr (.computed rfl (unfolds.means data) (unfolds'.means data') ?_ tells)
    cases same with
    | true => exact .same (iff.mp rfl)
    | false => exact .different fun alike => nomatch iff.mpr alike
  have kept : ∀ κ e v, HeadStep.equals.Reports κ (m'.graph.Means κ e) root c'.links v → v.Tells (.truth same) := by
    intro κ e v reports
    cases p.reports.mp reports with
    | computed links left right computes tells =>
      cases links
      cases left.unique (unfolds.means (e := e) data)
      cases right.unique (unfolds'.means (e := e) data')
      cases computes with
      | same alike =>
        rw [iff.mpr alike]
        exact tells
      | different differ =>
        cases same with
        | true => exact absurd (iff.mp rfl) differ
        | false => exact tells
  refine renders_read read ?_
  cases same with
  | true => exact constant_renders p.call (by decide) rfl back kept
  | false => exact constant_renders p.call (by decide) rfl back kept

theorem stepCompare_renders (renders : r.Renders) (call : m.SimpleCall s ρ root c .compare) :
    (stepCompare r root).Renders s m ρ fun _ m' log =>
      m.Clean s ρ log m' ∨ m.Halts Report.Any root m' root log := by
  refine pair_renders renders call nofun rfl rfl rfl fun m' ρ' c' x y p value value' => ?_
  obtain ⟨t, unfolds, data⟩ := value 0 rfl
  obtain ⟨t', unfolds', data'⟩ := value' 1 rfl
  obtain ⟨⟨⟨live, -⟩, simple⟩, ⟨live', -⟩, simple'⟩ := p.below
  have read := p.call.site.inv.order_simple ⟨live, simple⟩ ⟨live', simple'⟩ unfolds unfolds'
  have back : ∀ κ v, v.Tells (.ofOrdering (t.order t')) →
      HeadStep.compare.Reports κ (m'.graph.Means κ .lazy) root c'.links v := fun κ v tells =>
    p.reports.mpr (.computed rfl (unfolds.means data) (unfolds'.means data') (.compared t t') tells)
  have kept : ∀ κ e v, HeadStep.compare.Reports κ (m'.graph.Means κ e) root c'.links v →
      v.Tells (.ofOrdering (t.order t')) := by
    intro κ e v reports
    cases p.reports.mp reports with
    | computed links left right computes tells =>
      cases links
      cases left.unique (unfolds.means (e := e) data)
      cases right.unique (unfolds'.means (e := e) data')
      cases computes
      exact tells
  refine renders_read read ?_
  generalize t.order t' = o at back kept
  cases o with
  | lt => exact constant_renders p.call (by decide) rfl back kept
  | eq => exact constant_renders p.call (by decide) rfl back kept
  | gt => exact constant_renders p.call (by decide) rfl back kept

/-! ## Constraints -/

theorem stepConjunction_renders (renders : r.Renders) (call : m.SimpleCall s ρ root c .conjunction) :
    (stepConjunction r root).Renders s m ρ fun _ m' log =>
      m.Clean s ρ log m' ∨ m.Halts Report.Any root m' root log := by
  refine pair_renders renders call nofun rfl rfl rfl fun m' ρ' c' x y p _ _ => ?_
  obtain ⟨cx, index, hx, tx⟩ := p.first
  obtain ⟨cy, index', hy, ty⟩ := p.second
  refine constant_renders p.call (by decide) rfl (fun κ v tells => ?_) fun κ e v reports => ?_
  · exact p.reports.mpr (.conjunction rfl ((Graph.Leads.refl x).means_head hx tx)
      ((Graph.Leads.refl y).means_head hy ty) tells)
  · cases reports with
    | conjunction _ _ _ tells => exact tells
    | computed _ _ _ computes => cases computes

end Pairs

/-- A step that forces the first argument only. -/
theorem one_renders (renders : r.Renders) (call : m.SimpleCall s ρ root c h) (choose : h ≠ .choose)
    (demands : h.demands = [.head 0]) {body : NodeId → Eff Unit}
    (acts : ∀ m' ρ' c' t x, m'.SimpleCall s ρ' root c' h → c'.links[0]? = some t → m'.graph.Leads t x →
      m'.graph.Built x → (body x).Renders s m' ρ' fun _ m'' log => m'.Clean s ρ' log m'') :
    (force r root h.demands (onOne body)).Renders s m ρ fun _ m' log =>
      m.Clean s ρ log m' ∨ m.Halts Report.Any root m' root log := by
  refine force_renders renders choose h.demands _ m ρ c [] call h.needs_demands
    (fun _ hp => absurd hp List.not_mem_nil) (by rw [demands]; simp) fun m' ρ' c' xs call' length met => ?_
  rw [demands] at length met
  rcases xs with _ | ⟨x, _ | ⟨_, _⟩⟩ <;> cases length
  obtain ⟨⟨t, ht, leads⟩, built, -⟩ := met (.head 0, x) List.mem_cons_self
  exact acts m' ρ' c' t x call' ht leads built

theorem stepGuard_renders (renders : r.Renders) (call : m.SimpleCall s ρ root c .guard) :
    (stepGuard r root).Renders s m ρ fun _ m' log =>
      m.Clean s ρ log m' ∨ m.Halts Report.Any root m' root log := by
  refine one_renders renders call nofun rfl fun m' ρ' c' t x call' ht leads built => ?_
  obtain ⟨d, index, hd, tag⟩ := built
  have w := call'.site
  obtain ⟨u, links⟩ : ∃ u, c'.links = [t, u] := by
    have size := call'.length
    generalize c'.links = ls at ht size
    rcases ls with _ | ⟨_, _ | ⟨u, _ | ⟨_, _⟩⟩⟩ <;> cases size
    cases ht
    exact ⟨u, rfl⟩
  have hu : c'.links[1]? = some u := by rw [links]; rfl
  refine renders_read (w.inv.read_successor w.live w.content hu) ?_
  refine forward_renders call' ⟨w.link hu, (call'.graph.content w.content).2 u (List.mem_of_getElem? hu)⟩ ?_ ?_
  · exact fun κ v means => .guard links (leads.means_head hd tag) means
  · intro κ e v reports
    cases reports with
    | guard links' _ right =>
      cases links.symm.trans links'
      exact right
    | computed _ _ _ computes => cases computes

theorem stepEnsureNotFree_renders (renders : r.Renders) (call : m.SimpleCall s ρ root c .ensureNotFree) :
    (stepEnsureNotFree r root).Renders s m ρ fun _ m' log =>
      m.Clean s ρ log m' ∨ m.Halts Report.Any root m' root log := by
  refine one_renders renders call nofun rfl fun m' ρ' c' t x call' ht leads built => ?_
  have w := call'.site
  have links : c'.links = [t] := by
    have size := call'.length
    generalize c'.links = ls at ht size
    rcases ls with _ | ⟨_, _ | ⟨_, _⟩⟩ <;> cases size
    cases ht
    rfl
  have graph := ((call'.graph.content w.content).2 t (List.mem_of_getElem? ht)).leads leads
  refine forward_renders call' ⟨w.below ht leads, graph⟩ ?_ ?_
  · exact fun κ v means => .ensureNotFree links (leads.means.mpr means)
  · intro κ e v reports
    cases reports with
    | ensureNotFree links' argument =>
      cases links.symm.trans links'
      exact leads.means.mp argument
    | computed _ _ _ computes => cases computes

/-- Whatever can be said of a unification, it is that it succeeds. -/
theorem reports_unify_success {R : NodeId → Report → Prop} {i : NodeId} {ls : List NodeId}
    (reports : HeadStep.unify.Reports κ R i ls v) : v.Tells .success := by
  cases reports with
  | computed _ _ _ computes tells =>
    cases computes
    exact tells

/-- The arguments are constructors: they differ, or they hold the same, or their arguments are unified. -/
theorem unifyHeads_renders (p : ForcedPair m s ρ root c .unify x y) :
    (unifyHeads root x y).Renders s m ρ fun _ m' log => m.Clean s ρ log m' := by
  obtain ⟨cx, index, hx, tx⟩ := p.first
  obtain ⟨cy, index', hy, ty⟩ := p.second
  obtain ⟨⟨⟨live, -⟩, simple⟩, ⟨live', -⟩, simple'⟩ := p.below
  have w := p.call.site
  have hσ := w.inv.signature
  have fits := w.inv.fitsAt live hx
  have fits' := w.inv.fitsAt live' hy
  -- the heads have to match
  have heads : ∀ {κ e v}, HeadStep.unify.Reports κ (m.graph.Means κ e) root c.links v →
      cx.head.Matches cy.head := by
    intro κ e v reports
    cases p.reports.mp reports with
    | computed links left right computes =>
      cases links
      obtain ⟨ss, rfl, -⟩ := left.landed (.refl x) hx tx
      obtain ⟨ts, rfl, -⟩ := right.landed (.refl y) hy ty
      cases computes with
      | unified same => exact (Unfolding.matches_node.mp same).1
  have succeeds : cx.links = [] → cy.links = [] → cx.head.Matches cy.head →
      (succeed root).Renders s m ρ fun _ m' log => m.Clean s ρ log m' := by
    intro none none' same
    refine constant_renders p.call (by decide) rfl (fun κ v tells => ?_) fun κ e v => reports_unify_success
    refine p.reports.mpr (.computed (s := .node cx.head []) (t := .node cy.head []) rfl
      ((Graph.means_content hx).mpr ((Content.reports_leaf tx none).mpr rfl))
      ((Graph.means_content hy).mpr ((Content.reports_leaf ty none').mpr rfl)) (.unified ?_) tells)
    exact Unfolding.matches_node.mpr ⟨same, .nil⟩
  by_cases symbol : cx.symbol = cy.symbol
  · have tags : cx.tag = cy.tag := by
      obtain ⟨_, -, tagged, -⟩ := fits.symbol hσ
      obtain ⟨_, -, tagged', -⟩ := fits'.symbol hσ
      rw [symbol] at tagged
      exact Except.ok.inj (tagged.symm.trans tagged')
    have identifier : cx.tag = .free ∨ cx.tag = .choice → cx.aux = cy.aux := by
      rw [tx]
      rintro (tag | tag) <;> cases tag
    rcases (simple.content hx).1.of_constructor fits tx with ⟨aux, a, rfl⟩ | ⟨le, ls, linked⟩
    · rcases (simple'.content hy).1.of_constructor fits' ty with ⟨aux', b, rfl⟩ | ⟨le', -⟩
      · refine renders_congr (unifyHeads_literals hσ hx hy fits) ?_
        split
        · next same => exact succeeds rfl rfl ⟨rfl, rfl, identifier, .some same⟩
        · next differ =>
          refine fail_renders p.call fun κ e v reports => ?_
          obtain ⟨same⟩ := (heads reports).literal
          exact differ same
      · exact absurd (le'.trans symbol.ge) (by decide : ¬ 10 ≤ Builtin.int)
    · rcases (simple'.content hy).1.of_constructor fits' ty with ⟨aux', b, rfl⟩ | ⟨le', ls', linked'⟩
      · exact absurd (le.trans symbol.le) (by decide : ¬ 10 ≤ Builtin.int)
      · obtain ⟨_, name, aux, _⟩ := cx
        obtain ⟨_, name', aux', _⟩ := cy
        cases tx
        cases tags
        cases symbol
        cases linked
        cases linked'
        have length : ls.length = ls'.length :=
          (fits.shaped hσ).same_length (fits'.shaped hσ) rfl
        have same : Head.Matches (Content.head ⟨.constructor index, name, aux, .links ls⟩)
            (Content.head ⟨.constructor index, name, aux', .links ls'⟩) := ⟨rfl, rfl, identifier, .none⟩
        refine renders_congr (unifyHeads_data hσ hx hy fits length) ?_
        split
        · next none =>
          subst none
          exact succeeds rfl (List.length_eq_zero_iff.mp length.symm) same
        · next some_ =>
          obtain ⟨a, b, links, leads, leads'⟩ := p.links
          have pairs : ls.zip ls' ≠ [] := fun none => some_ ((List.zip_eq_nil_iff.mp none).elim id fun none =>
            List.length_eq_zero_iff.mp (length.trans (congrArg List.length none)))
          have unified := unifySuccessors_renders w p.call.tag p.call.head links p.call.graph leads leads' hx hy
            rfl rfl same length pairs
          exact unified
  · refine renders_congr (unifyHeads_apart hx hy symbol) (fail_renders p.call fun κ e v reports => ?_)
    exact symbol (heads reports).symbol

/-- No argument is a variable. -/
theorem stepUnify_renders (renders : r.Renders) (call : m.SimpleCall s ρ root c .unify) :
    (stepUnify r root).Renders s m ρ fun _ m' log =>
      m.Clean s ρ log m' ∨ m.Halts Report.Any root m' root log := by
  have w := call.site
  have size : c.links.length = 2 := call.length
  obtain ⟨t, u, links⟩ := List.length_eq_two.mp size
  have ht : c.links[0]? = some t := by rw [links]; rfl
  have hu : c.links[1]? = some u := by rw [links]; rfl
  obtain ⟨a, ca, skip, leads, ha, -⟩ := w.inv.read_successorSkip w.live w.content ht
  obtain ⟨b, cb, skip', leads', hb, -⟩ := w.inv.read_successorSkip w.live w.content hu
  have filled : ca.tag ≠ .free := by
    intro free
    have simple := (((call.graph.content w.content).2 t (List.mem_of_getElem? ht)).leads leads).content ha
    have here := simple.1
    unfold Content.Simple at here
    rw [free] at here
    exact here
  unfold stepUnify
  refine renders_read skip (renders_read skip' (renders_read (TermGraph.tag_content ha)
    (renders_read (TermGraph.tag_content hb) ?_)))
  rw [if_neg fun both => filled both.1]
  exact pair_renders renders call nofun rfl rfl rfl fun m' ρ' c' x y p _ _ => unifyHeads_renders p

/-! ## The choice function -/

/-- A call of the choice function becomes a choice; its identifier goes into the log. -/
theorem stepChoose_renders (call : m.SimpleCall s ρ root c .choose) :
    (stepChoose root).Renders s m ρ fun _ m' log => m.Clean s ρ log m' := by
  have w := call.site
  have size : c.links.length = 2 := call.length
  obtain ⟨t, u, links⟩ := List.length_eq_two.mp size
  have ht : c.links[0]? = some t := by rw [links]; rfl
  have hu : c.links[1]? = some u := by rw [links]; rfl
  unfold stepChoose
  refine renders_read (w.inv.read_successor w.live w.content ht)
    (renders_read (w.inv.read_successor w.live w.content hu) ?_)
  let m₁ : Machine := { m with nextId := m.nextId + 1 }
  unfold Renders
  rw [show (freshId >>= fun id => rewrite root .choice Builtin.choice id [some t, some u]) m =
    rewrite root .choice Builtin.choice m.nextId [some t, some u] m₁ from rfl]
  rcases rewrite_writes (m := m₁) w.inv.storage (w.inv.lt w.live) .choice Builtin.choice m.nextId [t, u] with
    ⟨g, run, sets⟩ | ⟨err, run⟩
  · rw [show [some t, some u] = [t, u].map some from rfl, run]
    let d : Content := ⟨.choice, Builtin.choice, m.nextId, .links [t, u]⟩
    have rewritten : m.Rewritten [(root, m.nextId)] root c d (m₁.setGraph g) := by
      refine ⟨⟨Nat.le_succ _, List.nodup_singleton _, ?_, List.nodup_singleton _, ?_, ?_⟩, rfl, w.content, sets.same,
        fun i _ ne => sets.others i ne⟩
      · intro p hp
        rw [List.mem_singleton.mp hp]
        exact ⟨le_rfl, Nat.lt_succ_self _⟩
      · intro p hp
        rw [List.mem_singleton.mp hp]
        exact ⟨c, w.content, call.chooses_iff.mpr rfl⟩
      · intro i e he chooses
        have ne : i ≠ root := by
          rintro rfl
          cases sets.same.symm.trans he
          cases chooses.1
        exact ⟨(sets.others i ne).symm.trans he, fun mem => ne (List.mem_singleton.mp mem)⟩
    have same : ∀ κ : Sides, κ.Heeds [(root, m.nextId)] → ∀ e v, c.Reports κ e (m.graph.Means κ e) root v ↔
        d.Reports κ e (m.graph.Means κ e) root v := by
      intro κ heeds e v
      rw [reports_chooses (call.chooses_iff.mpr rfl) links, reports_choice, heeds _ List.mem_cons_self]
    have below : ∀ q ∈ d.links, (m.Live [] q ∧ ρ q < ρ root) ∧ m.graph.SimpleFrom q := by
      intro q hq
      have mem : q ∈ c.links := links ▸ hq
      exact ⟨⟨w.live.link w.content mem, w.inv.ranked root q c w.live w.content mem⟩,
        (call.graph.content w.content).2 q mem⟩
    exact ⟨_, rewritten.rendered_direct w.inv w.live rfl below (fun κ heeds v => (same κ heeds .lazy v).mpr)
        fun κ heeds e _ v => (same κ heeds e v).mp,
      rewritten.clean_direct w.inv w.live (fun q hq => (below q hq).1) (fun κ heeds v => (same κ heeds .lazy v).mp)
        fun index data => nomatch call.tag.symm.trans data⟩
  · rw [show [some t, some u] = [t, u].map some from rfl, run]
    exact ⟨nofun, [], rendered_of_graph rfl rfl (Nat.le_succ _)⟩

/-! ## All steps -/

/-- A head step takes away no meaning of a call, or it ends the work on it. -/
theorem runHead_renders (renders : r.Renders) (call : m.SimpleCall s ρ root c h) :
    (runHead r root h).Renders s m ρ fun _ m' log =>
      m.Clean s ρ log m' ∨ m.Halts Report.Any root m' root log := by
  have simple := call.simple
  cases h with
  | arithmetic op => exact stepArithmetic_renders renders call
  | equals => exact stepEquals_renders renders call
  | compare => exact stepCompare_renders renders call
  | choose => exact (stepChoose_renders call).mono fun _ _ _ _ _ clean => .inl clean
  | fail =>
    refine (fail_renders call fun κ e v reports => ?_).mono fun _ _ _ _ _ clean => .inl clean
    cases reports with
    | computed _ _ _ computes => cases computes
  | unify => exact stepUnify_renders renders call
  | conjunction => exact stepConjunction_renders renders call
  | guard => exact stepGuard_renders renders call
  | ensureNotFree => exact stepEnsureNotFree_renders renders call
  | _ => exact simple.elim

end Reduction

end ChoiceGraph
