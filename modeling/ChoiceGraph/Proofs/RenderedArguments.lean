import ChoiceGraph.Proofs.NormalForms
import ChoiceGraph.Proofs.Preparing

/-! # Forced arguments keep meanings

A call of the prelude means nothing unless the arguments that it forces do. So if a forced argument
fails, the call means nothing either; if it comes to a choice, the choice is pulled above the call;
and otherwise all that the call has meant it still means. -/
namespace ChoiceGraph

/-! ## Calls of the prelude -/

namespace Report

/-- A head is asked for, which also values have. -/
def Any (_ : Report) : Prop := True

/-- A value is asked for. -/
def IsValue : Report → Prop
  | head => False
  | value _ => True

end Report

namespace HeadStep

/-- The number of arguments of a function of the prelude that takes no functions. -/
def arity : HeadStep → Nat
  | fail => 0
  | ensureNotFree => 1
  | _ => 2

/-- What is said of a call is said because of something that is said of its argument `k`. -/
def Needs (h : HeadStep) (k : Nat) (form : Report → Prop) : Prop :=
  ∀ (κ : Sides) (R : NodeId → Report → Prop) (i : NodeId) (ls : List NodeId) (w : Report),
    h.Reports κ R i ls w → ∃ t v, ls[k]? = some t ∧ form v ∧ R t v

/-- The simple functions are listed in the prelude. -/
theorem listed_of_simple {f : SymbolId} {h : HeadStep} (symbol : ofSymbol? f = some h) (simple : h.Simple) :
    10 ≤ f ∧ f < Signature.preludeEnd ∧
      ∃ name, Signature.standard.symbol? f = some (.function name h.arity h) := by
  have lt : f < Signature.preludeEnd := by
    obtain ⟨sym, found, -⟩ := Option.map_eq_some_iff.mp symbol
    exact (Array.getElem?_eq_some_iff.mp found).1
  interval_cases f <;> cases symbol <;>
    first | exact simple.elim | exact ⟨by decide, by decide, _, rfl⟩

end HeadStep

theorem Content.isCall_of_simple {c : Content} {h : HeadStep} (tag : c.tag = .operation)
    (head : HeadStep.ofSymbol? c.symbol = some h) (simple : h.Simple) : c.IsCall := by
  obtain ⟨le, -, -⟩ := HeadStep.listed_of_simple head simple
  refine ⟨tag, ?_⟩
  rintro (other | other | other | symbol | symbol)
  · cases tag.symm.trans other
  · cases tag.symm.trans other
  · cases tag.symm.trans other
  · exact absurd (symbol ▸ le) (by decide)
  · exact absurd (symbol ▸ le) (by decide)

/-- The node holds a constructor. -/
def Graph.Built (g : Graph) (i : NodeId) : Prop := ∃ d index, g.content? i = some d ∧ d.tag = .constructor index

/-- The node is a term, with nothing in it that is left to be reduced. -/
def Graph.Evaluated (g : Graph) (i : NodeId) : Prop := ∃ t, g.UnfoldsTo i t ∧ t.Data

theorem Graph.Evaluated.landed {g : Graph} {i : NodeId} (h : g.Evaluated i) : ∃ j d, g.Leads i j ∧
    g.content? j = some d ∧ (∃ index, d.tag = .constructor index) ∧ g.Evaluated j := by
  obtain ⟨_, ⟨leads, hd, plain, length, each⟩, ⟨data, below⟩⟩ := h
  exact ⟨_, _, leads, hd, data, _, .node (.refl _) hd plain length each, data, below⟩

theorem Graph.Evaluated.before {g : Graph} {i j : NodeId} (leads : g.Leads i j) (value : g.Evaluated j) :
    g.Evaluated i := by
  obtain ⟨_, ⟨leads', hd, plain, length, each⟩, data⟩ := value
  exact ⟨_, .node (leads.trans leads') hd plain length each, data⟩

namespace Machine

variable {m m₁ m₂ m' : Machine} {s : Scope} {ρ ρ' : Rank} {root i j t x : NodeId} {c d d' : Content} {h : HeadStep}
  {k : Nat} {log log' : CallLog} {asked : Report → Prop} {κ : Sides} {e : Reading} {R : NodeId → Report → Prop}
  {w : Report}

/-- A call of the prelude that takes no functions, below which there are only such calls. -/
structure SimpleCall (m : Machine) (s : Scope) (ρ : Rank) (root : NodeId) (c : Content) (h : HeadStep) : Prop where
  site : m.Site s ρ root c
  tag : c.tag = .operation
  head : HeadStep.ofSymbol? c.symbol = some h
  graph : m.graph.SimpleFrom root

namespace SimpleCall

theorem simple (call : m.SimpleCall s ρ root c h) : h.Simple := by
  have simple := (call.graph.content call.site.content).1
  unfold Content.Simple at simple
  rw [call.tag] at simple
  obtain ⟨h', head, simple⟩ := simple
  cases call.head.symm.trans head
  exact simple

theorem isCall (call : m.SimpleCall s ρ root c h) : c.IsCall :=
  Content.isCall_of_simple call.tag call.head call.simple

theorem symbol (call : m.SimpleCall s ρ root c h) :
    ∃ name, m.signature.symbol? c.symbol = some (.function name h.arity h) := by
  obtain ⟨-, lt, name, listed⟩ := HeadStep.listed_of_simple call.head call.simple
  exact ⟨name, (call.site.inv.signature.prelude _ lt).trans listed⟩

theorem length (call : m.SimpleCall s ρ root c h) : c.links.length = h.arity := by
  obtain ⟨name, found⟩ := call.symbol
  obtain ⟨sym, found', -, length⟩ := call.site.fits.symbol call.site.inv.signature
  cases found.symm.trans found'
  exact length

theorem chooses_iff (call : m.SimpleCall s ρ root c h) : c.Chooses ↔ h = .choose := by
  constructor
  · exact fun chooses => Option.some.inj (call.head.symm.trans chooses.2)
  · rintro rfl
    exact ⟨call.tag, call.head⟩

theorem reports (call : m.SimpleCall s ρ root c h) :
    c.Reports κ e R root w ↔ e ≠ .settled ∧ h.Reports κ R root c.links w := reports_call call.tag call.head

/-- The call with another link. -/
theorem relinked (call : m.SimpleCall s ρ root c h) {s' : Scope} (site : m'.Site s' ρ' root (c.setLink k x))
    (graph : m'.graph.SimpleFrom root) : m'.SimpleCall s' ρ' root (c.setLink k x) h :=
  ⟨site, call.tag, call.head, graph⟩

end SimpleCall

/-- The work on node `i` has ended at a choice, or at a failure, and then nothing of what was asked for
could be said of the node. -/
inductive Halts (m : Machine) (asked : Report → Prop) (i : NodeId) (m' : Machine) (j : NodeId) (log : CallLog) :
    Prop where
  | choice {d : Content} (content : m'.graph.content? j = some d) (tag : d.tag = .choice) : Halts m asked i m' j log
  | failure {d : Content} (content : m'.graph.content? j = some d) (tag : d.tag = .failure)
    (barren : ∀ κ : Sides, κ.Heeds log → ∀ w, asked w → ¬ m.graph.Means κ .lazy i w) : Halts m asked i m' j log

theorem Halts.content (h : m.Halts asked i m' j log) :
    ∃ d, m'.graph.content? j = some d ∧ (d.tag = .choice ∨ d.tag = .failure) := by
  cases h with
  | choice content tag => exact ⟨_, content, .inl tag⟩
  | failure content tag => exact ⟨_, content, .inr tag⟩

/-- Before, the machine could say no more of the node. -/
theorem Halts.before (clean : m.Clean s ρ log m₁) (steady : m.Steady s ρ i) (h : m₁.Halts asked i m' j log') :
    m.Halts asked i m' j (log ++ log') := by
  cases h with
  | choice content tag => exact .choice content tag
  | failure content tag barren =>
    refine .failure content tag fun κ heeds w hw means => ?_
    obtain ⟨early, late⟩ := Sides.heeds_append.mp heeds
    exact barren κ late w hw (clean.upholds κ early i w steady means)

/-- One node asks another one. -/
theorem Halts.lift {asked' : Report → Prop} (h : m.Halts asked' t m' j log)
    (needs : ∀ κ w, asked w → m.graph.Means κ .lazy i w → ∃ v, asked' v ∧ m.graph.Means κ .lazy t v) :
    m.Halts asked i m' j log := by
  cases h with
  | choice content tag => exact .choice content tag
  | failure content tag barren =>
    refine .failure content tag fun κ heeds w hw means => ?_
    obtain ⟨v, hv, below⟩ := needs κ w hw means
    exact barren κ heeds v hv below

/-- Another node becomes the same, a choice or a failure. -/
theorem Halts.passed (h : m.Halts asked i m₁ j log) (hd : m₁.graph.content? j = some d)
    (hd' : m'.graph.content? x = some d') (tag : d'.tag = d.tag) : m.Halts asked i m' x (log ++ log') := by
  cases h with
  | choice content tag' =>
    cases hd.symm.trans content
    exact .choice hd' (tag.trans tag')
  | failure content tag' barren =>
    cases hd.symm.trans content
    exact .failure hd' (tag.trans tag') fun κ heeds => barren κ (Sides.heeds_append.mp heeds).1

/-! ## Nodes that are unhurt -/

/-- What the node has been brought to, it is still. -/
structure Unhurt (m m' : Machine) (x : NodeId) : Prop where
  built : m.graph.Built x → m'.graph.Built x
  evaluated : m.graph.Evaluated x → m'.graph.Evaluated x

theorem Unhurt.trans (h : m.Unhurt m₁ x) (h' : m₁.Unhurt m' x) : m.Unhurt m' x :=
  ⟨fun built => h'.built (h.built built), fun value => h'.evaluated (h.evaluated value)⟩

theorem unhurt_of_clean (rendered : m.Rendered s ρ log m') (clean : m.Clean s ρ log m') (hx : m.Steady s ρ x) :
    m.Unhurt m' x where
  built := by
    rintro ⟨d, index, hd, tag⟩
    obtain ⟨d', hd', head⟩ := clean.data x d index hx hd tag
    exact ⟨d', index, hd', (congrArg Head.tag head).trans tag⟩
  evaluated := by
    -- some way to take sides that the log allows: all calls and choices go left
    rintro ⟨t, unfolds, data⟩
    have means := rendered.upholds ⟨fun _ => .left, fun _ => .left⟩ (fun _ _ => rfl) .settled x _ nofun hx
      (unfolds.means data)
    exact ⟨t, means.unfolds⟩

theorem Steady.leads (h : m.Steady s ρ i) (below : ∀ p, ¬ s.exempt p) (leads : m.graph.Leads i j) :
    m.Steady s ρ j := by
  induction leads with
  | refl => exact h
  | step hc _ ih => exact ih (.link h hc (.inr ⟨.inl rfl, below _⟩) List.mem_cons_self)

/-- What hangs from a site is not hurt by the work on one of its arguments. -/
theorem Site.unhurt {q : ℚ} (w : m.Site s ρ root c) (lt : q < ρ root) (hk : c.links[k]? = some t)
    (rendered : m.Rendered (.below q) ρ log m') (clean : m.Clean (.below q) ρ log m') {b : NodeId}
    (hb : b ∈ c.links) (leads : m.graph.Leads b x) : m.Unhurt m' x := by
  have steady := w.inv.steady (s := .below q) w.live lt.le
  have filled : c.tag ≠ .free := by
    intro ht
    rw [w.fits.links_of_free ht] at hk
    cases hk
  exact unhurt_of_clean rendered clean
    (Steady.leads (.link steady w.content (Scope.fixed_above lt filled) hb) (fun _ => id) leads)

end Machine

/-! ## Taking over -/

namespace Reduction

open Eff Machine

variable {m : Machine} {s : Scope} {ρ : Rank} {root t x j p : NodeId} {c d : Content} {h : HeadStep} {k : Nat}
  {r : Reducer}

/-- A node of which nothing can be said is made a failure. -/
theorem rewriteFail_renders (w : m.Site s ρ root c)
    (dead : ∀ κ e v, e ≠ .lazy → ¬ c.Reports κ e (m.graph.Means κ e) root v) :
    (rewriteFail root).Renders s m ρ fun _ m' _ => ∃ d, m'.graph.content? root = some d ∧ d.tag = .failure := by
  refine (rewriteFail_writes w.inv.storage (w.inv.lt w.live)).renders w.content Content.blank_not_chooses
    fun m' rewritten => ⟨?_, _, rewritten.after, rfl⟩
  refine rewritten.rendered_direct w.inv w.live trivial (fun _ hq => absurd hq List.not_mem_nil) ?_ ?_
  · exact fun κ _ v reports => absurd reports (not_reports_failure rfl)
  · exact fun κ _ e strict v reports => absurd reports (dead κ e v strict)

/-- A choice below a call or a constructor is pulled above it. -/
theorem pull_renders (w : m.Site s ρ root c) (simple : m.graph.SimpleFrom root) (chooses : ¬ c.Chooses)
    (kind : c.tag = .operation ∨ ∃ index, c.tag = .constructor index) (hk : c.links[k]? = some t)
    (leads : m.graph.Leads t j) (hd : m.graph.content? j = some d) (tag : d.tag = .choice) :
    (pull root k).Renders s m ρ fun _ m' _ => ∃ d, m'.graph.content? root = some d ∧ d.tag = .choice := by
  have plain := (((simple.content w.content).2 t (List.mem_of_getElem? hk)).leads leads).content hd
  obtain ⟨symbol, id, left, right, rfl, kinds⟩ := (w.inv.fitsAt (w.below hk leads).1 hd).of_choice tag
  obtain rfl : symbol = Builtin.choice := plain.1
  have below : m.ChoiceBelow root c k j Builtin.choice id left right := ⟨⟨t, hk, leads⟩, hd, kinds⟩
  unfold pull
  refine renders_read (choiceBelow_skip w.inv w.live w.content below)
    (renders_read (TermGraph.symbolId_content hd) ?_)
  exact pullTab_renders w simple chooses kind below

/-- The link to an argument skips the indirections on the way. -/
theorem relink_renders {α : Type} {f : Eff α} {P : α → Machine → CallLog → Prop} {q : Prop} [Decidable q]
    (w : m.Site s ρ root c) (simple : m.graph.SimpleFrom root) (chooses : ¬ c.Chooses) (kind : c.IsCall ∨ c.IsData)
    (hk : c.links[k]? = some t) (leads : m.graph.Leads t x) (same : ¬ q → t = x)
    (go_on : ∀ m' ρ', m.Relinked s ρ root (c.setLink k x) m' ρ' → m.Clean s ρ [] m' → m'.graph.SimpleFrom root →
      (∀ y, m.Live [] y ∧ ρ y < ρ root → m.Unhurt m' y) → f.Renders s m' ρ' P) :
    (do
      if q then setSuccessor root k (some x)
      f).Renders s m ρ P := by
  dsimp only
  split
  · have bound := (List.getElem?_eq_some_iff.mp hk).1
    rcases setSuccessor_writes w.inv.storage w.inv.signature w.content w.fits bound x with
      ⟨g, run, sets⟩ | ⟨err, run⟩
    · obtain ⟨ρ', ev, site, -⟩ := (setSuccessor_keeps w hk leads).ok run
      have rewritten := rewritten_of_sets w.content sets (d := c.setLink k x) chooses
      have head := Content.setLink_head (k := k) (x := x) (w.fits.linked w.inv.signature bound).stored
      obtain ⟨here, links⟩ := simple.content w.content
      have below : ∀ y ∈ (c.setLink k x).links, (m.Live [] y ∧ ρ y < ρ root) ∧ m.graph.SimpleFrom y := by
        intro y hy
        rcases mem_setLink hy with hy | rfl
        · exact ⟨⟨w.live.link w.content hy, w.inv.ranked root y c w.live w.content hy⟩, links y hy⟩
        · exact ⟨w.below hk leads, (links t (List.mem_of_getElem? hk)).leads leads⟩
      have plain : (c.setLink k x).Simple := here.setLink (kind.imp And.left And.left)
      have there : ∀ (κ : Sides) (e : Reading) (v : Report), c.Reports κ e (m.graph.Means κ e) root v →
          (c.setLink k x).Reports κ e (m.graph.Means κ e) root v := fun κ e v reports =>
        reports.replace head
          (Content.links_setLink hk (fun _ => leads.means.mp) fun _ _ _ => id) (.inl rfl)
      have back : ∀ (κ : Sides) (e : Reading) (v : Report),
          (c.setLink k x).Reports κ e (m.graph.Means κ e) root v → c.Reports κ e (m.graph.Means κ e) root v :=
        fun κ e v reports => reports.replace head.symm
          (Content.links_setLink hk (fun _ => leads.means.mpr) fun _ _ _ => id).flip (.inl rfl)
      have rendered : m.Rendered s ρ [] (m.setGraph g) := rewritten.rendered_direct w.inv w.live plain below
        (fun κ _ v => back κ .lazy v) fun κ _ e _ v => there κ e v
      have clean : m.Clean s ρ [] (m.setGraph g) := rewritten.clean_direct w.inv w.live
        (fun y hy => (below y hy).1) (fun κ _ v => there κ .lazy v) fun _ _ => head
      refine .after run rendered ev (go_on _ ρ' (relinked_of_sets w kind hk leads sets ev site) clean ?_ ?_)
      · exact rendered.simple root w.steady simple
      · rintro y ⟨live, lt⟩
        refine ⟨?_, ?_⟩
        · rintro ⟨d, index, hd, tag⟩
          exact ⟨d, index, (rewritten.others y live fun same => lt_irrefl _ (same ▸ lt)).trans hd, tag⟩
        · rintro ⟨t, unfolds, data⟩
          have means := (rewritten.means_below (κ := ⟨fun _ => .left, fun _ => .left⟩) (e := .settled) w.inv
            live lt).mpr (unfolds.means data)
          exact ⟨t, means.unfolds⟩
    · unfold Renders
      rw [bind_error run]
      exact ⟨nofun, [], .refl m⟩
  · next unchanged =>
    obtain rfl := same unchanged
    exact go_on m ρ (.kept w hk) (.refl m) simple fun _ _ => ⟨id, id⟩

/-! ## Forcing an argument -/

/-- A reducer that keeps meanings. It leads to a choice, to a failure if nothing of what is asked for could be
said of the node, or else to what is asked for, and then it takes away no meaning. -/
structure Reducer.Renders (r : Reducer) : Prop where
  sound : r.Sound
  head : ∀ m ρ i, m.Inv [] ρ → m.Live [] i → m.graph.SimpleFrom i →
    (r.head i).Renders (.below (ρ i)) m ρ fun j m' log => m.Halts Report.Any i m' j log ∨
      m'.graph.Built j ∧ m.Clean (.below (ρ i)) ρ log m'
  normal : ∀ m ρ i, m.Inv [] ρ → m.Live [] i → m.graph.SimpleFrom i →
    (r.normal i).Renders (.below (ρ i)) m ρ fun _ m' log =>
      (∃ j, m'.graph.Leads i j ∧ m.Halts Report.IsValue i m' j log) ∨
      m'.graph.Evaluated i ∧ m.Clean (.below (ρ i)) ρ log m'

/-- Argument `k` is now a constructor, and what hangs from the others is not hurt. -/
structure Forces (m : Machine) (s : Scope) (ρ : Rank) (c : Content) (k x : NodeId) (m' : Machine)
    (log : CallLog) : Prop where
  clean : m.Clean s ρ log m'
  built : m'.graph.Built x
  unhurt : ∀ n b y, n ≠ k → c.links[n]? = some b → m.graph.Leads b y → m.Unhurt m' y

/-- Where the work on one of its arguments has ended, the work on a call ends too. -/
theorem settle_renders {m₀ : Machine} {log : CallLog} {form : Report → Prop} {i : NodeId}
    (call : m.SimpleCall s ρ root c h) (choose : h ≠ .choose) (needs : h.Needs k form) (hk : c.links[k]? = some t)
    (leads : m.graph.Leads t j) (halts : m₀.Halts form i m j log) :
    (settle root k j).Renders s m ρ fun a m' log' => a = .taken ∧ m₀.Halts form i m' root (log ++ log') := by
  have chooses : ¬ c.Chooses := fun chooses => choose (call.chooses_iff.mp chooses)
  unfold settle
  obtain ⟨hd, tag⟩ | ⟨hd, tag, -⟩ := id halts
  · refine renders_read (TermGraph.tag_content hd) ?_
    rw [tag]
    refine (pull_renders call.site call.graph chooses (.inl call.tag) hk leads hd tag).returns ?_
    rintro _ m' log' ⟨d', hd', tag'⟩
    exact ⟨rfl, halts.passed hd hd' (tag'.trans tag.symm)⟩
  · refine renders_read (TermGraph.tag_content hd) ?_
    rw [tag]
    refine (rewriteFail_renders call.site fun κ e v _ reports => ?_).returns ?_
    · obtain ⟨t', v', hk', -, means⟩ := needs _ _ _ _ _ (call.reports.mp reports).2
      cases hk.symm.trans hk'
      exact Graph.not_means_failure hd tag (leads.means.mp means)
    · rintro _ m' log' ⟨d', hd', tag'⟩
      exact ⟨rfl, halts.passed hd hd' (tag'.trans tag.symm)⟩

/-- A constructor does not take the call over. -/
theorem settle_built {P : Argument → Machine → CallLog → Prop} (built : m.graph.Built j) (p : P (.value j) m []) :
    (settle root k j).Renders s m ρ P := by
  obtain ⟨d, index, hd, tag⟩ := built
  unfold settle
  refine renders_read (TermGraph.tag_content hd) ?_
  rw [tag]
  exact renders_pure p

/-- A call needs a head of its argument. -/
theorem headArg_renders (renders : r.Renders) (call : m.SimpleCall s ρ root c h) (choose : h ≠ .choose)
    (needs : h.Needs k Report.Any) (hk : c.links[k]? = some t) :
    (headArg r root k).Renders s m ρ fun a m' log => a = .taken ∧ m.Halts Report.Any root m' root log ∨
      ∃ x, a = .value x ∧ Forces m s ρ c k x m' log := by
  have w := call.site
  have below := w.link hk
  have simple := (call.graph.content w.content).2 t (List.mem_of_getElem? hk)
  have chooses : ¬ c.Chooses := fun chooses => choose (call.chooses_iff.mp chooses)
  unfold headArg
  refine renders_read (w.inv.read_successor w.live w.content hk) (renders_read rfl ?_)
  refine ((renders.head m ρ t w.inv below.1 simple).within (w.within below.2)).bind
    ((renders.sound.head m ρ t w.inv below.1).within (w.within below.2)) ?_
  rintro arg m₁ ρ₁ log₁ - ev₁ ⟨fine, leads₁⟩ rendered₁ ⟨rendered, ends⟩
  obtain ⟨w₁, kept₁⟩ := w.spare below.2 hk fine
  have graph₁ := rendered₁.simple root w.steady call.graph
  refine relink_renders w₁ graph₁ chooses (.inl call.isCall) hk leads₁ (fun same => by simpa using same)
    fun m₂ ρ₂ re clean₂ graph₂ unhurt₂ => ?_
  have call₂ : m₂.SimpleCall s ρ₂ root (c.setLink k arg) h := call.relinked re.site graph₂
  have hk₂ := Content.setLink_self (i := arg) hk
  have apart : arg ≠ root := by
    rintro rfl
    exact lt_irrefl _ (re.site.link hk₂).2
  -- the argument is no variable and no indirection
  have skip : ∀ {d : Content} {P : Argument → Machine → CallLog → Prop}, m₂.graph.content? arg = some d →
      d.tag ≠ .free → d.tag ≠ .forward → (settle root k arg).Renders s m₂ ρ₂ P →
      (look (·.tag arg) >>= fun tag => do
        if tag = .free then narrow arg
        settle root k (← look (·.skip arg))).Renders s m₂ ρ₂ P := by
    intro d P hd free forward settles
    refine renders_read (TermGraph.tag_content hd) ?_
    dsimp only
    rw [if_neg free]
    exact renders_read (TermGraph.skip_self hd forward) settles
  rcases ends with halts | ⟨⟨d, index, hd, tag⟩, clean⟩
  · obtain ⟨d, hd, tag⟩ := halts.content
    have hd₂ : m₂.graph.content? arg = some d := (re.others arg apart).trans hd
    refine skip hd₂ (by rcases tag with tag | tag <;> rw [tag] <;> nofun)
      (Content.not_forward_of_halt tag) ?_
    have passed : m.Halts Report.Any t m₂ arg (log₁ ++ []) := halts.passed hd hd₂ rfl
    have halts₂ : m.Halts Report.Any t m₂ arg log₁ := List.append_nil log₁ ▸ passed
    refine (settle_renders call₂ choose needs hk₂ (.refl arg) halts₂).mono ?_
    rintro a m' log' - - ⟨rfl, halts'⟩
    refine .inl ⟨rfl, halts'.lift fun κ v _ means => ?_⟩
    obtain ⟨t', v', hk', any, means'⟩ := needs _ _ _ _ _
      (call.reports.mp ((Graph.means_content w.content).mp means)).2
    cases hk.symm.trans hk'
    exact ⟨v', any, means'⟩
  · have hd₂ : m₂.graph.content? arg = some d := (re.others arg apart).trans hd
    refine skip hd₂ (by rw [tag]; nofun) (Content.not_forward_of_constructor tag)
      (settle_built ⟨d, index, hd₂, tag⟩ (.inr ⟨arg, rfl, ?_, ⟨d, index, hd₂, tag⟩, ?_⟩))
    · exact (clean.within (w.within below.2)).trans ev₁ clean₂
    · intro n b y _ hb leads
      have mem := List.mem_of_getElem? hb
      exact (w.unhurt below.2 hk rendered clean mem leads).trans (unhurt₂ y (w₁.below hb (kept₁ b mem y leads)))

/-- A call needs the value of its argument. -/
theorem normalArg_renders (renders : r.Renders) (call : m.SimpleCall s ρ root c h) (choose : h ≠ .choose)
    (needs : h.Needs k Report.IsValue) (hk : c.links[k]? = some t) :
    (normalArg r root k).Renders s m ρ fun a m' log => a = .taken ∧ m.Halts Report.Any root m' root log ∨
      ∃ x, a = .value x ∧ Forces m s ρ c k x m' log ∧ m'.graph.Evaluated x := by
  have w := call.site
  have heads : h.Needs k Report.Any := fun κ R i ls v reports =>
    (needs κ R i ls v reports).imp fun _ => .imp fun _ both => ⟨both.1, trivial, both.2.2⟩
  unfold normalArg
  refine (headArg_renders renders call choose heads hk).bind (headArg_keeps renders.sound w hk) ?_
  rintro a m₁ ρ₁ log₁ - ev₁ forced rendered₁ (⟨rfl, halts⟩ | ⟨x, rfl, forces⟩)
  · refine renders_pure (.inl ⟨rfl, ?_⟩)
    rwa [List.append_nil]
  obtain ⟨⟨a, w₁, leads₁⟩, others⟩ := forced x rfl
  have call₁ : m₁.SimpleCall s ρ₁ root (c.setLink k a) h :=
    call.relinked w₁ (rendered₁.simple root w.steady call.graph)
  have hk₁ := Content.setLink_self (i := a) hk
  have below₁ := w₁.below hk₁ leads₁
  have simple := ((call₁.graph.content w₁.content).2 a (List.mem_of_getElem? hk₁)).leads leads₁
  refine ((renders.normal m₁ ρ₁ x w₁.inv below₁.1 simple).within (w₁.within below₁.2)).bind
    ((renders.sound.normal m₁ ρ₁ x w₁.inv below₁.1).within (w₁.within below₁.2)) ?_
  rintro - m₂ ρ₂ log₂ - ev₂ ⟨fine, -⟩ rendered₂ ⟨rendered, ends⟩
  obtain ⟨w₂, kept₂⟩ := w₁.spare below₁.2 hk₁ fine
  have call₂ : m₂.SimpleCall s ρ₂ root (c.setLink k a) h :=
    ⟨w₂, call.tag, call.head, rendered₂.simple root w₁.steady call₁.graph⟩
  have leads₂ := kept₂ a (List.mem_of_getElem? hk₁) x leads₁
  have live₂ := (w₂.below hk₁ leads₂).1
  rcases ends with ⟨j, leads, halts⟩ | ⟨value, clean⟩
  · obtain ⟨d, hd, tag⟩ := halts.content
    refine renders_read (w₂.inv.skip_eq live₂ leads hd (Content.not_forward_of_halt tag)) ?_
    refine (settle_renders call₂ choose needs hk₁ (leads₂.trans leads) halts).mono ?_
    rintro a' m' log' - - ⟨rfl, halts'⟩
    refine .inl ⟨rfl, Halts.before forces.clean w.steady (halts'.lift fun κ v _ means => ?_)⟩
    obtain ⟨t', v', hk', value, means'⟩ := needs _ _ _ _ _
      (call₁.reports.mp ((Graph.means_content w₁.content).mp means)).2
    cases hk₁.symm.trans hk'
    exact ⟨v', value, leads₁.means.mp means'⟩
  · obtain ⟨j, d, leads, hd, tag, value⟩ := value.landed
    obtain ⟨index, data⟩ := tag
    refine renders_read (w₂.inv.skip_eq live₂ leads hd (data ▸ nofun))
      (settle_built ⟨d, index, hd, data⟩ (.inr ⟨j, rfl, ⟨?_, ⟨d, index, hd, data⟩, ?_⟩, value⟩))
    · rw [List.append_nil]
      exact forces.clean.trans ev₁ (clean.within (w₁.within below₁.2))
    · intro n b y hn hb leads
      have mem := List.mem_of_getElem? ((Content.setLink_other (i := a) hn).trans hb)
      exact (forces.unhurt n b y hn hb leads).trans
        (w₁.unhurt below₁.2 hk₁ rendered clean mem (others n b y hn hb leads))

/-! ## Forcing all that is demanded -/

/-- What an argument that is demanded like this has to say. -/
def Demand.form : Demand → Report → Prop
  | head _ => Report.Any
  | normal _ => Report.IsValue

/-- The demand on an argument has been met. -/
structure Demand.Met (m : Machine) (c : Content) (d : Demand) (x : NodeId) : Prop where
  link : ∃ a, c.links[d.index]? = some a ∧ m.graph.Leads a x
  built : m.graph.Built x
  evaluated : ∀ k, d = .normal k → m.graph.Evaluated x

theorem meet_keeps (sound : r.Sound) (w : m.Site s ρ root c) (d : Demand) (hk : c.links[d.index]? = some t) :
    (d.meet r root).Keeps s m ρ fun a m' ρ' => ∀ x, a = .value x → m.Forced m' s ρ' root c d.index x := by
  cases d with
  | head k => exact headArg_keeps sound w hk
  | normal k => exact normalArg_keeps sound w hk

theorem meet_renders (renders : r.Renders) (call : m.SimpleCall s ρ root c h) (choose : h ≠ .choose) (d : Demand)
    (needs : h.Needs d.index d.form) (hk : c.links[d.index]? = some t) :
    (d.meet r root).Renders s m ρ fun a m' log => a = .taken ∧ m.Halts Report.Any root m' root log ∨
      ∃ x, a = .value x ∧ Forces m s ρ c d.index x m' log ∧ ∀ k, d = .normal k → m'.graph.Evaluated x := by
  cases d with
  | head k =>
    refine (headArg_renders renders call choose needs hk).mono fun a m' log _ _ ends => ends.imp_right ?_
    exact .imp fun x both => ⟨both.1, both.2, nofun⟩
  | normal k =>
    refine (normalArg_renders renders call choose needs hk).mono fun a m' log _ _ ends => ends.imp_right ?_
    exact .imp fun x all => ⟨all.1, all.2.1, fun _ _ => all.2.2⟩

/-- The arguments that a call needs are forced one after the other. -/
theorem force_renders (renders : r.Renders) (choose : h ≠ .choose) : ∀ (demands : List Demand)
    (act : List NodeId → Eff Unit) (m : Machine) (ρ : Rank) (c : Content) (met : List (Demand × NodeId)),
    m.SimpleCall s ρ root c h → (∀ d ∈ demands, d.index < h.arity ∧ h.Needs d.index d.form) →
    (∀ p ∈ met, p.1.Met m c p.2) → (met.map (fun p => p.1.index) ++ demands.map Demand.index).Nodup →
    (∀ m' ρ' c' xs, m'.SimpleCall s ρ' root c' h → xs.length = demands.length →
      (∀ p ∈ met ++ demands.zip xs, p.1.Met m' c' p.2) →
      (act xs).Renders s m' ρ' fun _ m'' log => m'.Clean s ρ' log m'') →
    (force r root demands act).Renders s m ρ fun _ m' log =>
      m.Clean s ρ log m' ∨ m.Halts Report.Any root m' root log := by
  intro demands
  induction demands with
  | nil =>
    intro act m ρ c met call _ all _ go_on
    exact (go_on m ρ c [] call rfl (by simpa using all)).mono fun _ _ _ _ _ clean => .inl clean
  | cons d demands ih =>
    intro act m ρ c met call needs all nodup go_on
    obtain ⟨lt, need⟩ := needs d List.mem_cons_self
    have hk := List.getElem?_eq_getElem (call.length.symm ▸ lt : d.index < c.links.length)
    unfold force
    refine (meet_renders renders call choose d need hk).bind (meet_keeps renders.sound call.site d hk) ?_
    rintro a m₁ ρ₁ log₁ - ev₁ forced rendered₁ (⟨rfl, halts⟩ | ⟨x, rfl, forces, value⟩)
    · refine renders_pure (.inr ?_)
      rwa [List.append_nil]
    obtain ⟨⟨y, w₁, leads⟩, others⟩ := forced x rfl
    have call₁ : m₁.SimpleCall s ρ₁ root (c.setLink d.index y) h :=
      call.relinked w₁ (rendered₁.simple root call.site.steady call.graph)
    refine (ih (fun xs => act (x :: xs)) m₁ ρ₁ _ (met ++ [(d, x)]) call₁
      (fun d' hd' => needs d' (List.mem_cons_of_mem _ hd')) ?_ (by simpa using nodup) ?_).mono ?_
    · intro p hp
      rcases List.mem_append.mp hp with hp | hp
      · obtain ⟨⟨b, hb, toward⟩, built, evaluated⟩ := all p hp
        have differ : p.1.index ≠ d.index := by
          intro same
          refine (List.nodup_append.mp nodup).2.2 _ (List.mem_map.mpr ⟨p, hp, rfl⟩) _ List.mem_cons_self ?_
          exact same
        have unhurt := forces.unhurt _ _ _ differ hb toward
        exact ⟨⟨b, (Content.setLink_other differ).trans hb, others _ _ _ differ hb toward⟩, unhurt.built built,
          fun k hk => unhurt.evaluated (evaluated k hk)⟩
      · rw [List.mem_singleton.mp hp]
        exact ⟨⟨y, Content.setLink_self hk, leads⟩, forces.built, value⟩
    · intro m' ρ' c' xs call' length met'
      refine go_on m' ρ' c' (x :: xs) call' (congrArg Nat.succ length) ?_
      simpa using met'
    · rintro _ m' log' - - (clean | halts)
      · exact .inl (forces.clean.trans ev₁ clean)
      · exact .inr (Halts.before forces.clean call.site.steady halts)

end Reduction

end ChoiceGraph
