import ChoiceGraph.Proofs.Settling
import ChoiceGraph.Proofs.Strictness

/-! # Derivations of determinate reductions

What a reduction does to a term graph, as long as it meets no failure and no choice: a big-step
semantics over term graphs, without machines, slices and frames. Each derivation counts how often it
changes the graph. It leaves its node in head normal form or in normal form, and everything that was
in such a form before stays in it. -/
namespace ChoiceGraph

namespace Content

variable {c c' c'' : Content} {spared : Nat → Prop}

/-- The same node, with the same links at some positions. -/
structure Alike (spared : Nat → Prop) (c c' : Content) : Prop where
  tag : c'.tag = c.tag
  symbol : c'.symbol = c.symbol
  length : c'.links.length = c.links.length
  links : ∀ k, spared k → c'.links[k]? = c.links[k]?

theorem Alike.refl (spared : Nat → Prop) (c : Content) : c.Alike spared c :=
  ⟨rfl, rfl, rfl, fun _ _ => rfl⟩

theorem Alike.trans (h : c.Alike spared c') (h' : c'.Alike spared c'') : c.Alike spared c'' :=
  ⟨h'.tag.trans h.tag, h'.symbol.trans h.symbol, h'.length.trans h.length,
    fun k hk => (h'.links k hk).trans (h.links k hk)⟩

theorem Alike.mono {spared' : Nat → Prop} (h : c.Alike spared c') (le : ∀ k, spared' k → spared k) :
    c.Alike spared' c' :=
  ⟨h.tag, h.symbol, h.length, fun k hk => h.links k (le k hk)⟩

theorem setLink_alike (k : Nat) (i : NodeId) : c.Alike (· ≠ k) (c.setLink k i) :=
  ⟨rfl, rfl, by rw [setLink_links, List.length_set], fun _ hn => List.getElem?_set_ne hn.symm⟩

theorem Alike.isCall (h : c.Alike spared c') : c'.IsCall ↔ c.IsCall := by
  rw [IsCall, IsCall, Inert, Inert, h.tag, h.symbol]

theorem Alike.isData (h : c.Alike spared c') : c'.IsData ↔ c.IsData := by
  rw [IsData, IsData, h.tag, h.symbol]

/-- After one argument, the links that are still to be forced are those they were. -/
theorem Alike.cons {demands : List Reduction.Demand} {d : Reduction.Demand}
    (h : c.Alike (· ≠ d.index) c') (h' : c'.Alike (fun k => ∀ e ∈ demands, e.index ≠ k) c'') :
    c.Alike (fun k => ∀ e ∈ d :: demands, e.index ≠ k) c'' := by
  refine (h.mono ?_).trans (h'.mono ?_)
  · rintro k hk rfl
    exact hk d List.mem_cons_self rfl
  · exact fun k hk e he => hk e (List.mem_cons_of_mem _ he)

end Content

namespace TermGraph

variable {t t' : TermGraph} {i p x : NodeId} {c : Content} {k r : Nat} {sym : Symbol}

/-- A node that is a call of a symbol. -/
structure Calls (t : TermGraph) (i : NodeId) (c : Content) (sym : Symbol) : Prop where
  unfree : i ∉ t.graph.free
  content : t.graph.content? i = some c
  call : c.IsCall
  symbol : t.signature.symbol? c.symbol = some sym

/-- A constructor of a data type, in use. -/
structure Data (t : TermGraph) (i : NodeId) (c : Content) : Prop where
  unfree : i ∉ t.graph.free
  content : t.graph.content? i = some c
  data : c.IsData

/-- A node that a step takes for the value of an argument. -/
def Filled (t : TermGraph) (i : NodeId) : Prop :=
  ∃ c, t.graph.content? i = some c ∧ (c.tag = .operation ∨ ∃ index, c.tag = .constructor index)

/-- Link `k` of a node comes to lead to `x` at once; in how many changes. -/
inductive Relinks (t : TermGraph) (i : NodeId) (c : Content) (k : Nat) (p x : NodeId) :
    Nat → TermGraph → Prop where
  | kept (same : p = x) : Relinks t i c k p x 0 t
  | moved {t' : TermGraph} (ne : p ≠ x) (run : (Eff.setSuccessor i k (some x)).Takes t () t')
    (sets : t.graph.Sets i (c.setLink k x) t'.graph) (signature : t'.signature = t.signature) :
    Relinks t i c k p x 1 t'

/-- Two arguments that are variables. -/
def BothFree (t : TermGraph) (c : Content) : Prop :=
  ∃ p q a b d e, c.links[0]? = some p ∧ c.links[1]? = some q ∧ t.Through p a ∧ t.Through q b ∧
    t.graph.content? a = some d ∧ t.graph.content? b = some e ∧ d.tag = .free ∧ e.tag = .free

theorem Relinks.content (h : t.Relinks i c k p x r t') (hc : t.graph.content? i = some c)
    (hk : c.links[k]? = some p) : ∃ c', t'.graph.content? i = some c' ∧
      c'.links[k]? = some x ∧ c.Alike (· ≠ k) c' := by
  cases h with
  | kept same => exact ⟨c, hc, same ▸ hk, .refl _ c⟩
  | moved _ _ sets _ =>
    refine ⟨_, sets.same, ?_, Content.setLink_alike k x⟩
    exact List.getElem?_set_self (List.getElem?_eq_some_iff.mp hk).1

theorem Relinks.zero (h : t.Relinks i c k p x r t') (none : r = 0) : t' = t := by
  cases h with
  | kept => rfl
  | moved => cases none

/-- Redirecting a link settles a graph, if the link belongs to a call or was no final one. -/
theorem Relinks.settles (h : t.Relinks i c k p x r t') (hc : t.graph.content? i = some c)
    (hk : c.links[k]? = some p) (through : t.Through p x) (idle : t.Idle x)
    (plain : c.IsCall ∨ c.IsData) : t.Settles t' := by
  cases h with
  | kept => exact .refl t
  | moved ne _ sets signature =>
    have settled := settles_of_sets sets hc hk (plain.imp_right fun data =>
      ⟨data, fun busy => ne (Through.unique (.refl p) through busy idle)⟩)
    rw [← signature] at settled
    exact settled

theorem Calls.alike {spared : Nat → Prop} {c' : Content} (h : t.Calls i c sym) (settles : t.Settles t')
    (hc : t'.graph.content? i = some c') (alike : c.Alike spared c') : t'.Calls i c' sym where
  unfree := settles.unfree i h.unfree
  content := hc
  call := alike.isCall.mpr h.call
  symbol := by
    rw [alike.symbol, settles.signature]
    exact h.symbol

theorem Data.settles (h : t.Data i c) (settles : t.Settles t') :
    ∃ c', t'.Data i c' ∧ c.Kept t.Idle c' := by
  obtain ⟨c', hc, kept⟩ := settles.kept i c h.unfree h.content h.data.not_call
  exact ⟨c', ⟨settles.unfree i h.unfree, hc, kept.isData.mpr h.data⟩, kept⟩

/-- What is taken for the value of an argument is no indirection, no failure and no choice. -/
theorem Filled.tag (h : t.Filled i) : ∃ c, t.graph.content? i = some c ∧ c.tag ≠ .forward ∧
    c.tag ≠ .failure ∧ c.tag ≠ .choice := by
  obtain ⟨c, hc, tag⟩ := h
  refine ⟨c, hc, ?_⟩
  rcases tag with tag | ⟨index, tag⟩ <;> rw [tag] <;> exact ⟨nofun, nofun, nofun⟩

theorem Filled.determinate (h : t.Filled i) : t.Determinate i := by
  obtain ⟨c, hc, -, good⟩ := h.tag
  exact ⟨c, hc, good⟩

theorem Filled.settles (h : t.Filled i) (idle : t.Idle i) (settles : t.Settles t') : t'.Filled i := by
  obtain ⟨c, hc, filled⟩ := h
  obtain ⟨c', hc', tag⟩ := settles.tag idle hc
  exact ⟨c', hc', tag.symm ▸ filled⟩

end TermGraph

namespace Reduction

open Eff

section Reducible

variable {m : Machine} {ρ : Rank} {i : NodeId} {c : Content} {sym : Symbol}

theorem isReducible_call (h : m.Inv [] ρ) (calls : m.toTermGraph.Calls i c sym) (live : m.Live [] i) :
    isReducible m i = .ok true := by
  have isCall := (h.fitsAt live calls.content).of_isCall calls.symbol calls.call
  have symbol := TermGraph.symbol_content (t := m.toTermGraph) calls.content calls.symbol
  unfold isReducible
  simp only [TermGraph.tag_content calls.content, calls.call.1, symbol, isCall.kind, bind, Except.bind]
  rfl

theorem isReducible_idle (h : m.Inv [] ρ) (live : m.Live [] i) (hc : m.graph.content? i = some c)
    (call : ¬ c.IsCall) : isReducible m i = .ok false := by
  obtain ⟨sym, found, symbol⟩ := h.read_symbol live hc
  unfold isReducible
  simp only [TermGraph.tag_content hc, bind, Except.bind]
  by_cases tag : c.tag = .operation
  · have inert : c.Inert := by
      by_contra plain
      exact call ⟨tag, plain⟩
    have kind := Content.inert_kind h.signature found tag inert
    simp only [tag, symbol, kind, ne_eq, not_true_eq_false, if_false]
    rfl
  · simp only [ne_eq, tag, not_false_eq_true, if_true]
    rfl

end Reducible

/-- What a reducer may be asked for. -/
inductive Job where
  /-- The head normal form `j` of a node. -/
  | head (i j : NodeId)
  /-- One head step of a call. -/
  | step (i : NodeId)
  /-- What is left of a head step: the arguments still to be forced, and the action. -/
  | force (i : NodeId) (demands : List Demand) (act : List NodeId → Eff Unit)
  /-- The normal form of a node. -/
  | normal (i : NodeId)
  /-- The normal forms of `count` arguments of a constructor from position `k` on. -/
  | fields (i : NodeId) (count k : Nat)

def Job.node : Job → NodeId
  | head i _ => i
  | step i => i
  | force i _ _ => i
  | normal i => i
  | fields i _ _ => i

/-- What is in normal form once a job is done. -/
def Job.Settled (t : TermGraph) : Job → Prop
  | normal i => ∀ x, t.Through i x → t.Idle x → t.Determinate x → t.Normal x
  | fields i count k => ∀ c n q, t.graph.content? i = some c → k ≤ n → n < k + count →
    c.links[n]? = some q → t.Normal q
  | _ => True

/-- How a job is done, from one graph to another, in so many changes. -/
inductive Derives : Job → Nat → TermGraph → TermGraph → Prop where
  | idle {t : TermGraph} {i j : NodeId} (through : t.Through i j) (idle : t.Idle j) :
    Derives (.head i j) 0 t t
  | call {t t₁ t' : TermGraph} {i p j : NodeId} {c : Content} {sym : Symbol} {n₁ n₂ : Nat}
    (through : t.Through i p) (calls : t.Calls p c sym) (step : Derives (.step p) n₁ t t₁)
    (rest : Derives (.head p j) n₂ t₁ t') : Derives (.head i j) (n₁ + n₂) t t'
  | strict {t t' : TermGraph} {i : NodeId} {c : Content} {sym : Symbol} {n : Nat}
    {demands : List Demand} {act : List NodeId → Eff Unit} (calls : t.Calls i c sym)
    (strict : Strict i sym.head demands act) (force : Derives (.force i demands act) n t t') :
    Derives (.step i) n t t'
  | bind {t t' : TermGraph} {i : NodeId} {c : Content} {sym : Symbol} (calls : t.Calls i c sym)
    (head : sym.head = .unify) (free : t.BothFree c) (run : (succeed i).Takes t () t')
    (touches : t.Touches (Only i) t') : Derives (.step i) 1 t t'
  | act {t t' : TermGraph} {i : NodeId} {c : Content} {sym : Symbol} {act : List NodeId → Eff Unit}
    (calls : t.Calls i c sym) (confined : (act []).Confined (Only i)) (run : (act []).Takes t () t')
    (touches : t.Touches (Only i) t') : Derives (.force i [] act) 1 t t'
  | head {t t₁ t₂ t' : TermGraph} {i p x : NodeId} {c : Content} {sym : Symbol} {k n₁ r n₂ : Nat}
    {demands : List Demand} {act : List NodeId → Eff Unit} (calls : t.Calls i c sym)
    (hk : c.links[k]? = some p) (apart : ∀ d ∈ demands, d.index ≠ k)
    (head : Derives (.head p x) n₁ t t₁) (calls' : t₁.Calls i c sym)
    (relinks : t₁.Relinks i c k p x r t₂) (filled : t₂.Filled x)
    (rest : Derives (.force i demands fun xs => act (x :: xs)) n₂ t₂ t') :
    Derives (.force i (.head k :: demands) act) (n₁ + r + n₂) t t'
  | normal {t t₁ t₂ t₃ t' : TermGraph} {i p x : NodeId} {c : Content} {sym : Symbol}
    {k n₁ r n₂ n₃ : Nat} {demands : List Demand} {act : List NodeId → Eff Unit}
    (calls : t.Calls i c sym) (hk : c.links[k]? = some p) (apart : ∀ d ∈ demands, d.index ≠ k)
    (head : Derives (.head p x) n₁ t t₁) (calls' : t₁.Calls i c sym)
    (relinks : t₁.Relinks i c k p x r t₂) (filled : t₂.Filled x)
    (normal : Derives (.normal x) n₂ t₂ t₃) (filled' : t₃.Filled x)
    (still : t₃.graph.content? i = t₂.graph.content? i)
    (rest : Derives (.force i demands fun xs => act (x :: xs)) n₃ t₃ t') :
    Derives (.force i (.normal k :: demands) act) (n₁ + r + (n₂ + n₃)) t t'
  | still {t : TermGraph} {i : NodeId} {c : Content} (unfree : i ∉ t.graph.free)
    (hc : t.graph.content? i = some c) (tag : c.tag ≠ .forward) (call : ¬ c.IsCall)
    (data : ¬ c.IsData) : Derives (.normal i) 0 t t
  | through {t t' : TermGraph} {i p : NodeId} {symbol aux n : Nat} (unfree : i ∉ t.graph.free)
    (hc : t.graph.content? i = some ⟨.forward, symbol, aux, .links [p]⟩)
    (rest : Derives (.normal p) n t t') : Derives (.normal i) n t t'
  | stuck {t t' : TermGraph} {i j : NodeId} {c d : Content} {sym : Symbol} {n : Nat}
    (calls : t.Calls i c sym) (head : Derives (.head i j) n t t')
    (hd : t'.graph.content? j = some d) (tag : ∀ index, d.tag ≠ .constructor index) :
    Derives (.normal i) n t t'
  | value {t t₁ t' : TermGraph} {i j : NodeId} {c d : Content} {sym : Symbol} {n₁ n₂ index : Nat}
    (calls : t.Calls i c sym) (head : Derives (.head i j) n₁ t t₁)
    (hd : t₁.graph.content? j = some d) (tag : d.tag = .constructor index)
    (rest : Derives (.normal j) n₂ t₁ t') : Derives (.normal i) (n₁ + n₂) t t'
  | data {t t' : TermGraph} {i : NodeId} {c : Content} {n : Nat} (data : t.Data i c)
    (fields : Derives (.fields i c.links.length 0) n t t') : Derives (.normal i) n t t'
  | done {t : TermGraph} {i : NodeId} {k : Nat} : Derives (.fields i 0 k) 0 t t
  | field {t t₁ t₂ t' : TermGraph} {i p x : NodeId} {c c₁ : Content} {count k n₁ r n₂ : Nat}
    (data : t.Data i c) (hk : c.links[k]? = some p) (normal : Derives (.normal p) n₁ t t₁)
    (through : t₁.Through p x) (idle : t₁.Idle x) (data' : t₁.Data i c₁)
    (hk' : c₁.links[k]? = some p) (relinks : t₁.Relinks i c₁ k p x r t₂)
    (good : t₂.Determinate x) (rest : Derives (.fields i count (k + 1)) n₂ t₂ t') :
    Derives (.fields i (count + 1) k) (n₁ + r + n₂) t t'

namespace Derives

variable {job : Job} {n n' : Nat} {t t' t₁ : TermGraph} {i j p x : NodeId} {c : Content}

/-- No change leaves the graph as it is. -/
theorem zero (d : Derives job n t t') (none : n = 0) : t' = t := by
  induction d with
  | idle => rfl
  | call _ _ _ _ ihs ihr =>
    have first := ihs (by omega)
    exact (ihr (by omega)).trans first
  | strict _ _ _ ih => exact ih none
  | bind => cases none
  | act => cases none
  | head _ _ _ _ _ relinks _ _ ihh ihr =>
    exact (ihr (by omega)).trans ((relinks.zero (by omega)).trans (ihh (by omega)))
  | normal _ _ _ _ _ relinks _ _ _ _ _ ihh ihn ihr =>
    exact (ihr (by omega)).trans ((ihn (by omega)).trans
      ((relinks.zero (by omega)).trans (ihh (by omega))))
  | still => rfl
  | through _ _ _ ih => exact ih none
  | stuck _ _ _ _ ih => exact ih none
  | value _ _ _ _ _ ihh ihr => exact (ihr (by omega)).trans (ihh (by omega))
  | data _ _ ih => exact ih none
  | done => rfl
  | field _ _ _ _ _ _ _ relinks _ _ ihn ihr =>
    exact (ihr (by omega)).trans ((relinks.zero (by omega)).trans (ihn (by omega)))

/-- A graph only settles, and a head normal form is where the indirections of its node lead. -/
theorem settles_head (d : Derives job n t t') :
    t.Settles t' ∧ ∀ i j, job = .head i j → t'.Through i j ∧ t'.Idle j := by
  induction d with
  | idle through idle =>
    refine ⟨.refl _, ?_⟩
    rintro _ _ ⟨⟩
    exact ⟨through, idle⟩
  | call through _ _ _ ihs ihr =>
    have settles := ihs.1.trans ihr.1
    refine ⟨settles, ?_⟩
    rintro _ _ ⟨⟩
    obtain ⟨through', idle⟩ := ihr.2 _ _ rfl
    exact ⟨(settles.through through).trans through', idle⟩
  | strict _ _ _ ih => exact ⟨ih.1, nofun⟩
  | bind calls _ _ _ touches => exact ⟨touches.settles calls.content calls.call, nofun⟩
  | act calls _ _ touches => exact ⟨touches.settles calls.content calls.call, nofun⟩
  | head _ hk _ _ calls' relinks _ _ ihh ihr =>
    obtain ⟨through, idle⟩ := ihh.2 _ _ rfl
    have relinked := relinks.settles calls'.content hk through idle (.inl calls'.call)
    exact ⟨(ihh.1.trans relinked).trans ihr.1, nofun⟩
  | normal _ hk _ _ calls' relinks _ _ _ _ _ ihh ihn ihr =>
    obtain ⟨through, idle⟩ := ihh.2 _ _ rfl
    have relinked := relinks.settles calls'.content hk through idle (.inl calls'.call)
    exact ⟨((ihh.1.trans relinked).trans ihn.1).trans ihr.1, nofun⟩
  | still => exact ⟨.refl _, nofun⟩
  | through _ _ _ ih => exact ⟨ih.1, nofun⟩
  | stuck _ _ _ _ ih => exact ⟨ih.1, nofun⟩
  | value _ _ _ _ _ ihh ihr => exact ⟨ihh.1.trans ihr.1, nofun⟩
  | data _ _ ih => exact ⟨ih.1, nofun⟩
  | done => exact ⟨.refl _, nofun⟩
  | field _ _ _ through idle data' hk' relinks _ _ ihn ihr =>
    have relinked := relinks.settles data'.content hk' through idle (.inr data'.data)
    exact ⟨(ihn.1.trans relinked).trans ihr.1, nofun⟩

theorem settles (d : Derives job n t t') : t.Settles t' := d.settles_head.1

theorem head_result (d : Derives (.head i j) n t t') : t'.Through i j ∧ t'.Idle j :=
  d.settles_head.2 i j rfl

theorem settled (d : Derives job n t t') : job.Settled t' := by
  induction d with
  | still unfree hc tag call data =>
    intro x through idle determinate
    obtain rfl := through.eq hc tag
    obtain ⟨d, hd, good⟩ := determinate
    cases hc.symm.trans hd
    exact .still unfree hc ⟨tag, good⟩ call data
  | through unfree hc rest ih =>
    intro x through idle determinate
    obtain ⟨c', hc', kept⟩ := rest.settles.kept _ _ unfree hc (by rintro ⟨tag, -⟩; cases tag)
    have same := kept.eq (by rintro ⟨⟨_, tag⟩, -⟩; cases tag)
    rw [same] at hc'
    cases through with
    | refl =>
      obtain ⟨-, d, hd, tag, -⟩ := idle
      cases hc'.symm.trans hd
      exact absurd rfl tag
    | step _ hs through =>
      cases hc'.symm.trans hs
      exact ih x through idle determinate
  | stuck _ head hd tag =>
    intro x through idle determinate
    obtain ⟨through', idle'⟩ := head.head_result
    obtain rfl := through.unique through' idle idle'
    obtain ⟨unfree, e, he, forward, call⟩ := idle
    cases hd.symm.trans he
    obtain ⟨e, he, good⟩ := determinate
    cases hd.symm.trans he
    exact .still unfree hd ⟨forward, good⟩ call fun data => data.1.elim tag
  | value _ head _ _ rest _ ih =>
    intro x through idle determinate
    obtain ⟨through', idle'⟩ := head.head_result
    have settles := rest.settles
    obtain rfl := through.unique (settles.through through') idle (settles.idle idle')
    exact ih x (.refl x) idle determinate
  | data data fields ih =>
    intro x through idle _
    obtain ⟨c', data', kept⟩ := data.settles fields.settles
    obtain rfl := through.eq data'.content data'.data.not_forward
    refine .data data'.unfree data'.content data'.data fun q hq => ?_
    obtain ⟨n, lt, here⟩ := List.mem_iff_getElem.mp hq
    have below : n < c'.links.length := lt
    rw [kept.head.2.2.2] at below
    exact ih c' n q data'.content (Nat.zero_le n) (by omega) (List.getElem?_eq_some_iff.mpr ⟨lt, here⟩)
  | done => intro c n q _ le lt; omega
  | @field t t₁ t₂ t' i p x c c₁ count k n₁ r n₂ _ _ _ through idle data' hk' relinks good rest ihn ihr =>
    intro d n q hd le lt hq
    by_cases last : n = k
    · subst last
      have relinked := relinks.settles data'.content hk' through idle (.inr data'.data)
      obtain ⟨c₂, hc₂, link, alike⟩ := relinks.content data'.content hk'
      have data₂ : t₂.Data i c₂ :=
        ⟨relinked.unfree i data'.unfree, hc₂, alike.isData.mpr data'.data⟩
      obtain ⟨d', data₃, kept⟩ := data₂.settles rest.settles
      cases hd.symm.trans data₃.content
      have final := kept.link link (relinked.idle idle)
      cases hq.symm.trans final
      have normal := ihn x through idle ((relinked.determinate idle).mp good)
      exact rest.settles.normal (relinked.normal normal)
    · exact ihr d n q hd (by omega) (by omega) hq
  | _ => trivial

/-- What a node has been normalized to is in normal form, unless it is a failure or a choice. -/
theorem normal_result (d : Derives (.normal i) n t t') (through : t'.Through i x) (idle : t'.Idle x)
    (determinate : t'.Determinate x) : t'.Normal x :=
  d.settled x through idle determinate

/-- Indirections make no difference to a head normal form. -/
theorem head_through (through : t.Through i p) (d : Derives (.head p j) n t t') :
    Derives (.head i j) n t t' := by
  cases d with
  | idle through' idle => exact .idle (through.trans through') idle
  | call through' calls step rest => exact .call (through.trans through') calls step rest

theorem normal_through (through : t.Through i p) (d : Derives (.normal p) n t t') :
    Derives (.normal i) n t t' := by
  induction through with
  | refl => exact d
  | step unfree hc _ ih => exact .through unfree hc (ih d)

/-- Once a node has its head normal form, what is left to do is to normalize that. -/
theorem normal_of_head (d : Derives (.head i j) n t t₁)
    (rest : (∃ d index, t₁.graph.content? j = some d ∧ d.tag = .constructor index) →
      Derives (.normal j) n' t₁ t')
    (stop : (∀ d index, t₁.graph.content? j = some d → d.tag ≠ .constructor index) →
      n' = 0 ∧ t' = t₁) : Derives (.normal i) (n + n') t t' := by
  obtain ⟨-, c, hc, tag, call⟩ := d.head_result.2
  by_cases constructor : ∃ index, c.tag = .constructor index
  · obtain ⟨index, final⟩ := constructor
    have more := rest ⟨c, index, hc, final⟩
    cases d with
    | idle through idle =>
      rw [Nat.zero_add]
      exact more.normal_through through
    | call through calls step head =>
      exact (Derives.value calls (.call (.refl _) calls step head) hc final more).normal_through
        through
  · have none : ∀ d index, t₁.graph.content? j = some d → d.tag ≠ .constructor index := by
      intro d index hd tag
      cases hc.symm.trans hd
      exact constructor ⟨index, tag⟩
    obtain ⟨rfl, rfl⟩ := stop none
    cases d with
    | idle through idle =>
      exact (Derives.still idle.1 hc tag call fun data => constructor data.1).normal_through through
    | call through calls step head =>
      exact (Derives.stuck calls (.call (.refl _) calls step head) hc
        fun index => none c index hc).normal_through through

/-! ## What is done already -/

theorem head_idle (idle : t.Idle i) : Derives (.head i i) 0 t t := .idle (.refl i) idle

/-- Normalizing the rest of the arguments of a node in normal form changes nothing. -/
theorem fields_idle (data : t.Data i c) (links : ∀ q ∈ c.links, t.Normal q ∧ Derives (.normal q) 0 t t)
    (count k : Nat) (le : k + count ≤ c.links.length) : Derives (.fields i count k) 0 t t := by
  induction count generalizing k with
  | zero => exact .done
  | succ count ih =>
    have lt : k < c.links.length := by omega
    have hk := List.getElem?_eq_getElem lt
    obtain ⟨normal, done⟩ := links _ (List.getElem_mem lt)
    exact .field data hk done (.refl _) normal.idle data hk (.kept rfl) normal.determinate
      (ih (k + 1) (by omega))

/-- An argument that was forced before is forced once more. -/
theorem head_again {k : Nat} {sym : Symbol} {demands : List Demand} {act : List NodeId → Eff Unit}
    (calls : t.Calls i c sym) (hk : c.links[k]? = some x) (apart : ∀ d ∈ demands, d.index ≠ k)
    (idle : t.Idle x) (filled : t.Filled x)
    (rest : Derives (.force i demands fun xs => act (x :: xs)) n t t') :
    Derives (.force i (.head k :: demands) act) n t t' := by
  have again := Derives.head calls hk apart (head_idle idle) calls (.kept rfl) filled rest
  rwa [Nat.add_zero, Nat.zero_add] at again

theorem normal_idle (h : t.Normal i) : Derives (.normal i) 0 t t := by
  induction h with
  | still unfree hc tag call data => exact .still unfree hc tag.1 call data
  | data unfree hc data links ih =>
    exact .data ⟨unfree, hc, data⟩ (fields_idle ⟨unfree, hc, data⟩
      (fun q hq => ⟨links q hq, ih q hq⟩) _ 0 (by omega))

theorem normal_again {k : Nat} {sym : Symbol} {demands : List Demand} {act : List NodeId → Eff Unit}
    (calls : t.Calls i c sym) (hk : c.links[k]? = some x) (apart : ∀ d ∈ demands, d.index ≠ k)
    (normal : t.Normal x) (filled : t.Filled x)
    (rest : Derives (.force i demands fun xs => act (x :: xs)) n t t') :
    Derives (.force i (.normal k :: demands) act) n t t' := by
  have again := Derives.normal calls hk apart (head_idle normal.idle) calls (.kept rfl) filled
    (normal_idle normal) filled rfl rest
  rwa [Nat.add_zero, Nat.zero_add, Nat.zero_add] at again

theorem field_again {count k : Nat} (data : t.Data i c) (hk : c.links[k]? = some x)
    (normal : t.Normal x) (rest : Derives (.fields i count (k + 1)) n t t') :
    Derives (.fields i (count + 1) k) n t t' := by
  have again := Derives.field data hk (normal_idle normal) (.refl x) normal.idle data hk (.kept rfl)
    normal.determinate rest
  rwa [Nat.add_zero, Nat.zero_add] at again

/-- An argument that is forced to a value is no variable. -/
theorem forced_not_free {a : NodeId} {e : Content} {k : Nat} {demands : List Demand}
    {act : List NodeId → Eff Unit} (d : Derives (.force i (.head k :: demands) act) n t t')
    (hc : t.graph.content? i = some c) (hk : c.links[k]? = some p) (through : t.Through p a)
    (ha : t.graph.content? a = some e) : e.tag ≠ .free := by
  intro free
  have tag : e.tag ≠ .forward := by
    rw [free]
    nofun
  cases d with
  | head calls hk' _ head calls' relinks filled _ =>
    cases hc.symm.trans calls.content
    cases hk.symm.trans hk'
    cases head with
    | idle through' idle =>
      obtain ⟨-, d, hd, forward, -⟩ := id idle
      cases Machine.leads_unique through.leads through'.leads ha tag hd forward
      have settles := relinks.settles calls'.content hk through' idle (.inl calls'.call)
      obtain ⟨e', he', tag'⟩ := settles.tag idle ha
      obtain ⟨e'', he'', shape⟩ := filled
      cases he'.symm.trans he''
      rw [tag', free] at shape
      rcases shape with operation | ⟨index, constructor⟩
      · cases operation
      · cases constructor
    | call through' busy =>
      cases Machine.leads_unique through.leads through'.leads ha tag busy.content
        busy.call.not_forward
      cases ha.symm.trans busy.content
      exact nomatch free.symm.trans busy.call.1

end Derives

/-! ## Two variables -/

open Machine

variable {m : Machine} {ρ : Rank} {i : NodeId} {c : Content} {sym : Symbol}

/-- Two variables are bound to each other, unless they are the same. -/
def bindHeads (root a b : NodeId) : Eff Unit := do
  if (← look (·.aux a)) ≠ (← look (·.aux b)) then
    let _ ← bindVars a b false
  succeed root

/-- A unification looks whether both of its arguments are variables. -/
theorem unify_cases (h : m.Inv [] ρ) (live : m.Live [] i) (calls : m.toTermGraph.Calls i c sym)
    (head : sym.head = .unify) (r : Reducer) :
    (m.toTermGraph.BothFree c ∧ ∃ a b d e, m.graph.content? a = some d ∧ m.graph.content? b = some e ∧
      stepUnify r i m = bindHeads i a b m) ∨
    (¬ m.toTermGraph.BothFree c ∧
      stepUnify r i m = force r i [.head 0, .head 1] (onPair (unifyHeads i)) m) := by
  obtain ⟨sym', found, -, length⟩ := h.symbolAt live calls.content
  cases found.symm.trans calls.symbol
  obtain ⟨count, reads, le⟩ := ((h.fitsAt live calls.content).of_isCall calls.symbol calls.call).reads
  rw [head] at reads
  cases reads
  have hp := List.getElem?_eq_getElem (l := c.links) (i := 0) (by omega)
  have hq := List.getElem?_eq_getElem (l := c.links) (i := 1) (by omega)
  obtain ⟨a, d, skip, leads, ha, tag⟩ := h.read_successorSkip live calls.content hp
  obtain ⟨b, e, skip', leads', hb, tag'⟩ := h.read_successorSkip live calls.content hq
  have through := h.through (live.link calls.content (List.mem_of_getElem? hp)) leads
  have through' := h.through (live.link calls.content (List.mem_of_getElem? hq)) leads'
  have reads : stepUnify r i m = (if d.tag = .free ∧ e.tag = .free then bindHeads i a b
      else force r i [.head 0, .head 1] (onPair (unifyHeads i))) m :=
    (bind_ok (look_ok skip)).trans ((bind_ok (look_ok skip')).trans
      ((bind_ok (look_ok (TermGraph.tag_content ha))).trans
        (bind_ok (look_ok (TermGraph.tag_content hb)))))
  by_cases free : d.tag = .free ∧ e.tag = .free
  · rw [if_pos free] at reads
    exact .inl ⟨⟨_, _, a, b, d, e, hp, hq, through, through', ha, hb, free.1, free.2⟩, a, b, d, e, ha,
      hb, reads⟩
  · rw [if_neg free] at reads
    refine .inr ⟨?_, reads⟩
    rintro ⟨p, q, a', b', d', e', hp', hq', through₁, through₂, ha', hb', free₁, free₂⟩
    cases hp.symm.trans hp'
    cases hq.symm.trans hq'
    cases leads_unique leads through₁.leads ha tag ha' (by rw [free₁]; nofun)
    cases leads_unique leads' through₂.leads hb tag' hb' (by rw [free₂]; nofun)
    cases ha.symm.trans ha'
    cases hb.symm.trans hb'
    exact free ⟨free₁, free₂⟩

end Reduction

end ChoiceGraph
