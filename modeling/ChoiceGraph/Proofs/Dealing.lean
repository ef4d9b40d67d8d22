import ChoiceGraph.Proofs.Places
import ChoiceGraph.Proofs.Preemption

/-! # Searches that deal out lists

The frame of a search has come to a list under choices in places, each place a class. Its first place is
undecided: one child takes the left side and goes on to the first list, the other takes the right side and
to the lists that are left. So the lists are dealt out in order, one place is decided for each but the
last, and nothing else happens. -/
namespace ChoiceGraph

open Reduction

/-- Lists of terms below choices in places, in a store where the places are classes. -/
structure Deal where
  place : Nat → ChoiceId → Prop
  store : ConstraintStore
  count : Nat
  lists : Nat → List NodeId
  size : Nat
  arity : Nat
  /-- The collections there were before. -/
  collections : Nat

namespace Deal

variable {Q : Deal} {F F' : Fingerprint} {known known' : Nat → Option Side} {a b : ChoiceId} {d p i : Nat}
  {side : Side}

/-- Nodes that one turn may take. -/
def cost (Q : Deal) : Nat := 4 * (Q.size + 1)

structure Proper (Q : Deal) : Prop where
  unique : ∀ {a d d'}, Q.place d a → Q.place d' a → d = d'
  classes : ∀ {a b d}, Q.place d a → (Q.store.InClass a b ↔ Q.place d b)
  inner : ∀ {a d}, Q.place d a → d + 1 < Q.count
  length : ∀ i < Q.count, (Q.lists i).length = Q.size
  differ : ∀ i < Q.count, ∀ j < Q.count, Q.lists i = Q.lists j → i = j

theorem Proper.single (h : Q.Proper) (a : ChoiceId) (s s' : Side) (hs : Takes Q.place known a s)
    (hs' : Takes Q.place known a s') : s = s' := by
  obtain ⟨d, here, side⟩ := hs
  obtain ⟨d', here', side'⟩ := hs'
  cases h.unique here here'
  exact Option.some.inj (side.symm.trans side')

/-- The places before `p` go right. -/
def rights (p d : Nat) : Option Side := if d < p then some .right else none

/-- A frame has decided what is known about the places, and nothing else about them. -/
structure Knows (Q : Deal) (F : Fingerprint) (known : Nat → Option Side) : Prop where
  told : ∀ d a side, Q.place d a → F.get? a = some side → known d = some side
  heard : ∀ d a side, Q.place d a → known d = some side → ∃ b, Q.place d b ∧ F.get? b = some side

theorem knows_nothing (Q : Deal) : Q.Knows .empty (rights 0) where
  told _ _ _ _ decided := by cases decided
  heard d _ _ _ known := by
    rw [rights, if_neg (Nat.not_lt_zero d)] at known
    cases known

theorem Knows.congr (h : Q.Knows F known) (same : ∀ d a, Q.place d a → known' d = known d) :
    Q.Knows F known' where
  told d a side here decided := (same d a here).trans (h.told d a side here decided)
  heard d a side here now := h.heard d a side here ((same d a here).symm.trans now)

/-- An undecided place is decided by one of its choices. -/
theorem Knows.decide (h : Q.Knows F known) (proper : Q.Proper) (here : Q.place p a)
    (before : known p = none) (set_ : ∀ x, F'.get? x = if x = a then some side else F.get? x)
    (now : known' p = some side) (same : ∀ d, d ≠ p → known' d = known d) : Q.Knows F' known' where
  told d b s hb decided := by
    rw [set_] at decided
    by_cases this : b = a
    · subst this
      rw [if_pos rfl] at decided
      cases proper.unique hb here
      exact now.trans decided
    · rw [if_neg this] at decided
      have old := h.told d b s hb decided
      rw [same d (fun dp => by rw [dp, before] at old; cases old), old]
  heard d b s hb after := by
    by_cases this : d = p
    · subst this
      exact ⟨a, here, by rw [set_, if_pos rfl, ← now, after]⟩
    · rw [same d this] at after
      obtain ⟨x, hx, decided⟩ := h.heard d b s hb after
      refine ⟨x, hx, ?_⟩
      rw [set_, if_neg (fun same : x = a => this (proper.unique (same ▸ hx) here)), decided]

end Deal

/-! ## One pass -/

namespace Schedule

open Eff Machine

variable {Q : Deal} {m m' : Machine} {c c' : Computation} {f : Frame} {rest : List Frame}
  {outer : List Computation} {st : Stats} {u : NodeId} {i p k a fuel : Nat} {known : Nat → Option Side}

/-- Records every value with the machine as it is handed out. -/
def snapshots : Visitor (List (Machine × NodeId)) := fun m v seen => .ok (seen ++ [(m, v)], .more)

/-- The innermost search deals. At least `a` nodes are left. -/
structure Deals (Q : Deal) (a : Nat) (outer : List Computation) (c : Computation) (m : Machine) : Prop where
  search : m.computations = c :: outer
  counted : c.Counted
  placed : ∀ f ∈ c.queue, ∃ i, f.node = some i
  stores : ∀ f ∈ c.queue, c.constraintsOf f = Q.store
  signature : m.signature.Sound
  sound : m.graph.Sound
  knits : m.graph.Knits (fun a => ∃ d, Q.place d a) Q.store
  terms : ∀ i < Q.count, m.Terms Q.arity (Q.lists i)
  collections : m.collections = Q.collections
  limit : m.config.stepLimit = none
  slice : (Q.arity + 5) * (Q.size + 1) ≤ m.config.sliceSteps
  nodes : a ≤ m.graph.free.length

theorem Deals.front (h : Deals Q a outer c m) (front : c.queue = f :: rest) :
    m.frontConstraints? = some Q.store := by
  rw [frontConstraints?, h.search, List.head?_cons, Option.bind_some, Computation.front?, front,
    List.head?_cons, Option.map_some, h.stores f (front ▸ List.mem_cons_self)]

/-- The slice of a frame is enough to bring its node to a list or to a choice. -/
theorem Deals.pass (proper : Q.Proper) (h : Deals Q (a + Q.cost) outer c m) (front : c.queue = f :: rest)
    (node : f.node = some u) (lt : i < Q.count)
    (spells : m.graph.Spells (Takes Q.place known) (Q.lists i) u k) (enough : Q.size + 4 ≤ fuel) :
    ∃ m', (∀ st, ∃ n, turn (Reduction.normalize fuel) st m =
        dispatch m'.depthBound u { st with steps := st.steps + n } m') ∧
      Deals Q a outer c m' ∧ m.graph.Advances m'.graph ∧ Passed m'.graph (Q.lists i) u ∧
      m'.config = m.config ∧ m'.signature = m.signature := by
  let m₀ : Machine := { m with slice := .ofSteps m.config.sliceSteps }
  have size := proper.length i lt
  have knit : m₀.Knit fun a => ∃ d, Q.place d a := fun s hs => by
    have front₀ : m₀.frontConstraints? = m.frontConstraints? := rfl
    rw [front₀, h.front front] at hs
    cases hs
    exact h.knits
  have room : m₀.Room (0 + (Q.arity + 5) * ((Q.lists i).length + 1)) (a + 4 * ((Q.lists i).length + 1)) := by
    rw [size]
    exact ⟨rfl, ⟨_, rfl, by rw [Nat.zero_add]; exact h.slice⟩, h.nodes⟩
  obtain ⟨F, rfl⟩ := Nat.exists_eq_add_of_le enough
  obtain ⟨m', run, advanced, left, passed⟩ := list_normal (F := F)
    (fun id side taken => taken.imp fun d hd => hd.1) (fun id s s' => proper.single id s s') (Q.lists i) m₀ u
    k 0 a h.sound h.signature knit (h.terms i lt) spells room
  rw [size, show F + Q.size + 4 = Q.size + 4 + F by omega] at run
  have same := advanced.same
  have terms : ∀ i < Q.count, m'.Terms Q.arity (Q.lists i) := fun i hi =>
    advanced.terms (m := m₀) (h.terms i hi)
  have computations : m'.computations = c :: outer := (congrArg Machine.computations same).trans h.search
  have config : m'.config = m.config := (congrArg Machine.config same).trans rfl
  refine ⟨m', fun st => ⟨m'.slice.used, ?_⟩, ?_, advanced.advances, passed, config, advanced.signature⟩
  · have found : m.front? = some f := by
      rw [Machine.front?, h.search, List.head?_cons, Option.bind_some, Computation.front?, front,
        List.head?_cons]
    rw [turn_front found (by rw [nextSlice?, h.limit]), node]
    refine reduceFront_done ?_
    unfold catching
    rw [run]
  · exact {
      search := computations
      counted := h.counted
      placed := h.placed
      stores := h.stores
      signature := advanced.signature.symm ▸ h.signature
      sound := advanced.sound
      knits := h.knits.advance fun i _ _ _ hi => advanced.advances.still i _ hi (.inl rfl)
      terms := terms
      collections := (congrArg Machine.collections same).trans h.collections
      limit := config ▸ h.limit
      slice := config ▸ h.slice
      nodes := left.nodes }

/-! ## What a turn ends with -/

variable {narrowed : Bool} {id : ChoiceId} {l r : NodeId} {side : Side}

/-- A list is handed out. -/
theorem dispatch_list {xs : List NodeId} (lists : m.graph.Lists xs u) (st : Stats) (bound : Nat) :
    dispatch (bound + 1) u st m = .ok ({ st with solutions := st.solutions + 1 }, .value u) m := by
  unfold dispatch
  cases lists with
  | nil hu => exact (bind_ok (look_ok (TermGraph.tag_content (t := m.toTermGraph) hu.content))).trans rfl
  | cons hu _ => exact (bind_ok (look_ok (TermGraph.tag_content (t := m.toTermGraph) hu.content))).trans rfl

/-- A choice is resolved. -/
theorem Deals.resolve (h : Deals Q a outer c m) (front : c.queue = f :: rest)
    (hu : m.graph.Holds u (.alternative narrowed id l r)) (st : Stats) (bound : Nat) :
    ∃ st' c', dispatch (bound + 1) u st m = .ok (st', .again) { m with computations := c' :: outer } ∧
      c.Resolved f rest id (some l) (some r) m.config.timeAllotment st st' c' ∧ c'.Counted := by
  have fits := Content.alternative_fits (σ := m.signature) narrowed id l r
  have tag : m.tag u = .ok .choice :=
    TermGraph.tag_content (t := m.toTermGraph) (c := .alternative narrowed id l r) hu.content
  refine ⟨_, _, ?_, Computation.resolve_resolved h.counted front id (some l) (some r) _ st, ?_⟩
  · unfold dispatch
    refine (bind_ok (look_ok tag)).trans (bind_ok (fork_resolved h.search ?_
      (successor_reads h.signature hu fits (k := 0) rfl) (successor_reads h.signature hu fits (k := 1) rfl)))
    exact TermGraph.aux_content (t := m.toTermGraph) (c := .alternative narrowed id l r) hu.content
  · have sound : c.Sound fun _ => True :=
      ⟨h.counted, fun f hf => (h.placed f hf).imp fun _ node => ⟨node, trivial⟩, fun _ _ _ _ => trivial⟩
    exact (sound.resolve trivial trivial id _).counted

theorem Deals.moved (h : Deals Q a outer c m) (counted : c'.Counted)
    (placed : ∀ f ∈ c'.queue, ∃ i, f.node = some i) (stores : ∀ f ∈ c'.queue, c'.constraintsOf f = Q.store) :
    Deals Q a outer c' { m with computations := c' :: outer } :=
  { h with search := rfl, counted := counted, placed := placed, stores := stores }

/-- A choice in a place that is decided is followed. -/
theorem Deals.follow (proper : Q.Proper) (h : Deals Q a outer c m) (front : c.queue = f :: rest)
    (knows : Q.Knows (c.fingerprintOf f) known) (taken : Takes Q.place known id side)
    (hu : m.graph.Holds u (.alternative narrowed id l r)) (st : Stats) (bound : Nat) : ∃ f',
      dispatch (bound + 1) u st m =
        .ok (st, .again) { m with computations := { c with queue := f' :: rest } :: outer } ∧
      Deals Q a outer { c with queue := f' :: rest }
        { m with computations := { c with queue := f' :: rest } :: outer } ∧
      f'.node = some (side.pick l r) ∧ c.fingerprintOf f' = c.fingerprintOf f := by
  obtain ⟨d, here, decided⟩ := taken
  obtain ⟨st', c', run, resolved, counted⟩ := h.resolve front hu st bound
  have store := h.stores f (front ▸ List.mem_cons_self)
  cases resolved with
  | failed left right isLeft isRight =>
    rw [store, proper.classes here] at left right
    cases (knows.told d _ _ left isLeft).symm.trans (knows.told d _ _ right isRight)
  | forked undecided =>
    obtain ⟨b, hb, is⟩ := knows.heard d id side here decided
    rw [store] at undecided
    cases (undecided b ((proper.classes here).mpr hb)).symm.trans is
  | @followed x side' member is _ =>
    rw [store, proper.classes here] at member
    cases decided.symm.trans (knows.told d x side' member is)
    refine ⟨_, run, h.moved counted (List.forall_mem_cons.mpr ⟨?_, fun g hg => ?_⟩)
      (List.forall_mem_cons.mpr ⟨store, fun g hg => ?_⟩), ?_, rfl⟩
    · cases side
      · exact ⟨l, rfl⟩
      · exact ⟨r, rfl⟩
    · exact h.placed g (front ▸ List.mem_cons_of_mem _ hg)
    · exact h.stores g (front ▸ List.mem_cons_of_mem _ hg)
    · cases side <;> rfl

/-- At a choice in an undecided place the frame forks. -/
theorem Deals.part (proper : Q.Proper) (h : Deals Q a outer c m) (front : c.queue = [f])
    (knows : Q.Knows (c.fingerprintOf f) known) (here : Q.place p id) (undecided : known p = none)
    (hu : m.graph.Holds u (.alternative narrowed id l r)) (st : Stats) (bound : Nat) : ∃ c' f₁ f₂,
      dispatch (bound + 1) u st m = .ok ({ st with forks := st.forks + 1 }, .again)
        { m with computations := c' :: outer } ∧
      Deals Q a outer c' { m with computations := c' :: outer } ∧ c'.queue = [f₁, f₂] ∧
      f₁.node = some l ∧ f₂.node = some r ∧
      ∀ known' : Nat → Option Side, (∀ d, d ≠ p → known' d = known d) →
        (known' p = some .left → Q.Knows (c'.fingerprintOf f₁) known') ∧
        (known' p = some .right → Q.Knows (c'.fingerprintOf f₂) known') := by
  obtain ⟨st', c', run, resolved, counted⟩ := h.resolve front hu st bound
  have store := h.stores f (front ▸ List.mem_cons_self)
  cases resolved with
  | failed left _ isLeft =>
    rw [store, proper.classes here] at left
    cases undecided.symm.trans (knows.told p _ _ left isLeft)
  | followed member is =>
    rw [store, proper.classes here] at member
    cases undecided.symm.trans (knows.told p _ _ member is)
  | forked _ queue leftDecided rightDecided leftBound rightBound =>
    rw [List.nil_append] at queue
    refine ⟨c', _, _, run, h.moved counted ?_ ?_, queue, rfl, rfl, fun known' same => ⟨fun now => ?_, fun now => ?_⟩⟩
    · rw [queue]
      exact List.forall_mem_cons.mpr ⟨⟨l, rfl⟩, List.forall_mem_singleton.mpr ⟨r, rfl⟩⟩
    · rw [queue]
      exact List.forall_mem_cons.mpr ⟨leftBound.trans store, List.forall_mem_singleton.mpr (rightBound.trans store)⟩
    · exact knows.decide proper here undecided leftDecided now same
    · exact knows.decide proper here undecided rightDecided now same

/-! ## Turn after turn -/

/-- What a search does after a turn. -/
def proceed (normal : NodeId → Eff Unit) (turns : Nat) (seen : List (Machine × NodeId)) :
    EStateM.Result Stop Machine (Stats × Outcome) → Found (List (Machine × NodeId))
  | .error e m => ⟨seen, .error e m⟩
  | .ok (st, .over) m => ⟨seen, .ok st m⟩
  | .ok (st, .again) m => takeTurns normal snapshots turns st seen m
  | .ok (st, .value v) m =>
    takeTurns normal snapshots turns st (seen ++ [(m, v)]) (m.mapInnermost Computation.dropFront)

theorem takeTurns_proceeds (normal : NodeId → Eff Unit) (turns : Nat) (st : Stats)
    (seen : List (Machine × NodeId)) (m : Machine) : takeTurns normal snapshots (turns + 1) st seen m =
      proceed normal turns seen (turn normal st m) := by
  unfold takeTurns proceed
  rcases turn normal st m with ⟨⟨st', _ | _ | _⟩, m'⟩ | ⟨e, m'⟩ <;> rfl

/-- So many more values were handed out and so many more frames were forked. -/
def Counts (values forks : Nat) (st st' : Stats) : Prop :=
  ∃ n, st' = { st with solutions := st.solutions + values, forks := st.forks + forks, steps := st.steps + n }

theorem Counts.trans {v v' n n' : Nat} {st st' st'' : Stats} (h : Counts v n st st')
    (h' : Counts v' n' st' st'') : Counts (v + v') (n + n') st st'' := by
  obtain ⟨x, rfl⟩ := h
  obtain ⟨y, rfl⟩ := h'
  exact ⟨x + y, by simp only [Nat.add_assoc]⟩

theorem Counts.paid (st : Stats) (n : Nat) : Counts 0 0 st { st with steps := st.steps + n } := ⟨n, rfl⟩

/-- A list was handed out by a machine in which everything comes to what it came to. -/
structure Shows (Q : Deal) (m : Machine) (i : Nat) (shown : Machine × NodeId) : Prop where
  lists : shown.1.graph.Lists (Q.lists i) shown.2
  front : shown.1.frontConstraints? = some Q.store
  advances : m.graph.Advances shown.1.graph
  signature : shown.1.signature = m.signature

theorem Shows.earlier {shown : Machine × NodeId} (h : Shows Q m' i shown)
    (advances : m.graph.Advances m'.graph) (signature : m'.signature = m.signature) : Shows Q m i shown :=
  { h with advances := advances.trans h.advances, signature := h.signature.trans signature }

theorem Deals.mono {a' : Nat} (h : Deals Q a outer c m) (le : a' ≤ a) : Deals Q a' outer c m :=
  { h with nodes := le.trans h.nodes }

/-- The frame of a list has handed it out and left. -/
structure Handed (Q : Deal) (a : Nat) (outer : List Computation) (rest : List Frame) (i : Nat)
    (c : Computation) (m : Machine) (v : Machine × NodeId) (c' : Computation) (m' : Machine) : Prop where
  shows_ : Shows Q m i v
  deals : Deals Q a outer c' m'
  queue : c'.queue = rest
  others : ∀ g ∈ rest, c'.view g = c.view g
  advances : m.graph.Advances m'.graph
  signature : m'.signature = m.signature

theorem Deals.handed (h : Deals Q a outer c m) (front : c.queue = f :: rest)
    (lists : m.graph.Lists (Q.lists i) u) : Handed Q a outer rest i c m (m, u) c.dropFront
      (m.mapInnermost Computation.dropFront) := by
  obtain ⟨queue, others⟩ := Computation.dropFront_others h.counted front
  have sound : c.Sound fun _ => True :=
    ⟨h.counted, fun f hf => (h.placed f hf).imp fun _ node => ⟨node, trivial⟩, fun _ _ _ _ => trivial⟩
  have dropped : m.mapInnermost Computation.dropFront = { m with computations := c.dropFront :: outer } := by
    simp only [mapInnermost, h.search]
  rw [dropped]
  refine ⟨⟨lists, h.front front, .refl _, rfl⟩, h.moved sound.dropFront.counted ?_ ?_, queue, others,
    .refl _, rfl⟩
  · rw [queue]
    exact fun g hg => h.placed g (front ▸ List.mem_cons_of_mem _ hg)
  · rw [queue]
    intro g hg
    exact (congrArg View.bound (others g hg)).trans (h.stores g (front ▸ List.mem_cons_of_mem _ hg))

/-- A frame that has decided every place on its way hands out its list, and leaves. -/
theorem value_from (proper : Q.Proper) (lt : i < Q.count) (enough : Q.size + 4 ≤ fuel) :
    ∀ (k : Nat) (m : Machine) (c : Computation) (f : Frame) (u : NodeId) (st : Stats) (bound : Nat),
      Deals Q (a + Q.cost * k) outer c m → c.queue = f :: rest → Q.Knows (c.fingerprintOf f) known →
      m.graph.Spells (Takes Q.place known) (Q.lists i) u k → Passed m.graph (Q.lists i) u →
      ∃ j ≤ k, ∃ m' c' v st', (∀ turns seen,
          proceed (Reduction.normalize fuel) (turns + j) seen (dispatch (bound + 1) u st m) =
            takeTurns (Reduction.normalize fuel) snapshots turns st' (seen ++ [v]) m') ∧
        Handed Q a outer rest i c m v c' m' ∧ Counts 1 0 st st' := by
  intro k
  induction k with
  | zero =>
    intro m c f u st bound deals front knows spells passed
    rcases passed with ⟨narrowed, id, l, r, hu⟩ | lists
    · obtain ⟨_, _, impossible, -⟩ := spells.taken hu
      cases impossible
    · refine ⟨0, Nat.le_refl 0, _, _, (m, u), _, fun turns seen => ?_, deals.handed front lists, 0, rfl⟩
      rw [dispatch_list lists st bound]
      rfl
  | succ k ih =>
    intro m c f u st bound deals front knows spells passed
    rcases passed with ⟨narrowed, id, l, r, hu⟩ | lists
    · obtain ⟨side, k', more, taken, below⟩ := spells.taken hu
      cases more
      obtain ⟨f₁, run, deals₁, node, same⟩ := deals.follow proper front knows taken hu st bound
      rw [Nat.mul_succ, ← Nat.add_assoc] at deals₁
      obtain ⟨m₂, turns₂, deals₂, advances, passed, -, signature⟩ :=
        deals₁.pass proper rfl node lt below enough
      obtain ⟨n, turn₂⟩ := turns₂ st
      obtain ⟨j, le, m', c', v, st', goes, handed, counts⟩ := ih m₂ _ f₁ _ { st with steps := st.steps + n }
        (m₂.graph.capacity) deals₂ rfl (same ▸ knows)
        (advances.spells _ _ _ _ (fun x hx => (deals₁.terms i lt).leaves x hx) below) passed
      refine ⟨j + 1, Nat.succ_le_succ le, m', c', v, st', fun turns seen => ?_, ?_, ?_⟩
      · rw [run, ← Nat.add_assoc]
        refine (takeTurns_proceeds _ _ _ _ _).trans ?_
        rw [turn₂]
        exact goes turns seen
      · exact { handed with
          shows_ := handed.shows_.earlier advances signature
          advances := advances.trans handed.advances
          signature := handed.signature.trans signature }
      · have counts' := (Counts.paid st n).trans counts
        rwa [Nat.zero_add] at counts'
    · refine ⟨0, Nat.zero_le _, _, _, (m, u), _, fun turns seen => ?_,
        (deals.mono (Nat.le_add_right a _)).handed front lists, 0, rfl⟩
      rw [dispatch_list lists st bound]
      rfl

/-- A node comes to each of the lists from `p` on, if its place is the first one that goes left, and that
after at most `most` choices. -/
def Offers (Q : Deal) (g : Graph) (u : NodeId) (p most : Nat) : Prop :=
  ∀ i, p ≤ i → i < Q.count → ∃ k ≤ most, g.Spells (Takes Q.place (upTo i)) (Q.lists i) u k

variable {most : Nat} {g g' : Graph}

theorem Offers.later (h : Offers Q g u p most) (le : p ≤ i) : Offers Q g u i most :=
  fun j hj lt => h j (le.trans hj) lt

theorem Offers.advance (h : Offers Q g u p most) (advances : g.Advances g')
    (leaves : ∀ i < Q.count, ∀ x ∈ Q.lists i, ∃ c, g.Leaf x c) : Offers Q g' u p most := fun i hi lt => by
  obtain ⟨k, le, spells⟩ := h i hi lt
  exact ⟨k, le, advances.spells _ _ _ _ (leaves i lt) spells⟩

/-- Below a choice in a place before `p`, or on the side that the place `p` takes, everything is still
offered. -/
theorem Offers.below {s : Side} (h : Offers Q g u p most) (proper : Q.Proper) {d : Nat} (here : Q.place d id)
    (hu : g.Holds u (.alternative narrowed id l r)) (known : ∀ i, p ≤ i → i < Q.count → upTo i d = some s) :
    Offers Q g (s.pick l r) p most := by
  intro i hi lt
  obtain ⟨k, le, spells⟩ := h i hi lt
  obtain ⟨side', k', rfl, taken, below⟩ := spells.taken hu
  cases proper.single id s side' ⟨d, here, known i hi lt⟩ taken
  exact ⟨k', by omega, below⟩

/-- A node with several lists left is none of them. -/
theorem Offers.unlisted (h : Offers Q g u p most) (proper : Q.Proper) (lt : p + 1 < Q.count)
    (leaves : ∀ x ∈ Q.lists p, ∃ c, g.Leaf x c) (lists : g.Lists (Q.lists p) u) : False := by
  obtain ⟨k, -, spells⟩ := h (p + 1) (Nat.le_succ p) lt
  have same := proper.differ _ lt _ (by omega) (lists.eq_of_spells leaves spells)
  omega

/-- A frame was forked at place `p`: the left child goes on to list `p`, the right child to those after. -/
structure Forked (Q : Deal) (a : Nat) (outer : List Computation) (p most : Nat) (m : Machine)
    (c' : Computation) (m' : Machine) (f₁ f₂ : Frame) (l r : NodeId) : Prop where
  deals : Deals Q a outer c' m'
  queue : c'.queue = [f₁, f₂]
  left : f₁.node = some l
  right : f₂.node = some r
  leftKnows : Q.Knows (c'.fingerprintOf f₁) (upTo p)
  rightKnows : Q.Knows (c'.fingerprintOf f₂) (Deal.rights (p + 1))
  first : ∃ k ≤ most, m'.graph.Spells (Takes Q.place (upTo p)) (Q.lists p) l k
  others : Offers Q m'.graph r (p + 1) most
  advances : m.graph.Advances m'.graph
  signature : m'.signature = m.signature

/-- A frame that has several lists left comes to the place where it forks. -/
theorem right_from (proper : Q.Proper) (lt : p + 1 < Q.count) (enough : Q.size + 4 ≤ fuel) :
    ∀ (k : Nat) (m : Machine) (c : Computation) (f : Frame) (u : NodeId) (st : Stats) (bound : Nat),
      Deals Q (a + Q.cost * k) outer c m → c.queue = [f] →
      Q.Knows (c.fingerprintOf f) (Deal.rights p) →
      m.graph.Spells (Takes Q.place (upTo p)) (Q.lists p) u k → Offers Q m.graph u p most →
      Passed m.graph (Q.lists p) u →
      ∃ j ≤ k, ∃ m' c' f₁ f₂ l r st', (∀ turns seen,
          proceed (Reduction.normalize fuel) (turns + j) seen (dispatch (bound + 1) u st m) =
            takeTurns (Reduction.normalize fuel) snapshots turns st' seen m') ∧
        Forked Q a outer p most m c' m' f₁ f₂ l r ∧ Counts 0 1 st st' := by
  intro k
  induction k with
  | zero =>
    intro m c f u st bound deals _ _ spells offers passed
    rcases passed with ⟨narrowed, id, l, r, hu⟩ | lists
    · obtain ⟨_, _, impossible, -⟩ := spells.taken hu
      cases impossible
    · exact (offers.unlisted proper lt (fun x hx => (deals.terms p (by omega)).leaves x hx) lists).elim
  | succ k ih =>
    intro m c f u st bound deals front knows spells offers passed
    rcases passed with ⟨narrowed, id, l, r, hu⟩ | lists
    · obtain ⟨side, k', more, ⟨d, here, decided⟩, below⟩ := spells.taken hu
      cases more
      rcases Nat.lt_trichotomy d p with before | rfl | after
      · have right : ∀ i, p ≤ i → i < Q.count → upTo i d = some .right := fun i hi _ => by
          rw [upTo, if_pos (before.trans_le hi)]
        cases (right p (Nat.le_refl p) (by omega)).symm.trans decided
        obtain ⟨f₁, run, deals₁, node, same⟩ := deals.follow proper front knows
          ⟨d, here, by rw [Deal.rights, if_pos before]⟩ hu st bound
        rw [Nat.mul_succ, ← Nat.add_assoc] at deals₁
        obtain ⟨m₂, turns₂, deals₂, advances, passed, -, signature⟩ :=
          deals₁.pass proper rfl node (by omega) below enough
        obtain ⟨n, turn₂⟩ := turns₂ st
        have leaves : ∀ i < Q.count, ∀ x ∈ Q.lists i, ∃ c, m.graph.Leaf x c := fun i hi x hx =>
          (deals.terms i hi).leaves x hx
        obtain ⟨j, le, m', c', g₁, g₂, l', r', st', goes, forked, counts⟩ := ih m₂ _ f₁ _
          { st with steps := st.steps + n } m₂.graph.capacity deals₂ rfl (same ▸ knows)
          (advances.spells _ _ _ _ (leaves p (by omega)) below)
          ((offers.below proper here hu right).advance advances leaves) passed
        refine ⟨j + 1, Nat.succ_le_succ le, m', c', g₁, g₂, l', r', st', fun turns seen => ?_, ?_, ?_⟩
        · rw [run, ← Nat.add_assoc]
          refine (takeTurns_proceeds _ _ _ _ _).trans ?_
          rw [turn₂]
          exact goes turns seen
        · exact { forked with
            advances := advances.trans forked.advances
            signature := forked.signature.trans signature }
        · have counts' := (Counts.paid st n).trans counts
          rwa [Nat.zero_add] at counts'
      · have left : upTo d d = some .left := by rw [upTo, if_neg (Nat.lt_irrefl d), if_pos rfl]
        cases left.symm.trans decided
        obtain ⟨c', f₁, f₂, run, deals', queue, atLeft, atRight, children⟩ := deals.part
          proper front knows here (by rw [Deal.rights, if_neg (Nat.lt_irrefl d)]) hu st bound
        obtain ⟨k₁, le, whole⟩ := offers d (Nat.le_refl d) (by omega)
        obtain ⟨side, k₂, rfl, taken, first⟩ := whole.taken hu
        cases proper.single id _ _ ⟨d, here, left⟩ taken
        refine ⟨0, Nat.zero_le _, { m with computations := c' :: outer }, c', f₁, f₂, l, r,
          { st with forks := st.forks + 1 }, fun turns seen => ?_, ?_, 0, rfl⟩
        · rw [run]
          rfl
        · exact {
            deals := deals'.mono (Nat.le_add_right a _)
            queue := queue
            left := atLeft
            right := atRight
            leftKnows := (children (upTo d) fun e other => by
              rw [upTo, Deal.rights, if_neg other]).1 left
            rightKnows := (children (Deal.rights (d + 1)) fun e other => by
              simp only [Deal.rights]
              congr 1
              exact propext ⟨fun lt => by omega, fun lt => by omega⟩).2
                (by rw [Deal.rights, if_pos (Nat.lt_succ_self d)])
            first := ⟨k₂, by omega, first⟩
            others := (offers.later (Nat.le_succ d)).below (s := .right) proper here hu fun i hi _ => by
              rw [upTo, if_pos (Nat.lt_of_succ_le hi)]
            advances := .refl _
            signature := rfl }
      · rw [upTo, if_neg (by omega), if_neg (by omega)] at decided
        cases decided
    · exact (offers.unlisted proper lt (fun x hx => (deals.terms p (by omega)).leaves x hx) lists).elim

/-! ## The whole search -/

/-- The frame in front takes a turn and hands out its list. -/
theorem value_turns (proper : Q.Proper) (lt : i < Q.count) (enough : Q.size + 4 ≤ fuel)
    (h : Deals Q (a + Q.cost * k + Q.cost) outer c m) (front : c.queue = f :: rest) (node : f.node = some u)
    (knows : Q.Knows (c.fingerprintOf f) known)
    (spells : m.graph.Spells (Takes Q.place known) (Q.lists i) u k) (st : Stats) :
    ∃ j ≤ k + 1, ∃ m' c' v st', (∀ turns seen,
        takeTurns (Reduction.normalize fuel) snapshots (turns + j) st seen m =
          takeTurns (Reduction.normalize fuel) snapshots turns st' (seen ++ [v]) m') ∧
      Handed Q a outer rest i c m v c' m' ∧ Counts 1 0 st st' := by
  obtain ⟨m₁, turns₁, deals₁, advances, passed, -, signature⟩ := h.pass proper front node lt spells enough
  obtain ⟨n, turn₁⟩ := turns₁ st
  obtain ⟨j, le, m', c', v, st', goes, handed, counts⟩ := value_from proper lt enough k m₁ c f u
    { st with steps := st.steps + n } m₁.graph.capacity deals₁ front knows
    (advances.spells _ _ _ _ (fun x hx => (h.terms i lt).leaves x hx) spells) passed
  refine ⟨j + 1, Nat.succ_le_succ le, m', c', v, st', fun turns seen => ?_, ?_, ?_⟩
  · rw [← Nat.add_assoc, takeTurns_proceeds, turn₁]
    exact goes turns seen
  · exact { handed with
      shows_ := handed.shows_.earlier advances signature
      advances := advances.trans handed.advances
      signature := handed.signature.trans signature }
  · have counts' := (Counts.paid st n).trans counts
    rwa [Nat.zero_add] at counts'

/-- Turns for dealing out the first of so many lists and those after it. -/
def rounds (most : Nat) : Nat → Nat
  | 0 => most
  | q + 1 => most + (most + 1) + 1 + rounds most q

/-- A frame that has `q + 1` lists left deals them out in order and forks `q` times. -/
theorem deal_from (proper : Q.Proper) (enough : Q.size + 4 ≤ fuel) :
    ∀ (q p : Nat) (m : Machine) (c : Computation) (f : Frame) (u : NodeId) (st : Stats) (bound : Nat),
      p + q + 1 = Q.count → Deals Q (a + Q.cost * rounds most q) outer c m → c.queue = [f] →
      Q.Knows (c.fingerprintOf f) (Deal.rights p) → Offers Q m.graph u p most →
      Passed m.graph (Q.lists p) u →
      ∃ j ≤ rounds most q, ∃ m' c' vs st', (∀ turns seen,
          proceed (Reduction.normalize fuel) (turns + j) seen (dispatch (bound + 1) u st m) =
            takeTurns (Reduction.normalize fuel) snapshots turns st' (seen ++ vs) m') ∧
        Deals Q a outer c' m' ∧ c'.queue = [] ∧
        List.Forall₂ (Shows Q m) (List.range' p (q + 1)) vs ∧ Counts (q + 1) q st st' := by
  intro q
  induction q with
  | zero =>
    intro p m c f u st bound last deals front knows offers passed
    obtain ⟨k, le, spells⟩ := offers p (Nat.le_refl p) (by omega)
    have all : Q.Knows (c.fingerprintOf f) (upTo p) := knows.congr fun d x here => by
      have before : d < p := by
        have inner := proper.inner here
        omega
      rw [upTo, Deal.rights, if_pos before, if_pos before]
    obtain ⟨j, le', m', c', v, st', goes, handed, counts⟩ := value_from proper (by omega) enough k m c f u st
      bound (deals.mono (Nat.add_le_add_left (Nat.mul_le_mul_left _ le) a)) front all spells passed
    exact ⟨j, le'.trans le, m', c', [v], st', goes, handed.deals, handed.queue,
      .cons handed.shows_ .nil, counts⟩
  | succ q ih =>
    intro p m c f u st bound more deals front knows offers passed
    obtain ⟨k, le, spells⟩ := offers p (Nat.le_refl p) (by omega)
    generalize hb : a + Q.cost * rounds most q = b at ih
    have split : a + Q.cost * rounds most (q + 1) =
        b + Q.cost + (Q.cost * most + Q.cost) + Q.cost * most := by
      rw [← hb, rounds]
      simp only [Nat.mul_add, Nat.mul_one]
      omega
    rw [split] at deals
    obtain ⟨j₁, le₁, m₁, c₁, f₁, f₂, l, r, st₁, goes₁, forked, counts₁⟩ := right_from proper (by omega)
      enough k m c f u st bound
      (deals.mono (Nat.add_le_add_left (Nat.mul_le_mul_left _ le) _)) front knows spells offers passed
    obtain ⟨k₂, le₂, first⟩ := forked.first
    have fewer := Nat.mul_le_mul_left Q.cost le₂
    have deals₁ : Deals Q (b + Q.cost + Q.cost * k₂ + Q.cost) outer c₁ m₁ := forked.deals.mono (by omega)
    obtain ⟨j₂, le₂', m₂, c₂, v, st₂, goes₂, handed, counts₂⟩ := value_turns proper (by omega) enough
      deals₁ forked.queue forked.left forked.leftKnows first st₁
    have others : Offers Q m₂.graph r (p + 1) most := forked.others.advance handed.advances
      fun i hi x hx => (forked.deals.terms i hi).leaves x hx
    obtain ⟨k₃, -, next⟩ := others (p + 1) (Nat.le_refl _) (by omega)
    obtain ⟨m₃, turns₃, deals₃, advances, passed₃, -, signature⟩ :=
      handed.deals.pass proper handed.queue forked.right (i := p + 1) (by omega) next enough
    obtain ⟨n, turn₃⟩ := turns₃ st₂
    have knows₃ : Q.Knows (c₂.fingerprintOf f₂) (Deal.rights (p + 1)) := by
      rw [show c₂.fingerprintOf f₂ = c₁.fingerprintOf f₂ from
        congrArg View.decided (handed.others f₂ List.mem_cons_self)]
      exact forked.rightKnows
    obtain ⟨j₃, le₃, m', c', vs, st', goes₃, deals', done, shown, counts₃⟩ := ih (p + 1) m₃ c₂ f₂ r
      { st₂ with steps := st₂.steps + n } m₃.graph.capacity (by omega) deals₃ handed.queue knows₃
      (others.advance advances fun i hi x hx => (handed.deals.terms i hi).leaves x hx) passed₃
    refine ⟨j₃ + 1 + j₂ + j₁, ?_, m', c', v :: vs, st', fun turns seen => ?_, deals', done, ?_, ?_⟩
    · rw [rounds]
      omega
    · calc proceed (Reduction.normalize fuel) (turns + (j₃ + 1 + j₂ + j₁)) seen (dispatch (bound + 1) u st m)
          = takeTurns (Reduction.normalize fuel) snapshots (turns + j₃ + 1 + j₂) st₁ seen m₁ := by
            rw [← goes₁]
            congr 1
            omega
        _ = takeTurns (Reduction.normalize fuel) snapshots (turns + j₃ + 1) st₂ (seen ++ [v]) m₂ := goes₂ _ _
        _ = proceed (Reduction.normalize fuel) (turns + j₃) (seen ++ [v])
            (dispatch m₃.depthBound r { st₂ with steps := st₂.steps + n } m₃) := by
            rw [takeTurns_proceeds, turn₃]
        _ = _ := (goes₃ turns (seen ++ [v])).trans (by rw [List.append_assoc, List.singleton_append])
    · rw [List.range'_succ]
      refine .cons (handed.shows_.earlier forked.advances forked.signature) (shown.imp fun i v hv => ?_)
      exact hv.earlier ((forked.advances.trans handed.advances).trans advances)
        ((signature.trans handed.signature).trans forked.signature)
    · have counts := ((counts₁.trans counts₂).trans (Counts.paid st₂ n)).trans counts₃
      rwa [show 0 + 1 + 0 + (q + 1) = q + 1 + 1 by omega, show 1 + 0 + 0 + q = q + 1 by omega] at counts

end Schedule

end ChoiceGraph
