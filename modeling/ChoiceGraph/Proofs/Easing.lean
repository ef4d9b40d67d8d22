import ChoiceGraph.Proofs.NestedSearches

/-! # Effects on a longer slice

An effect learns of its slice only when a step is refused. So with more steps left it comes to the same,
unless it is refused a step because there are none left. Nor does it learn of the configuration, which
is read by searches only. -/
namespace ChoiceGraph

/-- The same slice with more steps left. -/
def Slice.lengthened (s : Slice) (n : Nat) : Slice := { s with remaining := s.remaining.map (· + n) }

theorem Slice.isOver_lengthened {s : Slice} {n : Nat} (left : ¬ (0 < n ∧ s.remaining = some 0)) :
    (s.lengthened n).isOver = s.isOver := by
  obtain ⟨remaining, used, preempt⟩ := s
  rcases remaining with _ | _ | k
  · rfl
  · have same : n = 0 := Nat.eq_zero_of_not_pos fun more => left ⟨more, rfl⟩
    subst same
    rfl
  · show (preempt || some (k + 1 + n) == some 0) = (preempt || some (k + 1) == some 0)
    rw [Nat.add_right_comm]
    rfl

theorem Slice.spend_lengthened {s : Slice} {n : Nat} (going : s.isOver = false) :
    (s.lengthened n).spend = s.spend.lengthened n := by
  obtain ⟨remaining, used, preempt⟩ := s
  rcases remaining with _ | _ | k
  · rfl
  · simp [isOver] at going
  · show ({ remaining := some (k + 1 + n - 1), used := used + 1, preempt := preempt } : Slice) = _
    rw [Nat.add_right_comm]
    rfl

namespace Machine

/-- The signature is the same. -/
def SameSignature (m m' : Machine) : Prop := m'.signature = m.signature

theorem mapInnermost_signature (m : Machine) (f : Computation → Computation) :
    (m.mapInnermost f).signature = m.signature := congrArg TermGraph.signature (mapInnermost_same m f)

instance : IsPreorder Machine SameSignature where
  refl _ := rfl
  trans _ _ _ h k := k.trans h

instance : Permissive SameSignature where
  graph _ _ _ := rfl
  roots _ _ := rfl
  nextId _ _ := rfl
  spent _ _ := rfl
  collected m g _ := by
    unfold Eff.chargeCollection
    split
    · rfl
    · dsimp only
      split <;> exact mapInnermost_signature _ _
  constrained m _ := mapInnermost_signature m _

instance : Inward SameSignature where
  innermost := mapInnermost_signature
  resolved _ _ _ _ _ := rfl
  sliced _ _ := rfl

instance : Schedule.Nests SameSignature where
  searched h turns root s := Schedule.gather_around h turns root s fun _ _ same => same

/-- The same machine with another configuration and more steps left. -/
def eased (change : Config → Config) (n : Nat) (m : Machine) : Machine :=
  { m with config := change m.config, slice := m.slice.lengthened n }

variable {change : Config → Config} {n : Nat}

theorem Blind.eased {α : Type} {r : Machine → α} (blind : Blind r) (m : Machine) :
    r (m.eased change n) = r m := blind m _ _

theorem mapInnermost_eased (m : Machine) (f : Computation → Computation) :
    (m.eased change n).mapInnermost f = (m.mapInnermost f).eased change n := by
  cases searches : m.computations with
  | nil => simp only [mapInnermost, Machine.eased, searches]
  | cons c outer => simp only [mapInnermost, Machine.eased, searches]

theorem chargeCollection_eased (m : Machine) :
    Eff.chargeCollection (m.eased change n) = (Eff.chargeCollection m).eased change n := by
  have front : (m.eased change n).front? = m.front? := rfl
  unfold Eff.chargeCollection
  rw [front]
  cases m.front? with
  | none => rfl
  | some f =>
    dsimp only
    rw [mapInnermost_eased]
    split <;> rfl

end Machine

namespace Eff

open Machine

variable {α β : Type} {e : Eff α} {f : α → Eff β} {change : Config → Config} {n : Nat} {Γ : Signature → Prop}

/-- The same outcome on another machine. -/
def carry (T : Machine → Machine) : EStateM.Result Stop Machine α → EStateM.Result Stop Machine α
  | .ok a m => .ok a (T m)
  | .error stop m => .error stop (T m)

/-- A step was refused because none was left. -/
def Refused (r : EStateM.Result Stop Machine α) : Prop :=
  ∃ m, r = .error .preempted m ∧ m.slice.remaining = some 0

theorem not_refused_ok {a : α} {m : Machine} : ¬ Refused (.ok a m) := fun ⟨_, same, _⟩ => by cases same

/-- What was refused does not matter, nor what of the machine is left except for its slice. -/
theorem Refused.elsewhere {stop : Stop} {m m' : Machine}
    (h : Refused (.error stop m : EStateM.Result Stop Machine α)) (slice : m'.slice = m.slice) :
    Refused (.error stop m' : EStateM.Result Stop Machine β) := by
  obtain ⟨m₁, same, empty⟩ := h
  cases same
  exact ⟨m', rfl, slice ▸ empty⟩

/-- On machines of such a signature, the effect comes to the same with another configuration and more
steps left, unless it needs one of these steps. -/
structure Eases (change : Config → Config) (n : Nat) (Γ : Signature → Prop) (e : Eff α) : Prop where
  keeps : ∀ {m a m'}, Γ m.signature → e m = .ok a m' → Γ m'.signature
  same : ∀ m, Γ m.signature → ¬ (0 < n ∧ Refused (e m)) → e (m.eased change n) = carry (eased change n) (e m)

/-- The effect always comes to the same with another configuration and more steps left. -/
def Unaffected (change : Config → Config) (n : Nat) (e : Eff α) : Prop :=
  ∀ m, e (m.eased change n) = carry (eased change n) (e m)

theorem eases_of_same (moves : e.Moves SameSignature) (same : e.Unaffected change n) :
    e.Eases change n Γ :=
  ⟨fun hm run => (moves.ok run).symm ▸ hm, fun m _ _ => same m⟩

theorem unaffected_pure (a : α) : (pure a : Eff α).Unaffected change n := fun _ => rfl

theorem unaffected_throw (stop : Stop) : (throw stop : Eff α).Unaffected change n := fun _ => rfl

theorem unaffected_look {r : Machine → Except Fault α} (blind : Blind r) :
    (look r).Unaffected change n := by
  intro m
  unfold look
  rw [blind.eased]
  cases r m <;> rfl

theorem unaffected_modify (f : Computation → Computation) :
    (modify fun m => m.mapInnermost f : Eff Unit).Unaffected change n := by
  intro m
  exact congrArg (EStateM.Result.ok ()) (mapInnermost_eased m f)

theorem Unaffected.bind (h : e.Unaffected change n) (hf : ∀ a, (f a).Unaffected change n) :
    (e >>= f).Unaffected change n := by
  intro m
  have first := h m
  cases run : e m with
  | error stop m₁ =>
    rw [run] at first
    rw [bind_error run]
    exact bind_error first
  | ok a m₁ =>
    rw [run] at first
    rw [bind_ok run]
    exact (bind_ok first).trans (hf a m₁)

theorem Eases.bind (h : e.Eases change n Γ) (hf : ∀ a, (f a).Eases change n Γ) :
    (e >>= f).Eases change n Γ where
  keeps hm run := by
    obtain ⟨a, m₁, first, rest⟩ := bind_eq_ok run
    exact (hf a).keeps (h.keeps hm first) rest
  same m hm uncut := by
    cases run : e m with
    | error stop m₁ =>
      have failed : (e >>= f) m = .error stop m₁ := bind_error run
      rw [failed] at uncut ⊢
      have first := h.same m hm fun cut => uncut ⟨cut.1, (run ▸ cut.2).elsewhere rfl⟩
      rw [run] at first
      exact bind_error first
    | ok a m₁ =>
      have goes_on : (e >>= f) m = f a m₁ := bind_ok run
      have first := h.same m hm fun cut => not_refused_ok (run ▸ cut.2)
      rw [run] at first
      rw [goes_on] at uncut ⊢
      exact (bind_ok first).trans ((hf a).same m₁ (h.keeps hm run) uncut)

theorem eases_look {r : Machine → Except Fault α} (blind : Blind r) : (look r).Eases change n Γ :=
  eases_of_same (moves_look r) (unaffected_look blind)

theorem eases_get {f : Machine → Eff α} (blind : Blind f) (h : ∀ m, (f m).Eases change n Γ) :
    ((get : Eff Machine) >>= f).Eases change n Γ := by
  have begin_ : ∀ m, ((get : Eff Machine) >>= f) m = f m m := fun _ => rfl
  refine ⟨fun {m _ _} hm run => (h m).keeps hm run, fun m hm uncut => ?_⟩
  rw [begin_] at uncut ⊢
  rw [begin_, blind.eased]
  exact (h m).same m hm uncut

theorem eases_withRoots (links : List Link) (h : e.Eases change n Γ) :
    (withRoots links e).Eases change n Γ := by
  refine ⟨fun {m a m'} hm run => ?_, fun m hm uncut => ?_⟩
  · unfold withRoots at run
    split at run
    · next run' =>
      cases run
      have kept := h.keeps (m := { m with roots := links.reverse ++ m.roots }) hm run'
      exact kept
    · cases run
  · have inside := h.same { m with roots := links.reverse ++ m.roots } hm
    unfold withRoots at uncut ⊢
    cases run : e { m with roots := links.reverse ++ m.roots } with
    | ok a m₁ =>
      rw [run] at inside
      simp only [show e { m.eased change n with roots := links.reverse ++ (m.eased change n).roots } = _ from
        inside fun cut => not_refused_ok cut.2, carry]
      rfl
    | error stop m₁ =>
      rw [run] at inside uncut
      have uncut' : ¬ (0 < n ∧ Refused (.error stop m₁ : EStateM.Result Stop Machine α)) :=
        fun cut => uncut ⟨cut.1, cut.2.elsewhere rfl⟩
      simp only [show e { m.eased change n with roots := links.reverse ++ (m.eased change n).roots } = _ from
        inside uncut', carry]
      rfl

theorem eases_collect : collect.Eases change n Γ := by
  refine eases_of_same collect_moves fun m => ?_
  have roots : (m.eased change n).rootSet = m.rootSet := rfl
  have graph : (m.eased change n).graph = m.graph := rfl
  unfold collect
  rw [roots, graph]
  cases m.graph.collect m.rootSet with
  | error e => rfl
  | ok r =>
    have charged : chargeCollection ({ m.setGraph r.2 with collections := m.collections + 1 }.eased change n) =
        (chargeCollection { m.setGraph r.2 with collections := m.collections + 1 }).eased change n :=
      chargeCollection_eased _
    simp only [carry]
    rw [← charged]
    rfl

theorem eases_take (k : Nat) : (take? k).Eases change n Γ := by
  refine eases_of_same (take_moves k) fun m => ?_
  have graph : (m.eased change n).graph = m.graph := rfl
  unfold take?
  rw [graph]
  split <;> rfl

theorem eases_grow (k : Nat) : (grow? k).Eases change n Γ := by
  refine eases_of_same (grow_moves k) fun m => ?_
  have graph : (m.eased change n).graph = m.graph := rfl
  unfold grow?
  rw [graph]
  cases m.graph.grow? k <;> rfl

theorem eases_put (i : NodeId) (node : Node) : (put i node).Eases change n Γ := by
  refine eases_of_same (put_moves i node) fun m => ?_
  have graph : (m.eased change n).graph = m.graph := rfl
  unfold put
  rw [graph]
  cases m.graph.node i with
  | error e => rfl
  | ok old =>
    dsimp only
    cases old.slots with
    | inline a b => rfl
    | data l => rfl
    | pooled b =>
      dsimp only
      cases m.graph.releaseBlock? b <;> rfl

theorem eases_storeLinks (links : List Link) : (storeLinks links).Eases change n Γ := by
  refine eases_of_same (storeLinks_moves links) fun m => ?_
  have graph : (m.eased change n).graph = m.graph := rfl
  rcases links with _ | ⟨a, _ | ⟨b, _ | ⟨c, rest⟩⟩⟩
  · rfl
  · rfl
  · rfl
  · simp only [storeLinks, graph]
    cases m.graph.allocBlock (a :: b :: c :: rest).length with
    | error e => rfl
    | ok r =>
      dsimp only
      cases r.2.writeBlock? r.1 (a :: b :: c :: rest) <;> rfl

theorem eases_setSuccessor (i : NodeId) (k : Nat) (target : Link) :
    (setSuccessor i k target).Eases change n Γ := by
  refine eases_of_same (setSuccessor_moves i k target) fun m => ?_
  have same : (m.eased change n).toTermGraph = m.toTermGraph := rfl
  unfold setSuccessor
  rw [same]
  cases m.toTermGraph.successor i k with
  | error e => rfl
  | ok _ =>
    cases m.graph.node i with
    | error e => rfl
    | ok node =>
      dsimp only
      cases node.slots with
      | inline a b => rfl
      | data l => rfl
      | pooled b =>
        dsimp only
        cases m.graph.block? b with
        | none => rfl
        | some links =>
          dsimp only
          cases m.graph.writeBlock? b (links.set k target) <;> rfl

/-- A step is paid for from a longer slice just as well. It is refused from both if the frame in front
has no collections left. -/
theorem eases_tick : Reduction.tick.Eases change n Γ := by
  refine ⟨fun hm run => (tick_moves.ok run : SameSignature _ _).symm ▸ hm, fun m _ uncut => ?_⟩
  have slice : (m.eased change n).slice = m.slice.lengthened n := rfl
  unfold Reduction.tick at uncut ⊢
  rw [slice]
  cases spent : m.slice.isOver with
  | true =>
    have left : ¬ (0 < n ∧ m.slice.remaining = some 0) := fun ⟨more, empty⟩ =>
      uncut ⟨more, by rw [spent]; exact ⟨m, rfl, empty⟩⟩
    rw [Slice.isOver_lengthened left, spent]
    rfl
  | false =>
    have left : ¬ (0 < n ∧ m.slice.remaining = some 0) := fun ⟨_, empty⟩ => by
      simp [Slice.isOver, empty] at spent
    rw [Slice.isOver_lengthened left, spent, Slice.spend_lengthened spent]
    rfl

/-- To come to the same with more steps left is a law. -/
def easing (change : Config → Config) (n : Nat) (Γ : Signature → Prop) : Law where
  Holds e := e.Eases change n Γ
  returns a := eases_of_same (moves_pure a) (unaffected_pure a)
  throws stop := eases_of_same (moves_throw stop) (unaffected_throw stop)
  sequence := Eases.bind
  reads graphic := eases_look graphic.blind
  gets frontal := eases_get frontal.blind
  roots := eases_withRoots
  freshId := eases_of_same freshId_moves fun _ => rfl
  collect := eases_collect
  take := eases_take
  grow := eases_grow
  exhausted k := eases_of_same (exhausted_moves k) fun _ => rfl
  put := eases_put
  storeLinks := eases_storeLinks
  setSuccessor := eases_setSuccessor
  constrain update := eases_of_same (constrain_moves update) (unaffected_modify _)
  tick := eases_tick

/-- A function that runs no search learns nothing of the configuration. -/
theorem easing_unnested : (easing change n Signature.SearchFree).Searching False where
  symbol {_ i f} h := by
    have inner : ∀ {m sym m'}, m.signature.SearchFree → look (·.symbol i) m = .ok sym m' →
        m' = m ∧ (f sym).Eases change n Signature.SearchFree := by
      intro m sym m' hm run
      obtain ⟨read, same⟩ := look_eq_ok run
      refine ⟨same, h sym (.inr ?_)⟩
      have read : (m.toTermGraph.symbolId i >>= fun id => m.signature.symbol id) = .ok sym := read
      cases number : m.toTermGraph.symbolId i with
      | error e =>
        rw [number] at read
        cases read
      | ok id =>
        rw [number] at read
        have found : m.signature.symbol id = .ok sym := read
        unfold Signature.symbol at found
        split at found
        · next some_ =>
          cases found
          exact hm.symbol some_
        · cases found
    refine ⟨fun {m a m'} hm run => ?_, fun m hm uncut => ?_⟩
    · obtain ⟨sym, m₁, read, rest⟩ := bind_eq_ok run
      obtain ⟨rfl, eases⟩ := inner hm read
      exact eases.keeps hm rest
    · have reads : look (·.symbol i) (m.eased change n) =
          carry (eased change n) (look (·.symbol i) m) := unaffected_look (fun _ _ _ => rfl) m
      cases read : look (·.symbol i) m with
      | error stop m₁ =>
        rw [read] at reads
        rw [bind_error read]
        exact bind_error reads
      | ok sym m₁ =>
        obtain ⟨rfl, eases⟩ := inner hm read
        rw [read] at reads
        rw [bind_ok read] at uncut ⊢
        exact (bind_ok reads).trans (eases.same m₁ hm uncut)
  gather := False.elim

end Eff

namespace Schedule

open Eff Machine

variable {σ : Type} {normal : NodeId → Eff Unit} {visit : Visitor σ} {m : Machine} {n : Nat}

/-- A turn begins with a slice of its own. Only if there is nothing to be done the slice of before is
left. -/
theorem turn_resliced (normal : NodeId → Eff Unit) (st : Stats) (m : Machine) (slice : Slice) :
    turn normal st { m with slice := slice } = turn normal st m ∨
      ∃ st', turn normal st m = .ok (st', .over) m ∧
        turn normal st { m with slice := slice } = .ok (st', .over) { m with slice := slice } := by
  let m' : Machine := { m with slice := slice }
  cases front : m.front? with
  | none => exact .inr ⟨st, turn_idle front st, turn_idle (m := m') front st⟩
  | some f =>
    cases next : nextSlice? m.config st with
    | none => exact .inr ⟨_, turn_limit front next, turn_limit (m := m') front next⟩
    | some steps => exact .inl ((turn_front (m := m') front next).trans (turn_front front next).symm)

/-- A search comes to the same from a longer slice, and restores it. -/
theorem gather_eased (turns : Nat) (root : Link) (s : σ) :
    gather normal turns visit root s (m.eased id n) =
      carry (eased id n) (gather normal turns visit root s m) := by
  have begins : enter root (m.eased id n) = { enter root m with slice := m.slice.lengthened n } := rfl
  unfold gather search
  rw [begins]
  cases turns with
  | zero => rfl
  | succ turns =>
    rcases turn_resliced normal {} (enter root m) (m.slice.lengthened n) with same | ⟨st', run, run'⟩
    · have found : takeTurns normal visit (turns + 1) {} s
          { enter root m with slice := m.slice.lengthened n } =
            takeTurns normal visit (turns + 1) {} s (enter root m) := by
        unfold takeTurns
        rw [same]
      rw [found]
      dsimp only
      cases (takeTurns normal visit (turns + 1) {} s (enter root m)).ending <;> rfl
    · unfold takeTurns
      rw [run, run']
      rfl

/-- A nested search has slices of its own. -/
theorem easing_nested : (easing id n fun _ => True).Searching True where
  symbol h := Eases.bind (eases_look fun _ _ _ => rfl) fun sym => h sym (.inl trivial)
  gather _ _ _ _ _ _ turns root s := ⟨fun _ _ => trivial, fun _ _ _ => gather_eased turns root s⟩

end Schedule

end ChoiceGraph
