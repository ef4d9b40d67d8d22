import ChoiceGraph.Proofs.Easing
import ChoiceGraph.Proofs.Preemption
import ChoiceGraph.Proofs.Tallies

/-! # Runs with a step limit

The limit shortens the last slice of a search, and nothing before it. A turn on a shorter slice either
comes to the same, or uses up the slice and with it the limit, so that there is no turn after it. A
search that a function runs has the limit for itself, and what it comes to may depend on it. -/
namespace ChoiceGraph

/-- The same configuration with another step limit. -/
def Config.withLimit (limit : Option Nat) (c : Config) : Config := { c with stepLimit := limit }

/-- The same machine with another step limit for the searches that are begun on it. -/
def Machine.withLimit (limit : Option Nat) (m : Machine) : Machine :=
  { m with config := m.config.withLimit limit }

namespace Schedule

open Eff Machine

variable {σ : Type} {normal : NodeId → Eff Unit} {visit : Visitor σ} {m m' n n' : Machine}
  {st st' : Stats} {o : Outcome} {r : Stats × Outcome} {limit : Option Nat} {L d : Nat}
  {change : Config → Config}

/-! ## Turns on another slice -/

section Unaffected

variable (keeps : ∀ c, (change c).timeAllotment = c.timeAllotment)

include keeps

theorem mapInnermost_requeued (m : Machine) (suspended : Bool) :
    ((m.eased change d).mapInnermost fun c => c.requeue (m.eased change d).config.timeAllotment suspended) =
      (m.mapInnermost fun c => c.requeue m.config.timeAllotment suspended).eased change d := by
  have allotment : (m.eased change d).config.timeAllotment = m.config.timeAllotment := keeps m.config
  rw [allotment, mapInnermost_eased]

theorem requeue_unaffected (suspended : Bool) : (requeue suspended).Unaffected change d := fun m =>
  congrArg (EStateM.Result.ok ()) (mapInnermost_requeued keeps m suspended)

theorem resolveFront_eased (m : Machine) (id : ChoiceId) (left right : Link) :
    resolveFront (m.eased change d) id left right =
      ((resolveFront m id left right).1, (resolveFront m id left right).2.eased change d) := by
  have allotment : (m.eased change d).config.timeAllotment = m.config.timeAllotment := keeps m.config
  cases searches : m.computations with
  | nil => simp only [resolveFront, eased, searches]
  | cons c outer =>
    have searches' : (m.eased change d).computations = c :: outer := searches
    simp only [resolveFront, searches, searches', allotment]
    rfl

theorem fork_unaffected (choice : NodeId) (st : Stats) : (fork choice st).Unaffected change d := by
  refine (unaffected_look fun _ _ _ => rfl).bind fun id => (unaffected_look fun _ _ _ => rfl).bind
    fun left => (unaffected_look fun _ _ _ => rfl).bind fun right => ?_
  refine Unaffected.bind (fun m => ?_) fun resolution => ?_
  · exact congrArg (fun r => EStateM.Result.ok r.1 r.2) (resolveFront_eased keeps m id left right)
  · cases resolution <;> exact unaffected_pure _

theorem dispatch_unaffected (bound : Nat) (i : NodeId) (st : Stats) :
    (dispatch bound i st).Unaffected change d := by
  induction bound generalizing i with
  | zero => exact unaffected_throw _
  | succ bound ih =>
    refine (unaffected_look fun _ _ _ => rfl).bind fun tag => ?_
    cases tag with
    | failure => exact (unaffected_modify _).bind fun _ => unaffected_pure _
    | forward =>
      exact (unaffected_look fun _ _ _ => rfl).bind fun next => (unaffected_modify _).bind fun _ =>
        (unaffected_look fun _ _ _ => rfl).bind fun j => ih j
    | choice => exact (fork_unaffected keeps i st).bind fun _ => unaffected_pure _
    | operation => exact (unaffected_modify _).bind fun _ => unaffected_pure _
    | constructor _ => exact unaffected_pure _
    | free => exact unaffected_pure _
    | unassigned _ => exact unaffected_throw _

theorem suspendFront_unaffected (st : Stats) : (suspendFront st).Unaffected change d := by
  refine (requeue_unaffected keeps true).bind fun _ m => ?_
  have begin_ : ∀ (k : Machine → Eff (Stats × Outcome)) m, ((get : Eff Machine) >>= k) m = k m m :=
    fun _ _ => rfl
  have searches : (m.eased change d).computations = m.computations := rfl
  rw [begin_, begin_, searches]
  cases m.computations with
  | nil => rfl
  | cons c outer =>
    dsimp only
    split
    · exact (unaffected_modify _).bind (fun _ => unaffected_pure _) m
    · rfl

/-- A turn whose reduction comes to the same on another slice comes to the same itself. -/
theorem reduceFront_eased {node : Link} (same : ∀ i, node = some i →
      normal i (m.eased change d) = carry (eased change d) (normal i m)) :
    reduceFront normal node st (m.eased change d) =
      carry (eased change d) (reduceFront normal node st m) := by
  cases node with
  | none => rfl
  | some i =>
    have caught : catching (normal i) (m.eased change d) =
        carry (eased change d) (catching (normal i) m) := by
      unfold catching
      rw [same i rfl]
      cases normal i m with
      | ok _ _ => rfl
      | error stop _ => cases stop <;> rfl
    cases run : catching (normal i) m with
    | error stop m₁ =>
      rw [run] at caught
      rw [reduceFront_stopped run]
      exact reduceFront_stopped caught
    | ok ending m₁ =>
      rw [run] at caught
      cases ending with
      | done =>
        rw [reduceFront_done run]
        exact (reduceFront_done caught).trans (dispatch_unaffected keeps m₁.depthBound i _ m₁)
      | preempted =>
        rw [reduceFront_preempted run]
        exact (reduceFront_preempted caught).trans (congrArg (EStateM.Result.ok _)
          (mapInnermost_requeued keeps m₁ false))
      | suspended =>
        rw [reduceFront_suspended run]
        exact (reduceFront_suspended caught).trans (suspendFront_unaffected keeps _ m₁)

end Unaffected

/-! ## The slice of a turn -/

/-- With a higher limit, or none, the next slice is at least as long; it is longer only if the lower limit
ends with the slice. -/
theorem nextSlice_withLimit {c : Config} {steps : Nat} (limited : c.stepLimit = some L)
    (le : ∀ L' ∈ limit, L ≤ L') (slice : nextSlice? c st = some steps) :
    st.steps < L ∧ steps ≤ L - st.steps ∧ ∃ d, nextSlice? (c.withLimit limit) st = some (steps + d) ∧
      (0 < d → st.steps + steps = L) := by
  simp only [nextSlice?, limited] at slice
  split at slice
  · cases slice
  · next below =>
    cases slice
    refine ⟨Nat.lt_of_not_le below, Nat.min_le_right _ _, ?_⟩
    cases limit with
    | none =>
      refine ⟨c.sliceSteps - min c.sliceSteps (L - st.steps), ?_, fun longer => by omega⟩
      show some c.sliceSteps = _
      exact congrArg some (by omega)
    | some L' =>
      have le := le L' rfl
      refine ⟨min c.sliceSteps (L' - st.steps) - min c.sliceSteps (L - st.steps), ?_,
        fun longer => by omega⟩
      have below' : ¬ L' ≤ st.steps := by omega
      show (if L' ≤ st.steps then none else some (min c.sliceSteps (L' - st.steps))) = _
      rw [if_neg below']
      exact congrArg some (by omega)

theorem nextSlice_none {c : Config} (limited : c.stepLimit = some L) :
    nextSlice? c st = none ↔ L ≤ st.steps := by
  simp only [nextSlice?, limited]
  split
  · next over_ => exact iff_of_true rfl over_
  · next below => exact iff_of_false (Option.some_ne_none _) below

/-- What a turn leaves of a limit: it is reached before the turn, or it is not exceeded in it. -/
inductive Within (L : Nat) (m : Machine) (st : Stats) : Stats × Outcome → Prop
  | reached (queued : m.front? ≠ none) (steps : L ≤ st.steps) :
    Within L m st ({ st with stepLimitHit := true }, .over)
  | going {st' : Stats} {o : Outcome} (before : m.front? = none ∨ st.steps < L) (steps : st'.steps ≤ L)
    (hit : st'.stepLimitHit = st.stepLimitHit) : Within L m st (st', o)

theorem turn_within (h : ∀ i, (normal i).Moves Heeds) (limited : m.config.stepLimit = some L)
    (steps : st.steps ≤ L) (run : turn normal st m = .ok r m') :
    Within L m st r ∧ m'.config = m.config := by
  obtain ⟨st', o⟩ := r
  refine ⟨?_, (turn_charges h run).2⟩
  cases front : m.front? with
  | none =>
    cases (turn_idle front st).symm.trans run
    exact .going (.inl front) steps rfl
  | some f =>
    cases slice : nextSlice? m.config st with
    | none =>
      cases (turn_limit front slice).symm.trans run
      exact .reached (by rw [front]; exact Option.some_ne_none f) ((nextSlice_none limited).mp slice)
    | some k =>
      have unlimited : ∀ L' ∈ (none : Option Nat), L ≤ L' := fun L' mem => absurd mem (Option.not_mem_none L')
      obtain ⟨below, fits, -⟩ := nextSlice_withLimit limited unlimited slice
      rw [turn_front front slice] at run
      obtain ⟨i, ending, m₁, -, reduced, charged, hit, -⟩ := reduceFront_charges run
      have heeds : Heeds { m with slice := .ofSteps k } m₁ := by
        rcases catching_ok reduced with run | ⟨stop, run⟩
        · exact (h i).ok run
        · exact (h i).error run
      obtain ⟨left, -, spent⟩ := heeds.spends k rfl
      have used : left + m₁.slice.used = k + 0 := spent
      exact .going (.inr below) (by omega) hit

/-! ## Two runs side by side -/

/-- The same machine, but for the step limit and the slice. -/
def Alike (limit : Option Nat) (m n : Machine) : Prop :=
  ∃ slice, n = { m.withLimit limit with slice := slice }

/-- The same outcome, on machines that are the same but for the step limit and the slice. -/
inductive Agree {α : Type} (limit : Option Nat) :
    EStateM.Result Stop Machine α → EStateM.Result Stop Machine α → Prop
  | ok {a : α} {m n : Machine} (alike : Alike limit m n) : Agree limit (.ok a m) (.ok a n)
  | error {stop : Stop} {m n : Machine} (alike : Alike limit m n) :
    Agree limit (.error stop m) (.error stop n)

/-- The reduction of the front frame in the next turn comes to the same with another step limit for the
searches that it runs, as long as its own slice is not cut short. -/
def Insensitive (normal : NodeId → Eff Unit) (limit : Option Nat) (st : Stats) (m : Machine) : Prop :=
  ∀ f steps i, m.front? = some f → nextSlice? m.config st = some steps → f.node = some i →
    ∀ d, ¬ (0 < d ∧ Refused (normal i { m with slice := .ofSteps steps })) →
      normal i ({ m with slice := .ofSteps steps }.eased (Config.withLimit limit) d) =
        carry (eased (Config.withLimit limit) d) (normal i { m with slice := .ofSteps steps })

/-- A turn with a limit against one with a higher limit, or none: the limit is reached before it, or is
used up by it, or makes no difference to it. -/
inductive Abreast (limit : Option Nat) (L : Nat) (m : Machine) (st : Stats) :
    EStateM.Result Stop Machine (Stats × Outcome) → EStateM.Result Stop Machine (Stats × Outcome) → Prop
  | reached {two : EStateM.Result Stop Machine (Stats × Outcome)} :
    Abreast limit L m st (.ok ({ st with stepLimitHit := true }, .over) m) two
  | cut {st' : Stats} {m' : Machine} {two : EStateM.Result Stop Machine (Stats × Outcome)}
    (steps : st'.steps = L) (queued : m'.front? ≠ none) : Abreast limit L m st (.ok (st', .again) m') two
  | same {one two : EStateM.Result Stop Machine (Stats × Outcome)} (agree : Agree limit one two) :
    Abreast limit L m st one two

theorem agree_eased {α : Type} (result : EStateM.Result Stop Machine α) :
    Agree limit result (carry (eased (Config.withLimit limit) d) result) := by
  cases result with
  | ok a m => exact .ok ⟨_, rfl⟩
  | error stop m => exact .error ⟨_, rfl⟩

theorem turn_abreast (h : ∀ i, (normal i).Moves Heeds) (limited : m.config.stepLimit = some L)
    (le : ∀ L' ∈ limit, L ≤ L') (insensitive : Insensitive normal limit st m) (alike : Alike limit m n) :
    Abreast limit L m st (turn normal st m) (turn normal st n) := by
  obtain ⟨slice, rfl⟩ := alike
  let n : Machine := { m.withLimit limit with slice := slice }
  cases front : m.front? with
  | none =>
    rw [turn_idle front, turn_idle (m := n) front]
    exact .same (.ok ⟨slice, rfl⟩)
  | some f =>
    cases next : nextSlice? m.config st with
    | none =>
      rw [turn_limit front next]
      exact .reached
    | some steps =>
      obtain ⟨below, fits, d, next', ends⟩ := nextSlice_withLimit limited le next
      have two : turn normal st n = reduceFront normal f.node st
          ({ m with slice := .ofSteps steps }.eased (Config.withLimit limit) d) :=
        turn_front (m := n) front next'
      rw [turn_front front next]
      by_cases cut : ∃ i, f.node = some i ∧ 0 < d ∧ Refused (normal i { m with slice := .ofSteps steps })
      · -- the slice is used up and the frame is sent to the back
        obtain ⟨i, node, longer, m₁, preempted, empty⟩ := cut
        have heeds : Heeds { m with slice := .ofSteps steps } m₁ := (h i).error preempted
        obtain ⟨left, some_, spent⟩ := heeds.spends steps rfl
        cases some_.symm.trans empty
        have used : 0 + m₁.slice.used = steps + 0 := spent
        have caught : catching (normal i) { m with slice := .ofSteps steps } = .ok .preempted m₁ := by
          unfold catching
          rw [preempted]
        rw [node, reduceFront_preempted caught]
        refine .cut ?_ ?_
        · show st.steps + m₁.slice.used = L
          have := ends longer
          omega
        · obtain ⟨f₁, front₁⟩ := heeds.isolated.front?_some (m := { m with slice := .ofSteps steps }) front
          have same : (m₁.mapInnermost fun c => c.requeue m₁.config.timeAllotment false).queue.length =
              m₁.queue.length :=
            m₁.mapInnermost_length id rfl fun c => c.requeue_length m₁.config.timeAllotment false
          intro gone
          rw [queue_of_none gone] at same
          exact absurd same.symm (queue_length_pos front₁).ne'
      · have keeps : ∀ c, (Config.withLimit limit c).timeAllotment = c.timeAllotment := fun _ => rfl
        have agrees : reduceFront normal f.node st
              ({ m with slice := .ofSteps steps }.eased (Config.withLimit limit) d) =
            carry (eased (Config.withLimit limit) d)
              (reduceFront normal f.node st { m with slice := .ofSteps steps }) :=
          reduceFront_eased keeps fun i node =>
            insensitive f steps i front next node d fun both => cut ⟨i, node, both⟩
        rw [two, agrees]
        exact .same (agree_eased _)

/-! ## Runs -/

/-- The visitor also keeps each value that it is handed, with the graph that it was found in. -/
def recording (visit : Visitor σ) : Visitor (σ × List (NodeId × TermGraph)) := fun m i (s, values) => do
  let (s, flow) ← visit m i s
  return ((s, values ++ [(i, m.toTermGraph)]), flow)

/-- A search that is about to take a turn is later about to take another one. -/
inductive Comes (normal : NodeId → Eff Unit) (visit : Visitor σ) : Stats → σ → Machine → Stats → σ →
    Machine → Prop
  | here {st : Stats} {s : σ} {m : Machine} : Comes normal visit st s m st s m
  | again {st st₁ st' : Stats} {s s' : σ} {m m₁ m' : Machine}
    (run : turn normal st m = .ok (st₁, .again) m₁) (rest : Comes normal visit st₁ s m₁ st' s' m') :
    Comes normal visit st s m st' s' m'
  | more {st st₁ st' : Stats} {s s₁ s' : σ} {m m₁ m' : Machine} {i : NodeId}
    (run : turn normal st m = .ok (st₁, .value i) m₁) (seen : visit m₁ i s = .ok (s₁, .more))
    (rest : Comes normal visit st₁ s₁ (m₁.mapInnermost Computation.dropFront) st' s' m') :
    Comes normal visit st s m st' s' m'

/-- A frame is queued, and the steps that were taken are all that the limit allows. -/
def Full (L : Nat) (st : Stats) (m : Machine) : Prop := m.front? ≠ none ∧ st.steps = L

/-- The search is at some time about to take another turn with its limit used up. -/
def Exhausts (normal : NodeId → Eff Unit) (visit : Visitor σ) (L : Nat) (st : Stats) (s : σ) (m : Machine) :
    Prop := ∃ st' s' m', Comes normal visit st s m st' s' m' ∧ Full L st' m'

section Exhausts

variable {s s₁ : σ} {st₁ : Stats} {m₁ : Machine} {i : NodeId}

theorem exhausts_over (run : turn normal st m = .ok (st₁, .over) m₁) :
    Exhausts normal visit L st s m ↔ Full L st m := by
  constructor
  · rintro ⟨st', s', m', comes, full⟩
    cases comes with
    | here => exact full
    | again run' => cases run.symm.trans run'
    | more run' => cases run.symm.trans run'
  · exact fun full => ⟨st, s, m, .here, full⟩

theorem exhausts_again (run : turn normal st m = .ok (st₁, .again) m₁) (left : ¬ Full L st m) :
    Exhausts normal visit L st s m ↔ Exhausts normal visit L st₁ s m₁ := by
  constructor
  · rintro ⟨st', s', m', comes, full⟩
    cases comes with
    | here => exact absurd full left
    | again run' rest =>
      cases run.symm.trans run'
      exact ⟨st', s', m', rest, full⟩
    | more run' => cases run.symm.trans run'
  · rintro ⟨st', s', m', comes, full⟩
    exact ⟨st', s', m', .again run comes, full⟩

theorem exhausts_more (run : turn normal st m = .ok (st₁, .value i) m₁)
    (seen : visit m₁ i s = .ok (s₁, .more)) (left : ¬ Full L st m) :
    Exhausts normal visit L st s m ↔
      Exhausts normal visit L st₁ s₁ (m₁.mapInnermost Computation.dropFront) := by
  constructor
  · rintro ⟨st', s', m', comes, full⟩
    cases comes with
    | here => exact absurd full left
    | again run' => cases run.symm.trans run'
    | more run' seen' rest =>
      cases run.symm.trans run'
      cases seen.symm.trans seen'
      exact ⟨st', s', m', rest, full⟩
  · rintro ⟨st', s', m', comes, full⟩
    exact ⟨st', s', m', .more run seen comes, full⟩

theorem not_exhausts_enough (run : turn normal st m = .ok (st₁, .value i) m₁)
    (seen : visit m₁ i s = .ok (s₁, .enough)) (left : ¬ Full L st m) :
    ¬ Exhausts normal visit L st s m := by
  rintro ⟨st', s', m', comes, full⟩
  cases comes with
  | here => exact left full
  | again run' => cases run.symm.trans run'
  | more run' seen' =>
    cases run.symm.trans run'
    cases seen.symm.trans seen'

end Exhausts

/-- A turn that does not hit the limit begins with some of it left, unless there is nothing to be done. -/
theorem Within.left {st₁ : Stats} (h : Within L m st (st₁, o)) (unhit : st₁.stepLimitHit = false) :
    st₁.steps ≤ L ∧ ¬ Full L st m := by
  cases h with
  | reached => cases unhit
  | going before steps =>
    refine ⟨steps, fun ⟨queued, used⟩ => ?_⟩
    rcases before with idle | below
    · exact queued idle
    · omega

theorem Within.unhit {st₁ : Stats} (h : Within L m st (st₁, o)) (going : o ≠ .over) :
    st₁.stepLimitHit = st.stepLimitHit := by
  cases h with
  | reached => exact absurd rfl going
  | going _ _ hit => exact hit

/-- A search with a limit never exceeds it, and says that it has hit it if and only if it was about to
take another turn with the limit used up. -/
theorem takeTurns_within (h : ∀ i, (normal i).Moves Heeds) (turns : Nat) :
    ∀ (st : Stats) (s : σ) (m : Machine), m.config.stepLimit = some L → st.steps ≤ L →
      st.stepLimitHit = false → ∀ last m', (takeTurns normal visit turns st s m).ending = .ok last m' →
        last.steps ≤ L ∧ (last.stepLimitHit = true ↔ Exhausts normal visit L st s m) := by
  induction turns with
  | zero =>
    intro st s m _ _ _ last m' ended
    cases ended
  | succ turns ih =>
    intro st s m limited steps unhit last m' ended
    unfold takeTurns at ended
    cases run : turn normal st m with
    | error stop m₁ =>
      rw [run] at ended
      cases ended
    | ok r m₁ =>
      obtain ⟨st₁, o⟩ := r
      rw [run] at ended
      obtain ⟨inside, config⟩ := turn_within h limited steps run
      cases o with
      | «over» =>
        cases ended
        rw [exhausts_over run]
        cases inside with
        | reached queued used => exact ⟨steps, iff_of_true rfl ⟨queued, le_antisymm steps used⟩⟩
        | going before fits hit =>
          have unhit₁ := hit.trans unhit
          have left := (Within.going (o := .over) before fits hit).left unhit₁
          exact ⟨fits, iff_of_false (Bool.eq_false_iff.mp unhit₁) left.2⟩
      | again =>
        have unhit₁ := (inside.unhit Outcome.noConfusion).trans unhit
        obtain ⟨fits, left⟩ := inside.left unhit₁
        rw [exhausts_again run left]
        exact ih st₁ s m₁ (config ▸ limited) fits unhit₁ last m' ended
      | value i =>
        have unhit₁ := (inside.unhit Outcome.noConfusion).trans unhit
        obtain ⟨fits, left⟩ := inside.left unhit₁
        dsimp only at ended
        cases seen : visit m₁ i s with
        | error e =>
          rw [seen] at ended
          cases ended
        | ok answer =>
          obtain ⟨s₁, flow⟩ := answer
          rw [seen] at ended
          cases flow with
          | more =>
            rw [exhausts_more run seen left]
            refine ih st₁ s₁ _ ?_ fits unhit₁ last m' ended
            rw [mapInnermost_config, config]
            exact limited
          | enough =>
            cases ended
            exact ⟨fits, iff_of_false (Bool.eq_false_iff.mp unhit₁) (not_exhausts_enough run seen left)⟩

/-! ## A run and a longer one -/

/-- A run with a limit against one with a higher limit, or none: it comes to the same, or it hits the limit,
or the bound on its turns, with no value that the other run has not found too. -/
inductive Curtails (limit : Option Nat) (one two : Found (σ × List (NodeId × TermGraph))) : Prop
  | same (gathered : two.gathered = one.gathered) (agree : Agree limit one.ending two.ending)
  | short (values : one.gathered.2 <+: two.gathered.2)
    (hit : ∀ last m', one.ending = .ok last m' → last.stepLimitHit = true)
    (stopped : ∀ stop m', one.ending = .error stop m' → stop = .outOfFuel)

theorem Alike.mapInnermost (h : Alike limit m n) (f : Computation → Computation) :
    Alike limit (m.mapInnermost f) (n.mapInnermost f) := by
  obtain ⟨slice, rfl⟩ := h
  refine ⟨slice, ?_⟩
  cases searches : m.computations with
  | nil => simp only [Machine.mapInnermost, withLimit, searches]
  | cons c outer => simp only [Machine.mapInnermost, withLimit, searches]

/-- A visitor that looks neither at the configuration nor at the slice sees the same. -/
theorem recording_alike (blind : Blind visit) (h : Alike limit m n) (i : NodeId)
    (s : σ × List (NodeId × TermGraph)) : recording visit n i s = recording visit m i s := by
  obtain ⟨slice, rfl⟩ := h
  have looks : visit { m.withLimit limit with slice := slice } = visit m := blind m _ _
  simp only [recording, looks]
  rfl

/-- Recorded values stay. -/
theorem takeTurns_records (turns : Nat) : ∀ (st : Stats) (s : σ × List (NodeId × TermGraph)) (m : Machine),
    s.2 <+: (takeTurns normal (recording visit) turns st s m).gathered.2 := by
  induction turns with
  | zero => exact fun _ _ _ => List.prefix_rfl
  | succ turns ih =>
    intro st s m
    unfold takeTurns
    cases run : turn normal st m with
    | error stop m₁ => exact List.prefix_rfl
    | ok r m₁ =>
      obtain ⟨st₁, o⟩ := r
      cases o with
      | «over» => exact List.prefix_rfl
      | again => exact ih st₁ s m₁
      | value i =>
        obtain ⟨s, values⟩ := s
        dsimp only [recording]
        cases visit m₁ i s with
        | error e => exact List.prefix_rfl
        | ok answer =>
          obtain ⟨s₁, flow⟩ := answer
          have longer : values <+: values ++ [(i, m₁.toTermGraph)] := List.prefix_append _ _
          cases flow with
          | more => exact longer.trans (ih st₁ (s₁, values ++ [(i, m₁.toTermGraph)]) _)
          | enough => exact longer

/-- There is no other turn once the limit is used up. -/
theorem takeTurns_full {s : σ} (limited : m.config.stepLimit = some L) (full : Full L st m) (turns : Nat) :
    takeTurns normal visit turns st s m = ⟨s, .error .outOfFuel m⟩ ∨
      takeTurns normal visit turns st s m = ⟨s, .ok { st with stepLimitHit := true } m⟩ := by
  cases turns with
  | zero => exact .inl rfl
  | succ turns =>
    obtain ⟨queued, used⟩ := full
    obtain ⟨f, front⟩ := Option.ne_none_iff_exists'.mp queued
    refine .inr ?_
    unfold takeTurns
    rw [turn_limit front ((nextSlice_none limited).mpr used.ge)]

theorem takeTurns_curtails (h : ∀ i, (normal i).Moves Heeds) (blind : Blind visit)
    (le : ∀ L' ∈ limit, L ≤ L') (turns : Nat) :
    ∀ (st : Stats) (s : σ × List (NodeId × TermGraph)) (m n : Machine), m.config.stepLimit = some L →
      (∀ st' s' m', Comes normal (recording visit) st s m st' s' m' → Insensitive normal limit st' m') →
      Alike limit m n → Curtails limit (takeTurns normal (recording visit) turns st s m)
        (takeTurns normal (recording visit) turns st s n) := by
  induction turns with
  | zero => exact fun st s m n _ _ alike => .same rfl (.error alike)
  | succ turns ih =>
    intro st s m n limited insensitive alike
    have later : ∀ {r m₁}, turn normal st m = .ok r m₁ → m₁.config.stepLimit = some L := fun {r _} run => by
      obtain ⟨st₁, o⟩ := r
      rw [(turn_charges h run).2, limited]
    have abreast := turn_abreast h limited le (insensitive st s m .here) alike
    have records : s.2 <+: (takeTurns normal (recording visit) (turns + 1) st s n).gathered.2 :=
      takeTurns_records (turns + 1) st s n
    cases run : turn normal st m with
    | error stop m₁ =>
      rw [run] at abreast
      cases abreast with
      | same agree =>
        cases run' : turn normal st n with
        | ok r n₁ =>
          rw [run'] at agree
          cases agree
        | error stop' n₁ =>
          rw [run'] at agree
          cases agree with
          | error alike₁ =>
            unfold takeTurns
            rw [run, run']
            exact .same rfl (.error alike₁)
    | ok r m₁ =>
      rw [run] at abreast
      have limited₁ := later run
      cases abreast with
      | reached =>
        have one : takeTurns normal (recording visit) (turns + 1) st s m =
            ⟨s, .ok { st with stepLimitHit := true } m⟩ := by
          unfold takeTurns
          rw [run]
        rw [one]
        exact .short records (fun last m' same => by cases same; rfl) fun _ _ same => by cases same
      | @cut st₁ _ _ used queued =>
        have one : takeTurns normal (recording visit) (turns + 1) st s m =
            takeTurns normal (recording visit) turns st₁ s m₁ := by
          rw [takeTurns, run]
        rcases takeTurns_full limited₁ ⟨queued, used⟩ turns with full | full
        · rw [one, full]
          exact .short records (fun _ _ same => by cases same) fun _ _ same => by cases same; rfl
        · rw [one, full]
          exact .short records (fun last m' same => by cases same; rfl) fun _ _ same => by cases same
      | same agree =>
        cases run' : turn normal st n with
        | error stop' n₁ =>
          rw [run'] at agree
          cases agree
        | ok r' n₁ =>
          rw [run'] at agree
          cases agree with
          | ok alike₁ =>
            obtain ⟨st₁, o⟩ := r
            cases o with
            | «over» =>
              unfold takeTurns
              rw [run, run']
              exact .same rfl (.ok alike₁)
            | again =>
              rw [takeTurns, takeTurns, run, run']
              exact ih st₁ s m₁ n₁ limited₁ (fun st' s' m' comes => insensitive st' s' m' (.again run comes))
                alike₁
            | value i =>
              have looks : recording visit n₁ i s = recording visit m₁ i s := recording_alike blind alike₁ i s
              cases seen : recording visit m₁ i s with
              | error e =>
                unfold takeTurns
                simp only [run, run', looks, seen]
                exact .same rfl (.error alike₁)
              | ok answer =>
                obtain ⟨s₁, flow⟩ := answer
                have dropped := alike₁.mapInnermost Computation.dropFront
                cases flow with
                | enough =>
                  unfold takeTurns
                  simp only [run, run', looks, seen]
                  exact .same rfl (.ok (dropped.mapInnermost Computation.clear))
                | more =>
                  have limited₂ : (m₁.mapInnermost Computation.dropFront).config.stepLimit = some L := by
                    rw [mapInnermost_config]
                    exact limited₁
                  have rest := ih st₁ s₁ _ _ limited₂
                    (fun st' s' m' comes => insensitive st' s' m' (.more run seen comes)) dropped
                  rw [takeTurns, takeTurns]
                  simp only [run, run', looks, seen]
                  exact rest

/-! ## Searches -/

/-- The visitor of a recorded search is not disturbed by the record. -/
theorem takeTurns_recording (normal : NodeId → Eff Unit) (visit : Visitor σ) (turns : Nat) :
    ∀ (st : Stats) (s : σ) (values : List (NodeId × TermGraph)) (m : Machine), (takeTurns normal (recording visit) turns st (s, values) m).gathered.1 =
      (takeTurns normal visit turns st s m).gathered ∧
    (takeTurns normal (recording visit) turns st (s, values) m).ending =
      (takeTurns normal visit turns st s m).ending := by
  induction turns with
  | zero => exact fun _ _ _ _ => ⟨rfl, rfl⟩
  | succ turns ih =>
    intro st s values m
    unfold takeTurns
    cases run : turn normal st m with
    | error stop m₁ => exact ⟨rfl, rfl⟩
    | ok r m₁ =>
      obtain ⟨st₁, o⟩ := r
      cases o with
      | «over» => exact ⟨rfl, rfl⟩
      | again => exact ih st₁ s values m₁
      | value i =>
        dsimp only [recording]
        cases visit m₁ i s with
        | error e => exact ⟨rfl, rfl⟩
        | ok answer =>
          obtain ⟨s₁, flow⟩ := answer
          cases flow with
          | more => exact ih st₁ s₁ _ _
          | enough => exact ⟨rfl, rfl⟩

/-- What a search has found, once it is left again. -/
def leaving (m : Machine) (found : Found σ) : Found σ :=
  { found with
    ending := match found.ending with
      | .ok st m' => .ok { st with collections := m'.collections - m.collections } (leave m.slice m')
      | .error stop m' => .error stop (leave m.slice m') }

theorem evaluate_leaves (fuel : Nat) (visit : Visitor σ) (root : NodeId) (s : σ) (m : Machine) :
    m.evaluate fuel visit root s =
      leaving m (takeTurns (Reduction.normalize fuel) visit fuel {} s (enter (some root) m)) := by
  unfold Machine.evaluate search leaving
  generalize takeTurns (Reduction.normalize fuel) visit fuel {} s (enter (some root) m) = found
  obtain ⟨gathered, ending⟩ := found
  cases ending with
  | ok st m' => rfl
  | error stop m' => rfl

theorem evaluate_recording (fuel : Nat) (visit : Visitor σ) (root : NodeId) (s : σ) (m : Machine) :
    (m.evaluate fuel (recording visit) root (s, [])).gathered.1 = (m.evaluate fuel visit root s).gathered ∧
    (m.evaluate fuel (recording visit) root (s, [])).ending = (m.evaluate fuel visit root s).ending := by
  obtain ⟨gathered, ending⟩ := takeTurns_recording (Reduction.normalize fuel) visit fuel {} s []
    (enter (some root) m)
  rw [evaluate_leaves, evaluate_leaves, leaving, leaving, ending]
  exact ⟨gathered, rfl⟩

/-- Two searches side by side, once they are left again. -/
theorem Curtails.left {one two : Found (σ × List (NodeId × TermGraph))} (h : Curtails limit one two)
    (m : Machine) : (leaving m one).gathered.2 <+: (leaving (m.withLimit limit) two).gathered.2 ∧
    (∀ st m', (leaving m one).ending = .ok st m' → st.stepLimitHit = false →
      leaving (m.withLimit limit) two = ⟨(leaving m one).gathered, .ok st (m'.withLimit limit)⟩) ∧
    ∀ stop m', (leaving m one).ending = .error stop m' → stop ≠ .outOfFuel →
      leaving (m.withLimit limit) two = ⟨(leaving m one).gathered, .error stop (m'.withLimit limit)⟩ := by
  obtain ⟨gathered, ending⟩ := one
  obtain ⟨gathered', ending'⟩ := two
  cases h with
  | same gathered agree =>
    dsimp only at gathered agree
    subst gathered
    refine ⟨List.prefix_rfl, fun st m' ended _ => ?_, fun stop m' ended _ => ?_⟩
    · cases agree with
      | ok alike =>
        obtain ⟨slice, rfl⟩ := alike
        cases ended
        rfl
      | error => cases ended
    · cases agree with
      | ok => cases ended
      | error alike =>
        obtain ⟨slice, rfl⟩ := alike
        cases ended
        rfl
  | short values hit stopped =>
    refine ⟨values, fun st m' ended unhit => ?_, fun stop m' ended more => ?_⟩
    · cases ending with
      | ok last m₁ =>
        cases ended
        exact absurd (hit last m₁ rfl) (Bool.eq_false_iff.mp unhit)
      | error => cases ended
    · cases ending with
      | ok => cases ended
      | error stop m₁ =>
        cases ended
        exact absurd (stopped stop m₁ rfl) more

/-- The searches that the reduction of the front frame runs in the next turn come to the same with another
step limit. -/
def Indifferent (normal : NodeId → Eff Unit) (limit : Option Nat) (st : Stats) (m : Machine) : Prop :=
  ∀ f steps i, m.front? = some f → nextSlice? m.config st = some steps → f.node = some i →
    normal i ({ m with slice := .ofSteps steps }.withLimit limit) =
      carry (withLimit limit) (normal i { m with slice := .ofSteps steps })

theorem Indifferent.insensitive {fuel : Nat} (h : Indifferent (Reduction.normalize fuel) limit st m) :
    Insensitive (Reduction.normalize fuel) limit st m := by
  intro f steps i front slice node d enough
  have same := h f steps i front slice node
  have eases : (Reduction.normalize fuel i).Eases id d fun _ => True :=
    (Reduction.reducer_abides easing_nested fuel).normal i
  have longer := eases.same ({ m with slice := .ofSteps steps }.withLimit limit) trivial
  rw [same] at longer
  cases run : Reduction.normalize fuel i { m with slice := .ofSteps steps } with
  | ok a m₁ =>
    rw [run] at longer
    exact longer fun cut => not_refused_ok cut.2
  | error stop m₁ =>
    rw [run] at longer enough
    exact longer fun cut => enough ⟨cut.1, cut.2.elsewhere rfl⟩

theorem insensitive_of_searchFree (free : m.signature.SearchFree) (fuel : Nat) (st : Stats) :
    Insensitive (Reduction.normalize fuel) limit st m := by
  intro f steps i _ _ _ d enough
  have eases : (Reduction.normalize fuel i).Eases (Config.withLimit limit) d Signature.SearchFree :=
    (Reduction.reducer_abides easing_unnested fuel).normal i
  exact eases.same { m with slice := .ofSteps steps } free enough

theorem Comes.signature {fuel : Nat} {s s' : σ}
    (h : Comes (Reduction.normalize fuel) visit st s m st' s' m') : m'.signature = m.signature := by
  have kept : ∀ {st m r m'}, turn (Reduction.normalize fuel) st m = .ok r m' →
      m'.signature = m.signature := fun {st m r m'} run =>
    (turn_moves (R := SameSignature) (Reduction.reducer_moves SameSignature fuel).normal st).ok run
  induction h with
  | here => rfl
  | again run _ ih => exact ih.trans (kept run)
  | more run _ _ ih => exact ih.trans ((mapInnermost_signature _ _).trans (kept run))

/-- A step limit only cuts a search short. The steps that are taken do not exceed it, and it is reported as
hit if and only if another turn was about to be taken with the limit used up. Against a higher limit, or
none, the values are a prefix; and if the limit is not hit, or the search is stopped by an error, then
everything is the same, to the last node of the graph. For this the searches that functions run inside,
which have the same limit for themselves, must come to the same with the higher one. -/
theorem step_limit_cuts_short (fuel : Nat) (visit : Visitor σ) (root : NodeId) (s : σ) (m : Machine) (L : Nat)
    {limit : Option Nat} (le : ∀ L' ∈ limit, L ≤ L') :
    let start := enter (some root) (m.withLimit (some L))
    let one := (m.withLimit (some L)).evaluate fuel (recording visit) root (s, [])
    let two := (m.withLimit limit).evaluate fuel (recording visit) root (s, [])
    (∀ st m', one.ending = .ok st m' → st.steps ≤ L ∧ (st.stepLimitHit = true ↔
      Exhausts (Reduction.normalize fuel) (recording visit) L {} (s, []) start)) ∧
    (Blind visit → (m.signature.SearchFree ∨ ∀ st s' m', Comes (Reduction.normalize fuel) (recording visit) {}
        (s, []) start st s' m' → Indifferent (Reduction.normalize fuel) limit st m') →
      one.gathered.2 <+: two.gathered.2 ∧
      (∀ st m', one.ending = .ok st m' → st.stepLimitHit = false →
        two = ⟨one.gathered, .ok st (m'.withLimit limit)⟩) ∧
      ∀ stop m', one.ending = .error stop m' → stop ≠ .outOfFuel →
        two = ⟨one.gathered, .error stop (m'.withLimit limit)⟩) := by
  intro start one two
  have heeds := reducer_heeds fuel
  have limited : start.config.stepLimit = some L := rfl
  have one_eq : one = leaving (m.withLimit (some L))
      (takeTurns (Reduction.normalize fuel) (recording visit) fuel {} (s, []) start) := evaluate_leaves ..
  have two_eq : two = leaving ((m.withLimit (some L)).withLimit limit)
      (takeTurns (Reduction.normalize fuel) (recording visit) fuel {} (s, [])
        (enter (some root) (m.withLimit limit))) := evaluate_leaves ..
  rw [one_eq, two_eq]
  refine ⟨fun st m' ended => ?_, fun blind inside => ?_⟩
  · unfold leaving at ended
    dsimp only at ended
    split at ended
    · next last m₁ ended' =>
      cases ended
      exact takeTurns_within heeds fuel {} (s, []) start limited (Nat.zero_le L) rfl last m₁ ended'
    · cases ended
  · refine (takeTurns_curtails heeds blind le fuel {} (s, []) start _ limited ?_ ⟨m.slice, rfl⟩).left _
    intro st s' m' comes
    rcases inside with free | indifferent
    · exact insensitive_of_searchFree (comes.signature ▸ free) fuel st
    · exact (indifferent st s' m' comes).insensitive

/-- Four steps are enough for the first value of `1 ? (2 ? 3)` and no other. The last slice is cut to one
step, with which the second choice is not reached. -/
theorem step_limit_cuts_short_choices : ∃ m st m', Operation.Run (.ofConfig (.fixedPool 64)) m ∧
    m.signature.SearchFree ∧ (∀ L' ∈ (none : Option Nat), 4 ≤ L') ∧
    let count : Visitor Nat := fun _ _ n => .ok (n + 1, .more)
    let start := enter (some 4) (m.withLimit (some 4))
    let one := (m.withLimit (some 4)).evaluate 50 (recording count) 4 (0, [])
    let two := (m.withLimit none).evaluate 50 (recording count) 4 (0, [])
    Blind count ∧ one.ending = .ok st m' ∧ st.steps = 4 ∧ st.preemptions = 1 ∧ st.stepLimitHit = true ∧
      Exhausts (Reduction.normalize 50) (recording count) 4 {} (0, []) start ∧
      one.gathered.2 <+: two.gathered.2 ∧ one.gathered.2.map Prod.fst = [0] ∧
      two.gathered.2.map Prod.fst = [0, 1, 2] := by
  let p := Prelude.standard
  let ops : List Operation := [.int 1, .int 2, .int 3, .make p.choose [1, 2], .make p.choose [0, 3]]
  let count : Visitor Nat := fun _ _ n => .ok (n + 1, .more)
  let found : Option Nat → Machine → Found (Nat × List (NodeId × TermGraph)) := fun limit m =>
    (m.withLimit limit).evaluate 50 (recording count) 4 (0, [])
  let facts : Machine → Bool := fun m =>
    m.signature.SearchFree ∧ (found none m).gathered.2.map Prod.fst = [0, 1, 2] ∧
      (found (some 4) m).gathered.2.map Prod.fst = [0] ∧
      (returned? (found (some 4) m).ending).any fun r =>
        r.1.steps = 4 ∧ r.1.preemptions = 1 ∧ r.1.stepLimitHit = true
  have result : (Operation.script (.ofConfig (.fixedPool 64)) ops).map facts = some true := by decide +kernel
  obtain ⟨m, ran, facts⟩ := Option.map_eq_some_iff.mp result
  obtain ⟨free, all, first, ended⟩ := of_decide_eq_true facts
  obtain ⟨⟨st, m'⟩, ended, counts⟩ := (Option.any_eq_true _ _).mp ended
  obtain ⟨steps, preempted, hit⟩ := of_decide_eq_true counts
  have unlimited : ∀ L' ∈ (none : Option Nat), 4 ≤ L' := nofun
  have blind : Blind count := fun _ _ _ => rfl
  obtain ⟨within_, short⟩ := step_limit_cuts_short 50 count 4 0 m 4 unlimited
  have ends := of_returned ended
  exact ⟨m, st, m', Operation.Run.start.script ran, free, unlimited, blind, ends, steps, preempted, hit,
    (within_ st m' ends).2.mp hit, (short blind (.inl free)).1, first, all⟩

/-- `f (1 ? 2)`, where `f` counts the values of its argument. -/
def countedChoice : Except Fault Machine :=
  let f : Signature := (Signature.standard.defineFunction "f" 1 (.rule (.count 0))).2
  [Operation.int 1, .int 2, .make Prelude.standard.choose [0, 1], .make Signature.standard.size [2]].foldlM
    Operation.run { Machine.ofConfig (.fixedPool 64) with signature := f }

/-- Gathers the texts of the values. -/
def texts : Visitor (List String) := fun m i all => return (all ++ [← m.showTerm i], .more)

/-- With a limit of three steps the search for the values of the argument is cut short after the first one,
and the search around it is not. -/
theorem countedChoice_differs : ∃ m st m', countedChoice = .ok m ∧
    (m.withLimit (some 3)).evaluate 50 texts 3 [] = ⟨["1"], .ok st m'⟩ ∧ st.stepLimitHit = false ∧
    ((m.withLimit none).evaluate 50 texts 3 []).gathered = ["2"] := by
  let found : Option Nat → Machine → Found (List String) := fun limit m =>
    (m.withLimit limit).evaluate 50 texts 3 []
  let facts : Machine → Bool := fun m =>
    (found (some 3) m).gathered = ["1"] ∧ (found none m).gathered = ["2"] ∧
      (returned? (found (some 3) m).ending).any fun r => r.1.stepLimitHit = false
  have result : countedChoice.toOption.map facts = some true := by decide +kernel
  obtain ⟨m, built, facts⟩ := Option.map_eq_some_iff.mp result
  obtain ⟨one, two, ended⟩ := of_decide_eq_true facts
  obtain ⟨⟨st, m'⟩, ended, unhit⟩ := (Option.any_eq_true _ _).mp ended
  have ends := of_returned ended
  have built : countedChoice = .ok m := by
    cases same : countedChoice with
    | ok m₁ =>
      rw [same] at built
      cases built
      rfl
    | error e =>
      rw [same] at built
      cases built
  refine ⟨m, st, m', built, ?_, of_decide_eq_true unhit, two⟩
  show found (some 3) m = _
  cases whole : found (some 3) m with
  | mk gathered ending =>
    rw [whole] at one ends
    cases one
    cases ends
    rfl

/-- So a limit that is not hit may change the values, where a function runs a search of its own. -/
theorem inner_searches_are_cut : ¬ ∀ (fuel : Nat) (root : NodeId) (m : Machine) (L : Nat)
    (limit : Option Nat), (∀ L' ∈ limit, L ≤ L') →
      let one := (m.withLimit (some L)).evaluate fuel (recording texts) root ([], [])
      let two := (m.withLimit limit).evaluate fuel (recording texts) root ([], [])
      one.gathered.2 <+: two.gathered.2 ∧ ∀ st m', one.ending = .ok st m' → st.stepLimitHit = false →
        two = ⟨one.gathered, .ok st (m'.withLimit limit)⟩ := by
  intro claim
  obtain ⟨m, st, m', -, one, unhit, two⟩ := countedChoice_differs
  obtain ⟨gathered, ending⟩ := evaluate_recording 50 texts 3 [] (m.withLimit (some 3))
  obtain ⟨gathered', -⟩ := evaluate_recording 50 texts 3 [] (m.withLimit none)
  rw [one] at gathered ending
  have same := (claim 50 3 m 3 none nofun).2 st m' ending unhit
  rw [same, two, gathered] at gathered'
  exact absurd (show ["1"] = ["2"] from gathered') (by decide)

end Schedule

end ChoiceGraph
