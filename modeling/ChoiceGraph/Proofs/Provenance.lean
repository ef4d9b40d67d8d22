import ChoiceGraph.Proofs.Acyclicity
import ChoiceGraph.Proofs.Tracing

/-! # Where choices come from

A search gives identifiers to its frames only as it resolves choices, and every choice that it resolves
is there. So a machine that was new has a history of all its choices, whatever has been done with it:
identifiers were issued, each to one variable or to the descendants of one choice, and those descend
by pulls that have taken place. -/
namespace ChoiceGraph

namespace Computation

variable {c : Computation} {n : Nat} {id : ChoiceId}

theorem requeue_under (h : ∀ v ∈ c.views, v.Under n) (allotment : Nat) (suspended : Bool) :
    ∀ v ∈ (c.requeue allotment suspended).views, v.Under n := by
  cases hq : c.queue with
  | nil =>
    simp only [requeue, hq]
    exact h
  | cons f rest =>
    rw [views_cons hq] at h
    rw [requeue_views hq]
    intro v hv
    rcases List.mem_append.mp hv with hv | hv
    · exact h v (List.mem_cons_of_mem _ hv)
    · exact h v (List.mem_singleton.mp hv ▸ List.mem_cons_self)

/-- The frames that go on have decided the choice, which was issued. -/
theorem Counted.resolve_under (counted : c.Counted) (h : ∀ v ∈ c.views, v.Under n) (hid : id < n)
    (left right : Link) (allotment : Nat) :
    ∀ v ∈ (c.resolve id left right allotment).2.views, v.Under n := by
  rcases counted.resolve_views id left right allotment with
    same | dropped | ⟨w, rest, front, -, forked⟩
  · exact same ▸ h
  · rw [dropped]
    exact fun v hv => h v (List.mem_of_mem_tail hv)
  · rw [front] at h
    have parent := h w List.mem_cons_self
    rw [forked]
    intro v hv
    simp only [List.mem_append, List.mem_cons, List.not_mem_nil, or_false] at hv
    rcases hv with hv | rfl | rfl
    · exact h v (List.mem_cons_of_mem _ hv)
    · exact parent.set hid .left
    · exact parent.set hid .right

end Computation

namespace Machine

variable {m m' : Machine} {ρ : Rank} {f : Computation → Computation} {i : NodeId}

theorem mapInnermost_nextId (m : Machine) (f : Computation → Computation) :
    (m.mapInnermost f).nextId = m.nextId := by
  unfold mapInnermost
  split <;> rfl

/-- The graph has stayed, and every frame knows issued identifiers only. -/
theorem traced_of_frames (graph : m'.graph = m.graph) (nextId : m'.nextId = m.nextId)
    (frames : m.Issued → ∀ v ∈ m'.allViews, v.Under m.nextId) : m.Traced m' :=
  ⟨(Step.plain (graph ▸ .refl _) nextId.ge).stems, fun issued v hv => nextId ▸ frames issued v hv⟩

/-- The innermost search goes on with frames that know no more. -/
theorem traced_mapInnermost (h : m.Inv [] ρ) (step : ∀ c ∈ m.computations, c.Counted →
    (∀ v ∈ c.views, v.Under m.nextId) → ∀ v ∈ (f c).views, v.Under m.nextId) :
    m.Traced (m.mapInnermost f) := by
  refine traced_of_frames (mapInnermost_graph f) (mapInnermost_nextId m f) fun issued v hv => ?_
  cases hc : m.computations with
  | nil =>
    rw [mapInnermost, hc] at hv
    exact issued.frames v hv
  | cons c rest =>
    have mapped : (m.mapInnermost f).computations = f c :: rest := by rw [mapInnermost, hc]
    have known := issued.frames
    rw [allViews, hc, List.flatMap_cons] at known
    rw [allViews, mapped, List.flatMap_cons] at hv
    have mem : c ∈ m.computations := hc ▸ List.mem_cons_self
    rcases List.mem_append.mp hv with hv | hv
    · exact step c mem (h.counted c mem) (fun u hu => known u (List.mem_append_left _ hu)) v hv
    · exact known v (List.mem_append_right _ hv)

end Machine

namespace Schedule

open Eff Machine

variable {σ : Type} {m m' start : Machine} {ρ : Rank} {i : NodeId} {st : Stats} {o : Outcome}
  {normal : NodeId → Eff Unit} {visit : Visitor σ}

/-! ## Turns of the scheduler -/

theorem dropped_traced (h : m.Inv [] ρ) : m.Traced (m.mapInnermost Computation.dropFront) :=
  traced_mapInnermost h fun _ _ counted known v hv =>
    known v (List.mem_of_mem_tail (counted.dropFront_views ▸ hv))

theorem cleared_traced (h : m.Inv [] ρ) : m.Traced (m.mapInnermost Computation.clear) :=
  traced_mapInnermost h fun _ _ _ _ v hv => by
    rw [Computation.clear_views] at hv
    exact absurd hv List.not_mem_nil

theorem requeue_goes (h : m.Inv [] ρ) (suspended : Bool) : (requeue suspended).Goes Traced m :=
  traced_mapInnermost h fun _ _ _ known => Computation.requeue_under known _ _

theorem setFrontNode_goes (h : m.Inv [] ρ) (l : Link) : (setFrontNode l).Goes Traced m := by
  refine traced_mapInnermost h fun c _ _ known => ?_
  split
  · exact known
  · next f rest hq =>
    rw [Computation.setFront_views hq l f.suspended]
    exact known

theorem fork_goes (h : m.Inv [] ρ) (issued : m.Issued) {c : Content} (hc : m.graph.content? i = some c)
    (choice : c.tag = .choice) (st : Stats) : (fork i st).Goes Traced m := by
  unfold fork
  refine goes_read (TermGraph.aux_content hc) (goes_look_bind fun left _ => goes_look_bind fun right _ => ?_)
  have resolved : m.Traced (resolveFront m c.aux left right).2 := by
    unfold resolveFront
    split
    · exact refl_of Traced m
    · next d rest hd =>
      refine traced_of_frames rfl rfl fun _ v hv => ?_
      have known := issued.frames
      rw [allViews, hd, List.flatMap_cons] at known
      rw [allViews, List.flatMap_cons] at hv
      rcases List.mem_append.mp hv with hv | hv
      · exact (h.counted d (hd ▸ List.mem_cons_self)).resolve_under
          (fun u hu => known u (List.mem_append_left _ hu)) (issued.nodes i c hc (.inr choice)) left right
          _ v hv
      · exact known v (List.mem_append_right _ hv)
  have moved : (modifyGet fun m => resolveFront m c.aux left right :
      Eff Computation.Resolution).Goes Traced m := resolved
  refine moved.bind fun resolution _ _ _ => ?_
  cases resolution <;> exact goes_pure _

theorem dispatch_goes : ∀ (bound : Nat) (i : NodeId) (st : Stats) (m : Machine), m.Inv [] ρ →
    m.Issued → m.Live [] i → (dispatch bound i st).Goes Traced m := by
  intro bound
  induction bound with
  | zero => exact fun _ _ m _ _ _ => goes_throw (m := m) _
  | succ bound ih =>
    intro i st m h issued hi
    obtain ⟨c, hc, fits⟩ := h.fits i hi
    have drop : dropFront.Goes Traced m := dropped_traced h
    unfold dispatch
    refine goes_read (TermGraph.tag_content hc) ?_
    cases tag : c.tag with
    | failure => exact drop.bind fun _ _ _ _ => goes_pure _
    | operation => exact drop.bind fun _ _ _ _ => goes_pure _
    | forward =>
      obtain ⟨aux, next, rfl⟩ := fits.of_forward tag
      have live := hi.link hc List.mem_cons_self
      refine goes_read (h.read_successor (k := 0) hi hc rfl) ?_
      refine (setFrontNode_goes h (some next)).bind fun _ m₁ run tr₁ => ?_
      obtain ⟨-, h₁, live₁, -⟩ := (setFrontNode_meets (R := fun _ => True) h live).ok run
      exact goes_read rfl (ih next st m₁ h₁ (tr₁.issued issued) live₁)
    | choice => exact (fork_goes h issued hc tag st).bind fun _ _ _ _ => goes_pure _
    | constructor index => exact goes_pure _
    | free => exact goes_pure _
    | unassigned below => exact goes_throw _

theorem suspendFront_goes (h : m.Inv [] ρ) (st : Stats) : (suspendFront st).Goes Traced m := by
  unfold suspendFront
  refine (requeue_goes h true).bind fun _ m₁ run _ => goes_get ?_
  have h₁ := ((requeue_meets (R := fun _ => True) h true).ok run).inv
  have cleared : abandon.Goes Traced m₁ := cleared_traced h₁
  split
  · exact goes_pure _
  · split
    · exact cleared.bind fun _ _ _ _ => goes_pure _
    · exact goes_pure _

theorem catching_goes {body : Eff Unit} (h : body.Goes Traced m) : (catching body).Goes Traced m := by
  unfold Goes catching
  cases run : body m with
  | ok _ m' => exact h.ok run
  | error stop m' =>
    have stopped := h.error run
    cases stop <;> exact stopped

/-- What a search needs of the reduction it runs: it keeps the machine, and there is a history of it. -/
structure Traces (normal : NodeId → Eff Unit) : Prop where
  reduces : Reduces normal
  traced : ∀ m ρ i, m.Inv [] ρ → m.Live [] i → m.Issued → (normal i).Goes Traced m

theorem traces_normalize (fuel : Nat) : Traces (Reduction.normalize fuel) :=
  ⟨(Reduction.reducer_sound fuel).normal, (Reduction.reducer_traces fuel).normal⟩

theorem reduceFront_goes (traces : Traces normal) (h : m.Inv [] ρ) (issued : m.Issued)
    (rooted : some i ∈ m.rootSet) (st : Stats) : (reduceFront normal (some i) st).Goes Traced m := by
  have live : m.Live [] i := live_root rooted
  unfold reduceFront
  refine goes_read rfl ?_
  have kept : (catching (normal i)).Meets m (fun _ m' => ∃ ρ', m'.Inv [] ρ' ∧ m'.Live [] i)
      fun m' => ∃ ρ', m'.Inv [] ρ' ∧ m'.Live [] i := by
    refine catching_meets (Meets.mono (traces.reduces m ρ i h live) ?_ ?_)
    · rintro _ m' ⟨ρ', ev, -⟩
      exact ⟨ρ', ev.inv, live_root (ev.rootSet rooted)⟩
    · rintro m' ⟨ρ', ev⟩
      exact ⟨ρ', ev.inv, live_root (ev.rootSet rooted)⟩
  refine (catching_goes (traces.traced m ρ i h live issued)).bind fun ending m₁ run tr₁ => goes_get ?_
  obtain ⟨ρ₁, h₁, live₁⟩ := kept.ok run
  cases ending with
  | done => exact dispatch_goes _ i _ m₁ h₁ (tr₁.issued issued) live₁
  | preempted => exact (requeue_goes h₁ false).bind fun _ _ _ _ => goes_pure _
  | suspended => exact suspendFront_goes h₁ _

theorem turn_goes (traces : Traces normal) (h : m.Inv [] ρ) (issued : m.Issued) (st : Stats) :
    (turn normal st).Goes Traced m := by
  have idle : m.Traced m := refl_of Traced m
  unfold Goes
  rcases turn_cases normal st m with ⟨-, run⟩ | run | ⟨f, steps, front, -, run⟩
  · rw [run]
    exact idle
  · rw [run]
    exact idle
  obtain ⟨c, hc, hf⟩ := Option.bind_eq_some_iff.mp front
  have mem : c ∈ m.computations := List.mem_of_head? hc
  obtain ⟨i, node, -⟩ := (h.search mem).nodes f (List.mem_of_head? hf)
  have rooted : some i ∈ m.rootSet := List.mem_append_right _ (List.mem_flatMap.mpr
    ⟨c, mem, Computation.mem_roots.mpr ⟨f, List.mem_of_head? hf, .inl node⟩⟩)
  have same : m.Tacit { m with slice := .ofSteps steps } := tacit_of_same rfl rfl rfl
  have sliced := same.traced
  have h₁ := (quiet_count (s := .below 0) h m.nextId (.ofSteps steps)).inv
  have reduced := reduceFront_goes traces h₁ (sliced.issued issued) rooted st
  rw [run, node]
  unfold Goes at reduced
  split at reduced <;> exact trans_of Traced sliced reduced

/-! ## Whole searches -/

theorem takeTurns_goes (traces : Traces normal) (turns : Nat) : ∀ (st : Stats) (s : σ) (m : Machine),
    m.Sound → m.Issued → (takeTurns normal visit turns st s m).Moves Traced m := by
  induction turns with
  | zero => exact fun _ _ m _ _ => refl_of Traced m
  | succ turns ih =>
    rintro st s m ⟨ρ, h⟩ issued
    have turned := turn_goes traces h issued st
    have leaves := turn_meets traces.reduces h st
    -- what comes after the turn
    have later : ∀ {m₁ : Machine} {st : Stats} {s : σ}, m.Traced m₁ → m₁.Sound →
        (takeTurns normal visit turns st s m₁).Moves Traced m := by
      intro m₁ st s first sound
      have rest := ih st s m₁ sound (first.issued issued)
      unfold Found.Moves at rest ⊢
      split at rest <;> exact trans_of Traced first rest
    unfold takeTurns
    cases run : turn normal st m with
    | error stop m₁ => exact turned.error run
    | ok result m₁ =>
      obtain ⟨st₁, outcome⟩ := result
      have moved := turned.ok run
      obtain ⟨⟨ρ₁, h₁⟩, -⟩ := leaves.ok run
      have h₂ := h₁.mapInnermost fun _ _ hc => hc.dropFront
      cases outcome with
      | «over» => exact moved
      | again => exact later moved ⟨ρ₁, h₁⟩
      | value i =>
        dsimp only
        cases visit m₁ i s with
        | error e => exact moved
        | ok seen =>
          obtain ⟨s₁, flow⟩ := seen
          have left := trans_of Traced moved (dropped_traced h₁)
          cases flow with
          | more => exact later left ⟨ρ₁, h₂⟩
          | enough => exact trans_of Traced left (cleared_traced h₂)

/-- The first frame of a search knows nothing. -/
theorem enter_traced (m : Machine) (root : Link) : m.Traced (enter root m) := by
  refine traced_of_frames rfl rfl fun issued v hv => ?_
  rw [allViews, enter, List.flatMap_cons] at hv
  rcases List.mem_append.mp hv with hv | hv
  · rw [show v = ⟨.empty, .empty⟩ from List.mem_singleton.mp hv]
    exact ⟨fun _ hd => absurd hd List.not_mem_nil, ConstraintStore.empty_under _⟩
  · exact issued.frames v hv

theorem leave_traced (m : Machine) (outer : Slice) : m.Traced (leave outer m) := by
  refine traced_of_frames rfl rfl fun issued v hv => ?_
  exact issued.frames v (mem_allViews.mpr (.inr (List.mem_flatMap.mp hv)))

theorem search_goes (traces : Traces normal) (turns : Nat) (s : σ) (h : m.Sound) (issued : m.Issued)
    (hi : m.Live [] i) : (search normal turns visit (some i) s m).Moves Traced m := by
  obtain ⟨ρ, h⟩ := h
  have entered := enter_traced m (some i)
  have taken : (takeTurns normal visit turns {} s (enter (some i) m)).Moves Traced (enter (some i) m) :=
    takeTurns_goes traces turns {} s _ ⟨ρ, enter_sound h hi⟩ (entered.issued issued)
  have around : ∀ m', (enter (some i) m).Traced m' → m.Traced (leave m.slice m') := fun m' inside =>
    trans_of Traced (trans_of Traced entered inside) (leave_traced m' m.slice)
  unfold search
  unfold Found.Moves at taken ⊢
  dsimp only
  cases run : (takeTurns normal visit turns {} s (enter (some i) m)).ending with
  | ok st m' =>
    rw [run] at taken
    exact around m' taken
  | error stop m' =>
    rw [run] at taken
    exact around m' taken

/-- Every state of a search has a history from where it was entered. -/
theorem Visits.traced (h : Visits normal start st o m) (traces : Traces normal) (sound : start.Sound)
    (issued : start.Issued) : start.Traced m := by
  induction h with
  | enter => exact refl_of Traced start
  | turn h run ih =>
    obtain ⟨ρ, inv⟩ := h.sound traces.reduces sound
    exact trans_of Traced ih ((turn_goes traces inv (ih.issued issued) _).ok run)
  | drop h ih =>
    obtain ⟨ρ, inv⟩ := h.sound traces.reduces sound
    exact trans_of Traced ih (dropped_traced inv)

end Schedule

/-- The node of which an operation forces an argument at once. -/
def Operation.forces? : Operation → Option NodeId
  | headArg _ i _ | normalArg _ i _ => some i
  | _ => none

namespace Activity

open Eff Machine Reduction

variable {α : Type} {start m m' : Machine} {ρ : Rank} {log : List Event} {i j : NodeId} {c d : Content}

/-! ## Operations -/

theorem left_traced {after : α → Machine → Machine} {e : Eff α} (h : e.Goes Traced m)
    (keeps : ∀ a m, Traced m (after a m)) (run : Operation.left after (e m) = .ok m') : m.Traced m' := by
  cases ran : e m with
  | ok a m₁ =>
    rw [ran] at run
    cases run
    exact trans_of Traced (h.ok ran) (keeps a m₁)
  | error stop m₁ =>
    rw [ran] at run
    cases stop with
    | fault f => cases run
    | _ =>
      cases run
      exact h.error ran

theorem push_traced (m : Machine) (links : List Link) : m.Traced (m.push links) := by
  have same : m.Tacit (m.push links) := tacit_of_same rfl rfl rfl
  exact same.traced

theorem rooted_traced {e : Eff NodeId} (h : e.Goes Traced m) (run : Operation.run.rooted m e = .ok m') :
    m.Traced m' :=
  have keeps : ∀ i (m : Machine), m.Traced (m.push [some i]) :=
    fun i m => push_traced m [some i]
  left_traced h keeps run

theorem plain_traced {e : Eff α} (h : e.Goes Traced m) (run : Operation.run.plain m e = .ok m') :
    m.Traced m' :=
  left_traced h (fun _ m => refl_of Traced m) run

theorem withRoots_traced {e : Eff α} (issued : m.Issued)
    (h : Issued (m.push [some i]) → e.Goes Traced (m.push [some i])) :
    (withRoots [some i] e).Goes Traced m :=
  withRoots_goes (fun _ _ => Tacit.traced) (h ((push_traced m _).issued issued))

theorem evaluated_traced {σ : Type} {found : Schedule.Found σ} (h : found.Moves Traced m)
    (run : Operation.left (fun _ m => m) found.ending = .ok m') : m.Traced m' := by
  unfold Schedule.Found.Moves at h
  cases ended : found.ending with
  | ok st m₁ =>
    rw [ended] at run h
    cases run
    exact h
  | error stop m₁ =>
    rw [ended] at run h
    cases stop with
    | fault f => cases run
    | _ =>
      cases run
      exact h

theorem ordinary_of_tag (h : m.tag i ≠ .ok .choice) (hc : m.graph.content? i = some c) :
    c.tag ≠ .choice := by
  intro choice
  exact h (choice ▸ TermGraph.tag_content hc)

/-- An operation on a sound machine, told of all that it does. An argument is forced at a node that is no
choice. -/
theorem operation_traced (h : m.Sound) (issued : m.Issued) (op : Operation) (applies : op.Applies m)
    (proper : ∀ i ∈ op.forces?, m.tag i ≠ .ok .choice) (run : op.run m = .ok m') : m.Traced m' := by
  obtain ⟨ρ, h⟩ := h
  cases op with
  | int v => exact rooted_traced (makeData_goes h (by decide) _ _) run
  | float v => exact rooted_traced (makeData_goes h (by decide) _ _) run
  | char v => exact rooted_traced (makeData_goes h (by decide) _ _) run
  | fail =>
    have made : (make Builtin.fail ([].map some)).Goes Traced m :=
      make_goes h (fun _ hj => absurd hj List.not_mem_nil) (by decide)
    exact rooted_traced made run
  | forward i =>
    have made : (make Builtin.forward ([i].map some)).Goes Traced m :=
      make_goes h (fun _ hj => List.mem_singleton.mp hj ▸ live_iff.mpr applies) (by decide)
    exact rooted_traced made run
  | choice l r =>
    exact rooted_traced (makeChoice_goes h (live_iff.mpr applies.1) (live_iff.mpr applies.2)) run
  | free type => exact rooted_traced (makeFree_goes h type) run
  | functionValue id => exact rooted_traced (makeFunctionValue_goes h id) run
  | make id ls =>
    obtain ⟨sym, found, proper, -, live⟩ := applies
    exact rooted_traced (make_goes h (fun j hj => live_iff.mpr (live j hj))
      (Builtin.other_of_proper (h.signature.le_of_proper found proper))) run
  | headStep fuel i =>
    exact plain_traced (headStep_goes (reducer_traces fuel) h issued (live_iff.mpr applies)) run
  | normalStep fuel i =>
    exact plain_traced (normalStep_goes (reducer_traces fuel) h issued (live_iff.mpr applies)) run
  | headArg fuel i k =>
    have live := live_iff.mpr applies.1
    obtain ⟨sym, symbol, lt⟩ := applies.2
    obtain ⟨c, t, hc, hk⟩ := h.argument live symbol lt
    exact plain_traced (withRoots_traced issued fun issued => headArg_goes (reducer_traces fuel)
      ((h.pushed live).site (live_pushed live) hc) issued (ordinary_of_tag (proper i rfl) hc) hk) run
  | normalArg fuel i k =>
    have live := live_iff.mpr applies.1
    obtain ⟨sym, symbol, lt⟩ := applies.2
    obtain ⟨c, t, hc, hk⟩ := h.argument live symbol lt
    exact plain_traced (withRoots_traced issued fun issued => normalArg_goes (reducer_traces fuel)
      ((h.pushed live).site (live_pushed live) hc) issued (ordinary_of_tag (proper i rfl) hc) hk) run
  | normalize fuel i =>
    have live := live_iff.mpr applies
    exact plain_traced (withRoots_traced issued fun issued =>
      (reducer_traces fuel).normal _ ρ i (h.pushed live) (live_pushed live) issued) run
  | headNormalize fuel i =>
    have live := live_iff.mpr applies
    exact plain_traced (withRoots_traced issued fun issued =>
      (reducer_traces fuel).head _ ρ i (h.pushed live) (live_pushed live) issued) run
  | evaluate fuel visit i s =>
    exact evaluated_traced (Schedule.search_goes (Schedule.traces_normalize fuel) fuel s ⟨ρ, h⟩ issued
      (live_iff.mpr applies.1)) run
  | collect => exact plain_traced (collect_tacit h).traced run
  | root i =>
    cases run
    exact push_traced m _
  | unroot =>
    cases run
    have same : m.Tacit (m.pop 1) := tacit_of_same rfl rfl rfl
    exact same.traced
  | defineType name constructors =>
    cases run
    have same : m.Tacit { m with signature := (m.signature.defineType name constructors).2.2 } :=
      tacit_of_same rfl rfl rfl
    exact same.traced
  | defineFunction name arity head =>
    cases run
    have same : m.Tacit { m with signature := (m.signature.defineFunction name arity head).2 } :=
      tacit_of_same rfl rfl rfl
    exact same.traced

/-! ## Chronicles -/

/-- The node above which an activity may pull a choice at once. -/
def above? : Activity → Option NodeId
  | operation op => op.forces?
  | pullTab root _ | pullBind root _ => some root
  | narrow _ => none

/-- No choice is pulled above a choice. -/
def Proper (m : Machine) (a : Activity) : Prop := ∀ i ∈ a.above?, m.tag i ≠ .ok .choice

/-- A machine that proper activities lead to, or that a search hands to its visitor on the way. -/
inductive Proceeds (start : Machine) : Machine → Prop where
  | start : Proceeds start start
  | perform {m m' : Machine} (a : Activity) (h : Proceeds start m) (applies : a.Applies m)
    (proper : a.Proper m) (run : a.run m = .ok m') : Proceeds start m'
  | visit {m m' : Machine} {fuel : Nat} {root : NodeId} {st : Stats} {o : Schedule.Outcome}
    (h : Proceeds start m) (reachable : m.Reachable root)
    (visits : Schedule.Visits (Reduction.normalize fuel) (Schedule.enter (some root) m) st o m') :
    Proceeds start m'

/-- The same, with a history of each activity and of each way into a search. -/
inductive Chronicle (start : Machine) : List Event → Machine → Prop where
  | start : Chronicle start [] start
  | perform {log events : List Event} {m m' : Machine} (a : Activity) (h : Chronicle start log m)
    (applies : a.Applies m) (proper : a.Proper m) (run : a.run m = .ok m')
    (history : m.History events m') : Chronicle start (log ++ events) m'
  | visit {log events : List Event} {m m' : Machine} {fuel : Nat} {root : NodeId} {st : Stats}
    {o : Schedule.Outcome} (h : Chronicle start log m) (reachable : m.Reachable root)
    (visits : Schedule.Visits (Reduction.normalize fuel) (Schedule.enter (some root) m) st o m')
    (history : m.History events m') : Chronicle start (log ++ events) m'

theorem run_traced (h : m.Sound) (issued : m.Issued) (a : Activity) (applies : a.Applies m)
    (proper : a.Proper m) (run : a.run m = .ok m') : m.Traced m' := by
  cases a with
  | operation op => exact operation_traced h issued op applies proper run
  | pullTab root k =>
    obtain ⟨ρ, h⟩ := h
    obtain ⟨live, c, p, symbol, id, left, right, hc, below⟩ := choiceBelow h applies
    exact plain_traced (pullTab_goes h live hc (ordinary_of_tag (proper root rfl) hc) below) run
  | pullBind root k =>
    obtain ⟨ρ, h⟩ := h
    obtain ⟨live, c, p, symbol, id, left, right, hc, below⟩ := choiceBelow h applies
    exact plain_traced (pullBind_goes h issued live hc (ordinary_of_tag (proper root rfl) hc) below
      (h.site live hc).loose) run
  | narrow var =>
    obtain ⟨ρ, h⟩ := h
    obtain ⟨reachable, tag⟩ := applies
    have live := live_iff.mpr reachable
    obtain ⟨c, hc, -⟩ := h.fits var live
    have free := Except.ok.inj ((TermGraph.tag_content (t := m.toTermGraph) hc).symm.trans tag)
    exact plain_traced (narrow_goes h issued live hc free) run

theorem Proceeds.reaches (h : Proceeds start m) : Reaches start m := by
  induction h with
  | start => exact .start
  | perform a _ applies _ run ih => exact .perform a ih applies run
  | visit _ reachable visits ih => exact .visit ih reachable visits

theorem visit_traced {fuel : Nat} {root : NodeId} {st : Stats} {o : Schedule.Outcome} (h : m.Sound)
    (issued : m.Issued) (reachable : m.Reachable root)
    (visits : Schedule.Visits (Reduction.normalize fuel) (Schedule.enter (some root) m) st o m') :
    m.Traced m' := by
  obtain ⟨ρ, h⟩ := h
  have entered := Schedule.enter_traced m (some root)
  exact trans_of Traced entered (visits.traced (Schedule.traces_normalize fuel)
    ⟨ρ, Schedule.enter_sound h (live_iff.mpr reachable)⟩ (entered.issued issued))

theorem Proceeds.script {ops : List Operation} (h : Proceeds start m) (free : ∀ op ∈ ops, op.forces? = none)
    (ran : Operation.script m ops = some m') : Proceeds start m' := by
  induction ops generalizing m with
  | nil =>
    cases ran
    exact h
  | cons op ops ih =>
    obtain ⟨m₁, applies, first, rest⟩ := Operation.script_cons ran
    have proper : (operation op).Proper m := fun i hi => by
      rw [above?, free op List.mem_cons_self] at hi
      cases hi
    exact ih (.perform (.operation op) h applies proper first)
      (fun op' h' => free op' (List.mem_cons_of_mem _ h')) rest

/-- However a machine has come about, there is a chronicle of it. -/
theorem Proceeds.chronicle (h : Proceeds start m) (sound : start.Sound) (issued : start.Issued) :
    m.Issued ∧ ∃ log, Chronicle start log m := by
  induction h with
  | start => exact ⟨issued, [], .start⟩
  | perform a h applies proper run ih =>
    obtain ⟨issued, log, chronicle⟩ := ih
    have traced := run_traced (h.reaches.sound sound) issued a applies proper run
    obtain ⟨events, history⟩ := traced.stems
    exact ⟨traced.issued issued, _, .perform a chronicle applies proper run history⟩
  | visit h reachable visits ih =>
    obtain ⟨issued, log, chronicle⟩ := ih
    have traced := visit_traced (h.reaches.sound sound) issued reachable visits
    obtain ⟨events, history⟩ := traced.stems
    exact ⟨traced.issued issued, _, .visit chronicle reachable visits history⟩

theorem Chronicle.history (h : Chronicle start log m) : start.History log m := by
  induction h with
  | start => exact .start
  | perform _ _ _ _ _ history ih => exact ih.trans history
  | visit _ _ _ history ih => exact ih.trans history

theorem new_unnamed {config : Config} (new : Machine.new config = .ok start) :
    ∀ i c, start.graph.content? i = some c → ¬ c.Named := by
  rw [ofConfig_of_new new]
  intro i c hc
  rw [Graph.extend_new (Nat.zero_le i) hc]
  exact Content.blank_not_named

theorem new_issued {config : Config} (new : Machine.new config = .ok start) : start.Issued := by
  refine ⟨(genealogy_of_unnamed (new_unnamed new)).issued, ?_⟩
  rw [ofConfig_of_new new]
  exact fun v hv => absurd hv List.not_mem_nil

/-- Whatever has been done with a new machine, no identifier stands for two things. Identifiers that
nodes carry and frames know were issued; each is that of one variable, or of ordinary choices, or of
choices that were one variable. There is a chronicle in which all choices of one identifier descend
from one that was made, by pulls that have taken place: each left one choice between two copies of the
node above it, with the alternatives there were before in place of the choice. -/
theorem identifiers_never_confused {config : Config} (new : Machine.new config = .ok start)
    (proceeds : Proceeds start m) :
    m.Issued ∧
    (∀ i j c d, m.graph.content? i = some c → m.graph.content? j = some d → c.tag = .free →
      d.tag = .free → c.aux = d.aux → i = j) ∧
    (∀ i j c d, m.graph.content? i = some c → m.graph.content? j = some d → c.tag = .choice →
      c.symbol = Builtin.choice → d.tag = .free ∨ d.tag = .choice ∧ d.symbol = Builtin.narrowed →
      c.aux ≠ d.aux) ∧
    ∃ log, Chronicle start log m ∧
      (∀ e ∈ log, ∃ earlier later before after,
        start.History earlier before ∧ before.Step [e] after ∧ after.History later m) ∧
      ((origins log).map Fork.id).Nodup ∧
      ∀ i j c d, m.graph.content? i = some c → m.graph.content? j = some d → c.tag = .choice →
        d.tag = .choice → c.aux = d.aux → ∃ f ∈ origins log, ∃ g g', c = g.content ∧ d = g'.content ∧
          f.Descends log g ∧ f.Descends log g' := by
  obtain ⟨issued, log, chronicle⟩ := proceeds.chronicle (Machine.new_sound new) (new_issued new)
  have history := chronicle.history
  have genealogy := history.genealogy (new_unnamed new)
  exact ⟨issued, genealogy.single, fun _ _ _ _ => genealogy.apart, log, chronicle,
    fun _ => history.took_place, genealogy.once, fun _ _ _ _ => genealogy.kindred⟩

/-- The choice in `1 + (2 ? 3)` is pulled above the sum: then there are two choices of one identifier,
and one of them, the first to be made, is the origin of both. -/
theorem identifiers_never_confused_sum : ∃ m, Proceeds (.ofConfig (.fixedPool 16)) m ∧
    m.graph.content? 3 = some ⟨.choice, Builtin.choice, 0, .links [1, 2]⟩ ∧
    m.graph.content? 4 = some ⟨.choice, Builtin.choice, 0, .links [5, 6]⟩ ∧
    ∃ log, Chronicle (.ofConfig (.fixedPool 16)) log m ∧ ∃ f ∈ origins log,
      f.Descends log ⟨Builtin.choice, 0, 1, 2⟩ ∧ f.Descends log ⟨Builtin.choice, 0, 5, 6⟩ := by
  let start : Machine := .ofConfig (.fixedPool 16)
  let ops : List Operation := [.int 1, .int 2, .int 3, .choice 1 2, .make Prelude.standard.add [0, 3],
    .normalize 10 4]
  have result : (Operation.script start ops).map (fun m => (m.graph.content? 3, m.graph.content? 4)) =
      some (some ⟨.choice, Builtin.choice, 0, .links [1, 2]⟩,
        some ⟨.choice, Builtin.choice, 0, .links [5, 6]⟩) := by
    decide +kernel
  obtain ⟨m, ran, facts⟩ := Option.map_eq_some_iff.mp result
  obtain ⟨lower, upper⟩ := Prod.mk.inj facts
  have new : Machine.new (.fixedPool 16) = .ok start := rfl
  have free : ∀ op ∈ ops, op.forces? = none := by simp [ops, Operation.forces?]
  have proceeds : Proceeds start m := Proceeds.start.script free ran
  obtain ⟨-, -, -, log, chronicle, -, -, kindred⟩ := identifiers_never_confused new proceeds
  obtain ⟨f, hf, g, g', below, above, descends, descends'⟩ := kindred 3 4 _ _ lower upper rfl rfl rfl
  rw [← Fork.content_inj (f := ⟨Builtin.choice, 0, 1, 2⟩) below] at descends
  rw [← Fork.content_inj (f := ⟨Builtin.choice, 0, 5, 6⟩) above] at descends'
  exact ⟨m, proceeds, lower, upper, log, chronicle, f, hf, descends, descends'⟩

end Activity

end ChoiceGraph
