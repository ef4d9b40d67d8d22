import ChoiceGraph.Proofs.Layers
import ChoiceGraph.Schedule.Lineup

/-! # Branches of a queue

A branch is what was written on a frame and on its ancestors before the forks that lead to it,
each write with the time it was made. Whatever is done to the frames of a queue, each of them
reads what its branch replays, and two of them share a cell exactly when their branches have the
same writes, that is, when neither was written since they came to share it. This holds however
the stores are laid out in memory, as long as the counts of the layout can be kept. -/
namespace ChoiceGraph

/-! ## What was written -/

inductive Post
  | bind (x y : BoundVar) (isLazy : Bool)
  | tie (a b : ChoiceId)

def Post.apply : Post → ConstraintStore → ConstraintStore
  | .bind x y isLazy, s => s.bind x y isLazy
  | .tie a b, s => s.tie a b

structure Branch where
  decisions : List (Nat × ChoiceId × Side) := []
  posts : List (Nat × Post) := []

namespace Branch

/-- Replays decisions on an empty fingerprint. -/
def decided (decisions : List (Nat × ChoiceId × Side)) : Fingerprint :=
  decisions.foldl (fun v d => v.set d.2.1 d.2.2) .empty

/-- Replays posts on an empty store. -/
def posted (posts : List (Nat × Post)) : ConstraintStore :=
  posts.foldl (fun s p => p.2.apply s) .empty

/-- The branches of a queue after an act at time `now`. -/
def act (now : Nat) (bs : List Branch) : QueueAct → List Branch
  | .fork i _ _ => bs ++ bs[i]?.toList
  | .rotate => bs.tail ++ bs.head?.toList
  | .pop => bs.tail
  | .decide i id side =>
    bs.modify i fun b => { b with decisions := b.decisions ++ [(now, id, side)] }
  | .bind i x y isLazy => bs.modify i fun b => { b with posts := b.posts ++ [(now, .bind x y isLazy)] }
  | .tie i a c => bs.modify i fun b => { b with posts := b.posts ++ [(now, .tie a c)] }

/-- The branches after acts at the times from `now` on. -/
def follow (now : Nat) (bs : List Branch) : List QueueAct → List Branch
  | [] => bs
  | a :: rest => follow (now + 1) (act now bs a) rest

end Branch

/-! ## What stores read -/

namespace Entries

def addBinding (x : BoundVar) (partner : NodeId) (isLazy : Bool) (e : Entries) : Entries :=
  (Function.update e.1 x.id (e.1 x.id ++ [⟨x.node, partner, isLazy⟩]), e.2)

def addTie (a b : ChoiceId) (e : Entries) : Entries :=
  if b ∈ e.2 a then e else (e.1, Function.update e.2 a (e.2 a ++ [b]))

/-- What a post does to what is read. -/
def post : Post → Entries → Entries
  | .bind x y isLazy, e =>
    if isLazy then addBinding x y.node isLazy e
    else addBinding y x.node false (addBinding x y.node isLazy e)
  | .tie a b, e => addTie b a (addTie a b e)

end Entries

namespace ConstraintStore

theorem bindingsOf_add (bindings : List (VarId × Binding)) (ties : List (ChoiceId × ChoiceId))
    (x : VarId) (b : Binding) :
    bindingsOf ⟨bindings ++ [(x, b)], ties⟩ =
      Function.update (bindingsOf ⟨bindings, ties⟩) x (bindingsOf ⟨bindings, ties⟩ x ++ [b]) := by
  funext id
  rw [Function.update_apply]
  simp only [bindingsOf, List.filterMap_append, List.filterMap_cons, List.filterMap_nil]
  by_cases here : id = x
  · rw [if_pos here, here, if_pos rfl]
  · rw [if_neg here, if_neg (Ne.symm here), List.append_nil]

theorem partnersOf_add (bindings : List (VarId × Binding)) (ties : List (ChoiceId × ChoiceId))
    (a b : ChoiceId) :
    partnersOf ⟨bindings, ties ++ [(a, b)]⟩ =
      Function.update (partnersOf ⟨bindings, ties⟩) a (partnersOf ⟨bindings, ties⟩ a ++ [b]) := by
  funext id
  rw [Function.update_apply]
  simp only [partnersOf, List.filterMap_append, List.filterMap_cons, List.filterMap_nil]
  by_cases here : id = a
  · rw [if_pos here, here, if_pos rfl]
  · rw [if_neg here, if_neg (Ne.symm here), List.append_nil]

theorem mem_partnersOf {s : ConstraintStore} {a b : ChoiceId} :
    b ∈ s.partnersOf a ↔ (a, b) ∈ s.ties := by
  simp only [partnersOf, List.mem_filterMap, Option.ite_none_right_eq_some, Option.some.injEq]
  constructor
  · rintro ⟨p, mem, rfl, rfl⟩
    exact mem
  · exact fun mem => ⟨(a, b), mem, rfl, rfl⟩

theorem entries_addBinding (s : ConstraintStore) (x : BoundVar) (partner : NodeId) (isLazy : Bool) :
    (s.addBinding x.id { bound := x.node, partner := partner, isLazy := isLazy }).entries =
      s.entries.addBinding x partner isLazy :=
  Prod.ext (bindingsOf_add s.bindings s.ties x.id _) rfl

theorem entries_addTie (s : ConstraintStore) (a b : ChoiceId) :
    (s.addTie a b).entries = s.entries.addTie a b := by
  have asked : b ∈ s.entries.2 a ↔ (a, b) ∈ s.ties := mem_partnersOf
  by_cases found : (a, b) ∈ s.ties
  · rw [addTie, if_pos found, Entries.addTie, if_pos (asked.mpr found)]
  · rw [addTie, if_neg found, Entries.addTie, if_neg (fun mem => found (asked.mp mem))]
    exact Prod.ext rfl (partnersOf_add s.bindings s.ties a b)

theorem entries_post (s : ConstraintStore) (p : Post) :
    (p.apply s).entries = s.entries.post p := by
  cases p with
  | bind x y isLazy =>
    rw [Post.apply, bind, Entries.post]
    cases isLazy with
    | true => exact entries_addBinding s x y.node true
    | false =>
      simp only [Bool.false_eq_true, if_false]
      rw [entries_addBinding, entries_addBinding]
  | tie a b => rw [Post.apply, tie, Entries.post, entries_addTie, entries_addTie]

end ConstraintStore

/-! ## Layouts -/

/-- A layout whose counts can be kept and whose stores are written as they should be. -/
structure StoreLayout.Faithful {γ M : Type} (y : StoreLayout γ M) where
  counting : y.layer.Counting
  blank : y.layer.blank = ConstraintStore.empty.entries
  bind (x z : BoundVar) (isLazy : Bool) :
    Layer.Updates counting (y.bind x z isLazy) (Entries.post (.bind x z isLazy))
  tie (a b : ChoiceId) : Layer.Updates counting (y.tie a b) (Entries.post (.tie a b))

def StoreLayout.Faithful.flat : StoreLayout.flat.Faithful where
  counting := .plain
  blank := rfl
  bind x y isLazy := .plain fun s => s.entries_post (.bind x y isLazy)
  tie a b := .plain fun s => s.entries_post (.tie a b)

namespace Buckets

variable {β : Type}

def bucketCounting : (bucket : Layer Handle (Memory β) (List β)).Counting := .shared .plain

def directoryCounting : (directory : Layer Handle (Directories β) (Nat → List β)).Counting :=
  .shared (.keyed bucketCounting)

def counting : layer.Counting := .pair directoryCounting directoryCounting

theorem add_updates (key : Nat) (item : β) :
    Layer.Updates directoryCounting (add key item)
      (fun r => Function.update r key (r key ++ [item])) :=
  have pushed : Layer.Updates bucketCounting (push item) fun items => items ++ [item] :=
    .write (.plain fun _ => rfl)
  .write (pushed.entry key)

theorem addBinding_updates (x : BoundVar) (partner : NodeId) (isLazy : Bool) :
    Layer.Updates counting (addBinding x partner isLazy) (Entries.addBinding x partner isLazy) :=
  .onFirst (add_updates x.id _)

theorem addTie_updates (a b : ChoiceId) :
    Layer.Updates counting (addTie a b) (Entries.addTie a b) :=
  .unless (.onSecond (add_updates a b)) fun e => b ∈ e.2 a

end Buckets

def StoreLayout.Faithful.nested : StoreLayout.nested.Faithful where
  counting := Buckets.counting
  blank := rfl
  bind x y isLazy := by
    have first := Buckets.addBinding_updates x y.node isLazy
    cases isLazy with
    | true => exact first
    | false => exact first.comp (Buckets.addBinding_updates y x.node false)
  tie a b := (Buckets.addTie_updates a b).comp (Buckets.addTie_updates b a)

/-! ## One column of cells -/

/-- A write leaves the handle to go on with as the only one to its cell. -/
theorem Cells.CountedBy.written_alone {α : Type} {s : Cells α} {h : Handle} {names : List Handle}
    {f : α → α} (hs : s.CountedBy (h :: names)) : (s.write h f).1 ∉ names := by
  obtain ⟨c, hc, -, held⟩ := hs.cell List.mem_cons_self
  have one : (s.write h f).2.holders (s.write h f).1 = 1 := by
    cases Cells.write_written (f := f) hc held with
    | inPlace _ same here _ => rw [same, Cells.holders_of_cell here]
    | copied _ _ _ new _ => rw [Cells.holders_of_cell new]
  rw [(hs.write (f := f)).1, List.count_cons_self] at one
  exact List.count_eq_zero.mp (by omega)

section Tracks

variable {α L R W : Type} {y : Layer α L R} {k : y.Counting} {replay : List (Nat × W) → R}
  {now : Nat} {m : Cells α × L} {h : Handle} {log : List (Nat × W)}
  {rows rows' : List (Handle × List (Nat × W))}

/-- Handles and the writes made through them, each with its time: every handle reads what its
writes replay, and handles are the same when their writes are. -/
structure Tracks (k : y.Counting) (replay : List (Nat × W) → R) (now : Nat) (m : Cells α × L)
    (rows : List (Handle × List (Nat × W))) : Prop where
  fits : k.shared.Fits m (rows.map Prod.fst)
  reads : ∀ r ∈ rows, y.shared.view m r.1 = replay r.2
  same : ∀ r ∈ rows, ∀ r' ∈ rows, r.1 = r'.1 ↔ r.2 = r'.2
  past : ∀ r ∈ rows, ∀ e ∈ r.2, e.1 < now

namespace Tracks

theorem perm (t : Tracks k replay now m rows) (p : rows.Perm rows') : Tracks k replay now m rows' where
  fits := k.shared.perm (p.map _) t.fits
  reads r hr := t.reads r (p.mem_iff.mpr hr)
  same r hr r' hr' := t.same r (p.mem_iff.mpr hr) r' (p.mem_iff.mpr hr')
  past r hr := t.past r (p.mem_iff.mpr hr)

theorem later (t : Tracks k replay now m rows) : Tracks k replay (now + 1) m rows :=
  { t with past := fun r hr e he => Nat.lt_succ_of_lt (t.past r hr e he) }

/-- A fork shares the cell and starts with the same writes. -/
theorem fork (t : Tracks k replay now m rows) (mem : (h, log) ∈ rows) :
    Tracks k replay now (y.shared.share h m) ((h, log) :: rows) := by
  have shared := k.shared.share t.fits (List.mem_map_of_mem mem)
  have old : ∀ r ∈ (h, log) :: rows, r ∈ rows := fun r hr =>
    (List.mem_cons.mp hr).elim (fun e => e ▸ mem) id
  exact
    { fits := shared.fits
      reads := fun r hr =>
        (shared.same r.1 (List.mem_map_of_mem (old r hr))).trans (t.reads r (old r hr))
      same := fun r hr r' hr' => t.same r (old r hr) r' (old r' hr')
      past := fun r hr => t.past r (old r hr) }

theorem pop (t : Tracks k replay now m ((h, log) :: rows)) :
    Tracks k replay now (y.shared.drop h m) rows where
  fits := (k.shared.drop t.fits).fits
  reads r hr := ((k.shared.drop t.fits).same r.1 (List.mem_map_of_mem hr)).trans
    (t.reads r (List.mem_cons_of_mem _ hr))
  same r hr r' hr' := t.same r (List.mem_cons_of_mem _ hr) r' (List.mem_cons_of_mem _ hr')
  past r hr := t.past r (List.mem_cons_of_mem _ hr)

/-- A write leaves its handle alone on its cell, and its time is in no other row. -/
theorem write {f : α → L → α × L} {g : R → R} {w : W} (u : Layer.Updates k f g)
    (replayed : replay (log ++ [(now, w)]) = g (replay log))
    (t : Tracks k replay now m ((h, log) :: rows)) :
    Tracks k replay (now + 1) (y.write f h m).2 (((y.write f h m).1, log ++ [(now, w)]) :: rows) := by
  have updated := (u.write).step t.fits
  have alone : ∀ r ∈ rows, r.1 ≠ (y.write f h m).1 := by
    obtain ⟨c, hc, -⟩ := t.fits.1.cell List.mem_cons_self
    intro r hr same
    simp only [Layer.write, hc] at same
    have held : r.1 ∈ rows.map Prod.fst := List.mem_map_of_mem hr
    rw [same] at held
    exact t.fits.1.written_alone held
  have unstamped : ∀ r ∈ rows, r.2 ≠ log ++ [(now, w)] := by
    intro r hr same
    have mem : (now, w) ∈ r.2 := same ▸ List.mem_append_right log List.mem_cons_self
    exact Nat.lt_irrefl now (t.past r (List.mem_cons_of_mem _ hr) (now, w) mem)
  refine ⟨updated.fits, fun r hr => ?_, fun r hr r' hr' => ?_, fun r hr e he => ?_⟩
  · rcases List.mem_cons.mp hr with rfl | hr
    · rw [u.write.view t.fits, replayed, t.reads _ List.mem_cons_self]
    · exact (updated.same r.1 (List.mem_map_of_mem hr)).trans
        (t.reads r (List.mem_cons_of_mem _ hr))
  · rcases List.mem_cons.mp hr with rfl | hr <;> rcases List.mem_cons.mp hr' with rfl | hr'
    · exact iff_of_true rfl rfl
    · exact iff_of_false (alone r' hr').symm (unstamped r' hr').symm
    · exact iff_of_false (alone r hr) (unstamped r hr)
    · exact t.same r (List.mem_cons_of_mem _ hr) r' (List.mem_cons_of_mem _ hr')
  · rcases List.mem_cons.mp hr with rfl | hr
    · rcases List.mem_append.mp he with he | he
      · exact Nat.lt_succ_of_lt (t.past _ List.mem_cons_self e he)
      · rw [List.mem_singleton.mp he]
        exact Nat.lt_succ_self now
    · exact Nat.lt_succ_of_lt (t.past r (List.mem_cons_of_mem _ hr) e he)

end Tracks

end Tracks

/-! ## The queue -/

namespace Lineup

variable {γ M : Type} {y : StoreLayout γ M} {q : Lineup γ M} {now : Nat}
  {rows rows' : List (Frame × Branch)}

def fingerprintCounting : fingerprintLayer.Counting := .plain

/-- The entries a branch's posts replay. -/
def entriesPosted (posts : List (Nat × Post)) : Entries := (Branch.posted posts).entries

/-- The cells of both kinds follow the branches. -/
structure Columns (faithful : y.Faithful) (fingerprints : Cells Fingerprint × Unit)
    (stores : Cells γ × M) (now : Nat) (rows : List (Frame × Branch)) : Prop where
  decisions : Tracks fingerprintCounting Branch.decided now fingerprints
    (rows.map fun r => (r.1.fingerprint, r.2.decisions))
  posts : Tracks faithful.counting entriesPosted now stores
    (rows.map fun r => (r.1.constraints, r.2.posts))

/-- The frames of the queue beside their branches. -/
structure Follows (faithful : y.Faithful) (q : Lineup γ M) (now : Nat)
    (rows : List (Frame × Branch)) : Prop where
  queue : q.queue = rows.map Prod.fst
  columns : Columns faithful q.fingerprints q.stores now rows

theorem decided_snoc (log : List (Nat × ChoiceId × Side)) (id : ChoiceId) (side : Side) :
    Branch.decided (log ++ [(now, id, side)]) = (Branch.decided log).set id side := by
  rw [Branch.decided, List.foldl_append]
  rfl

theorem entriesPosted_snoc (log : List (Nat × Post)) (p : Post) :
    entriesPosted (log ++ [(now, p)]) = Entries.post p (entriesPosted log) := by
  rw [entriesPosted, entriesPosted, Branch.posted, List.foldl_append]
  exact ConstraintStore.entries_post _ p

variable {faithful : y.Faithful} {fingerprints : Cells Fingerprint × Unit} {stores : Cells γ × M}
  {f : Frame} {b : Branch}

namespace Columns

theorem perm (t : Columns faithful fingerprints stores now rows) (p : rows.Perm rows') :
    Columns faithful fingerprints stores now rows' :=
  ⟨t.decisions.perm (p.map _), t.posts.perm (p.map _)⟩

theorem later (t : Columns faithful fingerprints stores now rows) :
    Columns faithful fingerprints stores (now + 1) rows :=
  ⟨t.decisions.later, t.posts.later⟩

theorem fork (t : Columns faithful fingerprints stores now rows) (mem : (f, b) ∈ rows)
    (node : Link) (allotment : Nat) :
    Columns faithful (fingerprintLayer.shared.share f.fingerprint fingerprints)
      (y.layer.shared.share f.constraints stores) now
      (({ f with node := node, allotment := allotment, suspended := false }, b) :: rows) :=
  ⟨t.decisions.fork (List.mem_map_of_mem mem), t.posts.fork (List.mem_map_of_mem mem)⟩

theorem pop (t : Columns faithful fingerprints stores now ((f, b) :: rows)) :
    Columns faithful (fingerprintLayer.shared.drop f.fingerprint fingerprints)
      (y.layer.shared.drop f.constraints stores) now rows :=
  ⟨t.decisions.pop, t.posts.pop⟩

theorem decide (t : Columns faithful fingerprints stores now ((f, b) :: rows)) (id : ChoiceId)
    (side : Side) :
    let written := fingerprintLayer.write (fun v l => (v.set id side, l)) f.fingerprint fingerprints
    Columns faithful written.2 stores (now + 1)
      (({ f with fingerprint := written.1 },
        { b with decisions := b.decisions ++ [(now, id, side)] }) :: rows) :=
  have update : Layer.Updates fingerprintCounting (fun v l => (v.set id side, l))
    fun v => v.set id side := .plain fun _ => rfl
  ⟨t.decisions.write update (decided_snoc b.decisions id side), t.posts.later⟩

theorem post {update : γ → M → γ × M} {p : Post}
    (u : Layer.Updates faithful.counting update (Entries.post p))
    (t : Columns faithful fingerprints stores now ((f, b) :: rows)) :
    let written := y.layer.write update f.constraints stores
    Columns faithful fingerprints written.2 (now + 1)
      (({ f with constraints := written.1 },
        { b with posts := b.posts ++ [(now, p)] }) :: rows) :=
  ⟨t.decisions.later, t.posts.write u (entriesPosted_snoc b.posts p)⟩

end Columns

theorem start_follows (faithful : y.Faithful) (root : Link) (allotment : Nat) :
    ∃ f, (start y root allotment).Follows faithful 0 [(f, {})] := by
  have decisions := fingerprintCounting.shared.fresh fingerprintCounting.shared.bare
  have posts := faithful.counting.shared.fresh faithful.counting.shared.bare
  refine ⟨_, rfl, ⟨decisions.fits, ?_, ?_, ?_⟩, ⟨posts.fits, ?_, ?_, ?_⟩⟩
  all_goals simp only [List.map_cons, List.map_nil, List.mem_singleton, forall_eq, List.not_mem_nil,
    false_implies, implies_true]
  · exact fingerprintCounting.shared.blank fingerprintCounting.shared.bare
  · exact (faithful.counting.shared.blank faithful.counting.shared.bare).trans faithful.blank

/-- Replacing the row at position `i`, once the columns follow the rows with the new one in front. -/
theorem follows_set {i : Nat} {row : Frame × Branch} (found : rows[i]? = some (f, b))
    (queue : q.queue = (rows.map Prod.fst).set i row.1)
    (columns : Columns faithful q.fingerprints q.stores now (row :: rows.eraseIdx i)) :
    q.Follows faithful now (rows.set i row) := by
  obtain ⟨lt, -⟩ := List.getElem?_eq_some_iff.mp found
  exact ⟨by rw [queue, List.map_set], columns.perm (List.set_perm_cons_eraseIdx lt row).symm⟩

theorem perm_of_getElem? {i : Nat} {row : Frame × Branch} (found : rows[i]? = some row) :
    rows.Perm (row :: rows.eraseIdx i) := by
  obtain ⟨lt, here⟩ := List.getElem?_eq_some_iff.mp found
  have moved := List.getElem_cons_eraseIdx_perm lt
  rw [here] at moved
  exact moved.symm

theorem branches_none {i : Nat} (missing : rows[i]? = none) (g : Branch → Branch) :
    (rows.map Prod.snd).modify i g = rows.map Prod.snd := by
  rw [List.modify_eq_set_getElem?, List.getElem?_map, missing]
  rfl

theorem branches_set {i : Nat} {row : Frame × Branch} {g : Branch → Branch}
    (found : rows[i]? = some (f, b)) (changed : row.2 = g b) :
    (rows.set i row).map Prod.snd = (rows.map Prod.snd).modify i g := by
  rw [List.modify_eq_set_getElem?, List.getElem?_map, found, List.map_set, changed]
  rfl

theorem updateFingerprint_follows (t : q.Follows faithful now rows) (i : Nat) (id : ChoiceId)
    (side : Side) :
    ∃ rows', (q.updateFingerprint i fun v => v.set id side).Follows faithful (now + 1) rows' ∧
      rows'.map Prod.snd = (rows.map Prod.snd).modify i fun b =>
        { b with decisions := b.decisions ++ [(now, id, side)] } := by
  simp only [updateFingerprint, t.queue, List.getElem?_map]
  cases found : rows[i]? with
  | none => exact ⟨rows, ⟨t.queue, t.columns.later⟩, (branches_none found _).symm⟩
  | some row =>
    have columns := (t.columns.perm (perm_of_getElem? found)).decide id side
    exact ⟨_, follows_set found rfl columns, branches_set found rfl⟩

theorem updateStore_follows (t : q.Follows faithful now rows) (i : Nat) {update : γ → M → γ × M}
    {p : Post} (u : Layer.Updates faithful.counting update (Entries.post p)) :
    ∃ rows', (q.updateStore y i update).Follows faithful (now + 1) rows' ∧
      rows'.map Prod.snd = (rows.map Prod.snd).modify i fun b =>
        { b with posts := b.posts ++ [(now, p)] } := by
  simp only [updateStore, t.queue, List.getElem?_map]
  cases found : rows[i]? with
  | none => exact ⟨rows, ⟨t.queue, t.columns.later⟩, (branches_none found _).symm⟩
  | some row =>
    have columns := (t.columns.perm (perm_of_getElem? found)).post u
    exact ⟨_, follows_set found rfl columns, branches_set found rfl⟩

/-- One act on the queue is one act on the branches. -/
theorem act_follows (t : q.Follows faithful now rows) (a : QueueAct) :
    ∃ rows', (q.act y a).Follows faithful (now + 1) rows' ∧
      rows'.map Prod.snd = Branch.act now (rows.map Prod.snd) a := by
  cases a with
  | fork i node allotment =>
    simp only [act, t.queue, Branch.act, List.getElem?_map]
    cases found : rows[i]? with
    | none => exact ⟨rows, ⟨t.queue, t.columns.later⟩, (List.append_nil _).symm⟩
    | some row =>
      have columns := t.columns.fork (List.mem_of_getElem? found) node allotment
      have back := columns.perm (List.perm_append_singleton _ rows).symm
      simp only [Option.map_some]
      exact ⟨_, ⟨by simp only [List.map_append, List.map_cons, List.map_nil], back.later⟩,
        List.map_append⟩
  | rotate =>
    cases rows with
    | nil =>
      simp only [act, t.queue]
      exact ⟨[], ⟨t.queue, t.columns.later⟩, rfl⟩
    | cons row rest =>
      simp only [act, t.queue, List.map_cons]
      have back := t.columns.perm (List.perm_append_singleton row rest).symm
      exact ⟨rest ++ [row], ⟨by simp only [List.map_append, List.map_cons, List.map_nil], back.later⟩,
        List.map_append⟩
  | pop =>
    cases rows with
    | nil =>
      simp only [act, t.queue]
      exact ⟨[], ⟨t.queue, t.columns.later⟩, rfl⟩
    | cons row rest =>
      simp only [act, t.queue]
      exact ⟨rest, ⟨rfl, t.columns.pop.later⟩, rfl⟩
  | decide i id side => exact updateFingerprint_follows t i id side
  | bind i x z isLazy => exact updateStore_follows t i (faithful.bind x z isLazy)
  | tie i a b => exact updateStore_follows t i (faithful.tie a b)

theorem run_follows (t : q.Follows faithful now rows) (acts : List QueueAct) :
    ∃ rows', (q.run y acts).Follows faithful (now + acts.length) rows' ∧
      rows'.map Prod.snd = Branch.follow now (rows.map Prod.snd) acts := by
  induction acts generalizing q now rows with
  | nil => exact ⟨rows, t, rfl⟩
  | cons a rest ih =>
    obtain ⟨rows', t', branches⟩ := act_follows t a
    obtain ⟨rows'', t'', last⟩ := ih t'
    rw [branches] at last
    rw [List.length_cons, ← Nat.add_assoc, Nat.add_right_comm]
    exact ⟨rows'', t'', last⟩

/-- Every frame reads what was written on its branch, a write through it would copy exactly if
another frame has the same cell, and two frames have the same cell exactly if neither was written
since they came to share it. -/
structure Isolated (y : StoreLayout γ M) (q : Lineup γ M) (branches : List Branch) : Prop where
  length : q.queue.length = branches.length
  fingerprint {i : Nat} {f : Frame} {b : Branch} (frame : q.queue[i]? = some f)
    (branch : branches[i]? = some b) : q.fingerprintOf f = Branch.decided b.decisions
  entries {i : Nat} {f : Frame} {b : Branch} (frame : q.queue[i]? = some f)
    (branch : branches[i]? = some b) : q.entriesOf y f = (Branch.posted b.posts).entries
  fingerprint_copied {i : Nat} {f : Frame} (frame : q.queue[i]? = some f) :
    q.fingerprints.1.needsCopy f.fingerprint = true ↔
      ∃ j g, j ≠ i ∧ q.queue[j]? = some g ∧ g.fingerprint = f.fingerprint
  store_copied {i : Nat} {f : Frame} (frame : q.queue[i]? = some f) :
    q.stores.1.needsCopy f.constraints = true ↔
      ∃ j g, j ≠ i ∧ q.queue[j]? = some g ∧ g.constraints = f.constraints
  fingerprint_shared {i j : Nat} {f g : Frame} {b c : Branch} (frame : q.queue[i]? = some f)
    (frame' : q.queue[j]? = some g) (branch : branches[i]? = some b) (branch' : branches[j]? = some c) :
    f.fingerprint = g.fingerprint ↔ b.decisions = c.decisions
  store_shared {i j : Nat} {f g : Frame} {b c : Branch} (frame : q.queue[i]? = some f)
    (frame' : q.queue[j]? = some g) (branch : branches[i]? = some b) (branch' : branches[j]? = some c) :
    f.constraints = g.constraints ↔ b.posts = c.posts

/-- A cell is copied exactly if its handle is held at another position as well. -/
theorem needsCopy_iff {α : Type} {s : Cells α} {handle : Frame → Handle} {queue : List Frame}
    (counted : s.CountedBy (queue.map handle)) {i : Nat} (frame : queue[i]? = some f) :
    s.needsCopy (handle f) = true ↔
      ∃ j g, j ≠ i ∧ queue[j]? = some g ∧ handle g = handle f := by
  obtain ⟨lt, here⟩ := List.getElem?_eq_some_iff.mp frame
  have split := (List.getElem_cons_eraseIdx_perm lt).symm.map handle
  rw [here, List.map_cons] at split
  rw [Cells.needsCopy, decide_eq_true_eq, counted, split.count_eq, List.count_cons_self,
    Nat.lt_add_left_iff_pos, List.count_pos_iff, List.mem_map]
  constructor
  · rintro ⟨g, mem, same⟩
    obtain ⟨j, other, found⟩ := List.mem_eraseIdx_iff_getElem?.mp mem
    exact ⟨j, g, other, found, same⟩
  · rintro ⟨j, g, other, found, same⟩
    exact ⟨g, List.mem_eraseIdx_iff_getElem?.mpr ⟨j, other, found⟩, same⟩

theorem Follows.isolated (t : q.Follows faithful now rows) : q.Isolated y (rows.map Prod.snd) := by
  -- a frame and the branch at its position are in one row
  have row : ∀ {i : Nat} {f : Frame} {b : Branch}, q.queue[i]? = some f →
      (rows.map Prod.snd)[i]? = some b → (f, b) ∈ rows := by
    intro i f b frame branch
    rw [t.queue, List.getElem?_map, Option.map_eq_some_iff] at frame
    obtain ⟨r, found, rfl⟩ := frame
    rw [List.getElem?_map, found] at branch
    cases branch
    exact List.mem_of_getElem? found
  have named : ∀ {W : Type} (handle : Frame → Handle) (log : Branch → List (Nat × W)),
      (rows.map fun r => (handle r.1, log r.2)).map Prod.fst = q.queue.map handle := by
    intro W handle log
    rw [t.queue, List.map_map, List.map_map]
    rfl
  have fingerprints : q.fingerprints.1.CountedBy (q.queue.map Frame.fingerprint) :=
    named Frame.fingerprint Branch.decisions ▸ t.columns.decisions.fits.1
  have stores : q.stores.1.CountedBy (q.queue.map Frame.constraints) :=
    named Frame.constraints Branch.posts ▸ t.columns.posts.fits.1
  exact
    { length := by rw [t.queue, List.length_map, List.length_map]
      fingerprint := fun frame branch =>
        t.columns.decisions.reads _ (List.mem_map_of_mem (row frame branch))
      entries := fun frame branch =>
        t.columns.posts.reads _ (List.mem_map_of_mem (row frame branch))
      fingerprint_copied := needsCopy_iff fingerprints
      store_copied := needsCopy_iff stores
      fingerprint_shared := fun frame frame' branch branch' =>
        t.columns.decisions.same _ (List.mem_map_of_mem (row frame branch)) _
          (List.mem_map_of_mem (row frame' branch'))
      store_shared := fun frame frame' branch branch' =>
        t.columns.posts.same _ (List.mem_map_of_mem (row frame branch)) _
          (List.mem_map_of_mem (row frame' branch')) }

theorem run_isolated (faithful : y.Faithful) (root : Link) (allotment : Nat)
    (acts : List QueueAct) :
    ((start y root allotment).run y acts).Isolated y (Branch.follow 0 [{}] acts) := by
  obtain ⟨f, begun⟩ := start_follows faithful root allotment
  obtain ⟨rows, t, branches⟩ := run_follows begun acts
  rw [show Branch.follow 0 [{}] acts = rows.map Prod.snd from branches.symm]
  exact t.isolated

end Lineup

/-! ## Running searches -/

namespace Computation

theorem write_flat {α R : Type} {start : α} {read : α → R} (update : α → α) (h : Handle)
    (cells : Cells α) :
    (Layer.plain start read).write (fun a l => (update a, l)) h (cells, ()) =
      ((cells.write h update).1, (cells.write h update).2, ()) := by
  simp only [Layer.write, Cells.write]
  cases hc : cells.cell? h with
  | none => rfl
  | some c => by_cases several : 1 < c.holders <;> simp only [several, if_true, if_false]

theorem lineup_act (c : Computation) (a : QueueAct) :
    (c.act a).lineup = c.lineup.act .flat a := by
  cases a with
  | fork i node allotment =>
    simp only [act, Lineup.act, lineup]
    cases c.queue[i]? <;> rfl
  | rotate =>
    simp only [act, rotate, Lineup.act, lineup]
    cases hq : c.queue <;> simp only [hq]
  | pop =>
    simp only [act, dropFront, Lineup.act, lineup]
    cases hq : c.queue with
    | nil => simp only [hq]
    | cons f rest => rfl
  | decide i id side =>
    simp only [act, updateFingerprint, Lineup.act, Lineup.updateFingerprint, lineup]
    cases hq : c.queue[i]? with
    | none => rfl
    | some f =>
      simp only [writeFingerprint, putFrame, Lineup.fingerprintLayer, write_flat]
  | bind i x y isLazy =>
    simp only [act, updateConstraints, Lineup.act, Lineup.updateStore, lineup]
    cases hq : c.queue[i]? with
    | none => rfl
    | some f => simp only [writeConstraints, putFrame, StoreLayout.flat, write_flat]
  | tie i a b =>
    simp only [act, updateConstraints, Lineup.act, Lineup.updateStore, lineup]
    cases hq : c.queue[i]? with
    | none => rfl
    | some f => simp only [writeConstraints, putFrame, StoreLayout.flat, write_flat]

theorem lineup_run (c : Computation) (acts : List QueueAct) :
    (acts.foldl act c).lineup = c.lineup.run .flat acts := by
  induction acts generalizing c with
  | nil => rfl
  | cons a rest ih => rw [List.foldl_cons, ih, lineup_act, Lineup.run, Lineup.run, List.foldl_cons]

theorem lineup_start (root : Link) (allotment : Nat) :
    (start root allotment).lineup = Lineup.start .flat root allotment := rfl

end Computation

/-- Whatever is done to the frames of a queue, they are isolated: with stores made of nested
shared cells, and in a running search, whose stores are flat. -/
theorem Lineup.frames_isolated (root : Link) (allotment : Nat) (acts : List QueueAct) :
    ((Lineup.start .nested root allotment).run .nested acts).Isolated .nested
        (Branch.follow 0 [{}] acts) ∧
      (acts.foldl Computation.act (.start root allotment)).lineup.Isolated .flat
        (Branch.follow 0 [{}] acts) := by
  refine ⟨Lineup.run_isolated .nested root allotment acts, ?_⟩
  rw [Computation.lineup_run, Computation.lineup_start]
  exact Lineup.run_isolated .flat root allotment acts

end ChoiceGraph
