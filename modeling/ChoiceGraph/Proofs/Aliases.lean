import ChoiceGraph.Proofs.Frames
import ChoiceGraph.Sharing.Board
import Mathlib.Data.List.Induction
import Mathlib.Logic.Function.Basic

/-! # Shared cells behave as values

Names on a board may share a cell. What is read through them is what would be read if every clone were a
copy of its own. Two names share a cell exactly if both come, by clones alone, from one name, and a write
copies exactly if there is such another name. -/
namespace ChoiceGraph

/-! ## Acts -/

/-- What is done to named cells. A default cell is a new one with the default value, and a bare write
changes the value by the identity. -/
inductive BoardAct (α : Type) where
  | new (name : String) (value : α)
  | clone (name copy : String)
  | write (name : String) (f : α → α)
  | drop (name : String)

namespace BoardAct

variable {α : Type}

/-- The name whose cell is another one, or has another value, afterwards. -/
def target : BoardAct α → String
  | new name _ => name
  | clone _ copy => copy
  | write name _ => name
  | drop name => name

/-- What `y` names after the act is what `x` named before, and the act has not written it. -/
inductive Passes : BoardAct α → String → String → Prop
  | kept {act : BoardAct α} {x : String} (other : x ≠ act.target) : Passes act x x
  | cloned (x y : String) : Passes (.clone x y) x y

/-- What `y` names after these acts is what `x` named before them; it came to `y` by clones, and no act on
its way has written it. -/
inductive Descends : List (BoardAct α) → String → String → Prop
  | start (x : String) : Descends [] x x
  | step {acts : List (BoardAct α)} {act : BoardAct α} {x y z : String} (h : Descends acts x y)
    (pass : act.Passes y z) : Descends (acts ++ [act]) x z

/-- Both names descend from one cell that there was on the way. -/
def Kin (acts : List (BoardAct α)) (x y : String) : Prop :=
  ∃ before since c, acts = before ++ since ∧ Descends since c x ∧ Descends since c y

variable {acts : List (BoardAct α)} {act : BoardAct α} {x y x' y' : String}

theorem Kin.refl (acts : List (BoardAct α)) (x : String) : Kin acts x x :=
  ⟨acts, [], x, (List.append_nil acts).symm, .start x, .start x⟩

theorem Kin.step (h : Kin acts x y) (hx : act.Passes x x') (hy : act.Passes y y') :
    Kin (acts ++ [act]) x' y' := by
  obtain ⟨before, since, c, rfl, left, right⟩ := h
  exact ⟨before, since ++ [act], c, List.append_assoc before since [act], left.step hx, right.step hy⟩

end BoardAct

/-! ## Values without sharing -/

/-- Names with a value each. -/
abbrev Sheet (α : Type) := String → Option α

namespace Sheet

variable {α : Type}

def blank : Sheet α := fun _ => none

/-- A clone is a copy of the value. -/
def act? (s : Sheet α) : BoardAct α → Option (Sheet α)
  | .new name value => some (Function.update s name (some value))
  | .clone name copy => (s name).map fun value => Function.update s copy (some value)
  | .write name f => (s name).map fun value => Function.update s name (some (f value))
  | .drop name => (s name).map fun _ => Function.update s name none

def run? (s : Sheet α) (acts : List (BoardAct α)) : Option (Sheet α) := acts.foldlM act? s

end Sheet

namespace Board

variable {α : Type}

def act? (b : Board α) : BoardAct α → Option (Board α)
  | .new name value => some (b.new name value)
  | .clone name copy => b.clone? name copy
  | .write name f => b.write? name f
  | .drop name => b.drop? name

def run? (b : Board α) (acts : List (BoardAct α)) : Option (Board α) := acts.foldlM act? b

/-! ## Names and handles -/

section Names

variable {names : List (String × Handle)} {x z : String} {h : Handle}

/-- The names other than `x`. -/
def apart (x : String) (names : List (String × Handle)) : List (String × Handle) :=
  names.filter fun p => p.1 != x

theorem lookup_cons_if (names : List (String × Handle)) (y z : String) (k : Handle) :
    ((y, k) :: names).lookup z = if z = y then some k else names.lookup z := by
  rw [List.lookup_cons]
  by_cases same : z = y
  · rw [if_pos same, same, beq_self_eq_true]
  · rw [if_neg same, beq_false_of_ne same]

theorem lookup_apart (names : List (String × Handle)) (x z : String) :
    (apart x names).lookup z = if z = x then none else names.lookup z := by
  unfold apart
  induction names with
  | nil => simp
  | cons p names ih =>
    obtain ⟨y, k⟩ := p
    rw [lookup_cons_if]
    by_cases here : y = x
    · rw [List.filter_cons_of_neg (by simpa using here), ih, here]
      by_cases same : z = x
      · rw [if_pos same, if_pos same]
      · rw [if_neg same, if_neg same, if_neg same]
    · rw [List.filter_cons_of_pos (by simpa using here), lookup_cons_if, ih]
      by_cases same : z = y
      · rw [if_pos same, if_pos same, if_neg (same ▸ here)]
      · rw [if_neg same, if_neg same]

theorem lookup_rename (names : List (String × Handle)) (x z : String) (h : Handle) :
    (rename x h names).lookup z = if z = x then some h else names.lookup z := by
  show ((x, h) :: apart x names).lookup z = _
  rw [lookup_cons_if, lookup_apart]
  by_cases same : z = x
  · rw [if_pos same, if_pos same]
  · rw [if_neg same, if_neg same, if_neg same]

theorem keys_apart_nodup (distinct : (names.map Prod.fst).Nodup) : ((apart x names).map Prod.fst).Nodup :=
  distinct.sublist (List.filter_sublist.map _)

theorem keys_rename_nodup (distinct : (names.map Prod.fst).Nodup) :
    ((rename x h names).map Prod.fst).Nodup := by
  refine List.nodup_cons.mpr ⟨fun mem => ?_, keys_apart_nodup distinct⟩
  obtain ⟨p, hp, same⟩ := List.mem_map.mp mem
  have differs := (List.mem_filter.mp hp).2
  rw [same] at differs
  simp at differs

/-- The handle of a name, and those of the others. -/
theorem handles_split (distinct : (names.map Prod.fst).Nodup) (x : String) :
    (names.map Prod.snd).Perm ((names.lookup x).toList ++ (apart x names).map Prod.snd) := by
  unfold apart
  induction names with
  | nil => exact .nil
  | cons p names ih =>
    obtain ⟨y, k⟩ := p
    obtain ⟨unused, distinct⟩ := List.nodup_cons.mp distinct
    rw [lookup_cons_if]
    by_cases same : x = y
    · subst same
      have rest : names.filter (fun p => p.1 != x) = names := List.filter_eq_self.mpr fun p hp =>
        bne_iff_ne.mpr fun here => unused (List.mem_map.mpr ⟨p, hp, here⟩)
      simp [rest]
    · rw [if_neg same, List.filter_cons_of_pos (by simpa using Ne.symm same), List.map_cons, List.map_cons]
      exact ((ih distinct).cons k).trans List.perm_middle.symm

theorem mem_handles (distinct : (names.map Prod.fst).Nodup) :
    h ∈ (apart x names).map Prod.snd ↔ ∃ y, y ≠ x ∧ names.lookup y = some h := by
  constructor
  · intro mem
    obtain ⟨⟨y, k⟩, hp, rfl⟩ := List.mem_map.mp mem
    obtain ⟨before, after, same⟩ := List.append_of_mem (List.mem_filter.mp hp).1
    refine ⟨y, by simpa using (List.mem_filter.mp hp).2, List.lookup_eq_some_iff.mpr ⟨before, after, same, ?_⟩⟩
    intro p earlier
    rw [same, List.map_append, List.nodup_append] at distinct
    simpa using (distinct.2.2 p.1 (List.mem_map_of_mem earlier) y (by simp)).symm
  · rintro ⟨y, other, found⟩
    obtain ⟨before, after, rfl, -⟩ := List.lookup_eq_some_iff.mp found
    exact List.mem_map.mpr ⟨(y, h), List.mem_filter.mpr ⟨by simp, by simpa using other⟩, rfl⟩

end Names

/-! ## What an act does -/

/-- A name is bound once, and each cell has as many holders as names. -/
structure Sound (b : Board α) : Prop where
  distinct : (b.names.map Prod.fst).Nodup
  counted : b.cells.CountedBy (b.names.map Prod.snd)

variable {b b' : Board α} {x y z : String} {h k : Handle} {cells : Cells α}

theorem empty_sound : (empty : Board α).Sound := ⟨List.nodup_nil, Cells.empty_counted⟩

/-- The holders of the cell that a name has: the name, and the others that share it. -/
theorem Sound.split (s : b.Sound) (found : b.find? x = some h) :
    b.cells.CountedBy (h :: (apart x b.names).map Prod.snd) := by
  have split := handles_split s.distinct x
  rw [show b.names.lookup x = some h from found] at split
  exact s.counted.perm split

theorem find_mem (found : b.find? x = some h) : h ∈ b.names.map Prod.snd := by
  obtain ⟨before, after, same, -⟩ := List.lookup_eq_some_iff.mp found
  rw [same]
  simp

theorem Sound.value (s : b.Sound) (found : b.find? x = some h) :
    ∃ v, b.cells.read? h = some v ∧ b.read? x = some v := by
  obtain ⟨c, hc, -⟩ := s.counted.cell (find_mem found)
  have read : b.cells.read? h = some c.value := by rw [Cells.read?, hc, Option.map_some]
  exact ⟨c.value, read, by rw [read?, found, Option.bind_some, read]⟩

/-- A name that keeps its cell reads what it read, if that cell still holds it. -/
theorem read_kept (kept : b'.find? x = b.find? x)
    (there : ∀ k, b.find? x = some k → b'.cells.read? k = b.cells.read? k) : b'.read? x = b.read? x := by
  rw [read?, read?, kept]
  cases found : b.find? x with
  | none => rfl
  | some k => exact there k found

/-- What is done with a name that gets a handle already taken. -/
theorem Sound.bind (s : b.Sound) (x : String) (counted : cells.CountedBy (h :: b.names.map Prod.snd)) :
    (b.bind x h cells).Sound ∧ (∀ z, (b.bind x h cells).find? z = if z = x then some h else b.find? z) ∧
      (b.bind x h cells).read? x = cells.read? h ∧
      ∀ z k, z ≠ x → b.find? z = some k → (b.bind x h cells).cells.read? k = cells.read? k := by
  have split := handles_split s.distinct x
  have finds : ∀ z, (b.bind x h cells).find? z = if z = x then some h else b.find? z :=
    fun z => lookup_rename b.names x z h
  -- the other holders see nothing of the old cell being let go of
  have released : (b.bind x h cells).cells.CountedBy (h :: (apart x b.names).map Prod.snd) ∧
      ∀ k ∈ h :: (apart x b.names).map Prod.snd, (b.bind x h cells).cells.read? k = cells.read? k := by
    unfold Board.bind find?
    cases old : b.names.lookup x with
    | none =>
      rw [old] at split
      exact ⟨counted.perm (split.cons h), fun _ _ => rfl⟩
    | some k =>
      rw [old] at split
      exact (counted.perm ((split.cons h).trans (.swap _ _ _))).release
  refine ⟨⟨keys_rename_nodup s.distinct, released.1⟩, finds, ?_, fun z k other found => ?_⟩
  · rw [read?, finds, if_pos rfl]
    exact released.2 h List.mem_cons_self
  · exact released.2 k (List.mem_cons_of_mem _ ((mem_handles s.distinct).mpr ⟨z, other, found⟩))

/-- What an act makes of a board. A name to which no cell has passed has one of its own. -/
structure Acted (b : Board α) (act : BoardAct α) (b' : Board α) : Prop where
  sound : b'.Sound
  passed : ∀ x y, act.Passes x y → b'.find? y = b.find? x
  own : ∀ y h, (∀ x, ¬ act.Passes x y) → b'.find? y = some h → ∀ z, z ≠ y → b'.find? z ≠ some h
  reads : Sheet.act? b.read? act = some b'.read?

/-- Only the target of an act has a cell to which none has passed. -/
theorem eq_target {act : BoardAct α} (fresh : ∀ x, ¬ act.Passes x y) : y = act.target := by
  by_contra differ
  exact fresh y (.kept differ)

theorem update_read {v : Option α} (here : b'.read? x = v) (there : ∀ z, z ≠ x → b'.read? z = b.read? z) :
    Function.update b.read? x v = b'.read? := by
  funext z
  by_cases same : z = x
  · rw [same, Function.update_self, here]
  · rw [Function.update_of_ne same, there z same]

theorem Sound.new (s : b.Sound) (x : String) (v : α) : b.Acted (.new x v) (b.new x v) := by
  have unnamed : b.cells.slots.size ∉ b.names.map Prod.snd := s.counted.fresh Cells.fresh_cell
  obtain ⟨sound, finds, here, there⟩ := s.bind x (s.counted.new (v := v))
  have kept : ∀ z, z ≠ x → (b.new x v).find? z = b.find? z := fun z other => (finds z).trans (if_neg other)
  refine ⟨sound, fun y z pass => ?_, fun y h fresh found z other same => ?_, congrArg some ?_⟩
  · cases pass with
    | kept other => exact kept y other
  · obtain rfl : y = x := eq_target fresh
    rw [show (b.new y v).find? y = _ from finds y, if_pos rfl] at found
    rw [kept z other, ← found] at same
    exact unnamed (find_mem same)
  · refine update_read (here.trans ?_) fun z other => read_kept (kept z other) fun k found => ?_
    · rw [Cells.read?, Cells.cell_new_self, Option.map_some]
    · refine (there z k other found).trans (congrArg (Option.map Cell.value) (Cells.cell_new_ne ?_))
      rintro rfl
      exact unnamed (find_mem found)

theorem Sound.clone (s : b.Sound) (found : b.find? x = some h) (y : String) :
    b.Acted (.clone x y) (b.bind y h (b.cells.share h)) := by
  obtain ⟨sound, finds, here, there⟩ := s.bind y (s.counted.share (find_mem found))
  obtain ⟨v, held, value⟩ := s.value found
  have kept : ∀ z, z ≠ y → (b.bind y h (b.cells.share h)).find? z = b.find? z :=
    fun z other => (finds z).trans (if_neg other)
  refine ⟨sound, fun z z' pass => ?_, fun z k fresh => ?_, ?_⟩
  · cases pass with
    | kept other => exact kept z other
    | cloned => exact (finds y).trans ((if_pos rfl).trans found.symm)
  · obtain rfl : z = y := eq_target fresh
    exact absurd (.cloned x z) (fresh x)
  · show (b.read? x).map _ = _
    rw [value, Option.map_some]
    refine congrArg some (update_read (here.trans (Cells.share_read.trans held)) fun z other => ?_)
    exact read_kept (kept z other) fun k found => (there z k other found).trans Cells.share_read

/-- Where a write goes nobody else has a handle. -/
theorem write_unnamed {s : Cells α} {hs : List Handle} {f : α → α} (counted : s.CountedBy (h :: hs)) :
    (s.write h f).1 ∉ hs := by
  obtain ⟨c, hc, count, held⟩ := counted.cell List.mem_cons_self
  rw [List.count_cons_self] at count
  cases Cells.write_written (f := f) hc held with
  | inPlace alone same _ _ =>
    rw [same]
    intro mem
    have := List.count_pos_iff.mpr mem
    omega
  | copied _ fresh _ _ _ => exact fun mem => counted.fresh fresh (List.mem_cons_of_mem _ mem)

theorem Sound.write (s : b.Sound) (found : b.find? x = some h) (f : α → α) :
    b.Acted (.write x f)
      { cells := (b.cells.write h f).2, names := rename x (b.cells.write h f).1 b.names } := by
  have counted := s.split found
  obtain ⟨counted', here, there⟩ := counted.write (f := f)
  obtain ⟨v, held, value⟩ := s.value found
  have finds := fun z => lookup_rename b.names x z (b.cells.write h f).1
  have kept : ∀ z, z ≠ x → (rename x (b.cells.write h f).1 b.names).lookup z = b.find? z :=
    fun z other => (finds z).trans (if_neg other)
  refine ⟨⟨keys_rename_nodup s.distinct, counted'⟩, fun y z pass => ?_, fun y k fresh found' z other same => ?_,
    ?_⟩
  · cases pass with
    | kept other => exact kept y other
  · obtain rfl : y = x := eq_target fresh
    rw [find?, finds, if_pos rfl] at found'
    rw [find?, kept z other, ← found'] at same
    exact write_unnamed (f := f) counted ((mem_handles s.distinct).mpr ⟨z, other, same⟩)
  · show (b.read? x).map _ = _
    rw [value, Option.map_some]
    refine congrArg some (update_read ?_ fun z other => read_kept (kept z other) fun k found => ?_)
    · rw [read?, find?, finds, if_pos rfl, Option.bind_some, here, held, Option.map_some]
    · exact there k ((mem_handles s.distinct).mpr ⟨z, other, found⟩)

theorem Sound.drop (s : b.Sound) (found : b.find? x = some h) :
    b.Acted (.drop x) { cells := b.cells.release h, names := apart x b.names } := by
  obtain ⟨counted, there⟩ := (s.split found).release
  obtain ⟨v, -, value⟩ := s.value found
  have finds := fun z => lookup_apart b.names x z
  have kept : ∀ z, z ≠ x → (apart x b.names).lookup z = b.find? z :=
    fun z other => (finds z).trans (if_neg other)
  refine ⟨⟨keys_apart_nodup s.distinct, counted⟩, fun y z pass => ?_, fun y k fresh found' => ?_, ?_⟩
  · cases pass with
    | kept other => exact kept y other
  · obtain rfl : y = x := eq_target fresh
    rw [find?, finds, if_pos rfl] at found'
    cases found'
  · show (b.read? x).map _ = _
    rw [value, Option.map_some]
    refine congrArg some (update_read ?_ fun z other => read_kept (kept z other) fun k found => ?_)
    · rw [read?, find?, finds, if_pos rfl, Option.bind_none]
    · exact there k ((mem_handles s.distinct).mpr ⟨z, other, found⟩)

/-- An act on a board does what it does to values, and is refused where that is refused. -/
theorem Sound.act (s : b.Sound) (act : BoardAct α) :
    (∃ b', b.act? act = some b' ∧ b.Acted act b') ∨
      (b.act? act = none ∧ Sheet.act? b.read? act = none) := by
  cases act with
  | new x v => exact .inl ⟨_, rfl, s.new x v⟩
  | clone x y =>
    cases found : b.find? x with
    | none => exact .inr ⟨by simp [act?, clone?, found], by simp [Sheet.act?, read?, found]⟩
    | some h => exact .inl ⟨_, by simp [act?, clone?, found], s.clone found y⟩
  | write x f =>
    cases found : b.find? x with
    | none => exact .inr ⟨by simp [act?, write?, found], by simp [Sheet.act?, read?, found]⟩
    | some h => exact .inl ⟨_, by simp [act?, write?, found], s.write found f⟩
  | drop x =>
    cases found : b.find? x with
    | none => exact .inr ⟨by simp [act?, drop?, found], by simp [Sheet.act?, read?, found]⟩
    | some h => exact .inl ⟨_, by simp [act?, drop?, found, apart], s.drop found⟩

/-! ## Runs -/

variable {acts since : List (BoardAct α)}

theorem run_snoc (b : Board α) (acts : List (BoardAct α)) (act : BoardAct α) :
    b.run? (acts ++ [act]) = (b.run? acts).bind fun b' => b'.act? act := by
  unfold run?
  rw [List.foldlM_append]
  cases List.foldlM act? b acts <;> simp

theorem sheet_run_snoc (s : Sheet α) (acts : List (BoardAct α)) (act : BoardAct α) :
    s.run? (acts ++ [act]) = (s.run? acts).bind fun s' => s'.act? act := by
  unfold Sheet.run?
  rw [List.foldlM_append]
  cases List.foldlM Sheet.act? s acts <;> simp

/-- A board run on, and what is read from it. -/
theorem Sound.run (s : b.Sound) (acts : List (BoardAct α)) :
    (∃ b', b.run? acts = some b' ∧ b'.Sound ∧ Sheet.run? b.read? acts = some b'.read?) ∨
      (b.run? acts = none ∧ Sheet.run? b.read? acts = none) := by
  induction acts using List.reverseRecOn with
  | nil => exact .inl ⟨b, rfl, s, rfl⟩
  | append_singleton acts act ih =>
    rw [run_snoc, sheet_run_snoc]
    rcases ih with ⟨b₁, ran, sound, read⟩ | ⟨ran, read⟩
    · rw [ran, read, Option.bind_some, Option.bind_some]
      rcases sound.act act with ⟨b', acted, does⟩ | refused
      · exact .inl ⟨b', acted, does.sound, does.reads⟩
      · exact .inr refused
    · rw [ran, read]
      exact .inr ⟨rfl, rfl⟩

/-- The last act of a run, and what it does. -/
theorem Sound.run_last {act : BoardAct α} (s : b.Sound) (ran : b.run? (acts ++ [act]) = some b') :
    ∃ b₁, b.run? acts = some b₁ ∧ b₁.Sound ∧ b₁.Acted act b' := by
  rw [run_snoc] at ran
  obtain ⟨b₁, ran₁, acted⟩ := Option.bind_eq_some_iff.mp ran
  rcases s.run acts with ⟨b₂, ran₂, sound, -⟩ | ⟨none, -⟩
  · cases ran₁.symm.trans ran₂
    rcases sound.act act with ⟨b₃, acted', does⟩ | ⟨none, -⟩
    · cases acted.symm.trans acted'
      exact ⟨b₁, ran₁, sound, does⟩
    · cases acted.symm.trans none
  · cases ran₁.symm.trans none

/-- A descendant has the cell that it comes from. -/
theorem Sound.find_descends (s : b.Sound) (h : BoardAct.Descends since x y) (ran : b.run? since = some b') :
    b'.find? y = b.find? x := by
  induction h generalizing b' with
  | start =>
    cases ran
    rfl
  | step _ pass ih =>
    obtain ⟨b₁, ran₁, -, does⟩ := s.run_last ran
    exact (does.passed _ _ pass).trans (ih ran₁)

theorem Sound.find_kin (s : b.Sound) (kin : BoardAct.Kin acts x y) (ran : b.run? acts = some b') :
    b'.find? x = b'.find? y := by
  obtain ⟨before, since, c, rfl, left, right⟩ := kin
  unfold run? at ran
  rw [List.foldlM_append] at ran
  obtain ⟨b₁, ran₁, ran₂⟩ := Option.bind_eq_some_iff.mp ran
  rcases s.run before with ⟨b₂, ran', sound, -⟩ | ⟨none, -⟩
  · cases ran₁.symm.trans ran'
    exact (sound.find_descends left ran₂).trans (sound.find_descends right ran₂).symm
  · cases ran₁.symm.trans none

/-- Names that share a cell descend from one, if none had a cell at the start. -/
theorem kin_of_find (ran : (empty : Board α).run? acts = some b) (hx : b.find? x = some h)
    (hy : b.find? y = some h) : BoardAct.Kin acts x y := by
  induction acts using List.reverseRecOn generalizing b x y h with
  | nil =>
    cases ran
    cases hx
  | append_singleton acts act ih =>
    by_cases same : x = y
    · exact same ▸ .refl _ x
    · obtain ⟨b₁, ran₁, -, does⟩ := empty_sound.run_last ran
      -- both cells have passed on, since one that is its own is not shared
      have passes : ∀ z w, z ≠ w → b.find? z = some h → b.find? w = some h → ∃ v, act.Passes v z := by
        intro z w differ hz hw
        by_contra none
        exact does.own z h (fun v pass => none ⟨v, pass⟩) hz w (Ne.symm differ) hw
      obtain ⟨x', px⟩ := passes x y same hx hy
      obtain ⟨y', py⟩ := passes y x (Ne.symm same) hy hx
      exact (ih ran₁ ((does.passed _ _ px).symm.trans hx) ((does.passed _ _ py).symm.trans hy)).step px py

theorem sameCell_iff : b.sameCell? x y = some true ↔ ∃ h, b.find? x = some h ∧ b.find? y = some h := by
  unfold sameCell?
  cases b.find? x with
  | none => simp
  | some h =>
    cases b.find? y with
    | none => simp
    | some k => simp only [Option.some.injEq, beq_iff_eq, exists_eq_left', @eq_comm _ k h]

/-- A write would copy what another name shares. -/
theorem Sound.needsCopy_iff (s : b.Sound) :
    b.needsCopy x = true ↔ ∃ y, y ≠ x ∧ b.sameCell? x y = some true := by
  unfold needsCopy
  cases found : b.find? x with
  | none => simp [sameCell_iff, found]
  | some h =>
    have count := s.split found h
    rw [List.count_cons_self] at count
    have shared : b.cells.needsCopy h = true ↔ h ∈ (apart x b.names).map Prod.snd := by
      rw [Cells.needsCopy, decide_eq_true_iff, count, ← List.count_pos_iff]
      omega
    refine shared.trans ((mem_handles s.distinct).trans (exists_congr fun y => and_congr_right fun _ => ?_))
    rw [sameCell_iff, found]
    exact ⟨fun hy => ⟨h, rfl, hy⟩, fun ⟨k, hk, hy⟩ => Option.some.inj hk ▸ hy⟩

/-- Cells behave like values. A run of acts on named cells reads as the same acts on copies, and is refused
where these are. Two names share a cell exactly if they descend from one by clones that no write came
between, a write needs a copy exactly if another name shares its cell, and after it none does. -/
theorem shared_cells_are_values (acts : List (BoardAct α)) :
    ((empty : Board α).run? acts).map read? = Sheet.blank.run? acts ∧
    ∀ b, (empty : Board α).run? acts = some b →
      (∀ x y, b.sameCell? x y = some true ↔ (b.find? x).isSome = true ∧ BoardAct.Kin acts x y) ∧
      (∀ x, b.needsCopy x = true ↔ ∃ y, y ≠ x ∧ b.sameCell? x y = some true) ∧
      ∀ x f b', b.write? x f = some b' → ∀ y, y ≠ x → b'.sameCell? x y ≠ some true := by
  have start : (empty : Board α).Sound := empty_sound
  constructor
  · show _ = Sheet.run? (empty : Board α).read? acts
    rcases start.run acts with ⟨b, ran, -, read⟩ | ⟨ran, read⟩
    · rw [ran, read, Option.map_some]
    · rw [ran, read, Option.map_none]
  · intro b ran
    obtain ⟨b', ran', sound, -⟩ | ⟨none, -⟩ := start.run acts
    swap
    · cases ran.symm.trans none
    cases ran.symm.trans ran'
    refine ⟨fun x y => ?_, fun x => sound.needsCopy_iff, fun x f b' written y other same => ?_⟩
    · rw [sameCell_iff]
      constructor
      · rintro ⟨h, hx, hy⟩
        exact ⟨Option.isSome_of_eq_some hx, kin_of_find ran hx hy⟩
      · rintro ⟨bound, kin⟩
        obtain ⟨h, hx⟩ := Option.isSome_iff_exists.mp bound
        exact ⟨h, hx, (start.find_kin kin ran).symm.trans hx⟩
    · obtain ⟨h, hx, hy⟩ := sameCell_iff.mp same
      obtain ⟨b₁, acted, does⟩ | ⟨none, -⟩ := sound.act (.write x f)
      · cases written.symm.trans acted
        refine does.own x h (fun z pass => ?_) hx y other hy
        cases pass with
        | kept differ => exact differ rfl
      · cases written.symm.trans none

/-- A clone of a clone shares its cell also after the first cell was written. -/
theorem shared_cells_are_values_clones :
    let acts : List (BoardAct (List Nat)) :=
      [.new "a" [1, 2], .clone "a" "b", .clone "b" "c", .write "a" (· ++ [3]), .drop "b", .clone "c" "b"]
    ∃ b, (empty : Board (List Nat)).run? acts = some b ∧ Sheet.blank.run? acts = some b.read? ∧
      b.read? "a" = some [1, 2, 3] ∧ b.read? "b" = some [1, 2] ∧ BoardAct.Kin acts "b" "c" ∧
      ¬ BoardAct.Kin acts "a" "b" ∧ b.needsCopy "c" = true := by
  intro acts
  let facts (b : Board (List Nat)) : Bool := decide (b.read? "a" = some [1, 2, 3] ∧
    b.read? "b" = some [1, 2] ∧ b.sameCell? "b" "c" = some true ∧ b.sameCell? "a" "b" = some false ∧
    (b.find? "a").isSome = true)
  have result : ((empty : Board (List Nat)).run? acts).map facts = some true := by decide +kernel
  obtain ⟨b, ran, holds⟩ := Option.map_eq_some_iff.mp result
  obtain ⟨a, b', shared, differ, bound⟩ := of_decide_eq_true holds
  obtain ⟨reads, all⟩ := shared_cells_are_values acts
  obtain ⟨kin, copies, -⟩ := all b ran
  rw [ran] at reads
  have cells := (kin "b" "c").mp shared
  refine ⟨b, ran, reads.symm, a, b', cells.2, fun related => ?_, (copies "c").mpr ⟨"b", by decide, ?_⟩⟩
  · cases differ.symm.trans ((kin "a" "b").mpr ⟨bound, related⟩)
  · obtain ⟨h, hb, hc⟩ := sameCell_iff.mp shared
    exact sameCell_iff.mpr ⟨h, hc, hb⟩

end Board

end ChoiceGraph
