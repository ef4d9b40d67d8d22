import ChoiceGraph.Constraint.Buckets
import ChoiceGraph.Proofs.Frames
import Mathlib.Data.List.Perm.Basic

/-! # Counts in layered memory

The counts of a memory fit a list of values when every cell has as many holders as handles to it
occur in the values, in the values of the cells those handles lead to, and so on down. A way of
counting says what fits at one layer and that sharing, dropping and making values keep it; it is
built along with the layer. An update of an exclusive value then lifts through the layers: written
through a handle, under a key or beside another value, it changes what that one value reads, and
nothing else that is held reads differently. -/
namespace ChoiceGraph

namespace Cells

variable {α : Type} {s : Cells α} {h k : Handle} {c d : Cell α}

/-- The values of the cells in use. -/
def values (s : Cells α) : List α := s.slots.toList.filterMap fun x => x.map Cell.value

/-- The values of the cells in use, the one at `h` apart. -/
def others (s : Cells α) (h : Handle) : List α :=
  (s.slots.toList.eraseIdx h).filterMap fun x => x.map Cell.value

theorem toList_of_cell (hc : s.cell? h = some c) : s.slots.toList[h]? = some (some c) := by
  rw [Array.getElem?_toList]
  exact Option.join_eq_some_iff.mp hc

theorem values_set {x : Option (Cell α)} (lt : h < s.slots.size) :
    (s.set h x).values.Perm ((x.map Cell.value).toList ++ s.others h) := by
  have moved := (List.set_perm_cons_eraseIdx (l := s.slots.toList) lt x).filterMap
    fun x => x.map Cell.value
  rw [List.filterMap_cons] at moved
  unfold values set others
  rw [Array.toList_setIfInBounds]
  cases x with
  | none => exact moved
  | some c => exact moved

theorem values_of_cell (hc : s.cell? h = some c) : s.values.Perm (c.value :: s.others h) := by
  have lt : h < s.slots.toList.length := lt_of_cell hc
  have here : s.slots.toList[h] = some c := by
    have read := toList_of_cell hc
    rw [List.getElem?_eq_getElem lt] at read
    exact Option.some.inj read
  have moved := (List.getElem_cons_eraseIdx_perm lt).symm.filterMap fun x => x.map Cell.value
  rw [here] at moved
  exact moved

theorem mem_values (hc : s.cell? h = some c) : c.value ∈ s.values :=
  (values_of_cell hc).mem_iff.mpr List.mem_cons_self

theorem mem_others (hc : s.cell? k = some d) (hne : k ≠ h) : d.value ∈ s.others h :=
  List.mem_filterMap.mpr ⟨some d, List.mem_eraseIdx_iff_getElem?.mpr ⟨k, hne, toList_of_cell hc⟩, rfl⟩

theorem values_new {v : α} : (s.new v).2.values.Perm (v :: s.values) := by
  have appended : (s.new v).2.values = s.values ++ [v] := by
    simp only [values, new, Array.toList_push, List.filterMap_append]
    rfl
  rw [appended]
  exact List.perm_append_singleton v s.values

theorem values_share : (s.share h).values.Perm s.values := by
  unfold share
  split
  · next c hc => exact (values_set (lt_of_cell hc)).trans (values_of_cell hc).symm
  · exact .refl _

theorem values_release (hc : s.cell? h = some c) :
    (s.release h).values.Perm (if c.holders ≤ 1 then s.others h else s.values) := by
  simp only [release, hc]
  have moved := values_set (s := s) (h := h)
    (x := if c.holders ≤ 1 then none else some { c with holders := c.holders - 1 }) (lt_of_cell hc)
  split
  · next last =>
    rw [if_pos last] at moved
    exact moved
  · next several =>
    rw [if_neg several] at moved
    exact moved.trans (values_of_cell hc).symm

theorem values_write {f : α → α} (hc : s.cell? h = some c) :
    (s.write h f).2.values.Perm
      (f c.value :: if s.needsCopy h then s.values else s.others h) := by
  have count : s.needsCopy h = decide (1 < c.holders) := by rw [needsCopy, holders_of_cell hc]
  simp only [write, hc, count, decide_eq_true_eq]
  by_cases several : 1 < c.holders
  · rw [if_pos several, if_pos several]
    have released := values_release hc
    rw [if_neg (by omega)] at released
    exact values_new.trans (released.cons _)
  · rw [if_neg several, if_neg several]
    exact values_set (lt_of_cell hc)

end Cells

namespace Layer

variable {α β L M R S : Type}

/-- From `l` to `l'` the values `now` are new, and the values `held` are there and read as before. -/
structure Step (y : Layer α L R) (Fits : L → List α → Prop) (held : List α) (l : L) (now : List α)
    (l' : L) : Prop where
  fits : Fits l' (now ++ held)
  same : ∀ a ∈ held, y.view l' a = y.view l a

/-- What it means that the counts fit the values that are held. -/
structure Counting (y : Layer α L R) where
  Fits : L → List α → Prop
  bare : Fits y.bare []
  perm {l : L} {as bs : List α} (p : as.Perm bs) (fits : Fits l as) : Fits l bs
  fresh {l : L} {as : List α} (fits : Fits l as) : y.Step Fits as l [(y.fresh l).1] (y.fresh l).2
  blank {l : L} {as : List α} (fits : Fits l as) : y.view (y.fresh l).2 (y.fresh l).1 = y.blank
  share {l : L} {as : List α} {a : α} (fits : Fits l as) (mem : a ∈ as) :
    y.Step Fits as l [a] (y.share a l)
  drop {l : L} {as : List α} {a : α} (fits : Fits l (a :: as)) : y.Step Fits as l [] (y.drop a l)

/-- An exclusive value that reads `r` reads `g r` afterwards, and nothing else changes. -/
structure Updates {y : Layer α L R} (k : y.Counting) (f : α → L → α × L) (g : R → R) : Prop where
  step {l : L} {a : α} {as : List α} (fits : k.Fits l (a :: as)) :
    y.Step k.Fits as l [(f a l).1] (f a l).2
  view {l : L} {a : α} {as : List α} (fits : k.Fits l (a :: as)) :
    y.view (f a l).2 (f a l).1 = g (y.view l a)

section Updates

variable {y : Layer α L R} {k : y.Counting} {f f' : α → L → α × L} {g g' : R → R}

theorem Updates.comp (u : Updates k f g) (u' : Updates k f' g') :
    Updates k (fun a l => f' (f a l).1 (f a l).2) (fun r => g' (g r)) where
  step fits :=
    have first := u.step fits
    have second := u'.step first.fits
    ⟨second.fits, fun b hb => (second.same b hb).trans (first.same b hb)⟩
  view fits := by rw [u'.view (u.step fits).fits, u.view fits]

/-- An update made only if what is read asks for it. -/
theorem Updates.unless (u : Updates k f g) (p : R → Prop) [DecidablePred p] :
    Updates k (fun a l => if p (y.view l a) then (a, l) else f a l)
      (fun r => if p r then r else g r) where
  step {l a as} fits := by
    by_cases found : p (y.view l a)
    · simp only [if_pos found]
      exact ⟨fits, fun b _ => rfl⟩
    · simp only [if_neg found]
      exact u.step fits
  view {l a as} fits := by
    by_cases found : p (y.view l a)
    · simp only [if_pos found]
    · simp only [if_neg found]
      exact u.view fits

end Updates

/-! ### Values without handles -/

def Counting.plain {start : β} {read : β → R} : (plain start read).Counting where
  Fits _ _ := True
  bare := trivial
  perm _ _ := trivial
  fresh _ := ⟨trivial, fun _ _ => rfl⟩
  blank _ := rfl
  share _ _ := ⟨trivial, fun _ _ => rfl⟩
  drop _ := ⟨trivial, fun _ _ => rfl⟩

theorem Updates.plain {start : β} {read : β → R} {f : β → β} {g : R → R}
    (h : ∀ b, read (f b) = g (read b)) :
    Updates (Counting.plain : (Layer.plain start read).Counting) (fun b l => (f b, l)) g where
  step _ := ⟨trivial, fun _ _ => rfl⟩
  view _ := h _

/-! ### Values in cells -/

section Shared

variable {y : Layer α L R} {m m' : Cells α × L} {h : Handle} {hs : List Handle} {c : Cell α}

theorem view_shared (hc : m.1.cell? h = some c) : y.shared.view m h = y.view m.2 c.value := by
  simp only [Layer.shared, Cells.read?, hc, Option.map_some, Option.getD_some]

/-- What is read through a handle is the same when the value of its cell and what that value
reads are. -/
theorem view_shared_congr (hc : m.1.cell? h = some c) (cell : m'.1.read? h = m.1.read? h)
    (value : y.view m'.2 c.value = y.view m.2 c.value) :
    y.shared.view m' h = y.shared.view m h := by
  have read : m.1.read? h = some c.value := by rw [Cells.read?, hc, Option.map_some]
  simp only [Layer.shared, cell, read, Option.map_some, value]

/-- A new cell with a new value. -/
theorem shared_fresh (k : y.Counting) (fits : m.1.CountedBy hs ∧ k.Fits m.2 m.1.values) :
    y.shared.Step (fun m hs => m.1.CountedBy hs ∧ k.Fits m.2 m.1.values) hs m [(y.shared.fresh m).1]
      (y.shared.fresh m).2 := by
  have inner := k.fresh fits.2
  refine ⟨⟨fits.1.new, k.perm Cells.values_new.symm inner.fits⟩, fun h mem => ?_⟩
  obtain ⟨c, hc, -⟩ := fits.1.cell mem
  refine view_shared_congr hc ?_ (inner.same _ (Cells.mem_values hc))
  have old : h ≠ m.1.slots.size := fun e => fits.1.fresh (e ▸ Cells.fresh_cell) mem
  simp only [Layer.shared, Cells.read?, Cells.cell_new_ne old]

/-- One holder less; the last one takes the value along. -/
theorem shared_drop (k : y.Counting) (fits : m.1.CountedBy (h :: hs) ∧ k.Fits m.2 m.1.values) :
    y.shared.Step (fun m hs => m.1.CountedBy hs ∧ k.Fits m.2 m.1.values) hs m []
      (y.shared.drop h m) := by
  obtain ⟨c, hc, count, -⟩ := fits.1.cell List.mem_cons_self
  obtain ⟨counted, read⟩ := fits.1.release
  have moved := Cells.values_release hc
  simp only [Layer.shared, hc]
  by_cases last : c.holders ≤ 1
  · rw [if_pos last] at moved
    have inner := k.drop (k.perm (Cells.values_of_cell hc) fits.2)
    rw [if_pos last]
    refine ⟨⟨counted, k.perm moved.symm inner.fits⟩, fun j hj => ?_⟩
    obtain ⟨d, hd, -⟩ := fits.1.cell (List.mem_cons_of_mem h hj)
    have other : j ≠ h := by
      rintro rfl
      have := List.count_pos_iff.mpr hj
      rw [List.count_cons_self] at count
      omega
    exact view_shared_congr hd (read j hj) (inner.same _ (Cells.mem_others hd other))
  · rw [if_neg last] at moved
    rw [if_neg last]
    refine ⟨⟨counted, k.perm moved.symm fits.2⟩, fun j hj => ?_⟩
    obtain ⟨d, hd, -⟩ := fits.1.cell (List.mem_cons_of_mem h hj)
    exact view_shared_congr hd (read j hj) rfl

def Counting.shared (k : y.Counting) : y.shared.Counting where
  Fits m hs := m.1.CountedBy hs ∧ k.Fits m.2 m.1.values
  bare := ⟨Cells.empty_counted, k.bare⟩
  perm p fits := ⟨fits.1.perm p, fits.2⟩
  fresh := shared_fresh k
  blank {m hs} fits := by
    have cell : ((y.shared.fresh m).2.1).cell? (y.shared.fresh m).1 = some ⟨(y.fresh m.2).1, 1⟩ :=
      Cells.cell_new_self
    exact (view_shared cell).trans (k.blank fits.2)
  share {m hs h} fits mem := by
    refine ⟨⟨fits.1.share mem, k.perm Cells.values_share.symm fits.2⟩, fun j hj => ?_⟩
    obtain ⟨c, hc, -⟩ := fits.1.cell hj
    exact view_shared_congr hc Cells.share_read rfl
  drop := shared_drop k

theorem Updates.write {k : y.Counting} {f : α → L → α × L} {g : R → R} (u : Updates k f g) :
    Updates k.shared (y.write f) g := by
  have main : ∀ {m : Cells α × L} {h : Handle} {hs : List Handle}, k.shared.Fits m (h :: hs) →
      y.shared.Step k.shared.Fits hs m [(y.write f h m).1] (y.write f h m).2 ∧
        y.shared.view (y.write f h m).2 (y.write f h m).1 = g (y.shared.view m h) := by
    intro m h hs fits
    obtain ⟨c, hc, count, -⟩ := fits.1.cell List.mem_cons_self
    -- the memory when the update begins, and the values held beside the one it works on
    obtain ⟨l, rest, begun, begins, same, remain⟩ : ∃ l rest,
        (if m.1.needsCopy h then y.share c.value m.2 else m.2) = l ∧ k.Fits l (c.value :: rest) ∧
          (∀ a ∈ m.1.values, y.view l a = y.view m.2 a) ∧
          (if m.1.needsCopy h then m.1.values else m.1.others h) = rest := by
      by_cases several : m.1.needsCopy h = true
      · have copy := k.share fits.2 (Cells.mem_values hc)
        exact ⟨_, _, if_pos several, copy.fits, copy.same, if_pos several⟩
      · exact ⟨_, _, if_neg several, k.perm (Cells.values_of_cell hc) fits.2, fun _ _ => rfl,
          if_neg several⟩
    have updated := u.step begins
    have result : y.write f h m = ((m.1.write h fun _ => (f c.value l).1).1,
        (m.1.write h fun _ => (f c.value l).1).2, (f c.value l).2) := by
      simp only [Layer.write, hc, begun]
    obtain ⟨counted, written, read⟩ := fits.1.write (f := fun _ => (f c.value l).1)
    have values := Cells.values_write (f := fun _ => (f c.value l).1) hc
    rw [remain] at values
    rw [result]
    refine ⟨⟨⟨counted, k.perm values.symm updated.fits⟩, fun j hj => ?_⟩, ?_⟩
    · obtain ⟨d, hd, -⟩ := fits.1.cell (List.mem_cons_of_mem h hj)
      refine view_shared_congr hd (read j hj) ((updated.same _ ?_).trans (same _ (Cells.mem_values hd)))
      rw [← remain]
      split
      · exact Cells.mem_values hd
      · next alone =>
        refine Cells.mem_others hd ?_
        rintro rfl
        have := List.count_pos_iff.mpr hj
        rw [List.count_cons_self] at count
        simp only [Cells.needsCopy, Cells.holders_of_cell hc, decide_eq_true_eq] at alone
        omega
    · have old : m.1.read? h = some c.value := by rw [Cells.read?, hc, Option.map_some]
      rw [old, Option.map_some] at written
      rw [view_shared hc, ← same _ (Cells.mem_values hc), ← u.view begins]
      simp only [Layer.shared, written, Option.map_some, Option.getD_some]
  exact ⟨fun fits => (main fits).1, fun fits => (main fits).2⟩

end Shared

/-! ### Values under keys -/

section Keyed

variable {y : Layer α L R} {k : y.Counting} {l l' : L} {held : List α}

theorem view_keyed_cons (other : Nat) (a : α) (rest : List (Nat × α)) (key : Nat) :
    y.keyed.view l ((other, a) :: rest) key =
      if key = other then y.view l a else y.keyed.view l rest key := by
  simp only [Layer.keyed, List.lookup_cons]
  by_cases here : key = other
  · rw [if_pos here, beq_iff_eq.mpr here]
    rfl
  · rw [if_neg here, beq_eq_false_iff_ne.mpr here]

theorem view_keyed_congr {entries : List (Nat × α)}
    (same : ∀ a ∈ entries.map Prod.snd, y.view l' a = y.view l a) :
    y.keyed.view l' entries = y.keyed.view l entries := by
  funext key
  induction entries with
  | nil => rfl
  | cons e rest ih =>
    obtain ⟨other, a⟩ := e
    rw [view_keyed_cons, view_keyed_cons, same a List.mem_cons_self,
      ih fun b hb => same b (List.mem_cons_of_mem a hb)]

theorem share_entries {entries : List (Nat × α)} (fits : k.Fits l held)
    (sub : entries.map Prod.snd ⊆ held) :
    y.Step k.Fits held l (entries.map Prod.snd) (y.keyed.share entries l) := by
  induction entries with
  | nil => exact ⟨fits, fun _ _ => rfl⟩
  | cons e rest ih =>
    obtain ⟨mem, sub⟩ := List.cons_subset.mp sub
    have shared := ih sub
    have last := k.share shared.fits (List.mem_append_right _ mem)
    exact ⟨last.fits, fun a ha =>
      (last.same a (List.mem_append_right _ ha)).trans (shared.same a ha)⟩

theorem drop_entries {entries : List (Nat × α)} (fits : k.Fits l (entries.map Prod.snd ++ held)) :
    y.Step k.Fits held l [] (y.keyed.drop entries l) := by
  induction entries generalizing held with
  | nil => exact ⟨fits, fun _ _ => rfl⟩
  | cons e rest ih =>
    have dropped := ih (k.perm List.perm_middle.symm fits)
    have last := k.drop dropped.fits
    exact ⟨last.fits, fun a ha =>
      (last.same a ha).trans (dropped.same a (List.mem_cons_of_mem _ ha))⟩

theorem entry_updates {f : α → L → α × L} {g : R → R} (u : Updates k f g) (key : Nat)
    {entries : List (Nat × α)} (fits : k.Fits l (entries.map Prod.snd ++ held)) :
    y.Step k.Fits held l ((y.entry f key entries l).1.map Prod.snd) (y.entry f key entries l).2 ∧
      y.keyed.view (y.entry f key entries l).2 (y.entry f key entries l).1 =
        Function.update (y.keyed.view l entries) key (g (y.keyed.view l entries key)) := by
  induction entries generalizing held with
  | nil =>
    have made := k.fresh fits
    have updated := u.step made.fits
    refine ⟨⟨updated.fits, fun a ha => (updated.same a ha).trans (made.same a ha)⟩, ?_⟩
    have read := u.view made.fits
    rw [k.blank fits] at read
    funext j
    rw [Layer.entry, view_keyed_cons, read, Function.update_apply]
    rfl
  | cons e rest ih =>
    obtain ⟨other, a⟩ := e
    rw [Layer.entry]
    by_cases here : key = other
    · rw [if_pos here]
      have updated := u.step fits
      refine ⟨⟨updated.fits, fun b hb => updated.same b (List.mem_append_right _ hb)⟩, ?_⟩
      have unchanged : y.keyed.view (f a l).2 rest = y.keyed.view l rest :=
        view_keyed_congr fun b hb => updated.same b (List.mem_append_left _ hb)
      funext j
      rw [view_keyed_cons, view_keyed_cons, if_pos here, u.view fits, unchanged,
        Function.update_apply, view_keyed_cons, here]
      split <;> rfl
    · rw [if_neg here]
      obtain ⟨step, read⟩ := ih (k.perm List.perm_middle.symm fits)
      refine ⟨⟨k.perm List.perm_middle step.fits,
        fun b hb => step.same b (List.mem_cons_of_mem a hb)⟩, ?_⟩
      funext j
      rw [view_keyed_cons, view_keyed_cons, if_neg here, step.same a List.mem_cons_self, read,
        Function.update_apply, Function.update_apply, view_keyed_cons]
      by_cases found : j = other
      · rw [if_pos found, if_neg (fun e => here (e.symm.trans found)), if_pos found]
      · rw [if_neg found, if_neg found]

/-- What several maps hold under their keys. -/
def contents (maps : List (List (Nat × α))) : List α :=
  maps.flatMap fun entries => entries.map Prod.snd

theorem mem_contents {maps : List (List (Nat × α))} {entries : List (Nat × α)} {a : α}
    (mem : entries ∈ maps) (ha : a ∈ entries.map Prod.snd) : a ∈ contents maps :=
  List.mem_flatMap.mpr ⟨entries, mem, ha⟩

def Counting.keyed (k : y.Counting) : y.keyed.Counting where
  Fits l maps := k.Fits l (contents maps)
  bare := k.bare
  perm p fits := k.perm (p.flatMap_right _) fits
  fresh fits := ⟨fits, fun _ _ => rfl⟩
  blank _ := rfl
  share {l ms entries} fits mem := by
    have shared := share_entries fits fun a ha => mem_contents mem ha
    exact ⟨shared.fits, fun _ held => view_keyed_congr fun a ha =>
      shared.same a (mem_contents held ha)⟩
  drop {l ms entries} fits := by
    have dropped := drop_entries fits
    exact ⟨dropped.fits, fun _ held => view_keyed_congr fun a ha =>
      dropped.same a (mem_contents held ha)⟩

theorem Updates.entry {f : α → L → α × L} {g : R → R} (u : Updates k f g) (key : Nat) :
    Updates k.keyed (y.entry f key) (fun r => Function.update r key (g (r key))) where
  step fits :=
    have updated := (entry_updates u key fits).1
    ⟨updated.fits, fun _ held => view_keyed_congr fun a ha =>
      updated.same a (mem_contents held ha)⟩
  view fits := (entry_updates u key fits).2

end Keyed

/-! ### Values side by side -/

section Pair

variable {y : Layer α L R} {z : Layer β M S} {j : y.Counting} {k : z.Counting}

def Counting.pair (j : y.Counting) (k : z.Counting) : (y.pair z).Counting where
  Fits m ps := j.Fits m.1 (ps.map Prod.fst) ∧ k.Fits m.2 (ps.map Prod.snd)
  bare := ⟨j.bare, k.bare⟩
  perm p fits := ⟨j.perm (p.map _) fits.1, k.perm (p.map _) fits.2⟩
  fresh fits :=
    have first := j.fresh fits.1
    have second := k.fresh fits.2
    ⟨⟨first.fits, second.fits⟩, fun p hp => Prod.ext
      (first.same p.1 (List.mem_map_of_mem hp)) (second.same p.2 (List.mem_map_of_mem hp))⟩
  blank fits := Prod.ext (j.blank fits.1) (k.blank fits.2)
  share fits mem :=
    have first := j.share fits.1 (List.mem_map_of_mem mem)
    have second := k.share fits.2 (List.mem_map_of_mem mem)
    ⟨⟨first.fits, second.fits⟩, fun p hp => Prod.ext
      (first.same p.1 (List.mem_map_of_mem hp)) (second.same p.2 (List.mem_map_of_mem hp))⟩
  drop fits :=
    have first := j.drop fits.1
    have second := k.drop fits.2
    ⟨⟨first.fits, second.fits⟩, fun p hp => Prod.ext
      (first.same p.1 (List.mem_map_of_mem hp)) (second.same p.2 (List.mem_map_of_mem hp))⟩

theorem Updates.onFirst {f : α → L → α × L} {g : R → R} (u : Updates j f g) :
    Updates (j.pair k) (Layer.onFirst f) (fun r => (g r.1, r.2)) where
  step fits :=
    have updated := u.step fits.1
    ⟨⟨updated.fits, fits.2⟩, fun p hp =>
      Prod.ext (updated.same p.1 (List.mem_map_of_mem hp)) rfl⟩
  view fits := Prod.ext (u.view fits.1) rfl

theorem Updates.onSecond {f : β → M → β × M} {g : S → S} (u : Updates k f g) :
    Updates (j.pair k) (Layer.onSecond f) (fun r => (r.1, g r.2)) where
  step fits :=
    have updated := u.step fits.2
    ⟨⟨fits.1, updated.fits⟩, fun p hp =>
      Prod.ext rfl (updated.same p.2 (List.mem_map_of_mem hp))⟩
  view fits := Prod.ext rfl (u.view fits.2)

end Pair

end Layer

end ChoiceGraph
