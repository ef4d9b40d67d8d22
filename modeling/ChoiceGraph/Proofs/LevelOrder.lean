import Mathlib.Tactic.Common

/-! # Trees of alternatives in level order

A tree of alternatives is read by depth, and from left to right within a depth. A queue reads it in the
same order: it takes the tree in front, and sends the two subtrees of an inner node to the back. -/
namespace ChoiceGraph

/-- A finite binary tree. Its leaves are literals and failures. -/
inductive Alternatives
  | int (value : Int64)
  | failed
  | either (left right : Alternatives)

namespace Alternatives

/-- The literals at a depth, from left to right. -/
def intsAt : Nat → Alternatives → List Int64
  | 0, int v => [v]
  | depth + 1, either l r => intsAt depth l ++ intsAt depth r
  | _, _ => []

def height : Alternatives → Nat
  | either l r => max l.height r.height + 1
  | _ => 0

/-- The literals by depth, and from left to right within a depth. -/
def levelOrder (t : Alternatives) : List Int64 := (List.range (t.height + 1)).flatMap fun d => t.intsAt d

def ints : Alternatives → Nat
  | int _ => 1
  | failed => 0
  | either l r => l.ints + r.ints

def failures : Alternatives → Nat
  | int _ => 0
  | failed => 1
  | either l r => l.failures + r.failures

/-- The inner nodes. -/
def forks : Alternatives → Nat
  | either l r => l.forks + r.forks + 1
  | _ => 0

def nodes : Alternatives → Nat
  | either l r => l.nodes + r.nodes + 1
  | _ => 1

theorem nodes_eq (t : Alternatives) : t.nodes = t.ints + t.failures + t.forks := by
  induction t with
  | int | failed => rfl
  | either l r ihl ihr =>
    simp only [nodes, ints, failures, forks]
    omega

theorem intsAt_of_height_lt {t : Alternatives} : ∀ {d : Nat}, t.height < d → t.intsAt d = [] := by
  induction t with
  | int v =>
    rintro (_ | d) lt
    · cases lt
    · rfl
  | failed =>
    rintro (_ | d) -
    · rfl
    · rfl
  | either l r ihl ihr =>
    rintro (_ | d) lt
    · cases lt
    · simp only [height, Nat.add_lt_add_iff_right, Nat.max_lt] at lt
      rw [intsAt, ihl lt.1, ihr lt.2, List.append_nil]

/-- All nodes of the trees in a queue. -/
def allNodes : List Alternatives → Nat
  | [] => 0
  | t :: ts => t.nodes + allNodes ts

theorem allNodes_append (ts us : List Alternatives) : allNodes (ts ++ us) = allNodes ts + allNodes us := by
  induction ts with
  | nil => simp [allNodes]
  | cons t ts ih => rw [List.cons_append, allNodes, allNodes, ih, Nat.add_assoc]

theorem nodes_pos (t : Alternatives) : 0 < t.nodes := by
  cases t <;> simp [nodes]

theorem allNodes_rest (t : Alternatives) (ts : List Alternatives) : allNodes ts < allNodes (t :: ts) := by
  rw [allNodes]
  exact Nat.lt_add_of_pos_left t.nodes_pos

/-- An inner node is replaced by its two subtrees. -/
theorem allNodes_parts (l r : Alternatives) (ts : List Alternatives) :
    allNodes (ts ++ [l, r]) < allNodes (either l r :: ts) := by
  simp only [allNodes_append, allNodes, nodes]
  omega

/-- The literals in the order in which a queue comes to them. -/
def inTurn : List Alternatives → List Int64
  | [] => []
  | int v :: rest => v :: inTurn rest
  | failed :: rest => inTurn rest
  | either l r :: rest => inTurn (rest ++ [l, r])
termination_by ts => allNodes ts
decreasing_by
  · exact allNodes_rest _ _
  · exact allNodes_rest _ _
  · exact allNodes_parts l r rest

/-- The literals of a queue with trees of one depth in front of trees of the next. The trees behind have
come out of what stood left of the trees in front, so that theirs come first at every further depth. -/
def ahead (n : Nat) (front behind : List Alternatives) : List Int64 :=
  front.flatMap (intsAt 0) ++
    (List.range n).flatMap fun d => behind.flatMap (intsAt d) ++ front.flatMap (intsAt (d + 1))

/-- When the trees of a depth are all done, those of the next are in front. -/
theorem ahead_next {n : Nat} {behind : List Alternatives} (low : ∀ t ∈ behind, t.height < n) :
    ahead n [] behind = ahead n behind [] := by
  have last : behind.flatMap (intsAt n) = [] :=
    List.flatMap_eq_nil_iff.mpr fun t ht => intsAt_of_height_lt (low t ht)
  have levels : (List.range (n + 1)).flatMap (fun d => behind.flatMap (intsAt d)) =
      (List.range n).flatMap fun d => behind.flatMap (intsAt d) := by
    rw [List.range_succ, List.flatMap_append, List.flatMap_singleton, last, List.append_nil]
  simp only [ahead, List.flatMap_nil, List.nil_append, List.append_nil]
  rw [← levels, List.range_succ_eq_map, List.flatMap_cons, List.flatMap_map]

/-- A queue comes to the literals depth by depth. -/
theorem inTurn_append {n : Nat} : ∀ front behind : List Alternatives,
    (∀ t ∈ front ++ behind, t.height < n) → inTurn (front ++ behind) = ahead n front behind
  | [], [], _ => by simp [inTurn, ahead]
  | [], t :: behind, low => by
    have next := inTurn_append (t :: behind) [] (by rwa [List.append_nil])
    rw [List.append_nil] at next
    exact next.trans (ahead_next low).symm
  | int v :: front, behind, low => by
    have rest := inTurn_append front behind fun t ht => low t (List.mem_cons_of_mem _ ht)
    rw [List.cons_append, inTurn, rest]
    simp [ahead, intsAt]
  | failed :: front, behind, low => by
    have rest := inTurn_append front behind fun t ht => low t (List.mem_cons_of_mem _ ht)
    rw [List.cons_append, inTurn, rest]
    simp [ahead, intsAt]
  | either l r :: front, behind, low => by
    have here : (either l r).height < n := low _ List.mem_cons_self
    simp only [height] at here
    have rest := inTurn_append front (behind ++ [l, r]) fun t ht => by
      simp only [List.mem_append, List.mem_cons, List.not_mem_nil, or_false] at ht
      rcases ht with ht | ht | rfl | rfl
      · exact low t (List.mem_cons_of_mem _ (List.mem_append_left _ ht))
      · exact low t (List.mem_cons_of_mem _ (List.mem_append_right _ ht))
      · omega
      · omega
    rw [List.cons_append, inTurn, List.append_assoc, rest]
    simp [ahead, intsAt]
termination_by front behind => (allNodes (front ++ behind), behind.length)
decreasing_by
  · exact Prod.Lex.right' _ (by simp) (by simp)
  · exact Prod.Lex.left _ _ (allNodes_rest _ _)
  · exact Prod.Lex.left _ _ (allNodes_rest _ _)
  · rw [← List.append_assoc]
    exact Prod.Lex.left _ _ (allNodes_parts l r (front ++ behind))

/-- A queue reads a tree in level order. -/
theorem inTurn_eq_levelOrder (t : Alternatives) : inTurn [t] = t.levelOrder := by
  have whole := inTurn_append (n := t.height + 1) [t] [] (by simp)
  have last : t.intsAt (t.height + 1) = [] := intsAt_of_height_lt (Nat.lt_succ_self _)
  have levels : (List.range (t.height + 1 + 1)).flatMap (fun d => t.intsAt d) = t.levelOrder := by
    rw [List.range_succ, List.flatMap_append, List.flatMap_singleton, last, List.append_nil]
    rfl
  rw [List.append_nil] at whole
  simp only [ahead, List.flatMap_singleton, List.flatMap_nil, List.nil_append] at whole
  rw [whole, ← levels, List.range_succ_eq_map (n := t.height + 1), List.flatMap_cons, List.flatMap_map]

end Alternatives

end ChoiceGraph
