import ChoiceGraph.Constraint.Store
import ChoiceGraph.Sharing.Layer

/-! # Stores in shared cells

A store is two shared directories, one from variables to bindings and one from choices to
partners. What a directory has under a key is a shared bucket of its own, so that writing one
bucket copies the directory at most, never another bucket. -/
namespace ChoiceGraph

/-- What can be read in a store: the bindings of each variable, the partners of each choice. -/
abbrev Entries := (VarId → List Binding) × (ChoiceId → List ChoiceId)

def ConstraintStore.entries (s : ConstraintStore) : Entries := (s.bindingsOf, s.partnersOf)

/-- How stores are kept in memory, and how one that nobody else holds is written. -/
structure StoreLayout (γ M : Type) where
  layer : Layer γ M Entries
  bind : BoundVar → BoundVar → Bool → γ → M → γ × M
  tie : ChoiceId → ChoiceId → γ → M → γ × M

/-- A store as one value. -/
def StoreLayout.flat : StoreLayout ConstraintStore Unit where
  layer := .plain .empty ConstraintStore.entries
  bind x y isLazy s m := (s.bind x y isLazy, m)
  tie a b s m := (s.tie a b, m)

namespace Buckets

variable {β : Type}

/-- The cells of the buckets. -/
abbrev Memory (β : Type) := Cells (List β) × Unit

def bucket : Layer Handle (Memory β) (List β) := .shared (.plain [] fun items => items)

/-- The cells of the directories and of their buckets. -/
abbrev Directories (β : Type) := Cells (List (Nat × Handle)) × Memory β

def directory : Layer Handle (Directories β) (Nat → List β) := .shared bucket.keyed

/-- Adds an item at the end of a bucket. -/
def push (item : β) : Handle → Memory β → Handle × Memory β :=
  Layer.write (.plain [] fun items => items) fun items l => (items ++ [item], l)

/-- Adds an item to the bucket under a key. -/
def add (key : Nat) (item : β) : Handle → Directories β → Handle × Directories β :=
  bucket.keyed.write (bucket.entry (push item) key)

/-- The handles of the two directories. -/
abbrev Store := Handle × Handle

abbrev Stores := Directories Binding × Directories ChoiceId

def layer : Layer Store Stores Entries := .pair directory directory

def addBinding (x : BoundVar) (partner : NodeId) (isLazy : Bool) : Store → Stores → Store × Stores :=
  Layer.onFirst (add x.id { bound := x.node, partner := partner, isLazy := isLazy })

/-- Binds two variables; a lazy binding is recorded under the first one only. -/
def bind (x y : BoundVar) (isLazy : Bool) (s : Store) (m : Stores) : Store × Stores :=
  let (s, m) := addBinding x y.node isLazy s m
  if isLazy then (s, m) else addBinding y x.node false s m

/-- A tie that is there already is not written again, so that the directory stays shared. -/
def addTie (a b : ChoiceId) (s : Store) (m : Stores) : Store × Stores :=
  if b ∈ (layer.view m s).2 a then (s, m) else Layer.onSecond (add a b) s m

def tie (a b : ChoiceId) (s : Store) (m : Stores) : Store × Stores :=
  let (s, m) := addTie a b s m
  addTie b a s m

end Buckets

/-- A store as two directories of buckets. -/
def StoreLayout.nested : StoreLayout Buckets.Store Buckets.Stores where
  layer := Buckets.layer
  bind := Buckets.bind
  tie := Buckets.tie

end ChoiceGraph
