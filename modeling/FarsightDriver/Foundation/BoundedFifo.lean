import FarsightDriver.Foundation.System
import Mathlib.Data.List.Basic

/-!
# Bounded first-in first-out lists

The abstract queue: a list no longer than its capacity.  An offer is accepted
up to the free space and a request is served up to the contents.
-/

namespace FarsightDriver.Foundation

structure BoundedFifo (α : Type*) (cap : Nat) where
  items : List α
  bounded : items.length ≤ cap

namespace BoundedFifo

variable {α : Type*} {cap : Nat}

@[ext] theorem ext {q r : BoundedFifo α cap} (h : q.items = r.items) : q = r := by
  cases q
  cases r
  simpa using h

def empty : BoundedFifo α cap := ⟨[], Nat.zero_le _⟩

/-- How many of `size` offered items fit. -/
def room (q : BoundedFifo α cap) (size : Nat) : Nat :=
  min size (cap - q.items.length)

def offer (q : BoundedFifo α cap) (source : List α) (size : Nat) :
    BoundedFifo α cap where
  items := q.items ++ source.take (q.room size)
  bounded := by
    have hq := q.bounded
    simp only [List.length_append, List.length_take, room]
    omega

def stock (q : BoundedFifo α cap) (size : Nat) : Nat := min size q.items.length

def serve (q : BoundedFifo α cap) (size : Nat) : BoundedFifo α cap where
  items := q.items.drop (q.stock size)
  bounded := by
    have hq := q.bounded
    simp only [List.length_drop]
    omega

inductive Op (α : Type*) where
  | reset
  | offer (source : List α) (size : Nat)
  | serve (size : Nat)

def system (α : Type*) (cap : Nat) : System (BoundedFifo α cap) (Op α) where
  init q := q.items = []
  step q
    | .reset => some empty
    | .offer source size => some (q.offer source size)
    | .serve size => some (q.serve size)

end BoundedFifo

end FarsightDriver.Foundation
