/-! # Ordered association lists

Pairs of keys and values in the order in which the keys came up. Putting a key again keeps its
place and replaces its value.
-/

namespace StoryFlow.Assoc

variable {κ α : Type} [DecidableEq κ]

def put (key : κ) (value : α) : List (κ × α) → List (κ × α)
  | [] => [(key, value)]
  | p :: ps => if p.1 = key then (key, value) :: ps else p :: put key value ps

/-- Puts the pairs of a list in turn. -/
def ofPairs (pairs : List (κ × α)) : List (κ × α) :=
  pairs.foldl (fun m p => put p.1 p.2 m) []

/-- Adds a value at the end of the group of a key. -/
def push (key : κ) (value : α) : List (κ × List α) → List (κ × List α)
  | [] => [(key, [value])]
  | p :: ps => if p.1 = key then (key, p.2 ++ [value]) :: ps else p :: push key value ps

/-- The values grouped by their keys. -/
def group (key : α → κ) (values : List α) : List (κ × List α) :=
  values.foldl (fun m a => push (key a) a m) []

/-- The position of the last item with an id, counted from one. -/
def lastPosition? (id : α → κ) (items : List α) (key : κ) : Option Nat :=
  (items.zipIdx 1).foldl (fun found p => if id p.1 = key then some p.2 else found) none

end StoryFlow.Assoc
