import StoryFlow.Assoc
import StoryFlow.FreshName

/-! # Unique keys

Gives every item of a list a key of its own. An item asks for a key; if that is taken its id is
appended, and if that is taken as well a number from two on.
-/

namespace StoryFlow

/-- The keys given so far: item ids with their keys, in the order of the first mention of each id,
and every key that was ever handed out. -/
structure UniqueKeys where
  pairs : List (String × String)
  taken : List String
deriving DecidableEq

namespace UniqueKeys

def empty : UniqueKeys := ⟨[], []⟩

/-- The key of an item. -/
def get? (u : UniqueKeys) (id : String) : Option String :=
  u.pairs.lookup id

/-- The key that an item gets when it asks for `wanted`. -/
def choose (taken : List String) (id wanted : String) : String :=
  if wanted ∈ taken then freshName taken (wanted ++ "_" ++ id) else wanted

/-- Gives one more item its key. -/
def add (u : UniqueKeys) (id wanted : String) : UniqueKeys :=
  let key := choose u.taken id wanted
  ⟨Assoc.put id key u.pairs, u.taken ++ [key]⟩

/-- The keys of a list of items. -/
def ofList {α : Type} (items : List α) (id wanted : α → String) : UniqueKeys :=
  items.foldl (fun u item => u.add (id item) (wanted item)) empty

end UniqueKeys

end StoryFlow
